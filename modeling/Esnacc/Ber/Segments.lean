import Esnacc.Ber.InOrder
import Esnacc.Ber.Strings

/-! References to segments of a buffer that can be followed refer to what is unread, in order. -/

namespace Esnacc

open Lib

/-! ## Collected pieces -/

/-- The octets that a collected piece refers to. -/
def StrStkElmt.octets (piece : StrStkElmt) : Option (List UInt8) :=
  match piece.str with
  | none => if piece.len == 0 then some [] else none
  | some p => memcpy p.mem p.addr piece.len

theorem copyPieces_cons (piece : StrStkElmt) (rest : List StrStkElmt) :
    copyPieces (piece :: rest) =
      piece.octets.bind fun octets => (copyPieces rest).map (octets ++ ·) := by
  obtain ⟨str, len⟩ := piece
  cases str with
  | none =>
    rw [copyPieces, StrStkElmt.octets]
    dsimp only
    by_cases empty : (len == 0) = true
    · rw [if_pos empty, if_pos empty]
      cases copyPieces rest <;> rfl
    · rw [if_neg empty, if_neg empty]
      rfl
  | some p =>
    rw [copyPieces, StrStkElmt.octets]
    cases copyPieces rest <;> rfl

/-- A piece that can be followed refers to as many octets as it says. -/
theorem StrStkElmt.length_octets {piece : StrStkElmt} {octets : List UInt8}
    (followed : piece.octets = some octets) : octets.length = piece.len.toNat := by
  obtain ⟨str, len⟩ := piece
  cases str with
  | none =>
    simp only [StrStkElmt.octets, Option.ite_none_right_eq_some, beq_iff_eq, Option.some.injEq]
      at followed
    obtain ⟨rfl, rfl⟩ := followed
    rfl
  | some p =>
    simp only [StrStkElmt.octets, memcpy, Option.ite_none_right_eq_some, Option.some.injEq]
      at followed
    rw [← followed.2, length_slice]

/-- The octets that pieces refer to, one piece after another. -/
theorem copyPieces_append {pieces more : List StrStkElmt} {octets : List UInt8} :
    copyPieces (pieces ++ more) = some octets ↔
      ∃ first second, copyPieces pieces = some first ∧ copyPieces more = some second ∧
        octets = first ++ second := by
  induction pieces generalizing octets with
  | nil =>
    constructor
    · intro copied
      exact ⟨[], octets, rfl, copied, rfl⟩
    · rintro ⟨first, second, empty, copied, rfl⟩
      cases empty
      exact copied
  | cons piece pieces ih =>
    rw [List.cons_append, copyPieces_cons, copyPieces_cons]
    constructor
    · intro copied
      obtain ⟨here, followed, mapped⟩ := Option.bind_eq_some_iff.mp copied
      obtain ⟨later, after, rfl⟩ := Option.map_eq_some_iff.mp mapped
      obtain ⟨first, second, whole, behind, rfl⟩ := ih.mp after
      exact ⟨here ++ first, second, by rw [followed, whole]; rfl, behind, by rw [List.append_assoc]⟩
    · rintro ⟨first, second, copied, behind, rfl⟩
      obtain ⟨here, followed, copied⟩ := Option.bind_eq_some_iff.mp copied
      obtain ⟨later, whole, rfl⟩ := Option.map_eq_some_iff.mp copied
      rw [followed, Option.bind_some, ih.mpr ⟨later, second, whole, behind, rfl⟩, Option.map_some,
        List.append_assoc]

/-! ## Segments in order -/

/-- A segment of a length that the buffer can handle, if it can be followed, is what is unread next. -/
structure Segments {β : Type} [GenBuf β] (inv : β → Prop) (handles : UInt64 → Prop)
    (unread : β → List UInt8) : Prop extends InOrder inv handles unread where
  getSeg_followed : ∀ {b b' len str k octets}, inv b → handles len →
    GenBuf.getSeg b len = (str, k, b') → StrStkElmt.octets ⟨str, k⟩ = some octets →
      inv b' ∧ unread b = octets ++ unread b' ∧ GenBuf.readError b' = GenBuf.readError b

/-- A segment of the simple buffer lies inside its data, or is cut off at their end. -/
theorem SBuf.getSeg_followed {b b' : SBuf} {len k : UInt64} {str : Option Ptr} {octets : List UInt8}
    (delivered : GenBuf.getSeg b len = (str, k, b'))
    (followed : StrStkElmt.octets ⟨str, k⟩ = some octets) :
    b.unread = octets ++ b'.unread ∧ b'.readError = b.readError := by
  simp only [GenBuf.getSeg, sBufGetSeg, UInt64.toUInt64_toInt64] at delivered
  split at delivered
  · -- The segment is cut off at the end of the data.
    simp only [Prod.mk.injEq, UInt64.toUInt64_toInt64] at delivered
    obtain ⟨rfl, rfl, rfl⟩ := delivered
    simp only [StrStkElmt.octets, memcpy, Option.ite_none_right_eq_some, Option.some.injEq]
      at followed
    obtain ⟨noWrap, rfl⟩ := followed
    have bound := UInt64.toNat_lt b.dataEnd
    have size : (b.dataEnd - b.readLoc).toNat = b.dataEnd.toNat - b.readLoc.toNat := by
      rw [UInt64.toNat_sub] at noWrap ⊢
      omega
    have none : SBuf.unread { b with readLoc := b.dataEnd } = [] := by
      rw [← List.length_eq_zero_iff, SBuf.length_unread]
      exact Nat.sub_self _
    rw [none, List.append_nil, size]
    exact ⟨rfl, rfl⟩
  · rename_i within
    simp only [Prod.mk.injEq, UInt64.toUInt64_toInt64] at delivered
    obtain ⟨rfl, rfl, rfl⟩ := delivered
    -- The segment stays inside the address space, so moving over it does not wrap.
    simp only [StrStkElmt.octets, memcpy, Option.ite_none_right_eq_some, Option.some.injEq]
      at followed
    obtain ⟨noWrap, rfl⟩ := followed
    rw [gt_iff_lt, UInt64.lt_iff_toNat_lt, UInt64.toNat_add, Nat.mod_eq_of_lt noWrap] at within
    have room : len.toNat ≤ b.dataEnd.toNat - b.readLoc.toNat := by omega
    have after := unread_advance (b := b) (n := len.toNat) (by rwa [length_unread])
    rw [SBuf.advance, UInt64.ofNat_toNat] at after
    refine ⟨?_, rfl⟩
    rw [after, ← take_slice b.mem b.readLoc room]
    exact (List.take_append_drop _ _).symm

theorem sBuf_segments : Segments (fun _ : SBuf => True) (fun _ => True) SBuf.unread where
  toInOrder := sBuf_inOrder
  getSeg_followed _ _ delivered followed := ⟨trivial, SBuf.getSeg_followed delivered followed⟩

namespace ExpBufRef.Steady

variable {b : ExpBufRef}

/-- Moving inside the data of a block keeps a chain in order. -/
theorem advance (steady : b.Steady) {n : UInt64} (within : n.toNat ≤ b.buf.left) :
    (b.advance n).Steady := by
  obtain ⟨readable, rest, left, -⟩ := advance_spec steady.readable within
  refine ⟨readable, ?_, steady.filled, ?_⟩
  · intro failed
    have gone := steady.drained failed
    rw [ExpBufRef.unread, List.append_eq_nil_iff] at gone ⊢
    exact ⟨by rw [rest, gone.1, List.drop_nil], gone.2⟩
  · intro block member
    rcases List.mem_cons.mp member with rfl | later
    · have bound := steady.small _ List.mem_cons_self
      omega
    · exact steady.small block (List.mem_cons_of_mem _ later)

/-- So does moving on from a block whose data are used up. -/
theorem afterSeg (steady : b.Steady) : b.afterSeg.Steady := by
  have size := steady.readable.inside.toNat_sub
  cases linked : b.next with
  | nil =>
    have stays : b.afterSeg = b.advance (b.buf.dataEnd - b.buf.curr) := by
      rw [ExpBufRef.afterSeg, linked]
    rw [stays]
    exact steady.advance (by omega)
  | cons m rest =>
    have ready : ∀ n ∈ m :: rest, n.Ready := fun n on => steady.readable.later n (linked ▸ on)
    have data : ¬ expBufHasNoData m = true := by
      rw [(ready m List.mem_cons_self).noData_iff]
      have some := steady.filled m (linked ▸ List.mem_cons_self)
      omega
    -- The block behind holds data, so the move stops there.
    have stops : b.afterSeg = ⟨b.buf :: b.prev, m, rest⟩ := by
      have skipped : skipNoData (b.buf :: b.prev) m rest = ⟨b.buf :: b.prev, m, rest⟩ := by
        cases rest <;> simp [skipNoData, data]
      rw [ExpBufRef.afterSeg, linked]
      dsimp only
      rw [skipped, rewind_of_ready (ready m List.mem_cons_self)]
    rw [stops]
    refine ⟨⟨(ready m List.mem_cons_self).inside, fun n on => ready n (List.mem_cons_of_mem m on)⟩,
      ?_, ?_, ?_⟩
    · intro failed
      rw [(ready m List.mem_cons_self).noError] at failed
      cases failed
    · exact fun n on => steady.filled n (linked ▸ List.mem_cons_of_mem m on)
    · exact fun n on => steady.small n (List.mem_cons_of_mem _ (linked ▸ on))

end ExpBufRef.Steady

theorem expBuf_segments :
    Segments ExpBufRef.Steady (fun len => len.toNat < 2 ^ 31) ExpBufRef.unread where
  toInOrder := expBuf_inOrder
  getSeg_followed := by
    intro b b' len str k octets steady small delivered followed
    change expBufGetSeg b len = (str, k, b') at delivered
    have size := steady.readable.inside.toNat_sub
    have here := steady.small _ List.mem_cons_self
    by_cases none : b.buf.left = 0
    · -- At the end of the data of its block, a chain hands out nothing and stays there.
      have eod : expBufAtEod b.buf = true := steady.readable.inside.atEod_iff.mpr none
      simp only [expBufGetSeg, if_pos eod, Prod.mk.injEq] at delivered
      obtain ⟨rfl, rfl, rfl⟩ := delivered
      cases followed
      exact ⟨steady, rfl, rfl⟩
    by_cases part : len.toNat < b.buf.left
    · rw [expBufGetSeg_part steady.readable.inside small (.inl here) part] at delivered
      cases delivered
      have copied := copySeg_of_inside steady.readable.inside (Nat.le_of_lt part)
      obtain rfl := Option.some.inj (followed.symm.trans copied)
      obtain ⟨-, rest, -, -⟩ := advance_spec steady.readable (Nat.le_of_lt part)
      refine ⟨steady.advance (Nat.le_of_lt part), ?_, rfl⟩
      rw [ExpBufRef.unread, ExpBufRef.unread, rest, ← List.append_assoc, List.take_append_drop]
      rfl
    · have all : b.buf.left ≤ len.toNat := Nat.le_of_not_lt part
      rw [expBufGetSeg_rest steady.readable.inside small (Nat.pos_of_ne_zero none) all] at delivered
      cases delivered
      have copied := copySeg_of_inside steady.readable.inside (Nat.le_of_eq size)
      obtain rfl := Option.some.inj (followed.symm.trans copied)
      obtain ⟨-, -, rest, -, clear, -⟩ := afterSeg_spec steady.readable
      have whole : b.buf.unread.take (b.buf.dataEnd - b.buf.curr).toNat = b.buf.unread :=
        List.take_of_length_le (Nat.le_of_eq (by rw [size, ExpBuf.unread, length_slice]))
      -- No error is left behind while octets are unread.
      have noError : b.buf.readError = false := by
        by_contra failed
        have gone := steady.drained (by simpa using failed)
        rw [ExpBufRef.unread, List.append_eq_nil_iff, ExpBuf.unread, slice_eq_nil_iff] at gone
        exact none gone.1
      exact ⟨steady.afterSeg, by rw [whole, rest]; rfl, (clear noError).trans noError.symm⟩

end Esnacc
