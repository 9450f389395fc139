import Esnacc.Ber.Decoding
import Esnacc.Buf.ExpBufReads

/-! What a decoder may rely on: reads that succeed deliver the unread octets in order. -/

namespace Esnacc

open Lib

/--
Reads of single octets and copies deliver what is unread in order, while an invariant holds.

A copy is only spoken of where its length is one the buffer can handle and no error is left behind.
-/
structure InOrder {β : Type} [GenBuf β] (inv : β → Prop) (handles : UInt64 → Prop)
    (unread : β → List UInt8) : Prop where
  getByte_cons : ∀ {b x rest}, inv b → unread b = x :: rest →
    ∃ b', GenBuf.getByte b = (x, b') ∧ inv b' ∧ unread b' = rest ∧
      GenBuf.readError b' = GenBuf.readError b
  getByte_nil : ∀ {b}, inv b → unread b = [] →
    ∃ b', GenBuf.getByte b = (0, b') ∧ inv b' ∧ unread b' = [] ∧ GenBuf.readError b' = true
  copy_clear : ∀ {b len octets b'}, inv b → handles len → GenBuf.copy b len = some (octets, b') →
    GenBuf.readError b' = false →
      GenBuf.readError b = false ∧ unread b = octets ++ unread b' ∧ octets.length = len.toNat

section

variable {β : Type} [GenBuf β]

/-- The buffer after reading a number of octets one by one. -/
def afterOctets : Nat → β → β
  | 0, b => b
  | n + 1, b => afterOctets n (GenBuf.getByte b).2

theorem run_shiftOctetsIn (n : Nat) (val : UInt64) (s : DecState β) :
    ∃ val', (shiftOctetsIn n val).run s = .ok val' { s with buf := afterOctets n s.buf } := by
  -- Each turn reads one octet and leaves the rest of the count to the later ones.
  induction n generalizing val s with
  | zero => exact ⟨val, rfl⟩
  | succ n ih =>
    obtain ⟨val', completed⟩ := ih (val <<< 8 ||| (GenBuf.getByte s.buf).1.toUInt64)
      { s with buf := (GenBuf.getByte s.buf).2 }
    refine ⟨val', ?_⟩
    simp only [shiftOctetsIn, EStateM.run_bind, run_bufGetByte]
    exact completed

variable {inv : β → Prop} {handles : UInt64 → Prop} {unread : β → List UInt8}

theorem InOrder.getByte_fst (inOrder : InOrder inv handles unread) {b : β} (holds : inv b) :
    (GenBuf.getByte b).1 = (unread b).headD 0 := by
  cases held : unread b with
  | nil =>
    obtain ⟨b', read, -⟩ := inOrder.getByte_nil holds held
    rw [read]
    rfl
  | cons x rest =>
    obtain ⟨b', read, -⟩ := inOrder.getByte_cons holds held
    rw [read]
    rfl

/-- Reading octets one by one passes over that many, and fails where there are too few. -/
theorem InOrder.afterOctets (inOrder : InOrder inv handles unread) (n : Nat) {b : β}
    (holds : inv b) :
    inv (afterOctets n b) ∧ unread (afterOctets n b) = (unread b).drop n ∧
      GenBuf.readError (Esnacc.afterOctets n b) =
        (GenBuf.readError b || decide ((unread b).length < n)) := by
  induction n generalizing b with
  | zero => exact ⟨holds, rfl, by simp [Esnacc.afterOctets]⟩
  | succ n ih =>
    cases held : unread b with
    | nil =>
      -- The first read already fails, and the later ones keep the error.
      obtain ⟨b', read, holds', empty, failed⟩ := inOrder.getByte_nil holds held
      obtain ⟨holdsLast, rest, error⟩ := ih holds'
      simp only [Esnacc.afterOctets, read]
      refine ⟨holdsLast, by simp [rest, empty], ?_⟩
      simp [error, failed]
    | cons x tail =>
      obtain ⟨b', read, holds', same, kept⟩ := inOrder.getByte_cons holds held
      obtain ⟨holdsLast, rest, error⟩ := ih holds'
      simp only [Esnacc.afterOctets, read]
      exact ⟨holdsLast, by simp [rest, same], by simp [error, kept, same]⟩

end

/-- A copy from the simple buffer that leaves no error has delivered what was asked for. -/
theorem SBuf.copy_clear {b b' : SBuf} {len : UInt64} {octets : List UInt8}
    (copied : GenBuf.copy b len = some (octets, b')) (clear : b'.readError = false) :
    b.readError = false ∧ b.unread = octets ++ b'.unread ∧ octets.length = len.toNat := by
  change sBufCopy b len.toInt64 = some (octets, b') at copied
  rw [sBufCopy, UInt64.toUInt64_toInt64] at copied
  split at copied
  · -- A copy cut short leaves the error set.
    obtain ⟨cut, -, rest⟩ := Option.bind_eq_some_iff.mp copied
    simp only [Option.pure_def, Option.some.injEq, Prod.mk.injEq] at rest
    rw [← rest.2] at clear
    simp at clear
  · rename_i within
    obtain ⟨all, taken, rest⟩ := Option.bind_eq_some_iff.mp copied
    simp only [Option.pure_def, Option.some.injEq, Prod.mk.injEq] at rest
    obtain ⟨rfl, rfl⟩ := rest
    -- The copy stays inside the address space, so moving over it does not wrap.
    simp only [memcpy, Option.ite_none_right_eq_some, Option.some.injEq] at taken
    obtain ⟨noWrap, rfl⟩ := taken
    rw [gt_iff_lt, UInt64.lt_iff_toNat_lt, UInt64.toNat_add, Nat.mod_eq_of_lt noWrap] at within
    have room : len.toNat ≤ b.dataEnd.toNat - b.readLoc.toNat := by omega
    have after := unread_advance (b := b) (n := len.toNat) (by rwa [length_unread])
    rw [advance, UInt64.ofNat_toNat] at after
    refine ⟨clear, ?_, by simp⟩
    rw [after, ← take_slice b.mem b.readLoc room]
    exact (List.take_append_drop _ _).symm

theorem sBuf_inOrder : InOrder (fun _ : SBuf => True) (fun _ => True) SBuf.unread where
  getByte_cons {b x rest} _ held := by
    refine ⟨b.advance 1, SBuf.getByte_cons held, trivial, ?_, rfl⟩
    rw [SBuf.unread_advance (by simp [held]), held]
    rfl
  getByte_nil {b} _ done := ⟨_, SBuf.getByte_nil done, trivial, done, rfl⟩
  copy_clear _ _ copied clear := SBuf.copy_clear copied clear

/-- A chain in read mode whose blocks hold data, each less than an `int` can count. -/
structure ExpBufRef.Steady (b : ExpBufRef) : Prop where
  readable : b.Readable
  drained : b.buf.readError = true → b.unread = []
  filled : ∀ n ∈ b.next, 0 < n.left
  small : ∀ n ∈ b.buf :: b.next, n.left < 2 ^ 31

namespace ExpBufRef.Steady

variable {b : ExpBufRef}

theorem nextHolds (steady : b.Steady) : b.NextHolds := by
  right; right
  intro n rest linked noData
  have ready := steady.readable.later n (by simp [linked])
  have none := ready.noData_iff.mp noData
  have some_left := steady.filled n (by simp [linked])
  omega

/-- A single-octet read keeps the shape of the chain. -/
theorem getByteBlock (steady : b.Steady) :
    (∀ n ∈ (Esnacc.getByteBlock b).next, n ∈ b.next) ∧
      (Esnacc.getByteBlock b).buf ∈ b.buf :: b.next := by
  obtain ⟨prev, buf, next⟩ := b
  cases next with
  | nil => simp [getByteBlock_last]
  | cons n rest =>
    have ready := steady.readable.later n (by simp)
    have data : ¬ expBufHasNoData n = true := by
      rw [ready.noData_iff]
      have some_left := steady.filled n (by simp)
      omega
    by_cases noData : expBufHasNoData buf = true
    · rw [getByteBlock_noData prev ready (fun m on => steady.readable.later m (by simp [on])) noData]
      -- The block behind holds data, so the move stops there.
      have stops : skipNoData (buf :: prev) n rest = ⟨buf :: prev, n, rest⟩ := by
        cases rest <;> simp [skipNoData, data]
      rw [stops]
      exact ⟨fun m on => List.mem_cons_of_mem n on, by simp⟩
    · by_cases eod : expBufAtEod buf = true
      · rw [getByteBlock_finished prev ready noData eod]
        exact ⟨fun m on => List.mem_cons_of_mem n on, by simp⟩
      · rw [getByteBlock_inData noData eod]
        simp

/-- A single-octet read leaves the sizes of the blocks within bounds. -/
theorem getByte_small (steady : b.Steady) :
    ∀ n ∈ (expBufGetByte b).2.buf :: (expBufGetByte b).2.next, n.left < 2 ^ 31 := by
  obtain ⟨linked, listed⟩ := steady.getByteBlock
  have bound := steady.small _ listed
  intro n member
  rw [expBufGetByte] at member
  split at member
  · -- Raising the error leaves the block as it was.
    rcases List.mem_cons.mp member with rfl | later
    · exact bound
    · exact steady.small n (List.mem_cons_of_mem _ (linked n later))
  · rename_i here
    rcases List.mem_cons.mp member with rfl | later
    · have readable := (getByteBlock_spec steady.readable steady.nextHolds steady.drained).1
      rw [readable.inside.atEod_iff] at here
      obtain ⟨-, -, less, -⟩ := advance_spec (n := 1) readable (by simp; omega)
      change ((Esnacc.getByteBlock b).advance 1).buf.left < 2 ^ 31
      omega
    · exact steady.small n (List.mem_cons_of_mem _ (linked n later))

theorem getByte_filled (steady : b.Steady) : ∀ n ∈ (expBufGetByte b).2.next, 0 < n.left := by
  intro n member
  rw [expBufGetByte] at member
  apply steady.filled n
  split at member <;> exact steady.getByteBlock.1 n member

theorem segsFit (lefts : List Nat) (small : ∀ left ∈ lefts, left < 2 ^ 31) (n : Nat) :
    SegsFit n lefts := by
  induction lefts generalizing n with
  | nil => trivial
  | cons left rest ih =>
    exact ⟨Or.inl (small left List.mem_cons_self),
      fun _ => ih (fun later on => small later (List.mem_cons_of_mem _ on)) _⟩

end ExpBufRef.Steady

theorem expBufCopy_of_eod {b : ExpBufRef} {len : UInt64} (small : len.toNat < 2 ^ 31)
    (some_wanted : 0 < len.toNat) (eod : expBufAtEod b.buf = true) :
    expBufCopy b len = some ([], 0, b.setReadError) := by
  have wanted : ¬ (0 : Int32) ≥ intOf len := by
    rw [ge_iff_le, Int32.le_iff_toInt_le, toInt_intOf_of_lt small, Int32.toInt_zero]
    omega
  rw [expBufCopy, expBufCopyLoop_succ]
  simp only [expBufGetSeg, if_pos eod, copySeg, Option.bind_some]
  rw [show intOf (ulongOf 0 + 0) = 0 by decide, if_neg wanted]
  rfl

/-- A chain in good order reads in order, in requests an `int` can count. -/
theorem expBuf_inOrder :
    InOrder ExpBufRef.Steady (fun len => len.toNat < 2 ^ 31) ExpBufRef.unread where
  getByte_cons {b x rest} steady held := by
    obtain ⟨b', read, readable, same, clear⟩ :=
      expBufGetByte_cons steady.readable steady.nextHolds steady.drained held
    have filled := steady.getByte_filled
    have small := steady.getByte_small
    rw [read] at filled small
    have clearBefore : b.buf.readError = false := by
      by_contra set
      have gone := steady.drained (by simpa using set)
      rw [gone] at held
      simp at held
    refine ⟨b', read, ⟨readable, ?_, filled, small⟩, same, clear.trans clearBefore.symm⟩
    simp [clear]
  getByte_nil {b} steady done := by
    obtain ⟨b', read, readable, same, failed⟩ :=
      expBufGetByte_nil steady.readable steady.nextHolds steady.drained done
    have filled := steady.getByte_filled
    have small := steady.getByte_small
    rw [read] at filled small
    exact ⟨b', read, ⟨readable, fun _ => same, filled, small⟩, same, failed⟩
  copy_clear {b len octets b'} steady small copied clear := by
    change (expBufCopy b len).map _ = some (octets, b') at copied
    by_cases stalled : 0 < len.toNat ∧ b.Stalled
    · -- The exhausted block is not left, which is an error.
      rw [expBufCopy_of_eod small stalled.1 stalled.2.1] at copied
      simp only [Option.map_some, Option.some.injEq, Prod.mk.injEq] at copied
      rw [← copied.2] at clear
      simp [GenBuf.readError, expBufReadError, ExpBufRef.setReadError] at clear
    · have going : 0 < len.toNat → ¬ b.Stalled := fun wanted stuck => stalled ⟨wanted, stuck⟩
      have sizes : ∀ left ∈ b.buf.left :: b.next.map ExpBuf.left, left < 2 ^ 31 := by
        have bounded := steady.small
        intro left member
        rw [← List.map_cons] at member
        obtain ⟨n, listed, rfl⟩ := List.mem_map.mp member
        exact bounded n listed
      obtain ⟨b'', total, done, passed⟩ := expBufCopy_spec small steady.readable going
        (ExpBufRef.Steady.segsFit _ sizes len.toNat) steady.drained
      rw [done] at copied
      simp only [Option.map_some, Option.some.injEq, Prod.mk.injEq] at copied
      obtain ⟨rfl, rfl⟩ := copied
      have error := passed.error
      change b''.buf.readError = false at clear
      rw [clear] at error
      simp only [Bool.false_eq, Bool.or_eq_false_iff, decide_eq_false_iff_not, Nat.not_lt] at error
      refine ⟨error.1, ?_, by rw [List.length_take]; omega⟩
      rw [passed.rest, List.take_append_drop]

end Esnacc
