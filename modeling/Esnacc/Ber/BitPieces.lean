import Esnacc.Ber.BitRoundTrips
import Esnacc.Ber.Collectors

/-! What BIT STRINGs are read from, and when the value that is returned is a bit string. -/

namespace Esnacc

open Lib

/-! ## Values that the operations can trust -/

/-- A bit string with as many octets as its bits need: every operation stays inside them, and they are
written again behind the count of the unused bits. -/
structure AsnBits.Usable (r : AsnBits) : Prop where
  nonneg : 0 ≤ r.bitLen.toInt
  exact : r.bits.length = (r.bitLen.toInt.toNat + 7) / 8
  inside : ∀ bit, (setAsnBit r bit).isSome ∧ (clrAsnBit r bit).isSome ∧ (getAsnBit r bit).isSome
  reencoded : r.Written (UInt8.ofNat (unusedIn r.bitLen.toInt.toNat) :: r.bits)

/-- A number of octets of which some bits are unused is that of a bit string whose bits an `int` can
count. -/
structure BitsFit (octets unused : Nat) : Prop where
  fewUnused : unused ≤ 7
  countable : octets < 2 ^ 28
  empty : octets = 0 → unused = 0

theorem AsnBits.Stored.inside {r : AsnBits} (stored : r.Stored) (bit : UInt64) :
    (setAsnBit r bit).isSome ∧ (clrAsnBit r bit).isSome ∧ (Esnacc.getAsnBit r bit).isSome := by
  obtain ⟨_, set, -⟩ := stored.set bit
  obtain ⟨_, cleared, -⟩ := stored.clear bit
  obtain ⟨_, read, -⟩ := stored.getAsnBit bit
  rw [set, cleared, read]
  exact ⟨rfl, rfl, rfl⟩

/-- The bit length that is computed for some octets, of which some bits are unused. -/
theorem toInt_bitLen {octets : Nat} {unused : UInt64} (few : octets < 2 ^ 31)
    (small : unused.toNat < 2 ^ 16) :
    (intOf (UInt64.ofNat octets * 8 - unused)).toInt =
      (8 * octets - unused.toNat : Int).bmod (2 ^ 32) := by
  have eights : (UInt64.ofNat octets * 8).toNat = 8 * octets := by
    rw [UInt64.toNat_mul, UInt64.toNat_ofNat']
    change octets % 2 ^ 64 * 8 % 2 ^ 64 = _
    omega
  rw [toInt_intOf, UInt64.toNat_sub, eights]
  -- The words differ by a multiple of what an `int` drops.
  apply Int.bmod_eq_bmod_iff_bmod_sub_eq_zero.mpr
  apply Int.bmod_eq_zero_of_dvd
  change (4294967296 : Int) ∣ _
  omega

/-- The value for some octets, of which some bits are unused, can be trusted exactly when they fit. -/
theorem usable_iff {bits : List UInt8} {unused : UInt64} (few : bits.length < 2 ^ 31)
    (small : unused.toNat < 2 ^ 16) :
    AsnBits.Usable ⟨intOf (UInt64.ofNat bits.length * 8 - unused), bits⟩ ↔
      BitsFit bits.length unused.toNat := by
  have value := toInt_bitLen few small
  constructor
  · rintro ⟨nonneg, exact, -, reencoded⟩
    dsimp only at nonneg exact
    have stored : AsnBits.Stored ⟨intOf (UInt64.ofNat bits.length * 8 - unused), bits⟩ :=
      ⟨nonneg, by dsimp only; omega, by dsimp only; omega⟩
    have room := (stored.eq_of_written reencoded).1
    dsimp only at room
    rw [Int.bmod_eq_of_le (by omega) (by omega)] at value
    exact ⟨by omega, by omega, by omega⟩
  · rintro ⟨most, countable, empty⟩
    rw [Int.bmod_eq_of_le (by omega) (by omega)] at value
    have stored : AsnBits.Stored ⟨intOf (UInt64.ofNat bits.length * 8 - unused), bits⟩ :=
      ⟨by dsimp only; omega, by dsimp only; omega, by dsimp only; omega⟩
    have exact : bits.length =
        ((intOf (UInt64.ofNat bits.length * 8 - unused)).toInt.toNat + 7) / 8 := by omega
    refine ⟨stored.nonneg, exact, stored.inside, ?_⟩
    have written := stored.written (by dsimp only; omega)
    dsimp only at written
    rwa [← exact, List.take_length] at written

/-! ## Primitive strings -/

section

variable {β : Type} [GenBuf β] {inv : β → Prop} {handles : UInt64 → Prop}
  {unread : β → List UInt8} {tag : AsnTag} {len n m : AsnLen} {r : AsnBits} {s s' : DecState β}

/-- The value of a primitive BIT STRING fills a block for its length, whatever octet is in front. -/
theorem InOrder.primitive_bits (inOrder : InOrder inv handles unread) {fuel : Nat}
    (primitive : tagIsCons tag = false) (holds : inv s.buf)
    (ran : (bDecAsnBitsContent fuel tag len n).run s = .ok (r, m) s') :
    r.bits.length = (intOf (len - 1)).toInt.toNat ∧ r.bits.length < 2 ^ 31 ∧
      r.bitLen = intOf (UInt64.ofNat r.bits.length * 8 -
        ((unread s.buf).headD 0).toUInt64) := by
  unfold bDecAsnBitsContent at ran
  simp only [primitive, Bool.false_eq_true, if_false] at ran
  split at ran
  · simp at ran
  split at ran
  · simp at ran
  rw [EStateM.run_bind (x := bufGetByte), run_bufGetByte] at ran
  obtain ⟨size, t, allocated, ran⟩ := run_bind_eq_ok.mp ran
  obtain ⟨octs, u, copied, ran⟩ := run_bind_eq_ok.mp ran
  obtain ⟨rfl, -, same⟩ := checked_eq_ok.mp ran
  have small := asn1Alloc_lt allocated
  have block := asn1Alloc_size allocated
  have filled := bufCopy_size copied
  simp only [Prod.mk.injEq] at same
  obtain ⟨rfl, rfl⟩ := same
  refine ⟨filled.trans block, show octs.length < 2 ^ 31 by omega, ?_⟩
  -- Behind what an `int` can count, the length and the size of the block agree.
  have wide : (len - 1).toNat % 2 ^ 32 = octs.length % 2 ^ 32 := by
    have nonneg := asn1Alloc_nonneg allocated
    have value := toInt_intOf (len - 1)
    rw [Int.bmod_def] at value
    omega
  rw [inOrder.getByte_fst holds]
  apply intOf_congr
  have word : (UInt64.ofNat octs.length).toNat = octs.length :=
    UInt64.toNat_ofNat_of_lt' (by rw [UInt64.size]; omega)
  rw [UInt64.toNat_sub, UInt64.toNat_sub, UInt64.toNat_mul, UInt64.toNat_mul, word,
    show (8 : UInt64).toNat = 8 from rfl]
  omega

/-! ## Constructed strings -/

/-- A piece gives the count of unused bits, which none before it did, and the octets behind it. -/
def GathersBits (g : Globals) (piece : List UInt8) (g' : Globals) : Prop :=
  ∃ c octets, piece = c :: octets ∧ g.unusedBitsG = 0 ∧
    Gathers { g with unusedBitsG := c.toUInt16 } octets g'

/-- The count of unused bits that the last piece leaves behind. -/
def lastUnused (unusedBits : UInt16) (leaves : List (List UInt8)) : UInt16 :=
  leaves.foldl (fun _ piece => (piece.headD 0).toUInt16) unusedBits

theorem Gathers.withUnused {g g' : Globals} {octets : List UInt8} (gathers : Gathers g octets g')
    (unusedBits : UInt16) :
    Gathers { g with unusedBitsG := unusedBits } octets { g' with unusedBitsG := unusedBits } :=
  ⟨gathers.gathered, gathers.total, rfl⟩

theorem AfterAll.gathersBits {g g' : Globals} {leaves : List (List UInt8)}
    (all : AfterAll GathersBits g leaves g') :
    Gathers { g with unusedBitsG := lastUnused g.unusedBitsG leaves } (leaves.flatMap List.tail)
      g' := by
  induction all with
  | nil => exact .refl _
  | @cons g g1 g'' piece leaves first _ ih =>
    obtain ⟨c, octets, rfl, -, gathers⟩ := first
    have unused : g1.unusedBitsG = c.toUInt16 := gathers.unusedBits
    rw [unused] at ih
    exact (gathers.withUnused _).trans ih

/-- A primitive piece is one octet, which may be missing at the end of the data, and the octets behind
it. -/
theorem Segments.bitPiece_reads (segments : Segments inv handles unread)
    (handled : ∀ {len}, len.toNat < 2 ^ 31 → handles len) (fuel : Nat) :
    PieceReads inv unread [0] GathersBits (bitPiece fuel) where
  onTop := by
    intro s s' len ran
    rw [bitPiece] at ran
    split at ran
    · cases ran
    rw [EStateM.run_bind, run_getUnusedBitsG] at ran
    dsimp only at ran
    split at ran
    · cases ran
    rw [EStateM.run_bind, run_bufGetByte] at ran
    dsimp only at ran
    rw [EStateM.run_bind, run_setUnusedBitsG] at ran
    dsimp only at ran
    have behind := bitPieceLoop_extends ran
    exact behind
  reads := by
    intro s s' len ran valid bounded
    rw [bitPiece] at ran
    split at ran
    · cases ran
    rw [EStateM.run_bind, run_getUnusedBitsG] at ran
    dsimp only at ran
    split at ran
    · cases ran
    rename_i aligned
    rw [bne_iff_ne, not_not] at aligned
    rw [EStateM.run_bind, run_bufGetByte] at ran
    dsimp only at ran
    rw [EStateM.run_bind, run_setUnusedBitsG] at ran
    obtain ⟨octets, covered, refers⟩ := segments.bitPieceLoop_refers handled ran bounded
    obtain ⟨before, -, few⟩ := refers.gathers.bounded bounded
    have counted : UInt64.ofNat ((GenBuf.getByte s.buf).1 :: octets).length = len := by
      rw [List.length_cons, UInt64.ofNat_add, covered]
      exact UInt64.sub_add_cancel _ _
    have collected : GathersBits s.glob ((GenBuf.getByte s.buf).1 :: octets) s'.glob :=
      ⟨_, _, rfl, aligned, refers.gathers⟩
    cases held : unread s.buf with
    | nil =>
      -- The octet is taken to be zero, and nothing can be behind it.
      obtain ⟨b', read, holds', none, failed⟩ := segments.toInOrder.getByte_nil valid.1 held
      rw [read] at refers counted collected
      obtain ⟨holds'', tape, error⟩ := refers.reads holds'
      change unread b' = octets ++ unread s'.buf at tape
      rw [none, eq_comm, List.append_eq_nil_iff] at tape
      obtain ⟨rfl, -⟩ := tape
      refine ⟨[0], [], counted, by decide, rfl, .inr ⟨by decide, holds'', ?_, rfl⟩, collected⟩
      exact error.trans failed
    | cons c rest =>
      obtain ⟨b', read, holds', left, kept⟩ := segments.toInOrder.getByte_cons valid.1 held
      rw [read] at refers counted collected
      obtain ⟨holds'', tape, error⟩ := refers.reads holds'
      change unread b' = octets ++ unread s'.buf at tape
      rw [left] at tape
      refine ⟨c :: octets, unread s'.buf ++ [0], counted, ?_, ?_,
        .inl ⟨⟨holds'', error.trans (kept.trans valid.2)⟩, rfl⟩, collected⟩
      · rw [List.length_cons]
        omega
      · rw [tape, List.cons_append, List.cons_append, List.append_assoc]

/-- The value of a constructed BIT STRING is the octets of its leaves behind their unused bits octets,
and the unused bits are those of the last one. -/
theorem Segments.bDecConsAsnBits_reads (segments : Segments inv handles unread)
    (handled : ∀ {len}, len.toNat < 2 ^ 31 → handles len) {fuel : Nat} (holds : inv s.buf)
    (ran : (bDecConsAsnBits fuel len n).run s = .ok (r, m) s') :
    ∃ w leaves, Passed BITSTRING_TAG_CODE (fun _ _ => True) len 0 w leaves ∧
      w <+: unread s.buf ++ [0] ∧ r.bits = leaves.flatMap List.tail ∧ r.bits.length < 2 ^ 31 ∧
      r.bitLen = intOf (UInt64.ofNat r.bits.length * 8 -
        (lastUnused s.glob.unusedBitsG leaves).toUInt64) := by
  rw [bDecConsAsnBits, EStateM.run_bind, run_resetStrStk] at ran
  dsimp only at ran
  obtain ⟨count, s1, filled, ran⟩ := run_bind_eq_ok.mp ran
  obtain ⟨total, s1', looped, filled⟩ := run_bind_eq_ok.mp filled
  obtain ⟨rfl, rfl⟩ := run_pure_eq_ok.mp filled
  rw [EStateM.run_bind, run_getTotalByteLen] at ran
  dsimp only at ran
  rw [EStateM.run_bind, run_getUnusedBitsG] at ran
  dsimp only at ran
  obtain ⟨size, s2, allocated, ran⟩ := run_bind_eq_ok.mp ran
  have small := asn1Alloc_lt allocated
  have block := asn1Alloc_size allocated
  obtain rfl := asn1Alloc_eq_ok allocated
  obtain ⟨bits, s3, merged, ran⟩ := run_bind_eq_ok.mp ran
  obtain ⟨rfl, octets, gathered, fits, rfl⟩ := mergePieces_eq_ok merged
  obtain ⟨rfl, result⟩ := run_pure_eq_ok.mp ran
  obtain ⟨rfl, rfl⟩ := Prod.mk.inj result
  have bounded : s'.glob.Bounded := ⟨octets, gathered, by omega⟩
  obtain ⟨w, leaves, passed, tape, gathers⟩ : ∃ w leaves,
      Passed BITSTRING_TAG_CODE (fun _ _ => True) len 0 w leaves ∧ w <+: unread s.buf ++ [0] ∧
        Gathers { s.resetStrStk.glob with unusedBitsG := lastUnused s.glob.unusedBitsG leaves }
          (leaves.flatMap List.tail) s'.glob := by
    by_cases failed : GenBuf.readError s.buf = true
    · -- Behind a read error nothing is left to do.
      obtain ⟨finished, -, rfl⟩ :=
        segments.toInOrder.loop_of_failed (s := s.resetStrStk) holds failed looped
      exact ⟨[], [], .done finished, List.nil_prefix, .refl _⟩
    · have valid : (decTape inv unread).valid s.resetStrStk := ⟨holds, by simpa using failed⟩
      obtain ⟨w, leaves, tape', passed, tape, -, -, all⟩ :=
        (segments.bitPiece_reads handled fuel).loop_passed segments.toInOrder (.inl ⟨valid, rfl⟩)
          looped bounded
      exact ⟨w, leaves, passed, ⟨tape', tape.symm⟩, all.gathersBits⟩
  have whole : octets = leaves.flatMap List.tail := by
    have all := gathers.gathered
    rw [gathered] at all
    exact Option.some.inj all
  have totalLength : s'.glob.strStkG.totalByteLen = UInt64.ofNat octets.length := by
    rw [whole]
    exact gathers.total.trans (UInt64.zero_add _)
  have exact : size = octets.length := by
    have word : (UInt64.ofNat octets.length).toNat = octets.length :=
      UInt64.toNat_ofNat_of_lt' (by rw [UInt64.size]; omega)
    rw [block, totalLength, toInt_intOf_of_lt (by omega), word, Int.toNat_natCast]
  rw [exact, Nat.sub_self, List.replicate_zero, List.append_nil]
  refine ⟨w, leaves, passed, tape, whole, by dsimp only; omega, ?_⟩
  have unused : s'.glob.unusedBitsG = lastUnused s.glob.unusedBitsG leaves := gathers.unusedBits
  dsimp only
  rw [totalLength, unused]

/-! ## Strings that give bit strings -/

/-- The octets of a BIT STRING fit, and so does the count of their unused bits: for a primitive one, of
which the first octet counts them; for a constructed one, of whose pieces the last does, or of what was
left before where there is none. -/
def ReadsFit (tag : AsnTag) (len : AsnLen) (unusedBits : UInt16) (tape : List UInt8) : Prop :=
  if tagIsCons tag then
    ∃ w leaves, Passed BITSTRING_TAG_CODE (fun _ _ => True) len 0 w leaves ∧ w <+: tape ++ [0] ∧
      BitsFit (leaves.flatMap List.tail).length (lastUnused unusedBits leaves).toNat
  else BitsFit (intOf (len - 1)).toInt.toNat (tape.headD 0).toNat

/-- A decoded BIT STRING can be trusted exactly where what it was read from fits. -/
theorem Segments.usable_iff (segments : Segments inv handles unread)
    (handled : ∀ {len}, len.toNat < 2 ^ 31 → handles len) {fuel : Nat} (holds : inv s.buf)
    (ran : (bDecAsnBitsContent fuel tag len n).run s = .ok (r, m) s') :
    r.Usable ↔ ReadsFit tag len s.glob.unusedBitsG (unread s.buf) := by
  obtain ⟨bitLen, bits⟩ := r
  by_cases constructed : tagIsCons tag = true
  · rw [ReadsFit, if_pos constructed]
    rw [bDecAsnBitsContent, if_pos constructed] at ran
    obtain ⟨w, leaves, passed, tape, rfl, few, length⟩ :=
      segments.bDecConsAsnBits_reads handled holds ran
    dsimp only at few length
    subst length
    have small := UInt16.toNat_lt (lastUnused s.glob.unusedBitsG leaves)
    rw [Esnacc.usable_iff few (by rw [UInt16.toNat_toUInt64]; omega), UInt16.toNat_toUInt64]
    constructor
    · intro fit
      exact ⟨w, leaves, passed, tape, fit⟩
    · -- What is passed over in front of the data is known.
      rintro ⟨w', leaves', passed', ⟨rest', tape'⟩, fit⟩
      obtain ⟨rest, tape⟩ := tape
      obtain ⟨rfl, rfl⟩ := passed.unique threeTags_bits passed' (tape.trans tape'.symm)
      exact fit
  · rw [ReadsFit, if_neg constructed]
    obtain ⟨size, few, length⟩ :=
      segments.toInOrder.primitive_bits (by simpa using constructed) holds ran
    have small := UInt8.toNat_lt ((unread s.buf).headD 0)
    dsimp only at size few length
    subst length
    rw [Esnacc.usable_iff few (by rw [UInt8.toNat_toUInt64]; omega), UInt8.toNat_toUInt64, size]

end

/-- In simple buffers and in chains, a decoded BIT STRING can be trusted exactly where what it was read
from fits. -/
theorem decoded_bits_usable_iff (fuel : Nat) (tag : AsnTag) (len n m : AsnLen) (r : AsnBits) :
    (∀ s s' : DecState SBuf, (bDecAsnBitsContent fuel tag len n).run s = .ok (r, m) s' →
      (r.Usable ↔ ReadsFit tag len s.glob.unusedBitsG s.buf.unread)) ∧
    ∀ s s' : DecState ExpBufRef, s.buf.Steady →
      (bDecAsnBitsContent fuel tag len n).run s = .ok (r, m) s' →
        (r.Usable ↔ ReadsFit tag len s.glob.unusedBitsG s.buf.unread) :=
  ⟨fun _ _ => sBuf_segments.usable_iff (fun _ => trivial) trivial,
    fun _ _ steady => expBuf_segments.usable_iff id steady⟩

/-- Five bits in one octet. -/
theorem decoded_bits_usable_iff_five : AsnBits.Usable ⟨5, [0xA8]⟩ := by
  have decoded := (decoded_bits_usable_iff 3 0x03000000 2 0 2 ⟨5, [0xA8]⟩).1
    ⟨sBufInstallData (fun a => if a = 4096 then 3 else 0xA8) 4096 2, initialGlobals⟩ _ rfl
  exact decoded.mpr ⟨by decide, by decide, by decide⟩

/-- A BIT STRING without octets of which 255 bits are unused has a negative length. -/
theorem not_decoded_bits_usable :
    ¬ ∀ (fuel : Nat) (tag : AsnTag) (len n m : AsnLen) (r : AsnBits) (s s' : DecState SBuf),
      (bDecAsnBitsContent fuel tag len n).run s = .ok (r, m) s' → r.Usable := by
  intro usable
  have decoded := usable 3 0x03000000 1 0 1 ⟨-255, []⟩
    ⟨sBufInstallData (fun _ => 255) 4096 1, initialGlobals⟩ _ rfl
  exact absurd decoded.nonneg (by decide)

end Esnacc
