import Esnacc.Ber.Accounting
import Esnacc.Ber.BitOps

/-! BIT STRINGs that are encoded and decoded again. -/

namespace Esnacc

open Lib

section

variable {β : Type} [GenBuf β] {tag : AsnTag} {len n n' : AsnLen} {r : AsnBits}
  {s s' : DecState β}

omit [GenBuf β] in
theorem run_asn1Alloc {size : UInt64} (small : size.toNat < 2 ^ 31) (s : DecState β) :
    (asn1Alloc size).run s = .ok size.toNat s := by
  have int := toInt_intOf_of_lt small
  rw [asn1Alloc, if_neg (by rw [Int32.lt_iff_toInt_lt, int, Int32.toInt_zero]; omega), int,
    Int.toNat_natCast]
  rfl

/-- A primitive BIT STRING is one octet and as many others as are copied. -/
theorem run_primitive_bits (fuel : Nat) (primitive : tagIsCons tag = false) {octets : List UInt8}
    {c : UInt8} {b' b'' : β} (small : octets.length < 2 ^ 31)
    (first : GenBuf.getByte s.buf = (c, b'))
    (copied : GenBuf.copy b' (UInt64.ofNat octets.length) = some (octets, b''))
    (clear : GenBuf.readError b'' = false) :
    (bDecAsnBitsContent fuel tag (UInt64.ofNat (octets.length + 1)) n).run s =
      .ok (⟨intOf (UInt64.ofNat octets.length * 8 - c.toUInt64), octets⟩,
        n + UInt64.ofNat (octets.length + 1)) { s with buf := b'' } := by
  have size : (UInt64.ofNat octets.length).toNat = octets.length :=
    UInt64.toNat_ofNat_of_lt' (by rw [UInt64.size]; omega)
  have count : (UInt64.ofNat (octets.length + 1)).toNat = octets.length + 1 :=
    UInt64.toNat_ofNat_of_lt' (by rw [UInt64.size]; omega)
  have less : UInt64.ofNat (octets.length + 1) - 1 = UInt64.ofNat octets.length := by
    rw [UInt64.ofNat_add]
    exact UInt64.add_sub_cancel _ _
  have isDefinite : ¬ (UInt64.ofNat (octets.length + 1) == INDEFINITE_LEN) = true := by
    rw [beq_iff_eq, ← UInt64.toNat_inj, count, show INDEFINITE_LEN.toNat = 2 ^ 64 - 1 from rfl]
    omega
  have nonzero : ¬ (UInt64.ofNat (octets.length + 1) == 0) = true := by
    rw [beq_iff_eq, ← UInt64.toNat_inj, count]
    exact Nat.succ_ne_zero _
  rw [bDecAsnBitsContent, if_neg (by rw [primitive]; exact Bool.false_ne_true), if_neg isDefinite,
    if_neg nonzero, less, EStateM.run_bind, run_bufGetByte, first]
  dsimp only
  rw [run_bind_of_ok (run_asn1Alloc (by omega) _)]
  have stored : (bufCopy (UInt64.ofNat octets.length).toNat (UInt64.ofNat octets.length)).run
      { s with buf := b' } = .ok octets { s with buf := b'' } := by
    rw [size, run_bufCopy, copied]
    dsimp only
    rw [storeInto, if_pos (Nat.le_refl _), Nat.sub_self, List.replicate_zero, List.append_nil]
    rfl
  rw [run_bind_of_ok stored, run_bind_of_ok (run_bufReadError _)]
  dsimp only
  rw [clear]
  rfl

end

/-- What is written for a bit string, taken back with the count of its unused bits. -/
theorem intOf_bitLen {bitLen : Int32} (nonneg : 0 ≤ bitLen.toInt)
    (room : bitLen.toInt + 7 < 2 ^ 31) :
    intOf (UInt64.ofNat ((bitLen.toInt.toNat + 7) / 8) * 8 -
      (UInt8.ofNat (unusedIn bitLen.toInt.toNat)).toUInt64) = bitLen := by
  have whole := eight_mul_octets bitLen.toInt.toNat
  have few : unusedIn bitLen.toInt.toNat < 8 := Nat.mod_lt _ (by decide)
  have value : (UInt64.ofNat ((bitLen.toInt.toNat + 7) / 8) * 8 -
      (UInt8.ofNat (unusedIn bitLen.toInt.toNat)).toUInt64).toNat = bitLen.toInt.toNat := by
    have eights : (UInt64.ofNat ((bitLen.toInt.toNat + 7) / 8) * 8).toNat =
        8 * ((bitLen.toInt.toNat + 7) / 8) := by
      rw [UInt64.toNat_mul, UInt64.toNat_ofNat']
      change _ % 2 ^ 64 * 8 % 2 ^ 64 = _
      omega
    have unused : (UInt8.ofNat (unusedIn bitLen.toInt.toNat)).toUInt64.toNat =
        unusedIn bitLen.toInt.toNat := by
      rw [UInt8.toNat_toUInt64, UInt8.toNat_ofNat']
      omega
    rw [UInt64.toNat_sub, eights, unused]
    omega
  apply Int32.toInt_inj.mp
  rw [toInt_intOf_of_lt (by omega), value]
  omega

/-- The octets that hold the bits, without any behind them. -/
@[grind =] def AsnBits.trimmed (b : AsnBits) : AsnBits :=
  ⟨b.bitLen, b.bits.take ((b.bitLen.toInt.toNat + 7) / 8)⟩

/-- A bit string is equivalent to what is left of it without the octets behind its bits. -/
theorem AsnBits.Stored.equiv_trimmed {b : AsnBits} (stored : b.Stored) :
    asnBitsEquiv b b.trimmed = some true := by
  have held := stored.held
  have nonneg := stored.nonneg
  have size : b.trimmed.bits.length = (b.bitLen.toInt.toNat + 7) / 8 := by
    rw [AsnBits.trimmed, List.length_take]
    omega
  have trimmedStored : b.trimmed.Stored := by
    refine ⟨nonneg, ?_, ?_⟩
    · change b.bitLen.toInt ≤ _
      omega
    · have small := stored.oneBlock
      omega
  refine (stored.asnBitsEquiv_iff trimmedStored).mpr ⟨rfl, ?_⟩
  have enough : (b.bitLen.toInt.toNat + 7) / 8 ≤ b.bits.length := by omega
  have front := flatMap_bitsOf_take enough
  rw [AsnBits.shown, AsnBits.shown, AsnBits.trimmed, front, List.take_take]
  rw [Nat.min_eq_left (show b.bitLen.toInt.toNat ≤ _ by omega)]

theorem AsnBits.Stored.eq_of_written {b : AsnBits} (stored : b.Stored) {octets : List UInt8}
    (written : b.Written octets) :
    b.bitLen.toInt + 7 < 2 ^ 31 ∧
      octets = UInt8.ofNat (unusedIn b.bitLen.toInt.toNat) :: b.trimmed.bits := by
  by_cases room : b.bitLen.toInt + 7 < 2 ^ 31
  · obtain ⟨enc, encoded, writes⟩ := written
    obtain ⟨enc', encoded', writes'⟩ := stored.written room
    rw [encoded, Option.some.injEq] at encoded'
    subst encoded'
    exact ⟨room, writes.unique writes'⟩
  · exact absurd written (stored.not_written (by omega) _)

/-! ## In simple buffers -/

/-- What is written for a bit string is read back from simple buffers as an equivalent one. -/
def AsnBits.RoundTrips (b : AsnBits) : Prop :=
  ∃ octets, b.Written octets ∧ ∀ fuel tag, tagIsCons tag = false → ∃ r,
    asnBitsEquiv b r = some true ∧
      (decTape (fun _ => True) SBuf.unread).Takes
        (bDecAsnBitsContent fuel tag (UInt64.ofNat octets.length)) octets r

/-- The simple buffer delivers all of a primitive BIT STRING. -/
theorem bDecAsnBitsContent_takes (fuel : Nat) {tag : AsnTag} (primitive : tagIsCons tag = false)
    {octets : List UInt8} (small : octets.length < 2 ^ 31) (c : UInt8) :
    (decTape (fun _ => True) SBuf.unread).Takes
      (bDecAsnBitsContent fuel tag (UInt64.ofNat (c :: octets).length)) (c :: octets)
      ⟨intOf (UInt64.ofNat octets.length * 8 - c.toUInt64), octets⟩ := by
  intro s rest valid held n
  change s.buf.unread = c :: (octets ++ rest) at held
  have size : (UInt64.ofNat octets.length).toNat = octets.length :=
    UInt64.toNat_ofNat_of_lt' (by rw [UInt64.size]; omega)
  have one : 1 ≤ s.buf.unread.length := by rw [held]; exact Nat.le_add_left 1 _
  have behind : (s.buf.advance 1).unread = octets ++ rest := by
    rw [SBuf.unread_advance one, held]
    rfl
  have enough : octets.length ≤ (s.buf.advance 1).unread.length := by
    rw [behind, List.length_append]
    exact Nat.le_add_right _ _
  -- The read location stays inside the data.
  have inside : (s.buf.advance 1).readLoc ≤ (s.buf.advance 1).dataEnd := by
    have moved := SBuf.toNat_readLoc_advance one
    rw [SBuf.length_unread] at one
    rw [UInt64.le_iff_toNat_le, moved]
    change _ ≤ s.buf.dataEnd.toNat
    omega
  have room : (UInt64.ofNat octets.length).toNat ≤ (s.buf.advance 1).unread.length := by omega
  have copied := SBuf.copy_within room inside
  rw [size, behind, List.take_left] at copied
  refine ⟨_, run_primitive_bits fuel primitive small (SBuf.getByte_cons held) copied valid.2,
    ⟨trivial, valid.2⟩, ?_⟩
  change ((s.buf.advance 1).advance octets.length).unread = rest
  rw [SBuf.unread_advance enough, behind, List.drop_left]

/-- A bit string makes the round trip exactly where an `int` can count seven more bits. -/
theorem AsnBits.Stored.roundTrips_iff {b : AsnBits} (stored : b.Stored) :
    b.RoundTrips ↔ b.bitLen.toInt + 7 < 2 ^ 31 := by
  constructor
  · rintro ⟨octets, written, -⟩
    exact (stored.eq_of_written written).1
  · intro room
    have nonneg := stored.nonneg
    have held := stored.held
    have size : b.trimmed.bits.length = (b.bitLen.toInt.toNat + 7) / 8 := by
      rw [AsnBits.trimmed, List.length_take]
      omega
    refine ⟨_, stored.written room, fun fuel tag primitive =>
      ⟨b.trimmed, stored.equiv_trimmed, ?_⟩⟩
    have takes := bDecAsnBitsContent_takes fuel primitive
      (show b.trimmed.bits.length < 2 ^ 31 by omega)
      (UInt8.ofNat (unusedIn b.bitLen.toInt.toNat))
    rw [size, intOf_bitLen nonneg room] at takes
    exact takes

/-! ## In chains of blocks -/

/-- What is written for a bit string is read from a chain as an equivalent one, and passed over. -/
def AsnBits.ReadBack (b : AsnBits) (octets : List UInt8) (fuel : Nat) (tag : AsnTag) (n : AsnLen)
    (s : DecState ExpBufRef) : Prop :=
  ∃ r s', (bDecAsnBitsContent fuel tag (UInt64.ofNat octets.length) n).run s =
      .ok (r, n + UInt64.ofNat octets.length) s' ∧
    s.buf.unread = octets ++ s'.buf.unread ∧ asnBitsEquiv b r = some true

/-- A chain does not leave a block for a copy that begins behind its last octet. -/
theorem AsnBits.Stored.readBack_iff {b : AsnBits} (stored : b.Stored) {octets rest : List UInt8}
    (written : b.Written octets) (fuel : Nat) {tag : AsnTag} (primitive : tagIsCons tag = false)
    (n : AsnLen) {s : DecState ExpBufRef} (steady : s.buf.Steady)
    (noError : GenBuf.readError s.buf = false) (held : s.buf.unread = octets ++ rest) :
    b.ReadBack octets fuel tag n s ↔
      (1 < octets.length → ¬ (GenBuf.getByte s.buf).2.Stalled) := by
  obtain ⟨room, rfl⟩ := stored.eq_of_written written
  have nonneg := stored.nonneg
  have most := stored.held
  have size : b.trimmed.bits.length = (b.bitLen.toInt.toNat + 7) / 8 := by
    rw [AsnBits.trimmed, List.length_take]
    omega
  have word : (UInt64.ofNat b.trimmed.bits.length).toNat = b.trimmed.bits.length :=
    UInt64.toNat_ofNat_of_lt' (by rw [UInt64.size]; omega)
  obtain ⟨b', first, steady', left, kept⟩ := expBuf_inOrder.getByte_cons steady held
  change b'.unread = b.trimmed.bits ++ rest at left
  rw [first]
  constructor
  · rintro ⟨r, s', ran, -, -⟩ more stalled
    obtain ⟨-, clear, -, octs, copied⟩ := returns_bits primitive ran
    rw [List.length_cons] at more copied
    have less : UInt64.ofNat (b.trimmed.bits.length + 1) - 1 =
        UInt64.ofNat b.trimmed.bits.length := by
      rw [UInt64.ofNat_add]
      exact UInt64.add_sub_cancel _ _
    change GenBuf.copy (GenBuf.getByte s.buf).2 _ = _ at copied
    rw [first, less] at copied
    change (expBufCopy b' _).map _ = _ at copied
    rw [expBufCopy_of_eod (by omega) (by omega) stalled.1] at copied
    simp only [Option.map_some, Option.some.injEq, Prod.mk.injEq] at copied
    rw [← copied.2] at clear
    cases clear
  · intro going
    have sizes : ∀ left ∈ b'.buf.left :: b'.next.map ExpBuf.left, left < 2 ^ 31 := by
      intro left member
      rw [← List.map_cons] at member
      obtain ⟨block, listed, rfl⟩ := List.mem_map.mp member
      exact steady'.small block listed
    obtain ⟨b'', total, copied, passed⟩ := expBufCopy_spec
      (show (UInt64.ofNat b.trimmed.bits.length).toNat < 2 ^ 31 by omega) steady'.readable
      (fun some => going (by rw [List.length_cons]; omega))
      (ExpBufRef.Steady.segsFit _ sizes _) steady'.drained
    have delivered : GenBuf.copy b' (UInt64.ofNat b.trimmed.bits.length) =
        some (b.trimmed.bits, b'') := by
      change (expBufCopy b' _).map _ = _
      rw [copied, word, left, List.take_left]
      rfl
    have enough : ¬ b'.unread.length < b.trimmed.bits.length := by
      rw [left, List.length_append]
      omega
    have clear : GenBuf.readError b'' = false := by
      have error := passed.error
      rw [word, decide_eq_false enough, Bool.or_false] at error
      exact error.trans (kept.trans noError)
    have ran := run_primitive_bits (n := n) fuel primitive (by omega) first delivered clear
    rw [size, intOf_bitLen nonneg room, ← size] at ran
    refine ⟨b.trimmed, _, ran, ?_, stored.equiv_trimmed⟩
    rw [held, passed.rest, word, left, List.drop_left]

/-! ## What a bit string is -/

/-- The bit string that a sequence of bits being set and cleared leaves. -/
def AsnBits.changed (b : AsnBits) (changes : List (Bool × UInt64)) : Option AsnBits :=
  changes.foldlM
    (fun b (value, bit) => if value then setAsnBit b bit else clrAsnBit b bit) b

/-- Setting and clearing bits stays inside the stored octets. -/
theorem AsnBits.Stored.changed {b : AsnBits} (stored : b.Stored) (changes : List (Bool × UInt64)) :
    ∃ b', b.changed changes = some b' ∧ b'.Stored ∧ b'.bitLen = b.bitLen := by
  -- The induction is on the changes; each one leaves a stored bit string of the same length.
  induction changes generalizing b with
  | nil => exact ⟨b, rfl, stored, rfl⟩
  | cons change changes ih =>
    obtain ⟨value, bit⟩ := change
    obtain ⟨mid, done, midStored, same⟩ : ∃ mid,
        (if value then setAsnBit b bit else clrAsnBit b bit) = some mid ∧ mid.Stored ∧
          mid.bitLen = b.bitLen := by
      cases value with
      | true =>
        obtain ⟨mid, done, midStored, same, -⟩ := stored.set bit
        exact ⟨mid, done, midStored, same⟩
      | false =>
        obtain ⟨mid, done, midStored, same, -⟩ := stored.clear bit
        exact ⟨mid, done, midStored, same⟩
    obtain ⟨b', later, storedLater, length⟩ := ih midStored
    refine ⟨b', ?_, storedLater, length.trans same⟩
    change ((if value then setAsnBit b bit else clrAsnBit b bit).bind fun mid =>
      mid.changed changes) = some b'
    rw [done]
    exact later

/-- Equivalent bit strings are as long and have the same bits set. -/
def EquivReadsBits : Prop :=
  ∀ b1 b2 : AsnBits, b1.Stored → b2.Stored →
    (asnBitsEquiv b1 b2 = some true ↔
      b1.bitLen = b2.bitLen ∧ ∀ bit, bit < ulongOf b1.bitLen → (b1.IsSet bit ↔ b2.IsSet bit))

theorem equivReadsBits : EquivReadsBits := by
  intro b1 b2 stored1 stored2
  rw [stored1.asnBitsEquiv_iff stored2]
  exact and_congr_right fun same => stored1.shown_eq_iff stored2 same

/-- The operations on bit strings agree: whatever bits are set and cleared, what is written is read back
as an equivalent bit string exactly where an `int` can count seven more bits, in a chain unless a block
ends behind the octet of the unused bits; and equivalence is that of the bits that are read. -/
theorem bitStrings_agree_iff {b : AsnBits} (stored : b.Stored) (changes : List (Bool × UInt64)) :
    ∃ b', b.changed changes = some b' ∧ (b'.RoundTrips ↔ b.bitLen.toInt + 7 < 2 ^ 31) ∧
      (∀ octets rest fuel tag n (s : DecState ExpBufRef), b'.Written octets →
        tagIsCons tag = false → s.buf.Steady → GenBuf.readError s.buf = false →
          s.buf.unread = octets ++ rest →
            (b'.ReadBack octets fuel tag n s ↔
              (1 < octets.length → ¬ (GenBuf.getByte s.buf).2.Stalled))) ∧
      EquivReadsBits := by
  obtain ⟨b', changed, stored', same⟩ := stored.changed changes
  refine ⟨b', changed, ?_, ?_, equivReadsBits⟩
  · rw [← same]
    exact stored'.roundTrips_iff
  · intro octets rest fuel tag n s written primitive steady noError held
    exact stored'.readBack_iff written fuel primitive n steady noError held

/-- Twelve bits, of which one is set and one is cleared. -/
theorem bitStrings_agree_iff_twelve :
    ∃ b' : AsnBits, (⟨12, [0xA5, 0x5F]⟩ : AsnBits).changed [(true, 1), (false, 11)] = some b' ∧
      b'.RoundTrips := by
  obtain ⟨b', changed, roundTrips, -⟩ :=
    bitStrings_agree_iff (b := ⟨12, [0xA5, 0x5F]⟩) ⟨by decide, by decide, by decide⟩
      [(true, 1), (false, 11)]
  exact ⟨b', changed, roundTrips.mpr (by decide)⟩

/-- As many bits as an `int` can count are not written, for the number of octets overflows. -/
theorem not_bitStrings_agree :
    ¬ ∀ (b b' : AsnBits) (changes : List (Bool × UInt64)), b.Stored →
      b.changed changes = some b' → b'.RoundTrips := by
  intro agree
  have stored : AsnBits.Stored ⟨0x7fffffff, List.replicate (2 ^ 28) 0⟩ := by
    refine ⟨by decide, ?_, ?_⟩
    · rw [List.length_replicate]
      decide
    · rw [List.length_replicate]
      decide
  exact absurd (stored.roundTrips_iff.mp (agree _ _ [] stored rfl)) (by decide)

end Esnacc
