import Esnacc.Ber.Encoding
import Esnacc.Ber.HeaderOctets
import Esnacc.Lib.BerForms

/-! Lengths: what the two encoders write, and what the two decoders make of it. -/

namespace Esnacc

open Lib

/-! ## What is written -/

/-- An encoder puts octets in front of those that the buffer holds, and returns their number. -/
def Enc.Writes (x : Enc AsnLen) (octets : List UInt8) : Prop :=
  ∀ held, x.run held = (UInt64.ofNat octets.length, octets ++ held)

theorem Enc.Writes.unique {x : Enc AsnLen} {octets octets' : List UInt8} (writes : x.Writes octets)
    (writes' : x.Writes octets') : octets = octets' := by
  have same := (writes []).symm.trans (writes' [])
  rw [List.append_nil, List.append_nil] at same
  exact (Prod.mk.inj same).2

/-- The loop over the octets of a length puts them all and counts them. -/
theorem run_bEncLenOctets (i : UInt32) (j : UInt64) (held : List UInt8) :
    (bEncLenOctets i j).run held =
      (i + UInt32.ofNat (minOctets j.toNat).length, minOctets j.toNat ++ held) := by
  -- The induction is the recursion of the loop, which takes away the low octet.
  induction i, j using bEncLenOctets.induct generalizing held with
  | case1 i j more ih =>
    have positive : 0 < j.toNat := UInt64.lt_iff_toNat_lt.mp more
    have shifted : (j >>> 8).toNat = j.toNat / 256 := by
      rw [UInt64.toNat_shiftRight, show (8 : UInt64).toNat % 64 = 8 from rfl,
        Nat.shiftRight_eq_div_pow]
    have low : j.toUInt8 = UInt8.ofNat j.toNat := by
      apply UInt8.toNat_inj.mp
      rw [UInt64.toNat_toUInt8, UInt8.toNat_ofNat']
    rw [bEncLenOctets, if_pos more]
    change (bEncLenOctets (i + 1) (j >>> 8)).run (j.toUInt8 :: held) = _
    rw [ih, shifted, minOctets_of_pos positive, List.length_append, List.length_singleton,
      List.append_assoc, low, Nat.add_comm (minOctets (j.toNat / 256)).length, UInt32.ofNat_add,
      UInt32.add_assoc]
    rfl
  | case2 i j done =>
    have zero : j.toNat = 0 := by
      rw [gt_iff_lt, UInt64.lt_iff_toNat_lt, UInt64.toNat_zero] at done
      omega
    rw [bEncLenOctets, if_neg done, zero, minOctets_zero, List.length_nil, List.nil_append,
      show i + UInt32.ofNat 0 = i from UInt32.add_zero i]
    rfl

/-- The loop writes the shortest length octets. -/
theorem bEncDefLen2_writes {len : AsnLen} (small : len.toNat < 2 ^ 63) :
    (bEncDefLen2 len.toInt64).Writes (minLength len.toNat) := by
  intro held
  have value : len.toInt64.toInt = len.toNat := by
    rw [Int64.toInt, UInt64.toBitVec_toInt64, BitVec.toInt_eq_toNat_bmod, UInt64.toNat_toBitVec,
      Int.bmod_eq_of_le (by omega) (by omega)]
  have less : len.toInt64 < 128 ↔ len.toNat < 128 := by
    rw [Int64.lt_iff_toInt_lt, value, show (128 : Int64).toInt = 128 from rfl]
    omega
  rw [bEncDefLen2, minLength]
  by_cases short : len.toNat < 128
  · rw [if_pos short, if_pos (less.mpr short)]
    change (_, len.toInt64.toUInt64.toUInt8 :: held) = _
    have low : len.toUInt8 = UInt8.ofNat len.toNat := by
      apply UInt8.toNat_inj.mp
      rw [UInt64.toNat_toUInt8, UInt8.toNat_ofNat']
    rw [UInt64.toUInt64_toInt64, low]
    rfl
  · rw [if_neg short, if_neg (fun h => short (less.mp h)), UInt64.toUInt64_toInt64]
    have few : (minOctets len.toNat).length ≤ 8 := length_minOctets_le.mpr (by omega)
    -- The count of at most eight octets does not reach the top bit of the first one.
    have all : ∀ k : Fin 9, ((0x80 : UInt32) ||| (0 + UInt32.ofNat k)).toUInt8 = UInt8.ofNat (0x80 + k) ∧
        (0 + UInt32.ofNat k + 1).toUInt64 = UInt64.ofNat (k + 1) := by
      decide
    obtain ⟨first, count⟩ := all ⟨(minOctets len.toNat).length, by omega⟩
    change (fun p : UInt32 × List UInt8 => ((p.1 + 1).toUInt64, ((0x80 : UInt32) ||| p.1).toUInt8 :: p.2))
      ((bEncLenOctets 0 len).run held) = _
    rw [run_bEncLenOctets]
    dsimp only
    rw [first, count, List.length_cons]
    rfl

/-- The octets that are put for a length without a loop. -/
def unrolledOctets (len : AsnLen) : List UInt8 :=
  if len < 128 then [len.toUInt8]
  else if len < 256 then [0x81, len.toUInt8]
  else if len < 65536 then [0x82, (len >>> 8).toUInt8, len.toUInt8]
  else if len < 16777126 then [0x83, (len >>> 16).toUInt8, (len >>> 8).toUInt8, len.toUInt8]
  else [0x84, (len >>> 24).toUInt8, (len >>> 16).toUInt8, (len >>> 8).toUInt8, len.toUInt8]

theorem bEncDefLen_writes (len : AsnLen) : (bEncDefLen len).Writes (unrolledOctets len) := by
  intro held
  unfold bEncDefLen unrolledOctets
  split_ifs <;> rfl

/-- The lengths that are written in as many octets as they need. -/
def FitsLadder (len : AsnLen) : Prop :=
  len.toNat < 16777126 ∨ 2 ^ 24 ≤ len.toNat ∧ len.toNat < 2 ^ 32

/-- The ladder of thresholds writes the shortest octets exactly for the lengths that fit it. -/
theorem unrolledOctets_eq_iff (len : AsnLen) :
    unrolledOctets len = minLength len.toNat ↔ FitsLadder len := by
  have octet : ∀ k : UInt64, k.toNat < 64 →
      (len >>> k).toUInt8 = UInt8.ofNat (len.toNat / 2 ^ k.toNat) := by
    intro k few
    apply UInt8.toNat_inj.mp
    rw [UInt64.toNat_toUInt8, UInt8.toNat_ofNat', UInt64.toNat_shiftRight, Nat.mod_eq_of_lt few,
      Nat.shiftRight_eq_div_pow]
  have low : len.toUInt8 = UInt8.ofNat len.toNat := by
    apply UInt8.toNat_inj.mp
    rw [UInt64.toNat_toUInt8, UInt8.toNat_ofNat']
  have second : (len >>> 8).toUInt8 = UInt8.ofNat (len.toNat / 256) := octet 8 (by decide)
  have third : (len >>> 16).toUInt8 = UInt8.ofNat (len.toNat / 256 / 256) := by
    rw [Nat.div_div_eq_div_mul]
    exact octet 16 (by decide)
  have fourth : (len >>> 24).toUInt8 = UInt8.ofNat (len.toNat / 256 / 256 / 256) := by
    rw [Nat.div_div_eq_div_mul, Nat.div_div_eq_div_mul]
    exact octet 24 (by decide)
  have below : ∀ k : UInt64, len < k ↔ len.toNat < k.toNat := fun k => UInt64.lt_iff_toNat_lt
  unfold unrolledOctets FitsLadder minLength
  rw [low, second, third, fourth]
  simp only [below]
  generalize len.toNat = n
  -- The cases are the steps of the ladder.
  by_cases one : n < (128 : UInt64).toNat
  · have less : n < 128 := one
    rw [if_pos one, if_pos less]
    exact iff_of_true rfl (.inl (by omega))
  have some : ¬ n < 128 := one
  rw [if_neg one, if_neg some]
  by_cases two : n < (256 : UInt64).toNat
  · have less : n < 256 := two
    rw [if_pos two, minOctets_of_pos (by omega), Nat.div_eq_of_lt less]
    exact iff_of_true rfl (.inl (by omega))
  have more : ¬ n < 256 := two
  rw [if_neg two]
  by_cases three : n < (65536 : UInt64).toNat
  · have less : n < 65536 := three
    rw [if_pos three, minOctets_of_pos (by omega), minOctets_of_pos (by omega),
      show n / 256 / 256 = 0 by omega]
    exact iff_of_true rfl (.inl (by omega))
  have several : ¬ n < 65536 := three
  rw [if_neg three]
  by_cases four : n < (16777126 : UInt64).toNat
  · have less : n < 16777126 := four
    rw [if_pos four, minOctets_of_pos (by omega), minOctets_of_pos (by omega),
      minOctets_of_pos (by omega), show n / 256 / 256 / 256 = 0 by omega]
    exact iff_of_true rfl (.inl less)
  have many : ¬ n < 16777126 := four
  rw [if_neg four]
  by_cases fits : 2 ^ 24 ≤ n ∧ n < 2 ^ 32
  · rw [minOctets_of_pos (by omega), minOctets_of_pos (by omega), minOctets_of_pos (by omega),
      minOctets_of_pos (by omega), show n / 256 / 256 / 256 / 256 = 0 by omega]
    exact iff_of_true rfl (.inr fits)
  · -- Four octets are written, which are too many or too few.
    refine iff_of_false (fun same => ?_) (fun holds => holds.elim many fits)
    have size := congrArg List.length same
    have four : (minOctets n).length = 4 := by simpa using size.symm
    have enough := length_minOctets_le.mp (Nat.le_of_eq four)
    have needed : ¬ (minOctets n).length ≤ 3 := by omega
    rw [length_minOctets_le] at needed
    omega

/-! ## What is read back -/

/-- Both decoders take octets for a length, from simple buffers and from chains. -/
structure TakenFor (octets : List UInt8) (len : AsnLen) : Prop where
  sBuf : (decTape (fun _ => True) SBuf.unread).Takes bDecLen octets len
  sBufDer : (decTape (fun _ => True) SBuf.unread).Takes dDecLen octets len
  expBuf : (decTape ExpBufRef.Steady ExpBufRef.unread).Takes bDecLen octets len
  expBufDer : (decTape ExpBufRef.Steady ExpBufRef.unread).Takes dDecLen octets len

theorem takenFor_of_isLength {octets : List UInt8} {len : AsnLen}
    (isLength : IsLength octets len.toNat) (few : octets.length ≤ 9) : TakenFor octets len := by
  have read : DerLenRead octets len := ⟨_, isLength, few, UInt64.ofNat_toNat.symm⟩
  exact ⟨sBuf_inOrder.bDecLen_recognises.takes (.inr read),
    sBuf_inOrder.dDecLen_recognises.takes read, expBuf_inOrder.bDecLen_recognises.takes (.inr read),
    expBuf_inOrder.dDecLen_recognises.takes read⟩

/-- Both encoders of a length write the same octets, than which no definite form of the length is
shorter, and which the decoders read back and count. -/
def EncodedAlike (len : AsnLen) : Prop :=
  ∃ octets, (bEncDefLen len).Writes octets ∧ (bEncDefLen2 len.toInt64).Writes octets ∧
    (∀ w, IsLength w len.toNat → octets.length ≤ w.length) ∧ TakenFor octets len

theorem fitsLadder_of_alike {len : AsnLen} (small : len.toNat < 2 ^ 63)
    (alike : EncodedAlike len) : FitsLadder len := by
  obtain ⟨octets, unrolled, looped, -⟩ := alike
  rw [← unrolledOctets_eq_iff, ← unrolled.unique (bEncDefLen_writes len)]
  exact looped.unique (bEncDefLen2_writes small)

/-- The encoders of a length agree, and write what is shortest and read back, exactly for the lengths
that the ladder of the unrolled one fits. -/
theorem encodedAlike_iff {len : AsnLen} (small : len.toNat < 2 ^ 63) :
    EncodedAlike len ↔ FitsLadder len := by
  constructor
  · exact fitsLadder_of_alike small
  · intro fits
    have same := (unrolledOctets_eq_iff len).mpr fits
    have isLength : IsLength (minLength len.toNat) len.toNat :=
      isLength_minLength (Nat.lt_trans small (by decide))
    have few : (minLength len.toNat).length ≤ 9 := by
      have digits : (minOctets len.toNat).length ≤ 8 := length_minOctets_le.mpr (by omega)
      rw [minLength]
      split_ifs
      · simp
      · rw [List.length_cons]
        omega
    exact ⟨minLength len.toNat, same ▸ bEncDefLen_writes len, bEncDefLen2_writes small,
      fun w shorter => length_minLength_le shorter, takenFor_of_isLength isLength few⟩

theorem encodedAlike_iff_of_two_hundred : EncodedAlike 200 :=
  (encodedAlike_iff (by decide)).mpr (.inl (by decide))

/-- The last lengths of three octets are written in four. -/
theorem not_encodedAlike : ¬ ∀ len : AsnLen, len.toNat < 2 ^ 63 → EncodedAlike len := by
  intro alike
  have fits := fitsLadder_of_alike (by decide) (alike 16777126 (by decide))
  rcases fits with below | ⟨above, -⟩
  · exact absurd below (by decide)
  · exact absurd above (by decide)

/-! ## The indefinite form -/

section

variable {β : Type} [GenBuf β] {inv : β → Prop} {handles : UInt64 → Prop}
  {unread : β → List UInt8}

/-- The lengths that are read are what their octets write, and the word of the indefinite form is
returned for its octet alone, and never under the distinguished rules. -/
structure LengthsExact (unread : β → List UInt8) (s : DecState β) : Prop where
  indefinite : ∀ {n len m s'}, (bDecLen n).run s = .ok (len, m) s' → len = INDEFINITE_LEN →
    (unread s.buf).head? = some 0x80
  value : ∀ {n len m s'}, (bDecLen n).run s = .ok (len, m) s' →
    (unread s.buf).head? = some 0x80 ∨
      ∃ w, IsLength w len.toNat ∧ unread s.buf = w ++ unread s'.buf
  definite : ∀ {n len m s'}, (dDecLen n).run s = .ok (len, m) s' → len ≠ INDEFINITE_LEN

/-- The octets of the largest length that fits a word. -/
def forgedOctets : List UInt8 :=
  0x88 :: List.replicate 8 0xFF

theorem isLength_forgedOctets : IsLength forgedOctets (2 ^ 64 - 1) :=
  .inr ⟨0x88, List.replicate 8 0xFF, rfl, by decide, by decide, rfl, rfl⟩

/-- Only the largest length has the word of the indefinite form. -/
theorem eq_forgedOctets {w : List UInt8} {m : Nat} (isLength : IsLength w m) (few : w.length ≤ 9)
    (forged : UInt64.ofNat m = INDEFINITE_LEN) : w = forgedOctets := by
  have small : m < 2 ^ 64 := isLength.lt (show 1 ≤ 8 by decide) few
  have largest : m = 2 ^ 64 - 1 := by
    have value := congrArg UInt64.toNat forged
    rwa [UInt64.toNat_ofNat_of_lt' small] at value
  rcases isLength with ⟨c, rfl, -, rfl⟩ | ⟨c, more, rfl, -, -, count, rfl⟩
  · have octet := c.toNat_lt
    omega
  · rw [List.length_cons] at few
    have digits := ofOctets_lt more
    -- Fewer than eight octets do not reach the number.
    have eight : more.length = 8 := by
      by_contra other
      have fewer : 256 ^ more.length ≤ 256 ^ 7 := Nat.pow_le_pow_right (by decide) (by omega)
      omega
    have all := eq_replicate_of_ofOctets more (by rw [largest, eight]; rfl)
    rw [eight] at all count
    rw [all, show c = 0x88 from UInt8.toNat_inj.mp count]
    rfl

theorem InOrder.clear_of_bDecLen (inOrder : InOrder inv handles unread) {s s' : DecState β}
    {n m len : AsnLen} (holds : inv s.buf) (ran : (bDecLen n).run s = .ok (len, m) s') :
    GenBuf.readError s.buf = false := by
  obtain ⟨k, some, rfl, clear⟩ := bDecLen_hasRead ran
  obtain ⟨j, rfl⟩ := Nat.exists_eq_succ_of_ne_zero (Nat.ne_of_gt some)
  obtain ⟨c, rest, -, noError⟩ := inOrder.held_of_clear holds clear
  exact noError

/-- Lengths are exact unless the octets are those of the largest one. -/
theorem InOrder.exactLengths_iff (inOrder : InOrder inv handles unread) {s : DecState β}
    (holds : inv s.buf) :
    LengthsExact unread s ↔
      ¬ (GenBuf.readError s.buf = false ∧ forgedOctets <+: unread s.buf) := by
  constructor
  · rintro exact ⟨noError, rest, tape⟩
    obtain ⟨s', ran, -⟩ := inOrder.bDecLen_recognises.accepts ⟨holds, noError⟩ tape.symm
      (.inr ⟨_, isLength_forgedOctets, by decide, rfl⟩) 0
    have first := exact.indefinite ran rfl
    rw [← tape, forgedOctets] at first
    simp at first
  · intro genuine
    -- A definite length that has the word of the indefinite form is the forged one.
    have definite : ∀ {w rest len}, GenBuf.readError s.buf = false → DerLenRead w len →
        unread s.buf = w ++ rest → len ≠ INDEFINITE_LEN := by
      rintro w rest len noError ⟨m, isLength, few, rfl⟩ tape forged
      exact genuine ⟨noError, rest, by rw [tape, eq_forgedOctets isLength few forged]⟩
    refine ⟨?_, ?_, ?_⟩
    · intro n len m s' ran forged
      have noError := inOrder.clear_of_bDecLen holds ran
      obtain ⟨-, w, read, tape, -⟩ := inOrder.bDecLen_recognises.sound ⟨holds, noError⟩ ran
      rcases read with ⟨rfl, -⟩ | read
      · rw [show unread s.buf = _ from tape]
        rfl
      · exact absurd forged (definite noError read tape)
    · intro n len m s' ran
      have noError := inOrder.clear_of_bDecLen holds ran
      obtain ⟨-, w, read, tape, -⟩ := inOrder.bDecLen_recognises.sound ⟨holds, noError⟩ ran
      rcases read with ⟨rfl, -⟩ | ⟨k, isLength, few, rfl⟩
      · left
        rw [show unread s.buf = _ from tape]
        rfl
      · right
        have small : k < 2 ^ 64 := isLength.lt (show 1 ≤ 8 by decide) few
        exact ⟨w, by rwa [UInt64.toNat_ofNat_of_lt' small], tape⟩
    · intro n len m s' ran
      have noError := inOrder.clear_of_bDecLen holds (dDecLen_eq_ok.mp ran).1
      obtain ⟨-, w, read, tape, -⟩ := inOrder.dDecLen_recognises.sound ⟨holds, noError⟩ ran
      exact definite noError read tape

end

/-- In simple buffers and in chains, lengths are exact unless the data begins with the octets of the
largest length that fits a word. -/
theorem lengthsExact_iff (s : DecState SBuf) (t : DecState ExpBufRef) :
    (LengthsExact SBuf.unread s ↔
      ¬ (s.buf.readError = false ∧ forgedOctets <+: s.buf.unread)) ∧
    (t.buf.Steady → (LengthsExact ExpBufRef.unread t ↔
      ¬ (t.buf.buf.readError = false ∧ forgedOctets <+: t.buf.unread))) :=
  ⟨sBuf_inOrder.exactLengths_iff trivial, fun steady => expBuf_inOrder.exactLengths_iff steady⟩

theorem lengthsExact_iff_one_octet :
    LengthsExact SBuf.unread ⟨sBufInstallData (fun _ => 5) 4096 1, initialGlobals⟩ ∧
      LengthsExact ExpBufRef.unread
        ⟨expBufInstallDataInBuf ⟨fun _ => 5, 4096⟩ 1, initialGlobals⟩ := by
  have steady : (expBufInstallDataInBuf ⟨fun _ => 5, 4096⟩ 1).Steady :=
    ⟨⟨⟨by decide, by decide⟩, fun _ linked => absurd linked List.not_mem_nil⟩,
      fun set => absurd set (by decide), fun _ linked => absurd linked List.not_mem_nil,
      by decide⟩
  obtain ⟨simple, chain⟩ := lengthsExact_iff
    ⟨sBufInstallData (fun _ => 5) 4096 1, initialGlobals⟩
    ⟨expBufInstallDataInBuf ⟨fun _ => 5, 4096⟩ 1, initialGlobals⟩
  exact ⟨simple.mpr (by decide), (chain steady).mpr (by decide)⟩

/-- Eight octets of ones behind their count are taken for the indefinite form. -/
theorem not_lengthsExact : ¬ ∀ s : DecState SBuf, LengthsExact SBuf.unread s := by
  intro exact
  have genuine := (sBuf_inOrder.exactLengths_iff trivial).mp
    (exact ⟨sBufInstallData (fun a => if a = 4096 then 0x88 else 0xFF) 4096 9, initialGlobals⟩)
  exact genuine ⟨rfl, by decide⟩

end Esnacc
