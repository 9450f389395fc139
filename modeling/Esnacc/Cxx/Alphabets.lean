import Esnacc.Cxx.PerChars
import Esnacc.Cxx.PerUnits
import Mathlib.Data.List.Perm.Subperm

/-! What C++ PER puts for the characters of an ascending alphabet, and what it gets from there. -/

namespace Esnacc.Cxx

open Lib

variable {alphabet : List UInt8}

/-! ## Widths -/

/-- The number of bits that tell the characters of an alphabet apart; a power of 2 where aligned. -/
def charBits (alphabet : List UInt8) (isAligned : Bool) : Nat :=
  let B := (alphabet.length - 1).size
  if isAligned then 2 ^ (B - 1).size else B

/-- Whether characters are put as they are: the last one has its top bit set, or fits into the bits. -/
def PutAsIs (alphabet : List UInt8) (isAligned : Bool) : Prop :=
  ∀ last ∈ alphabet.getLast?, 128 ≤ last.toNat ∨ last.toNat < 2 ^ charBits alphabet isAligned

instance (alphabet : List UInt8) (isAligned : Bool) : Decidable (PutAsIs alphabet isAligned) :=
  inferInstanceAs (Decidable (∀ last ∈ alphabet.getLast?, _))

/-- An octet is read as itself, or as negative where its top bit is set. -/
theorem toInt_toInt8 (c : UInt8) :
    c.toNat < 128 ∧ c.toInt8.toInt = c.toNat ∨ 128 ≤ c.toNat ∧ c.toInt8.toInt = c.toNat - 256 := by
  have bound := c.toNat_lt
  have read : c.toInt8.toInt = (c.toNat : Int).bmod (2 ^ 8) := BitVec.toInt_eq_toNat_bmod _
  rw [read]
  by_cases small : c.toNat < 128
  · exact .inl ⟨small, Int.bmod_eq_of_le (by omega) (by omega)⟩
  · refine .inr ⟨Nat.le_of_not_lt small, ?_⟩
    have moved : (c.toNat : Int) = (c.toNat - 256) + (2 ^ 8 : Nat) := by omega
    rw [moved, Int.add_bmod_right]
    push_cast
    rw [Int.add_sub_cancel]
    exact Int.bmod_eq_of_le (by omega) (by omega)

theorem length_le_of_ascending (ascending : alphabet.Pairwise (· < ·)) : alphabet.length ≤ 256 := by
  have numbers : (alphabet.map UInt8.toNat).Nodup := by
    apply List.Pairwise.imp (R := (· < ·)) fun below => Nat.ne_of_lt below
    exact List.pairwise_map.mpr (ascending.imp fun below => UInt8.lt_iff_toNat_lt.mp below)
  have octets : alphabet.map UInt8.toNat ⊆ List.range 256 := by
    intro n inside
    obtain ⟨c, -, rfl⟩ := List.mem_map.mp inside
    exact List.mem_range.mpr c.toNat_lt
  -- Different numbers of a range are not more than the range has.
  have count := (List.subperm_of_subset numbers octets).length_le
  rwa [List.length_map, List.length_range] at count

theorem findB2From_eq {B power : Nat} (before : power ≤ (B - 1).size) (small : (B - 1).size < 31) :
    findB2From B power = .ok (2 ^ (B - 1).size) := by
  -- The induction is on the powers that are left.
  induction left : (B - 1).size - power generalizing power with
  | zero =>
    obtain rfl : power = (B - 1).size := by omega
    have room := Nat.lt_size_self (B - 1)
    rw [findB2From, if_neg (by omega), if_pos (by omega)]
    rfl
  | succ left ih =>
    have more : 2 ^ power ≤ B - 1 := Nat.lt_size.mp (by omega)
    have some := Nat.two_pow_pos power
    rw [findB2From, if_neg (by omega), if_neg (by omega)]
    exact ih (by omega) (by omega)

theorem le_getLast {last : UInt8} (ascending : alphabet.Pairwise (· < ·))
    (ends : alphabet.getLast? = some last) {c : UInt8} (inside : c ∈ alphabet) :
    c.toNat ≤ last.toNat := by
  obtain ⟨front, rfl⟩ := List.getLast?_eq_some_iff.mp ends
  rcases List.mem_append.mp inside with before | same
  · have below :=
      (List.pairwise_append.mp ascending).2.2 c before last (List.mem_singleton_self last)
    exact Nat.le_of_lt (UInt8.lt_iff_toNat_lt.mp below)
  · rw [List.mem_singleton.mp same]

section

variable (nonempty : alphabet ≠ []) (ascending : alphabet.Pairwise (· < ·))

include nonempty ascending

theorem numBits_eq : numBits alphabet = .ok (alphabet.length - 1).size ∧
    findB2 (alphabet.length - 1).size = .ok (2 ^ ((alphabet.length - 1).size - 1).size) ∧
    (alphabet.length - 1).size ≤ 8 := by
  have most := length_le_of_ascending ascending
  have some := List.length_pos_iff.mpr nonempty
  have few : (alphabet.length - 1).size ≤ 8 := Nat.size_le.mpr (by omega)
  have size : ((alphabet.length : Int) - 1) = (alphabet.length - 1 : Nat) := by omega
  refine ⟨?_, ?_, few⟩
  · rw [numBits, size, minBits_natCast (by omega)]
  · have less : ((alphabet.length - 1).size - 1).size ≤ 3 := Nat.size_le.mpr (by omega)
    exact findB2From_eq (Nat.zero_le _) (by omega)

/-- All the characters of an alphabet have numbers of its bits, which are not more than an octet has. -/
theorem charBits_spec (isAligned : Bool) :
    charBits alphabet isAligned ≤ 8 ∧ alphabet.length ≤ 2 ^ charBits alphabet isAligned := by
  obtain ⟨-, -, few⟩ := numBits_eq nonempty ascending
  have some := List.length_pos_iff.mpr nonempty
  have room := Nat.lt_size_self (alphabet.length - 1)
  generalize size : (alphabet.length - 1).size = B at few room
  have less : (B - 1).size ≤ 3 := Nat.size_le.mpr (by omega)
  have rounded := Nat.lt_size_self (B - 1)
  have power := Nat.pow_le_pow_right (n := 2) (by decide) less
  unfold charBits
  rw [size]
  cases isAligned with
  | false =>
    simp only [Bool.false_eq_true, if_false]
    exact ⟨few, by omega⟩
  | true =>
    -- The power of 2 is not below the width.
    have wider := Nat.pow_le_pow_right (n := 2) (by decide)
      (show B ≤ 2 ^ (B - 1).size by omega)
    simp only [if_true]
    exact ⟨by omega, by omega⟩

theorem charLen_eq (isAligned : Bool) : charLen alphabet isAligned =
    .ok (if PutAsIs alphabet isAligned then (8, true)
      else (charBits alphabet isAligned, false)) := by
  obtain ⟨bits, power, -⟩ := numBits_eq nonempty ascending
  obtain ⟨last, ends⟩ := Option.ne_none_iff_exists'.mp (mt List.getLast?_eq_none_iff.mp nonempty)
  -- A character with its top bit set is negative.
  have small : last.toInt8.toInt ≤ 2 ^ charBits alphabet isAligned - 1 ↔
      PutAsIs alphabet isAligned := by
    have positive : (1 : Int) ≤ 2 ^ charBits alphabet isAligned :=
      by exact_mod_cast Nat.one_le_two_pow
    have cast : ((2 ^ charBits alphabet isAligned : Nat) : Int) =
        2 ^ charBits alphabet isAligned := by
      push_cast
      rfl
    have bound := last.toNat_lt
    unfold PutAsIs
    simp only [ends, Option.mem_some_iff, forall_eq']
    rcases toInt_toInt8 last with ⟨low, same⟩ | ⟨high, negative⟩ <;> omega
  have ran : charLen alphabet isAligned = .ok (if last.toInt8.toInt ≤
      2 ^ charBits alphabet isAligned - 1 then (8, true)
      else (charBits alphabet isAligned, false)) := by
    unfold charLen charBits
    rw [bits]
    change (do let B2 ← findB2 (alphabet.length - 1).size; _) = _
    rw [power, ends]
    rfl
  rw [ran]
  simp only [small]

/-- A character that is not put as it is has fewer than seven bits, and those of its number. -/
theorem charBits_lt {isAligned : Bool} (mapped : ¬PutAsIs alphabet isAligned) :
    charBits alphabet isAligned < 7 ∧ ∀ c ∈ alphabet, c.toNat < 128 := by
  obtain ⟨last, ends⟩ := Option.ne_none_iff_exists'.mp (mt List.getLast?_eq_none_iff.mp nonempty)
  unfold PutAsIs at mapped
  simp only [ends, Option.mem_some_iff, forall_eq', not_or, Nat.not_le, Nat.not_lt] at mapped
  obtain ⟨low, wide⟩ := mapped
  constructor
  · by_contra many
    have power := Nat.pow_le_pow_right (n := 2) (by decide) (Nat.le_of_not_lt many)
    omega
  · intro c inside
    have below := le_getLast ascending ends inside
    omega

end

/-! ## Characters -/

/-- The number of bits that a character of an alphabet is put in. -/
def charUnit (alphabet : List UInt8) (isAligned : Bool) : Nat :=
  if PutAsIs alphabet isAligned then 8 else charBits alphabet isAligned

/-- The bits that are put for a character: its own, or those of its place in the alphabet. -/
def charPut (alphabet : List UInt8) (isAligned : Bool) (c : UInt8) : List Bool :=
  if PutAsIs alphabet isAligned then bitsOf c
  else (bitsOf (.ofNat (alphabet.idxOf c))).drop (8 - charBits alphabet isAligned)

/-- The character that is got from the bits of one: a zero where it was put as it is. -/
def charGot (alphabet : List UInt8) (isAligned : Bool) (c : UInt8) : UInt8 :=
  if PutAsIs alphabet isAligned then 0 else c

/-- The octet that is written over a character: the bits of its place come first. -/
def charLeft (alphabet : List UInt8) (isAligned : Bool) (c : UInt8) : UInt8 :=
  if PutAsIs alphabet isAligned then c
  else shl (.ofNat (alphabet.idxOf c)) (8 - charBits alphabet isAligned)

theorem shl_zero (c : UInt8) : shl c 0 = c := by
  simp [shl]

theorem shr_eight (c : UInt8) : shr c 8 = 0 := by
  -- All the bits of an octet are moved out.
  apply UInt8.toNat_inj.mp
  have bound := c.toNat_lt
  simp only [shr, UInt8.toNat_ofBitVec, BitVec.toNat_ushiftRight, Nat.shiftRight_eq_div_pow]
  exact Nat.div_eq_of_lt bound

/-- A search that only the character itself meets finds its place. -/
theorem findIdx?_eq_idxOf {xs : List UInt8} {p : UInt8 → Bool} {c : UInt8}
    (only : ∀ a ∈ xs, p a = (a == c)) (inside : c ∈ xs) : xs.findIdx? p = some (xs.idxOf c) := by
  induction xs with
  | nil => cases inside
  | cons a rest ih =>
    have first := only a List.mem_cons_self
    rw [List.findIdx?_cons, first, List.idxOf_cons]
    by_cases same : a = c
    · simp [same]
    · -- The character is one of the others.
      have later : c ∈ rest := (List.mem_cons.mp inside).resolve_left (Ne.symm same)
      have other : (a == c) = false := beq_eq_false_iff_ne.mpr same
      rw [ih (fun b there => only b (List.mem_cons_of_mem a there)) later, other]
      rfl

section

variable (nonempty : alphabet ≠ []) (ascending : alphabet.Pairwise (· < ·)) (isAligned : Bool)

include nonempty ascending

theorem length_charPut (c : UInt8) :
    (charPut alphabet isAligned c).length = charUnit alphabet isAligned := by
  obtain ⟨few, -⟩ := charBits_spec nonempty ascending isAligned
  unfold charPut charUnit
  by_cases asIs : PutAsIs alphabet isAligned
  · rw [if_pos asIs, if_pos asIs, length_bitsOf]
  · rw [if_neg asIs, if_neg asIs, List.length_drop, length_bitsOf]
    omega

theorem charSeg_eq {c : UInt8} (inside : c ∈ alphabet) : charSeg alphabet isAligned c =
    .ok (charLeft alphabet isAligned c, charUnit alphabet isAligned) := by
  unfold charSeg charLeft charUnit
  rw [charLen_eq nonempty ascending]
  by_cases asIs : PutAsIs alphabet isAligned
  · rw [if_pos asIs, if_pos asIs, if_pos asIs]
    change Except.ok (shl c (8 - 8), 8) = _
    rw [Nat.sub_self, shl_zero]
  · -- No character of the alphabet has a sign, so that only the character itself is met.
    obtain ⟨-, small⟩ := charBits_lt nonempty ascending asIs
    have found : alphabet.findIdx? (fun a => a.toInt8.toInt = (c.toNat : Int)) =
        some (alphabet.idxOf c) := by
      apply findIdx?_eq_idxOf _ inside
      intro a there
      have low := small a there
      rw [Bool.eq_iff_iff, decide_eq_true_iff, beq_iff_eq, ← UInt8.toNat_inj]
      rcases toInt_toInt8 a with ⟨-, same⟩ | ⟨high, -⟩ <;> omega
    rw [if_neg asIs, if_neg asIs, if_neg asIs]
    dsimp only [bind, Except.bind]
    rw [if_neg Bool.false_ne_true, found]
    rfl

theorem take_bitsOf_charLeft (c : UInt8) :
    (bitsOf (charLeft alphabet isAligned c)).take (charUnit alphabet isAligned) =
      charPut alphabet isAligned c := by
  obtain ⟨few, -⟩ := charBits_spec nonempty ascending isAligned
  unfold charLeft charUnit charPut
  by_cases asIs : PutAsIs alphabet isAligned
  · rw [if_pos asIs, if_pos asIs, if_pos asIs, List.take_of_length_le (by rw [length_bitsOf])]
  · rw [if_neg asIs, if_neg asIs, if_neg asIs, bitsOf_shl (by omega)]
    apply List.take_left'
    rw [List.length_drop, length_bitsOf]
    omega

/-- The characters of a string are put one by one. -/
theorem AsnString.interpret_interprets {x : List UInt8} (inside : ∀ c ∈ x, c ∈ alphabet) :
    Interprets (interpret alphabet isAligned x) (charUnit alphabet isAligned) x.length
      (x.flatMap (charPut alphabet isAligned)) := by
  intro b offset wellFormed within
  obtain ⟨few, -⟩ := charBits_spec nonempty ascending isAligned
  have width := length_charPut nonempty ascending isAligned
  -- The unit at the offset has the bits of the character there.
  have unit : ((x.flatMap (charPut alphabet isAligned)).drop
      (offset * charUnit alphabet isAligned)).take (charUnit alphabet isAligned) =
        charPut alphabet isAligned x[offset] := by
    rw [(flatMap_take_drop width x offset).2, List.drop_eq_getElem_cons within, List.flatMap_cons]
    exact List.take_left' (width _)
  have small : charUnit alphabet isAligned ≤ 8 := by
    unfold charUnit
    split <;> omega
  obtain ⟨b', ran, wrote⟩ := putSeg_puts wellFormed [charLeft alphabet isAligned x[offset]]
    (n := charUnit alphabet isAligned) (by simpa using small) (by omega)
  rw [List.flatMap_singleton, take_bitsOf_charLeft nonempty ascending] at ran wrote
  rw [unit]
  refine ⟨b', ?_, wrote⟩
  rw [interpret, List.getElem?_eq_getElem within]
  simp only [charSeg_eq nonempty ascending isAligned (inside _ (List.getElem_mem within)),
    ofExcept_ok, pure_bind]
  rw [run_bind_of_ok ran, width]
  rfl

/-- A character is got behind those that are there. -/
theorem AsnString.deterpret_gets (bAlign : Bool) (pos : Nat) (x : List UInt8) {c : UInt8}
    (inside : c ∈ alphabet) :
    Gets bAlign pos (charPut alphabet isAligned c) (deterpret alphabet isAligned x)
      (· = x ++ [charGot alphabet isAligned c]) := by
  intro r rest mode stands countable bitsDecoded
  obtain ⟨few, enough⟩ := charBits_spec nonempty ascending isAligned
  have width := length_charPut nonempty ascending isAligned c
  obtain ⟨octets, r', ran, front, mode', behind⟩ := stands.getBits countable width
  refine ⟨_, r', ?_, rfl, mode'.trans mode, by rwa [width]⟩
  rw [deterpret, charLen_eq nonempty ascending, width]
  by_cases asIs : PutAsIs alphabet isAligned
  · -- Eight bits are not kept.
    have unit : charUnit alphabet isAligned = 8 := by rw [charUnit, if_pos asIs]
    have got : charGot alphabet isAligned c = 0 := by rw [charGot, if_pos asIs]
    rw [unit] at ran ⊢
    simp only [if_pos asIs, ofExcept_ok, pure_bind, got]
    exact run_bind_of_ok ran
  · have unit : charUnit alphabet isAligned = charBits alphabet isAligned := by
      rw [charUnit, if_neg asIs]
    have got : charGot alphabet isAligned c = c := by rw [charGot, if_neg asIs]
    have put : charPut alphabet isAligned c =
        (bitsOf (.ofNat (alphabet.idxOf c))).drop (8 - charBits alphabet isAligned) := by
      rw [charPut, if_neg asIs]
    obtain ⟨least, -⟩ := charBits_lt nonempty ascending asIs
    have place := List.idxOf_lt_length_of_mem inside
    rw [unit] at ran front width ⊢
    -- The bits that were read are those of the place in the alphabet.
    have count : (shr (octets.headD 0) (8 - charBits alphabet isAligned)).toNat =
        alphabet.idxOf c := by
      by_cases one : charBits alphabet isAligned = 0
      · rw [one, Nat.pow_zero] at enough
        rw [one, Nat.sub_zero, shr_eight]
        change 0 = _
        omega
      · rw [toNat_shr_headD (by omega) few width front, put, ofBits_lastBits few]
        exact Nat.mod_eq_of_lt (by omega)
    have short : charBits alphabet isAligned ≤ 7 := by omega
    simp only [if_neg asIs, ofExcept_ok, pure_bind, got, Bool.false_eq_true, if_false, if_pos short]
    rw [run_bind_of_ok ran, count, List.getElem?_eq_getElem place,
      List.getElem_idxOf]
    rfl

end

end Esnacc.Cxx
