import Esnacc.Cxx.NamedBits
import Esnacc.Lib.Run

/-! Calls that change a C++ bit string, and when named bits stay canonical through them. -/

namespace Esnacc.Cxx

open Lib

namespace NamedBits

/-! ## Calls -/

/-- A call that changes a bit string; octets and bit strings are absent where they are its own. -/
inductive BitsCall where
  | set (numBits : UInt64)
  | setOcts (bitOcts : Option (List UInt8)) (numBits : UInt64)
  | setFrom (b : Option NamedBits)
  | setSize (newsize : UInt64)
  | setBit (bit : UInt64)
  | clrBit (bit : UInt64)

/-- What a call makes of an object. -/
def changed (x : NamedBits) : BitsCall → Except Thrown NamedBits
  | .set numBits => return x.set numBits
  | .setOcts bitOcts numBits => x.setOcts bitOcts numBits
  | .setFrom none => return x
  | .setFrom (some b) => b.setFrom
  | .setSize newsize => x.setSize newsize
  | .setBit bit => x.setBit bit
  | .clrBit bit => x.clrBit bit

/-- Make a call: an exception leaves the object, and nothing is known behind an access outside it. -/
def step (x : NamedBits) (call : BitsCall) : Option (NamedBits × Except Thrown Unit) :=
  match x.changed call with
  | .ok y => some (y, .ok ())
  | .error .fault => none
  | .error thrown => some (x, .error thrown)

/-- An object that is made without a value. -/
def fresh : NamedBits :=
  ⟨0, none, false⟩

/-! ## Calls that keep an object clean -/

/-- No bit behind some bits is set in the octet of the last one. -/
def ClearBehind (octs : List UInt8) (bitLen : ℕ) : Prop :=
  ∀ i, bitLen ≤ i → i < 8 * ((bitLen - 1) / 8 + 1) → (octs.flatMap bitsOf)[i]? ≠ some true

/-- A number of bits of which the octets can be counted. -/
def Countable (bitLen : UInt64) : Prop :=
  bitLen.toNat < 2 ^ 64 - 7

instance (bitLen : UInt64) : Decidable (Countable bitLen) :=
  inferInstanceAs (Decidable (_ < _))

/--
A call that keeps an object clean.

A new size is counted, octets have some bits with none set behind them, and a smaller size leaves no
bit that is set behind it in the octet of its last one.
-/
def KeepsClean (x : NamedBits) : BitsCall → Prop
  | .set numBits => Countable numBits
  | .setOcts none _ => True
  | .setOcts (some octs) numBits => ((numBits + 7) / 8).toNat ≤ octs.length →
    0 < numBits ∧ Countable numBits ∧ ClearBehind octs numBits.toNat
  | .setFrom none => True
  | .setFrom (some b) => ∀ copied, copyOctets b.bits b.length.toNat = .ok copied →
    b.bitLen = 0 ∨ Countable b.bitLen ∧ ClearBehind copied b.bitLen.toNat
  | .setSize newsize =>
    if x.bitLen < newsize then Countable newsize
    else ClearBehind (x.bits.getD []) newsize.toNat
  | .setBit _ => True
  | .clrBit _ => True

/-- How many octets some bits need. -/
theorem toNat_octets (n : UInt64) :
    ((n + 7) / 8).toNat = if Countable n then (n.toNat + 7) / 8 else 0 := by
  have word := n.toNat_lt
  have eight : (8 : UInt64).toNat = 8 := rfl
  have seven : (7 : UInt64).toNat = 7 := rfl
  rw [UInt64.toNat_div, UInt64.toNat_add, eight, seven]
  by_cases countable : Countable n
  · rw [if_pos countable]
    unfold Countable at countable
    omega
  · rw [if_neg countable]
    unfold Countable at countable
    omega

/-- An object with an array is clean if the last octet is in it and clear behind the bits. -/
theorem clean_some_iff {bitLen : UInt64} {octs : List UInt8} {nblFlag : Bool} :
    Clean ⟨bitLen, some octs, nblFlag⟩ ↔
      (bitLen.toNat - 1) / 8 < octs.length ∧ ClearBehind octs bitLen.toNat := by
  constructor
  · intro clean
    exact ⟨clean.inside octs rfl, clean.clear octs rfl⟩
  · rintro ⟨inside, clear⟩
    refine ⟨nofun, ?_, ?_⟩
    · rintro _ ⟨⟩
      exact inside
    · rintro _ ⟨⟩
      exact clear

/-- Octets in front that are all the bits need are clear behind them if the whole ones are. -/
theorem clearBehind_take {octs : List UInt8} {bitLen n : ℕ} (enough : n ≤ octs.length)
    (all : (bitLen - 1) / 8 + 1 ≤ n) :
    ClearBehind (octs.take n) bitLen ↔ ClearBehind octs bitLen := by
  have same : ∀ i, i < 8 * ((bitLen - 1) / 8 + 1) →
      ((octs.take n).flatMap bitsOf)[i]? = (octs.flatMap bitsOf)[i]? := by
    intro i below
    rw [flatMap_bitsOf_take enough, List.getElem?_take_of_lt (by omega)]
  constructor
  · intro clear i behind below
    rw [← same i below]
    exact clear i behind below
  · intro clear i behind below
    rw [same i below]
    exact clear i behind below

/-- Octets of bits with zeros behind them are clear behind more bits. -/
theorem clearBehind_zeros {octs : List UInt8} {bitLen size k : ℕ}
    (clear : ∀ i, bitLen ≤ i → i < 8 * octs.length → (octs.flatMap bitsOf)[i]? ≠ some true)
    (more : bitLen ≤ size) : ClearBehind (octs ++ .replicate k 0) size := by
  intro i behind _
  have zeros : (List.replicate k (0 : UInt8)).flatMap bitsOf = .replicate (8 * k) false := by
    rw [flatMap_bitsOf_zeros fun c isIn => List.eq_of_mem_replicate isIn, List.length_replicate]
  rw [List.flatMap_append, zeros]
  by_cases front : i < 8 * octs.length
  · rw [List.getElem?_append_left (by rwa [length_flatMap_bitsOf])]
    exact clear i (by omega) front
  · rw [List.getElem?_append_right (by rw [length_flatMap_bitsOf]; omega), List.getElem?_replicate]
    split_ifs <;> simp

theorem set_clean_iff {x : NamedBits} (clean : x.Clean) (numBits : UInt64) :
    (x.set numBits).Clean ↔ Countable numBits := by
  unfold set
  by_cases least : 0 < numBits
  · rw [if_pos least, clean_some_iff, List.length_replicate, toNat_octets]
    have positive : 0 < numBits.toNat := least
    by_cases countable : Countable numBits
    · rw [if_pos countable]
      refine iff_of_true ⟨by omega, ?_⟩ countable
      have nothing : ∀ i, 0 ≤ i → i < 8 * ([] : List UInt8).length →
          (([] : List UInt8).flatMap bitsOf)[i]? ≠ some true := fun i _ => nofun
      exact clearBehind_zeros nothing (Nat.zero_le _)
    · rw [if_neg countable]
      exact iff_of_false (fun both => absurd both.1 (Nat.not_lt_zero _)) countable
  · have none : numBits = 0 := by
      rw [← UInt64.toNat_inj]
      exact Nat.eq_zero_of_not_pos least
    rw [if_neg least, none]
    exact iff_of_true clean (by decide)

/-- Octets that are copied are the first ones of an array, unless there are none. -/
theorem copyOctets_eq_ok {bits : Option (List UInt8)} {n : ℕ} {copied : List UInt8} :
    copyOctets bits n = .ok copied ↔
      n = 0 ∧ copied = [] ∨ n ≠ 0 ∧ ∃ octs, bits = some octs ∧ n ≤ octs.length ∧
        copied = octs.take n := by
  unfold copyOctets
  by_cases none : n = 0
  · rw [if_pos none]
    constructor
    · intro same
      cases same
      exact .inl ⟨none, rfl⟩
    · rintro (⟨-, rfl⟩ | ⟨some, -⟩)
      · rfl
      · exact absurd none some
  · rw [if_neg none]
    cases bits with
    | none =>
      refine iff_of_false nofun ?_
      rintro (⟨zero, -⟩ | ⟨-, octs, there, -⟩)
      · exact none zero
      · cases there
    | some octs =>
      dsimp only
      by_cases short : octs.length < n
      · rw [if_pos short]
        refine iff_of_false nofun ?_
        rintro (⟨zero, -⟩ | ⟨-, octs', there, enough, -⟩)
        · exact none zero
        · cases there
          omega
      · rw [if_neg short]
        constructor
        · intro same
          cases same
          exact .inr ⟨none, octs, rfl, Nat.not_lt.1 short, rfl⟩
        · rintro (⟨zero, -⟩ | ⟨-, octs', there, -, rfl⟩)
          · exact absurd zero none
          · cases there
            rfl

/-- Octets that were copied for some bits are clean with the bits if they can be counted. -/
theorem clean_copied_iff {bitLen : UInt64} {copied : List UInt8} (nblFlag : Bool)
    (size : copied.length = ((bitLen + 7) / 8).toNat) :
    Clean ⟨bitLen, some copied, nblFlag⟩ ↔
      0 < bitLen ∧ Countable bitLen ∧ ClearBehind copied bitLen.toNat := by
  rw [clean_some_iff, size, toNat_octets, UInt64.lt_iff_toNat_lt, UInt64.toNat_zero]
  by_cases countable : Countable bitLen
  · rw [if_pos countable]
    constructor
    · rintro ⟨inside, clear⟩
      exact ⟨by omega, countable, clear⟩
    · rintro ⟨some, -, clear⟩
      exact ⟨by omega, clear⟩
  · rw [if_neg countable]
    exact iff_of_false (fun both => absurd both.1 (Nat.not_lt_zero _)) fun all => countable all.2.1

theorem length_copied {bits : Option (List UInt8)} {n : ℕ} {copied : List UInt8}
    (ran : copyOctets bits n = .ok copied) : copied.length = n := by
  rcases copyOctets_eq_ok.1 ran with ⟨rfl, rfl⟩ | ⟨-, octs, -, enough, rfl⟩
  · rfl
  · rw [List.length_take, Nat.min_eq_left enough]

theorem setOcts_clean_iff {x : NamedBits} (octs : List UInt8) (numBits : UInt64) :
    (∀ y, x.setOcts (some octs) numBits = .ok y → y.Clean) ↔
      (((numBits + 7) / 8).toNat ≤ octs.length →
        0 < numBits ∧ Countable numBits ∧ ClearBehind octs numBits.toNat) := by
  unfold setOcts
  dsimp only
  by_cases enough : ((numBits + 7) / 8).toNat ≤ octs.length
  · have size : (octs.take ((numBits + 7) / 8).toNat).length = ((numBits + 7) / 8).toNat := by
      rw [List.length_take, Nat.min_eq_left enough]
    have clean := clean_copied_iff x.nblFlag size
    have octets := toNat_octets numBits
    rw [copyOctets_eq enough]
    dsimp only [bind, Except.bind, pure, Except.pure]
    constructor
    · intro each _
      obtain ⟨some, countable, clear⟩ := clean.1 (each _ rfl)
      have positive : 0 < numBits.toNat := some
      rw [if_pos countable] at octets
      exact ⟨some, countable, (clearBehind_take enough (by omega)).1 clear⟩
    · rintro kept y ⟨⟩
      obtain ⟨some, countable, clear⟩ := kept enough
      have positive : 0 < numBits.toNat := some
      rw [if_pos countable] at octets
      exact clean.2 ⟨some, countable, (clearBehind_take enough (by omega)).2 clear⟩
  · refine iff_of_true (fun y ran => ?_) fun within => absurd within enough
    cases copied : copyOctets (some octs) ((numBits + 7) / 8).toNat with
    | error thrown =>
      rw [copied] at ran
      cases ran
    | ok seg =>
      rcases copyOctets_eq_ok.1 copied with ⟨none, -⟩ | ⟨-, octs', same, within, -⟩
      · exact absurd (none ▸ Nat.zero_le _) enough
      · cases same
        exact absurd within enough

theorem setFrom_clean_iff (b : NamedBits) :
    (∀ y, b.setFrom = .ok y → y.Clean) ↔
      ∀ copied, copyOctets b.bits b.length.toNat = .ok copied →
        b.bitLen = 0 ∨ Countable b.bitLen ∧ ClearBehind copied b.bitLen.toNat := by
  unfold setFrom
  dsimp only
  cases copied : copyOctets b.bits b.length.toNat with
  | error thrown => exact iff_of_true (fun y ran => by cases ran) fun seg ran => by cases ran
  | ok seg =>
    have size : seg.length = ((b.bitLen + 7) / 8).toNat := length_copied copied
    have octets := toNat_octets b.bitLen
    dsimp only [bind, Except.bind, pure, Except.pure]
    by_cases none : b.length.toNat = 0
    · -- Without octets there is no array, so that there are to be no bits.
      rw [if_pos none]
      have zero : Clean { b with bits := .none } ↔ b.bitLen = 0 :=
        ⟨fun clean => clean.none rfl, fun zero => ⟨fun _ => zero, nofun, nofun⟩⟩
      have countable : Countable b.bitLen → b.bitLen = 0 := by
        intro countable
        rw [if_pos countable] at octets
        change ((b.bitLen + 7) / 8).toNat = 0 at none
        exact UInt64.toNat_inj.1 (show b.bitLen.toNat = 0 by omega)
      constructor
      · rintro each _ ⟨⟩
        exact .inl (zero.1 (each _ rfl))
      · rintro kept y ⟨⟩
        rcases kept seg rfl with empty | ⟨counted, -⟩
        · exact zero.2 empty
        · exact zero.2 (countable counted)
    · rw [if_neg none]
      have clean := clean_copied_iff b.nblFlag size
      have positive : 0 < b.bitLen := by
        rw [UInt64.lt_iff_toNat_lt, UInt64.toNat_zero]
        by_contra empty
        have zero : b.bitLen = 0 := UInt64.toNat_inj.1 (Nat.eq_zero_of_not_pos empty)
        rw [length, zero] at none
        exact none rfl
      constructor
      · rintro each _ ⟨⟩
        exact .inr (clean.1 (each _ rfl)).2
      · rintro kept y ⟨⟩
        rcases kept seg rfl with empty | ⟨counted, clear⟩
        · rw [empty] at positive
          exact absurd positive (by decide)
        · exact clean.2 ⟨positive, counted, clear⟩

theorem setSize_clean_iff {x : NamedBits} (clean : x.Clean) (newsize : UInt64) :
    (∀ y, x.setSize newsize = .ok y → y.Clean) ↔
      if x.bitLen < newsize then Countable newsize
      else ClearBehind (x.bits.getD []) newsize.toNat := by
  unfold setSize
  by_cases more : x.bitLen < newsize
  · rw [if_pos more, if_pos more]
    have less : x.bitLen.toNat < newsize.toNat := more
    have octets := toNat_octets newsize
    have old := toNat_octets x.bitLen
    by_cases countable : Countable newsize
    · refine iff_of_true (fun y ran => ?_) countable
      have countable' : Countable x.bitLen := Nat.lt_trans less countable
      rw [if_pos countable] at octets
      rw [if_pos countable'] at old
      change x.length.toNat = _ at old
      dsimp only at ran
      rw [octets, Nat.min_eq_left (by omega)] at ran
      cases copied : copyOctets x.bits x.length.toNat with
      | error thrown =>
        rw [copied] at ran
        cases ran
      | ok seg =>
        have size := length_copied copied
        rw [copied] at ran
        cases ran
        rw [clean_some_iff, List.length_append, List.length_replicate]
        refine ⟨by omega, clearBehind_zeros (fun i behind front => ?_) (Nat.le_of_lt less)⟩
        -- Behind the bits that were there, the octets are clear.
        rcases copyOctets_eq_ok.1 copied with ⟨-, rfl⟩ | ⟨some, octs, held, enough, rfl⟩
        · exact absurd front (Nat.not_lt_zero _)
        · rw [size] at front
          rw [flatMap_bitsOf_take enough, List.getElem?_take_of_lt front]
          exact clean.clear octs held i behind (by omega)
    · rw [if_neg countable] at octets
      refine iff_of_false (fun each => ?_) countable
      dsimp only at each
      rw [octets, Nat.min_zero] at each
      have last := (clean_some_iff.1 (each _ rfl)).1
      exact absurd last (Nat.not_lt_zero _)
  · rw [if_neg more, if_neg more]
    have fewer : newsize.toNat ≤ x.bitLen.toNat := Nat.not_lt.1 more
    obtain ⟨bitLen, bits, nblFlag⟩ := x
    dsimp only at fewer ⊢
    cases bits with
    | none =>
      have zero : bitLen = 0 := clean.none rfl
      have empty : newsize = 0 := by
        rw [zero] at fewer
        exact UInt64.toNat_inj.1 (Nat.eq_zero_of_le_zero fewer)
      refine iff_of_true ?_ fun i _ _ => nofun
      rintro y ⟨⟩
      exact ⟨fun _ => empty, nofun, nofun⟩
    | some octs =>
      have inside : (bitLen.toNat - 1) / 8 < octs.length := clean.inside octs rfl
      constructor
      · intro each
        exact (clean_some_iff.1 (each _ rfl)).2
      · rintro clear y ⟨⟩
        exact clean_some_iff.2 ⟨by omega, clear⟩

/-- Changing one bit of an octet leaves the others. -/
def OneBit (change : UInt8 → UInt8 → UInt8) : Prop :=
  ∀ c k j, k < 8 → j < 8 → k ≠ j →
    (change c (shl 1 (7 - k))).toBitVec.getMsbD j = c.toBitVec.getMsbD j

theorem oneBit_or : OneBit fun c one => c ||| one := by
  intro c k j place other apart
  rw [UInt8.toBitVec_or, BitVec.getMsbD_or, getMsbD_shl_one place other, decide_eq_false apart,
    Bool.or_false]

theorem oneBit_and : OneBit fun c one => c &&& ~~~one := by
  intro c k j place other apart
  rw [UInt8.toBitVec_and, BitVec.getMsbD_and, UInt8.toBitVec_not, BitVec.getMsbD_not,
    getMsbD_shl_one place other, decide_eq_false apart]
  simp [other]

/-- Changing a bit keeps an object clean. -/
theorem changeBit_clean {change : UInt8 → UInt8 → UInt8} (oneBit : OneBit change) {x y : NamedBits}
    (clean : x.Clean) {bit : UInt64} (ran : x.changeBit change bit = .ok y) : y.Clean := by
  unfold changeBit at ran
  by_cases below : bit < x.bitLen
  · rw [if_pos below] at ran
    have less : bit.toNat < x.bitLen.toNat := below
    obtain ⟨bitLen, bits, nblFlag⟩ := x
    have octet : (bit / 8).toNat = bit.toNat / 8 := by
      rw [UInt64.toNat_div]
      rfl
    have place : (bit % 8).toNat = bit.toNat % 8 := by
      rw [UInt64.toNat_mod]
      rfl
    cases bits with
    | none => cases ran
    | some octs =>
      obtain ⟨inside, clear⟩ := clean_some_iff.1 clean
      dsimp only at less ran
      rw [octet, place, octetAt_of_lt (by omega)] at ran
      cases ran
      refine clean_some_iff.2 ⟨by rw [List.length_set]; exact inside, fun i behind within => ?_⟩
      have same : ((octs.set (bit.toNat / 8) (change octs[bit.toNat / 8]
          (shl 1 (7 - bit.toNat % 8)))).flatMap bitsOf)[i]? = (octs.flatMap bitsOf)[i]? := by
        rw [getElem?_flatMap_bitsOf, getElem?_flatMap_bitsOf, List.getElem?_set]
        by_cases here : bit.toNat / 8 = i / 8
        · -- The changed bit is before the end, and this one is not.
          have apart : bit.toNat % 8 ≠ i % 8 := by omega
          have there : i / 8 < octs.length := by omega
          rw [if_pos here, if_pos (by omega), Option.map_some,
            oneBit _ _ _ (Nat.mod_lt _ (by omega)) (Nat.mod_lt _ (by omega)) apart,
            List.getElem?_eq_getElem there, Option.map_some]
          simp only [here]
        · rw [if_neg here]
      rw [same]
      exact clear i behind within
  · rw [if_neg below] at ran
    cases ran

/-! ## Runs -/

/-- A call keeps a clean object clean exactly if it meets the condition. -/
theorem keepsClean_iff (x : NamedBits) (call : BitsCall) (clean : x.Clean) :
    x.KeepsClean call ↔ ∀ y out, x.step call = some (y, out) → y.Clean := by
  have after : (∀ y out, x.step call = some (y, out) → y.Clean) ↔
      ∀ y, x.changed call = .ok y → y.Clean := by
    unfold step
    cases made : x.changed call with
    | ok y =>
      constructor
      · rintro each y' ⟨⟩
        exact each y (.ok ()) rfl
      · rintro each y' out ⟨⟩
        exact each y rfl
    | error thrown =>
      refine iff_of_true (fun y out same => ?_) nofun
      cases thrown <;> cases same <;> exact clean
  rw [after]
  cases call with
  | set numBits =>
    rw [KeepsClean, ← set_clean_iff clean]
    constructor
    · rintro kept y ⟨⟩
      exact kept
    · exact fun each => each _ rfl
  | setOcts bitOcts numBits =>
    cases bitOcts with
    | none =>
      refine iff_of_true trivial ?_
      rintro y ⟨⟩
      exact clean
    | some octs => exact (setOcts_clean_iff octs numBits).symm
  | setFrom b =>
    cases b with
    | none =>
      refine iff_of_true trivial ?_
      rintro y ⟨⟩
      exact clean
    | some b => exact (setFrom_clean_iff b).symm
  | setSize newsize => exact (setSize_clean_iff clean newsize).symm
  | setBit bit => exact iff_of_true trivial fun y ran => changeBit_clean oneBit_or clean ran
  | clrBit bit => exact iff_of_true trivial fun y ran => changeBit_clean oneBit_and clean ran

theorem clean_fresh : fresh.Clean :=
  ⟨fun _ => rfl, nofun, nofun⟩

/--
Through all of a run of calls the named bits of an object are encoded canonically exactly if every
call keeps it clean.
-/
theorem canonical_through_iff (calls : List BitsCall) :
    (∀ k x outs, run step fresh (calls.take k) = some (x, outs) →
      (x.useNamedBitListRules true).Canonical) ↔ Along step KeepsClean fresh calls := by
  rw [← run_states_iff keepsClean_iff clean_fresh]
  constructor
  · intro each k x outs ran
    exact clean_of_canonical (each k x outs ran)
  · intro each k x outs ran
    exact (each k x outs ran).canonical

/-- A bit that is set behind a smaller size is written. -/
theorem not_canonical_through :
    ¬ ∀ (calls : List BitsCall) (x : NamedBits) (outs : List (Except Thrown Unit)),
      run step fresh calls = some (x, outs) → (x.useNamedBitListRules true).Canonical := by
  intro each
  have canonical := each [.set 8, .setBit 7, .setSize 4] ⟨4, some [1], false⟩ _ rfl
  exact (clean_of_canonical canonical).clear [1] rfl 7 (by decide) (by decide) (by decide)

end NamedBits

end Esnacc.Cxx
