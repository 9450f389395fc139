import Esnacc.Cxx.BitContents
import Esnacc.Cxx.ContentTrips
import Esnacc.Cxx.PresenceBits
import Mathlib.Data.Finset.Lattice.Fold
import Mathlib.Order.Lattice.Nat

/-! Named bits of the C++ library: changing single bits and sizes, and the contents and length. -/

namespace Esnacc.Cxx

open Lib

/-! ## The object -/

/-- A bit string with its array, unless there is none, and whether its bits are named ones. -/
structure NamedBits where
  bitLen : UInt64
  bits : Option (List UInt8)
  nblFlag : Bool

namespace NamedBits

/-- Copy the first octets of an array. -/
def copyOctets (bits : Option (List UInt8)) (n : Nat) : Except Thrown (List UInt8) :=
  if n = 0 then return []
  else
    match bits with
    | none => throw .fault
    | some octs => if octs.length < n then throw .fault else return octs.take n

/-- An octet of the array. -/
def octetAt (bits : Option (List UInt8)) (octet : Nat) : Except Thrown UInt8 :=
  match bits with
  | none => throw .fault
  | some octs =>
    match octs[octet]? with
    | none => throw .fault
    | some c => return c

/-- How many octets the bits need. -/
def length (x : NamedBits) : UInt64 :=
  (x.bitLen + 7) / 8

/-- Make the bit string one of the given number of zeros; a number of zero changes nothing. -/
def set (x : NamedBits) (numBits : UInt64) : NamedBits :=
  if 0 < numBits then
    { x with bitLen := numBits, bits := some (.replicate ((numBits + 7) / 8).toNat 0) }
  else x

/-- Copy the octets of bits, unless they are the object's own. -/
def setOcts (x : NamedBits) (bitOcts : Option (List UInt8)) (numBits : UInt64) :
    Except Thrown NamedBits :=
  match bitOcts with
  | none => return x
  | some octs => do
    let copied ← copyOctets (some octs) ((numBits + 7) / 8).toNat
    return { x with bitLen := numBits, bits := some copied }

/-- Copy another bit string. -/
def setFrom (b : NamedBits) : Except Thrown NamedBits := do
  let octetLen := b.length.toNat
  let copied ← copyOctets b.bits octetLen
  return { b with bits := if octetLen = 0 then none else some copied }

/-- Change the number of bits; only for more bits there is a new array. -/
def setSize (x : NamedBits) (newsize : UInt64) : Except Thrown NamedBits :=
  if x.bitLen < newsize then do
    let newLength := ((newsize + 7) / 8).toNat
    let copied ← copyOctets x.bits (min x.length.toNat newLength)
    return { x with
      bitLen := newsize
      bits := some (copied ++ .replicate (newLength - copied.length) 0) }
  else return { x with bitLen := newsize }

/-- Change the octet in which a bit is, given the octet of that bit alone. -/
def changeBit (change : UInt8 → UInt8 → UInt8) (x : NamedBits) (bit : UInt64) :
    Except Thrown NamedBits :=
  if bit < x.bitLen then do
    let octet := (bit / 8).toNat
    let octetsBit := 7 - (bit % 8).toNat
    let c ← octetAt x.bits octet
    return { x with bits := x.bits.map fun octs => octs.set octet (change c (shl 1 octetsBit)) }
  else throw (.snaccException "Parameter is larger than BIT STRING size" 6008)

def setBit : NamedBits → UInt64 → Except Thrown NamedBits :=
  changeBit fun c one => c ||| one

def clrBit : NamedBits → UInt64 → Except Thrown NamedBits :=
  changeBit fun c one => c &&& ~~~one

/-- Whether a bit is set; none is behind the end. -/
def getBit (x : NamedBits) (bit : UInt64) : Except Thrown Bool :=
  if bit < x.bitLen then do
    let octet := (bit / 8).toNat
    let octetsBit := 7 - (bit % 8).toNat
    let c ← octetAt x.bits octet
    return decide (c &&& shl 1 octetsBit ≠ 0)
  else return false

def useNamedBitListRules (x : NamedBits) (flag : Bool) : NamedBits :=
  { x with nblFlag := flag }

/-! ## Contents -/

/-- The last octet that has bits. -/
def lastOctet (bitLen : UInt64) : UInt64 :=
  if bitLen ≤ 8 then 0 else if bitLen % 8 = 0 then bitLen / 8 - 1 else bitLen / 8

/-- Go back from an octet to one that is not zero, or to the first one. -/
def finalOctet (bits : Option (List UInt8)) : Nat → Except Thrown Nat
  | 0 => return 0
  | octet + 1 => do
    let c ← octetAt bits (octet + 1)
    if c = 0 then finalOctet bits octet else return octet + 1

/-- How many of the last bits of an octet are not set. -/
def unsetBits (c : UInt8) : Nat :=
  (List.range 8).findIdx fun i => c &&& shl 1 i ≠ 0

/-- How many octets are written for named bits, and how many bits of the last one are unused. -/
def namedLens (x : NamedBits) : Except Thrown (Nat × Nat) :=
  match x.bits with
  | none => return (0, 0)
  | some octs => do
    let octet ← finalOctet (some octs) (lastOctet x.bitLen).toNat
    let c ← octetAt (some octs) octet
    if octet = 0 ∧ c = 0 then return (0, 0) else return (octet + 1, unsetBits c)

/-- How many octets are written for bits without names, and how many of the last one are unused. -/
def plainLens (x : NamedBits) : Nat × Nat :=
  let unusedBits := (x.bitLen % 8).toNat
  (x.length.toNat, if unusedBits ≠ 0 then 8 - unusedBits else unusedBits)

/-- Write the contents. -/
def bEncContent (x : NamedBits) : BufM AsnLen := do
  let (byteLen, unusedBits) ← (if x.nblFlag then ofExcept x.namedLens else pure x.plainLens)
  let seg ← ofExcept (copyOctets x.bits byteLen)
  putSegRvs seg
  putByteRvs (.ofNat unusedBits)
  return .ofNat byteLen + 1

/-- The number of bits that are written. -/
def encLen (x : NamedBits) : Except Thrown UInt64 :=
  if x.nblFlag then do
    let (byteLen, unusedBits) ← x.namedLens
    return .ofNat byteLen * 8 - .ofNat unusedBits
  else return x.bitLen

end NamedBits

/-! ## The form of a set of named bits -/

/-- The bits of a set, up to the last one. -/
def shownOf (marks : Finset ℕ) : List Bool :=
  (List.range (marks.sup (· + 1))).map (· ∈ marks)

/-- No bit behind the last one that is set is shown. -/
def EndsSet (shown : List Bool) : Prop :=
  ∀ bit ∈ shown.getLast?, bit = true

/-- Contents of shown bits: how many are unused, and octets of the bits with zeros behind them. -/
def Packs (shown : List Bool) (contents : List UInt8) : Prop :=
  ∃ unused octets, contents = unused :: octets ∧ unused ≤ 7 ∧
    octets.flatMap bitsOf = shown ++ .replicate unused.toNat false

/-- Bits that end with one that is set are those of their set. -/
theorem shownOf_eq {marks : Finset ℕ} {shown : List Bool} (ends : EndsSet shown)
    (same : ∀ i, i ∈ marks ↔ shown[i]? = some true) : shownOf marks = shown := by
  -- The last bit that is set is the last one shown.
  have size : marks.sup (· + 1) = shown.length := by
    apply le_antisymm
    · refine Finset.sup_le fun i isIn => ?_
      obtain ⟨inside, -⟩ := List.getElem?_eq_some_iff.1 ((same i).1 isIn)
      exact inside
    · cases shown using List.reverseRecOn with
      | nil => exact Nat.zero_le _
      | append_singleton front last =>
        have set : last = true := ends last (by simp)
        have isIn : front.length ∈ marks := (same _).2 (by simp [set])
        rw [List.length_append, List.length_singleton]
        exact Finset.le_sup (f := (· + 1)) isIn
  apply List.ext_getElem?
  intro i
  rw [shownOf, List.getElem?_map, size]
  by_cases inside : i < shown.length
  · rw [List.getElem?_range inside, Option.map_some, List.getElem?_eq_getElem inside, Option.some_inj]
    have here := same i
    rw [List.getElem?_eq_getElem inside, Option.some_inj] at here
    cases bit : shown[i] with
    | true => exact decide_eq_true (here.2 bit)
    | false =>
      refine decide_eq_false fun isIn => ?_
      rw [here.1 isIn] at bit
      cases bit
  · rw [List.getElem?_eq_none_iff.2 (by simpa using inside),
      List.getElem?_eq_none_iff.2 (Nat.not_lt.1 inside)]
    rfl

/-! ## What is written -/

namespace NamedBits

theorem bitsOf_unsetBits {c : UInt8} (some : c ≠ 0) :
    unsetBits c ≤ 7 ∧
      bitsOf c = (bitsOf c).take (7 - unsetBits c) ++ true :: .replicate (unsetBits c) false := by
  -- There are few enough octets to look at each of them.
  have each : ∀ c : Fin 256, UInt8.ofFin c ≠ 0 → unsetBits (.ofFin c) ≤ 7 ∧
      bitsOf (.ofFin c) = (bitsOf (.ofFin c)).take (7 - unsetBits (.ofFin c)) ++
        true :: .replicate (unsetBits (.ofFin c)) false := by
    decide +kernel
  exact each c.toFin some

theorem flatMap_bitsOf_zeros {octets : List UInt8} (zeros : ∀ c ∈ octets, c = 0) :
    octets.flatMap bitsOf = .replicate (8 * octets.length) false := by
  rw [List.eq_replicate_iff]
  refine ⟨length_flatMap_bitsOf octets, fun bit isIn => ?_⟩
  obtain ⟨c, isIn, among⟩ := List.mem_flatMap.1 isIn
  have none : bitsOf 0 = .replicate 8 false := by decide
  rw [zeros c isIn, none] at among
  exact List.eq_of_mem_replicate among

theorem octetAt_of_lt {octs : List UInt8} {octet : Nat} (inside : octet < octs.length) :
    octetAt (some octs) octet = .ok octs[octet] := by
  rw [octetAt, List.getElem?_eq_getElem inside]
  rfl

/-- The octet that is gone back to. -/
theorem finalOctet_spec {octs : List UInt8} {octet : Nat} (inside : octet < octs.length) :
    ∃ last c, finalOctet (some octs) octet = .ok last ∧ last ≤ octet ∧ octs[last]? = some c ∧
      (last ≠ 0 → c ≠ 0) ∧ ∀ c ∈ (octs.take (octet + 1)).drop (last + 1), c = 0 := by
  induction octet with
  | zero =>
    refine ⟨0, octs[0], rfl, Nat.le_refl 0, List.getElem?_eq_getElem inside, fun some => absurd rfl some,
      ?_⟩
    rw [List.drop_of_length_le (by rw [List.length_take]; omega)]
    exact fun c isIn => absurd isIn List.not_mem_nil
  | succ octet ih =>
    rw [finalOctet, octetAt_of_lt inside]
    dsimp only [bind, Except.bind]
    by_cases zero : octs[octet + 1] = 0
    · rw [if_pos zero]
      obtain ⟨last, c, ran, least, found, some, zeros⟩ := ih (by omega)
      refine ⟨last, c, ran, by omega, found, some, ?_⟩
      -- The zero octet is one more of those behind.
      rw [List.take_succ_eq_append_getElem inside, List.drop_append_of_le_length
        (by rw [List.length_take]; omega)]
      intro c isIn
      rcases List.mem_append.1 isIn with before | at_
      · exact zeros c before
      · rw [List.mem_singleton.1 at_, zero]
    · rw [if_neg zero]
      refine ⟨octet + 1, octs[octet + 1], rfl, Nat.le_refl _, List.getElem?_eq_getElem inside,
        fun _ => zero, ?_⟩
      rw [List.drop_of_length_le (by rw [List.length_take]; omega)]
      exact fun c isIn => absurd isIn List.not_mem_nil

/-- What is written of some octets: their bits up to the last one that is set. -/
structure Trims (octs : List UInt8) (octets byteLen unused : Nat) (shown : List Bool) : Prop where
  within : byteLen ≤ octets
  few : unused ≤ 7
  written : (octs.take byteLen).flatMap bitsOf = shown ++ .replicate unused false
  ends : EndsSet shown
  rest : ∃ zeros, (octs.take octets).flatMap bitsOf = shown ++ .replicate zeros false

/-- The lengths that are computed for named bits are those up to the last bit that is set. -/
theorem namedLens_trims {x : NamedBits} {octs : List UInt8} (held : x.bits = some octs)
    (inside : (lastOctet x.bitLen).toNat < octs.length) :
    ∃ byteLen unused shown, x.namedLens = .ok (byteLen, unused) ∧
      Trims octs ((lastOctet x.bitLen).toNat + 1) byteLen unused shown := by
  obtain ⟨last, c, ran, least, found, some, zeros⟩ := finalOctet_spec inside
  obtain ⟨within, rfl⟩ := List.getElem?_eq_some_iff.1 found
  have here := octetAt_of_lt within
  rw [namedLens, held]
  dsimp only
  generalize (lastOctet x.bitLen).toNat = most at *
  -- The octets looked at are those up to the last one, and zeros behind it.
  have parts : (octs.take (most + 1)).flatMap bitsOf = (octs.take last).flatMap bitsOf ++
      (bitsOf octs[last] ++ .replicate (8 * (most - last)) false) := by
    have split := List.take_append_drop (last + 1) (octs.take (most + 1))
    have count : ((octs.take (most + 1)).drop (last + 1)).length = most - last := by
      rw [List.length_drop, List.length_take]
      omega
    rw [← split, List.flatMap_append, flatMap_bitsOf_zeros zeros, count, List.take_take,
      Nat.min_eq_left (by omega), List.take_succ_eq_append_getElem within, List.flatMap_append,
      List.flatMap_singleton, List.append_assoc]
  rw [ran]
  dsimp only [bind, Except.bind]
  rw [here]
  dsimp only
  by_cases none : last = 0 ∧ octs[last] = 0
  · obtain ⟨rfl, zero⟩ := none
    rw [if_pos ⟨rfl, zero⟩]
    refine ⟨0, 0, [], rfl, by omega, by omega, rfl, nofun, 8 * (most + 1), ?_⟩
    rw [parts, zero]
    change [] ++ (List.replicate 8 false ++ _) = [] ++ _
    rw [List.nil_append, List.nil_append, List.replicate_append_replicate]
    congr 1
    omega
  · rw [if_neg none]
    have nonzero : octs[last] ≠ 0 := by
      by_cases first : last = 0
      · exact fun zero => none ⟨first, zero⟩
      · exact some first
    obtain ⟨few, bits⟩ := bitsOf_unsetBits nonzero
    generalize unsetBits octs[last] = unused at few bits
    refine ⟨last + 1, unused, (octs.take last).flatMap bitsOf ++
      ((bitsOf octs[last]).take (7 - unused) ++ [true]), rfl, by omega, few, ?_, ?_,
      unused + 8 * (most - last), ?_⟩
    · rw [List.take_succ_eq_append_getElem within, List.flatMap_append, List.flatMap_singleton]
      conv_lhs => rw [bits]
      simp only [List.append_assoc, List.singleton_append]
    · intro bit isIn
      rw [← List.append_assoc, List.getLast?_concat] at isIn
      exact (Option.some.inj isIn).symm
    · rw [parts]
      conv_lhs => rw [bits]
      simp only [List.append_assoc, List.nil_append, List.cons_append,
        List.replicate_append_replicate]

/-! ## What is set -/

theorem toNat_lastOctet (n : UInt64) : (lastOctet n).toNat = (n.toNat - 1) / 8 := by
  have eight : (8 : UInt64).toNat = 8 := rfl
  have word := n.toNat_lt
  unfold lastOctet
  by_cases few : n ≤ 8
  · rw [if_pos few]
    rw [UInt64.le_iff_toNat_le, eight] at few
    change 0 = _
    omega
  · rw [if_neg few]
    rw [UInt64.le_iff_toNat_le, eight] at few
    have spare : n % 8 = 0 ↔ n.toNat % 8 = 0 := by
      rw [← UInt64.toNat_inj, UInt64.toNat_mod, eight]
      rfl
    by_cases whole : n % 8 = 0
    · rw [if_pos whole, UInt64.toNat_sub, UInt64.toNat_div, eight, UInt64.toNat_one]
      rw [spare] at whole
      omega
    · rw [if_neg whole, UInt64.toNat_div, eight]
      rw [spare] at whole
      omega

/-- A bit whose octet is there is read. -/
theorem getBit_eq {x : NamedBits} {octs : List UInt8} (held : x.bits = some octs) {i : UInt64}
    (below : i < x.bitLen) (inside : i.toNat / 8 < octs.length) :
    x.getBit i = .ok (decide ((octs.flatMap bitsOf)[i.toNat]? = some true)) := by
  have octet : (i / 8).toNat = i.toNat / 8 := by
    rw [UInt64.toNat_div]
    rfl
  have place : (i % 8).toNat = i.toNat % 8 := by
    rw [UInt64.toNat_mod]
    rfl
  rw [getBit, if_pos below, octet, place, held]
  dsimp only
  rw [octetAt_of_lt inside]
  dsimp only [bind, Except.bind, pure, Except.pure]
  rw [and_shl_one _ (Nat.mod_lt _ (by omega)), getElem?_flatMap_bitsOf,
    List.getElem?_eq_getElem inside, Option.map_some]
  simp

/-- Whether a bit is there and set. -/
def isSet (x : NamedBits) (i : ℕ) : Bool :=
  match x.getBit (.ofNat i) with
  | .ok bit => bit
  | .error _ => false

/-- The bits that are set. -/
def marks (x : NamedBits) : Finset ℕ :=
  {i ∈ Finset.range x.bitLen.toNat | x.isSet i}

/-- No bit behind the end is set in the octet of the last one, and that octet is there. -/
structure Clean (x : NamedBits) : Prop where
  none : x.bits = none → x.bitLen = 0
  inside : ∀ octs, x.bits = some octs → (x.bitLen.toNat - 1) / 8 < octs.length
  clear : ∀ octs, x.bits = some octs → ∀ i, x.bitLen.toNat ≤ i →
    i < 8 * ((x.bitLen.toNat - 1) / 8 + 1) → (octs.flatMap bitsOf)[i]? ≠ some true

theorem mem_marks {x : NamedBits} {i : ℕ} : i ∈ x.marks ↔ i < x.bitLen.toNat ∧ x.isSet i := by
  rw [marks, Finset.mem_filter, Finset.mem_range]

/-- In a clean object every bit is read. -/
theorem Clean.getBit {x : NamedBits} (clean : x.Clean) (i : UInt64) :
    x.getBit i = .ok (decide (i.toNat ∈ x.marks)) := by
  by_cases below : i < x.bitLen
  · have less : i.toNat < x.bitLen.toNat := below
    cases held : x.bits with
    | none =>
      rw [clean.none held] at less
      exact absurd less (Nat.not_lt_zero _)
    | some octs =>
      have inside := clean.inside octs held
      have read := getBit_eq held below (by omega)
      have same : i.toNat ∈ x.marks ↔ (octs.flatMap bitsOf)[i.toNat]? = some true := by
        rw [mem_marks, isSet, UInt64.ofNat_toNat, read]
        simp [less]
      rw [read]
      simp only [same]
  · have outside : i.toNat ∉ x.marks := by
      rw [mem_marks]
      exact fun both => below both.1
    rw [NamedBits.getBit, if_neg below, decide_eq_false outside]
    rfl

theorem copyOctets_eq {octs : List UInt8} {n : Nat} (enough : n ≤ octs.length) :
    copyOctets (some octs) n = .ok (octs.take n) := by
  unfold copyOctets
  by_cases none : n = 0
  · rw [if_pos none, none]
    rfl
  · rw [if_neg none]
    dsimp only
    rw [if_neg (Nat.not_lt.2 enough)]
    rfl

/-- What is written of a clean object is the bits of its set. -/
theorem Clean.lens {x : NamedBits} (clean : x.Clean) :
    ∃ byteLen unused seg, x.namedLens = .ok (byteLen, unused) ∧ unused ≤ 7 ∧
      copyOctets x.bits byteLen = .ok seg ∧ seg.length = byteLen ∧
      seg.flatMap bitsOf = shownOf x.marks ++ .replicate unused false ∧ EndsSet (shownOf x.marks) := by
  cases held : x.bits with
  | none =>
    have ends : EndsSet [] := nofun
    have empty : shownOf x.marks = [] := by
      apply shownOf_eq ends
      intro i
      rw [mem_marks, clean.none held]
      simp
    refine ⟨0, 0, [], by rw [namedLens, held]; rfl, by omega, rfl, rfl, by rw [empty]; rfl, ?_⟩
    rw [empty]
    exact ends
  | some octs =>
    have last := toNat_lastOctet x.bitLen
    have inside := clean.inside octs held
    obtain ⟨byteLen, unused, shown, ran, trims⟩ := namedLens_trims held (by rw [last]; exact inside)
    obtain ⟨zeros, rest⟩ := trims.rest
    rw [last, flatMap_bitsOf_take (by omega)] at rest
    -- Up to the end of the last octet, the bits are the shown ones.
    have set : ∀ i, i < 8 * ((x.bitLen.toNat - 1) / 8 + 1) →
        ((octs.flatMap bitsOf)[i]? = some true ↔ shown[i]? = some true) := by
      intro i below
      rw [← List.getElem?_take_of_lt below, rest]
      by_cases front : i < shown.length
      · rw [List.getElem?_append_left front]
      · rw [List.getElem?_append_right (by omega), List.getElem?_eq_none_iff.2 (Nat.not_lt.1 front),
          List.getElem?_replicate]
        split_ifs <;> simp
    have size := congrArg List.length rest
    rw [List.length_take, List.length_append, length_flatMap_bitsOf] at size
    have same : shownOf x.marks = shown := by
      apply shownOf_eq trims.ends
      intro i
      rw [mem_marks]
      constructor
      · rintro ⟨less, marked⟩
        have word : (UInt64.ofNat i).toNat = i :=
          UInt64.toNat_ofNat_of_lt' (Nat.lt_trans less x.bitLen.toNat_lt)
        have below : UInt64.ofNat i < x.bitLen := by
          rw [UInt64.lt_iff_toNat_lt, word]
          exact less
        have read := getBit_eq held below (by rw [word]; omega)
        rw [word] at read
        rw [isSet, read] at marked
        exact (set i (by omega)).1 (of_decide_eq_true marked)
      · intro marked
        obtain ⟨front, -⟩ := List.getElem?_eq_some_iff.1 marked
        have found := (set i (by omega)).2 marked
        have less : i < x.bitLen.toNat := by
          by_contra behind
          exact clean.clear octs held i (Nat.not_lt.1 behind) (by omega) found
        have word : (UInt64.ofNat i).toNat = i :=
          UInt64.toNat_ofNat_of_lt' (Nat.lt_trans less x.bitLen.toNat_lt)
        have below : UInt64.ofNat i < x.bitLen := by
          rw [UInt64.lt_iff_toNat_lt, word]
          exact less
        have read := getBit_eq held below (by rw [word]; omega)
        rw [word] at read
        refine ⟨less, ?_⟩
        rw [isSet, read]
        exact decide_eq_true found
    have within := trims.within
    rw [same]
    exact ⟨byteLen, unused, octs.take byteLen, ran, trims.few, copyOctets_eq (by omega),
      by rw [List.length_take]; omega, trims.written, trims.ends⟩

/-! ## The canonical form -/

/--
The contents and the length are those of the set of bits alone, and the contents are decoded to a bit
string of the same set that ends with a bit of it.
-/
structure Canonical (x : NamedBits) : Prop where
  reads : ∀ i, ∃ bit, x.getBit i = .ok bit
  encLen : x.encLen = .ok (.ofNat (shownOf x.marks).length)
  contents : ∃ contents, Packs (shownOf x.marks) contents ∧ WritesFront x.bEncContent contents
  back : ∀ (y : AsnBits) (turns : Nat) (tagId : AsnTag), tagIsCons tagId = false →
    ∃ z : AsnBits, ContentTrips x.bEncContent (y.bDecContent turns tagId) z ∧
      (∀ i, z.getBit i = true ↔ x.getBit i = .ok true) ∧
      (z.bitLen ≠ 0 → z.getBit (z.bitLen - 1) = true)

@[simp] theorem marks_useNamedBitListRules (x : NamedBits) (flag : Bool) :
    (x.useNamedBitListRules flag).marks = x.marks := rfl

theorem length_shownOf_le (x : NamedBits) : (shownOf x.marks).length ≤ x.bitLen.toNat := by
  rw [shownOf, List.length_map, List.length_range]
  exact Finset.sup_le fun i isIn => (mem_marks.1 isIn).1

end NamedBits

/-- A bit is read from the octets of a bit string. -/
theorem AsnBits.getBit_eq (x : AsnBits) (i : UInt64) :
    x.getBit i = (decide (i < x.bitLen) && decide ((x.bits.flatMap bitsOf)[i.toNat]? = some true)) := by
  have octet : (i / 8).toNat = i.toNat / 8 := by
    rw [UInt64.toNat_div]
    rfl
  have place : (i % 8).toNat = i.toNat % 8 := by
    rw [UInt64.toNat_mod]
    rfl
  rw [AsnBits.getBit]
  by_cases below : i < x.bitLen
  · rw [if_pos below, octet, place, decide_eq_true below, Bool.true_and]
    dsimp only
    rw [and_shl_one _ (Nat.mod_lt _ (by omega)), getElem?_flatMap_bitsOf, List.getD_eq_getElem?_getD]
    cases x.bits[i.toNat / 8]? with
    | none => simp
    | some c => simp
  · rw [if_neg below, decide_eq_false below, Bool.false_and]

/-- Primitive contents are read. -/
theorem bDecPrimBits_reads {b : AsnBuf} (sound : b.Sound) {unused : UInt8} {octets data : List UInt8}
    (few : unused ≤ 7) (unread : b.unread = unused :: (octets ++ data)) (n : AsnLen) :
    ∃ b', (bDecPrimBits (.ofNat (octets.length + 1)) n).run b =
      .ok (⟨.ofNat octets.length * 8 - unused.toUInt64, octets⟩, n + .ofNat (octets.length + 1)) b' ∧
        b'.unread = data := by
  have fits := sound.fits
  have size := congrArg List.length unread
  rw [List.length_cons, List.length_append] at size
  have count : (UInt64.ofNat (octets.length + 1)).toNat = octets.length + 1 :=
    UInt64.toNat_ofNat_of_lt' (by rw [UInt64.size]; omega)
  have known : UInt64.ofNat (octets.length + 1) ≠ INDEFINITE_LEN := by
    intro endless
    have top : INDEFINITE_LEN.toNat = 18446744073709551615 := rfl
    rw [endless, top] at count
    omega
  have pred : UInt64.ofNat (octets.length + 1) - 1 = .ofNat octets.length := by
    rw [UInt64.ofNat_add]
    exact UInt64.add_sub_cancel _ _
  obtain ⟨b1, measured, left1, onward⟩ := sound.length_acts
  have sound1 : b1.Sound := sound.onward onward (by rw [left1])
  have right : ¬ (UInt64.ofNat b.unread.length < UInt64.ofNat (octets.length + 1) ∨
      UInt64.ofNat (octets.length + 1) = 0) := by
    rintro (short | zero)
    · rw [UInt64.lt_iff_toNat_lt, sound.toNat_length, count] at short
      omega
    · rw [← UInt64.toNat_inj, count] at zero
      exact absurd zero (Nat.succ_ne_zero _)
  obtain ⟨b2, read, left2, onward⟩ := sound1.getByte_cons (left1.trans unread)
  have sound2 : b2.Sound := sound1.onward onward (by rw [left2, left1, unread]; simp)
  obtain ⟨b3, got, -, left3⟩ := getUSeg_append sound2 left2
  refine ⟨b3, ?_, left3⟩
  rw [bDecPrimBits, if_neg known, run_bind_of_ok measured, if_neg right, run_bind_of_ok read,
    if_neg (UInt8.not_lt.2 few), pred, run_bind_of_ok got]
  rfl

/-! ## Clean objects -/

namespace NamedBits

theorem nblFlag_useNamedBitListRules (x : NamedBits) :
    (x.useNamedBitListRules true).nblFlag = true := rfl

/-- The octets are written behind the number of unused bits. -/
theorem writesFront_of_lens {x : NamedBits} {byteLen unused : Nat} {seg : List UInt8}
    (ran : x.namedLens = .ok (byteLen, unused)) (copied : copyOctets x.bits byteLen = .ok seg)
    (size : seg.length = byteLen) :
    WritesFront (x.useNamedBitListRules true).bEncContent (.ofNat unused :: seg) := by
  intro b data written
  obtain ⟨b1, put, wrote⟩ := written.putSegRvs seg
  obtain ⟨b2, putByte, wrote'⟩ := wrote.putByteRvs (.ofNat unused)
  have first : (putSegRvs seg).run b = .ok () b1 := by
    apply run_onBuf_of_ok
    rw [put]
    rfl
  have second : (putByteRvs (.ofNat unused)).run b1 = .ok () b2 := by
    apply run_onBuf_of_ok
    rw [putByte]
    rfl
  have same : (x.useNamedBitListRules true).namedLens = .ok (byteLen, unused) := ran
  have there : copyOctets (x.useNamedBitListRules true).bits byteLen = .ok seg := copied
  refine ⟨b2, ?_, wrote'⟩
  rw [bEncContent, if_pos x.nblFlag_useNamedBitListRules, same, ofExcept_ok, pure_bind]
  dsimp only
  rw [there, ofExcept_ok, pure_bind, run_bind_of_ok first, run_bind_of_ok second,
    List.length_cons, size, UInt64.ofNat_add]
  rfl

theorem ofNat_mul_sub (octets : Nat) {unused bits : Nat} (size : 8 * octets = bits + unused) :
    UInt64.ofNat octets * 8 - .ofNat unused = .ofNat bits := by
  have product : UInt64.ofNat octets * 8 = .ofNat bits + .ofNat unused := by
    rw [← UInt64.ofNat_add, ← size, Nat.mul_comm, UInt64.ofNat_mul]
    rfl
  rw [product]
  exact UInt64.add_sub_cancel _ _

/-- A clean object is encoded canonically. -/
theorem Clean.canonical {x : NamedBits} (clean : x.Clean) :
    (x.useNamedBitListRules true).Canonical := by
  obtain ⟨byteLen, lost, octets, ran, few, copied, size, packed, ends⟩ := clean.lens
  have writes := writesFront_of_lens ran copied size
  have octet : (UInt8.ofNat lost).toNat = lost :=
    UInt8.toNat_ofNat_of_lt' (by rw [UInt8.size]; omega)
  generalize UInt8.ofNat lost = unused at writes octet
  subst octet
  have less : unused ≤ 7 := few
  have read : ∀ i, (x.useNamedBitListRules true).getBit i = .ok (decide (i.toNat ∈ x.marks)) :=
    clean.getBit
  have counted := length_shownOf_le x
  have word := x.bitLen.toNat_lt
  have count := congrArg List.length packed
  rw [length_flatMap_bitsOf, List.length_append, List.length_replicate] at count
  refine ⟨fun i => ⟨_, read i⟩, ?_, ⟨_, ⟨unused, octets, rfl, less, packed⟩, writes⟩, ?_⟩
  · -- The length leaves out the bits of the last octet behind the last one that is set.
    have same : (x.useNamedBitListRules true).namedLens = .ok (byteLen, unused.toNat) := ran
    rw [encLen, if_pos x.nblFlag_useNamedBitListRules, same, marks_useNamedBitListRules,
      ← ofNat_mul_sub octets.length count, size]
    rfl
  · intro y turns tagId primitive
    refine ⟨⟨.ofNat octets.length * 8 - unused.toUInt64, octets⟩, ?_, ?_⟩
    · refine writes.trips fun b data n sound unread => ?_
      obtain ⟨b1, measured, left1, onward⟩ := sound.length_acts
      have sound1 : b1.Sound := sound.onward onward (by rw [left1])
      have fits := sound.fits
      have within := congrArg List.length unread
      rw [List.length_append, List.length_cons] at within
      have whole : (UInt64.ofNat (octets.length + 1)).toNat = octets.length + 1 :=
        UInt64.toNat_ofNat_of_lt' (by rw [UInt64.size]; omega)
      have known : UInt64.ofNat (octets.length + 1) ≠ INDEFINITE_LEN := by
        intro endless
        have top : INDEFINITE_LEN.toNat = 18446744073709551615 := rfl
        rw [endless, top] at whole
        omega
      have enough : ¬ UInt64.ofNat b.unread.length < UInt64.ofNat (octets.length + 1) := by
        rw [UInt64.lt_iff_toNat_lt, sound.toNat_length, whole]
        omega
      obtain ⟨b', got, last⟩ := bDecPrimBits_reads sound1 less (left1.trans unread) n
      refine ⟨b', ?_, last⟩
      rw [AsnBits.bDecContent, List.length_cons, if_neg known, run_bind_of_ok measured,
        if_neg enough, if_neg (by simp [primitive]), got]
    · -- The bits that are decoded are the shown ones, with zeros behind them.
      have lens : UInt64.ofNat octets.length * 8 - unused.toUInt64 =
          .ofNat (shownOf x.marks).length := by
        have word : unused.toUInt64 = .ofNat unused.toNat := by
          rw [← UInt64.toNat_inj]
          simp
        rw [← ofNat_mul_sub octets.length count, word]
      have number : (UInt64.ofNat (shownOf x.marks).length).toNat = (shownOf x.marks).length :=
        UInt64.toNat_ofNat_of_lt' (by rw [UInt64.size]; omega)
      have bit : ∀ i : UInt64,
          AsnBits.getBit ⟨.ofNat octets.length * 8 - unused.toUInt64, octets⟩ i =
            decide ((shownOf x.marks)[i.toNat]? = some true) := by
        intro i
        rw [AsnBits.getBit_eq]
        dsimp only
        rw [lens, packed]
        by_cases front : i.toNat < (shownOf x.marks).length
        · have below : i < .ofNat (shownOf x.marks).length := by
            rw [UInt64.lt_iff_toNat_lt, number]
            exact front
          rw [decide_eq_true below, Bool.true_and, List.getElem?_append_left front]
        · have behind : ¬ i < .ofNat (shownOf x.marks).length := by
            rw [UInt64.lt_iff_toNat_lt, number]
            exact front
          rw [decide_eq_false behind, Bool.false_and,
            List.getElem?_eq_none_iff.2 (Nat.not_lt.1 front)]
          rfl
      constructor
      · intro i
        have same : (shownOf x.marks)[i.toNat]? = some true ↔ i.toNat ∈ x.marks := by
          rw [shownOf, List.getElem?_map]
          by_cases front : i.toNat < x.marks.sup (· + 1)
          · rw [List.getElem?_range front]
            simp
          · rw [List.getElem?_eq_none_iff.2 (by simpa using front)]
            refine iff_of_false (fun no => by cases no) fun isIn => front ?_
            exact Finset.le_sup (f := (· + 1)) isIn
        rw [bit, read, decide_eq_true_iff, same]
        simp
      · intro some
        dsimp only at some
        rw [lens] at some
        have positive : (shownOf x.marks).length ≠ 0 := by
          intro none
          rw [none] at some
          exact some rfl
        have place : (UInt64.ofNat (shownOf x.marks).length - 1).toNat =
            (shownOf x.marks).length - 1 := by
          rw [UInt64.toNat_sub, number, UInt64.toNat_one]
          omega
        rw [bit]
        dsimp only
        rw [lens, place]
        apply decide_eq_true
        have last := ends
        rw [EndsSet, List.getLast?_eq_getElem?] at last
        have inside : (shownOf x.marks).length - 1 < (shownOf x.marks).length := by omega
        rw [List.getElem?_eq_getElem inside] at last ⊢
        rw [last _ rfl]

/-- Only a clean object is encoded canonically. -/
theorem clean_of_canonical {x : NamedBits} (canonical : (x.useNamedBitListRules true).Canonical) :
    x.Clean := by
  obtain ⟨reads, -, ⟨contents, packs, writes⟩, -⟩ := canonical
  have last := toNat_lastOctet x.bitLen
  obtain ⟨wrote, ran, -⟩ := writes .empty [] AsnBuf.empty_written
  -- Every bit is in an octet that is there.
  have there : ∀ n : UInt64, n < x.bitLen → ∃ octs, x.bits = some octs ∧
      n.toNat / 8 < octs.length := by
    intro n below
    obtain ⟨bit, read⟩ := reads n
    have octet : (n / 8).toNat = n.toNat / 8 := by
      rw [UInt64.toNat_div]
      rfl
    change getBit x n = _ at read
    rw [getBit, if_pos below, octet] at read
    dsimp only at read
    unfold octetAt at read
    cases held : x.bits with
    | none =>
      rw [held] at read
      cases read
    | some octs =>
      rw [held] at read
      dsimp only at read
      refine ⟨octs, rfl, ?_⟩
      by_contra outside
      rw [List.getElem?_eq_none_iff.2 (Nat.not_lt.1 outside)] at read
      cases read
  have inside : ∀ octs, x.bits = some octs → (x.bitLen.toNat - 1) / 8 < octs.length := by
    intro octs held
    by_cases none : x.bitLen = 0
    · -- The first octet is looked at in any case.
      rw [none]
      change 0 < _
      by_contra empty
      have nothing : octs = [] := List.length_eq_zero_iff.1 (by omega)
      have fault : (x.useNamedBitListRules true).namedLens = .error .fault := by
        rw [namedLens]
        dsimp only [useNamedBitListRules]
        rw [held, none, nothing]
        rfl
      rw [bEncContent, if_pos x.nblFlag_useNamedBitListRules, fault] at ran
      cases ran
    · have positive : x.bitLen.toNat ≠ 0 := fun zero => none (UInt64.toNat_inj.1 zero)
      have word := x.bitLen.toNat_lt
      have pred : (x.bitLen - 1).toNat = x.bitLen.toNat - 1 := by
        rw [UInt64.toNat_sub, UInt64.toNat_one]
        omega
      obtain ⟨octs', held', within⟩ := there (x.bitLen - 1) (by
        rw [UInt64.lt_iff_toNat_lt, pred]
        omega)
      rw [held] at held'
      cases held'
      rwa [pred] at within
  refine ⟨?_, inside, ?_⟩
  · intro none
    by_contra some
    have positive : x.bitLen.toNat ≠ 0 := fun zero => some (UInt64.toNat_inj.1 zero)
    obtain ⟨octs, held, -⟩ := there 0 (by
      rw [UInt64.lt_iff_toNat_lt]
      exact Nat.pos_of_ne_zero positive)
    rw [none] at held
    cases held
  · -- A bit that is set behind the end makes the length greater than the number of bits.
    intro octs held i behind below set
    have within := inside octs held
    obtain ⟨byteLen, unused, shown, lens, trims⟩ := namedLens_trims held (by rw [last]; exact within)
    obtain ⟨zeros, rest⟩ := trims.rest
    rw [last, flatMap_bitsOf_take (by omega)] at rest
    have front : i < shown.length := by
      by_contra outside
      rw [← List.getElem?_take_of_lt below, rest, List.getElem?_append_right (by omega),
        List.getElem?_replicate] at set
      split_ifs at set
      cases set
    have few := trims.few
    have most := trims.within
    have size := congrArg List.length trims.written
    rw [length_flatMap_bitsOf, List.length_append, List.length_replicate] at size
    -- What is written has the same octets and unused bits as what the set has.
    have copied : copyOctets x.bits byteLen = .ok (octs.take byteLen) := by
      rw [held]
      exact copyOctets_eq (by omega)
    have taken : (octs.take byteLen).length = byteLen := by
      rw [List.length_take]
      omega
    have same := (writesFront_of_lens lens copied taken).unique writes
    obtain ⟨lost, octets, rfl, -, packed⟩ := packs
    obtain ⟨rfl, rfl⟩ := List.cons.inj same
    have octet : (UInt8.ofNat unused).toNat = unused :=
      UInt8.toNat_ofNat_of_lt' (by rw [UInt8.size]; omega)
    have count := congrArg List.length packed
    rw [length_flatMap_bitsOf, List.length_append, List.length_replicate, octet,
      marks_useNamedBitListRules] at count
    have counted := length_shownOf_le x
    omega

end NamedBits

end Esnacc.Cxx
