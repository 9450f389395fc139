import Esnacc.Cxx.ListSizes
import Esnacc.Lib.ExchangeSort
import Mathlib.Data.Nat.Size

/-! The C++ code that is printed to put a CHOICE into PER, and the index it puts in front. -/

namespace Esnacc.Cxx

open Lib

/-! ## Alternatives -/

/-- An alternative with the number of the tag that it is sorted by. -/
structure PerAlternative where
  number : Int
  Value : Type
  element : PerElement Value

/-- A CHOICE without extension marker; an `int` counts its alternatives. -/
structure PerChoice where
  alternatives : List PerAlternative
  nonempty : alternatives ≠ []
  counted : alternatives.length < 2 ^ 31

namespace PerChoice

variable (td : PerChoice)

/-- What chooses an alternative, by its place in the text. -/
abbrev ChoiceId : Type := Fin td.alternatives.length

/-- The type of what an alternative holds. -/
def Held (choiceId : td.ChoiceId) : Type :=
  (td.alternatives.get choiceId).Value

/-- The routines of an alternative. -/
def element (choiceId : td.ChoiceId) : PerElement (td.Held choiceId) :=
  (td.alternatives.get choiceId).element

/-- An object with an alternative selected. -/
structure Object where
  choiceId : td.ChoiceId
  held : td.Held choiceId

/-- The alternatives in the order of their indices. -/
def sorted : List td.ChoiceId :=
  exchangeSort (fun choiceId => (td.alternatives.get choiceId).number)
    (List.finRange td.alternatives.length)

/-! ## Encoding and decoding -/

/-- The ranges of an index. -/
def indexValueRanges : List ValueRange :=
  -- `ValueRanges` of the printed class is not `const` and hides the one of `AsnInt` without
  -- overriding it, so that the routines of `AsnInt` are given no ranges.
  []

/-- The index that is set for an alternative; it starts as the number of the alternatives. -/
def tmpAsnIntChoice (choiceId : td.ChoiceId) : Nat :=
  td.sorted.zipIdx.foldl (fun tmp e => if choiceId = e.1 then e.2 else tmp) td.alternatives.length

/-- Put an object: the index of its alternative, and the alternative. -/
def pEnc (x : td.Object) : BitsM UInt64 := do
  let tmpAsnIntChoice ← ofExcept (AsnInt.set (.ofNat (td.tmpAsnIntChoice x.choiceId)))
  let l ← tmpAsnIntChoice.pEnc indexValueRanges
  return l + (← (td.element x.choiceId).pEnc x.held)

end PerChoice

/-- Whether a number is equal to an `int`; one of more octets than an `int` is not. -/
def AsnInt.equals (x : AsnInt) (o : Int32) : Bool :=
  match x.toInteger with
  | .ok result => result = o
  | .error _ => false

namespace PerChoice

variable (td : PerChoice)

/-- Compare an index with those of the alternatives one by one, and get each that it is equal to. -/
def pDecChosen (tmpAsnIntChoice : AsnInt) : List (td.ChoiceId × Nat) → Option td.Object → AsnLen →
    BitsM (Option td.Object × AsnLen)
  | [], chosen, bitsDecoded => return (chosen, bitsDecoded)
  | (choiceId, ii) :: rest, chosen, bitsDecoded => do
    if tmpAsnIntChoice.equals (.ofNat ii) then
      let (held, bitsDecoded) ← (td.element choiceId).pDec bitsDecoded
      pDecChosen tmpAsnIntChoice rest (some ⟨choiceId, held⟩) bitsDecoded
    else pDecChosen tmpAsnIntChoice rest chosen bitsDecoded

/-- Get an object, in which no alternative is selected to begin with. -/
def pDec (turns : Nat) (bitsDecoded : AsnLen) : BitsM (Option td.Object × AsnLen) := do
  let (tmpAsnIntChoice, bitsDecoded) ← AsnInt.pDec turns indexValueRanges bitsDecoded
  td.pDecChosen tmpAsnIntChoice td.sorted.zipIdx none bitsDecoded

/-- The place of an alternative in the order of the indices. -/
def rank (choiceId : td.ChoiceId) : Nat :=
  td.sorted.idxOf choiceId

variable {td}

/-! ## The index -/

theorem sorted_perm : td.sorted.Perm (List.finRange td.alternatives.length) :=
  exchangeSort_perm _

theorem mem_sorted (choiceId : td.ChoiceId) : choiceId ∈ td.sorted :=
  sorted_perm.mem_iff.mpr (List.mem_finRange choiceId)

theorem nodup_sorted : td.sorted.Nodup :=
  sorted_perm.nodup_iff.mpr (List.nodup_finRange _)

theorem length_sorted : td.sorted.length = td.alternatives.length := by
  rw [sorted_perm.length_eq, List.length_finRange]

theorem rank_lt (choiceId : td.ChoiceId) : td.rank choiceId < td.alternatives.length := by
  rw [← length_sorted]
  exact List.idxOf_lt_length_of_mem (mem_sorted choiceId)

/-- Of alternatives that are all different, the index of the one chosen is set. -/
theorem foldl_index {α : Type} [DecidableEq α] {x : α} {xs : List α} (distinct : xs.Nodup)
    (k start : Nat) :
    (xs.zipIdx k).foldl (fun tmp e => if x = e.1 then e.2 else tmp) start =
      if x ∈ xs then k + xs.idxOf x else start := by
  induction xs generalizing k start with
  | nil => rfl
  | cons y rest ih =>
    obtain ⟨other, distinctRest⟩ := List.nodup_cons.mp distinct
    rw [List.zipIdx_cons, List.foldl_cons, ih distinctRest]
    by_cases here : x = y
    · -- No alternative behind this one is chosen.
      subst here
      rw [if_neg other, if_pos rfl, if_pos List.mem_cons_self, List.idxOf_cons_self, Nat.add_zero]
    · simp only [List.mem_cons, here, false_or]
      by_cases later : x ∈ rest
      · rw [if_pos later, if_pos later, List.idxOf_cons_ne rest (Ne.symm here)]
        omega
      · rw [if_neg later, if_neg later, if_neg id]

theorem tmpAsnIntChoice_eq_rank (choiceId : td.ChoiceId) :
    td.tmpAsnIntChoice choiceId = td.rank choiceId := by
  rw [tmpAsnIntChoice, foldl_index nodup_sorted, if_pos (mem_sorted choiceId), Nat.zero_add]
  rfl

theorem set_index {n : Nat} (small : n < 2 ^ 31) :
    ∃ x, AsnInt.set (.ofNat n) = .ok x ∧ 1 ≤ x.mBytes.length ∧ x.mBytes.length ≤ 4 ∧
      signedOf x.mBytes = n ∧ x.toInteger = .ok (.ofNat n) := by
  have value : (Int32.ofNat n).toInt = n := Int32.toInt_ofNat_of_lt small
  obtain ⟨x, stored, some, short, signed, -⟩ := set_spec (.ofNat n)
  refine ⟨x, stored, List.length_pos_iff.mpr some, short, signed.trans value, ?_⟩
  rw [toInteger_eq some short, signed, Int32.ofInt_toInt]

/-- Indices are equal as numbers where they are equal. -/
theorem equals_index {x : AsnInt} {n ii : Nat} (read : x.toInteger = .ok (.ofNat n))
    (small : n < 2 ^ 31) (smallIndex : ii < 2 ^ 31) :
    x.equals (.ofNat ii) = decide (n = ii) := by
  rw [AsnInt.equals, read]
  dsimp only
  congr 1
  rw [eq_iff_iff]
  constructor
  · intro same
    have numbers := congrArg Int32.toInt same
    rw [Int32.toInt_ofNat_of_lt small, Int32.toInt_ofNat_of_lt smallIndex] at numbers
    exact Int.ofNat.inj numbers
  · intro same
    rw [same]

/-! ## What is put -/

/-- The bits of an index: a number that has no constraints, behind a gap. -/
def indexBits (bAlign : Bool) (pos : Nat) (x : AsnInt) : List Bool :=
  List.replicate (padding bAlign pos) false ++
    lengthCoded 8 x.mBytes.length (x.mBytes.flatMap bitsOf)

/-- The bits of the alternative that is selected in an object. -/
def Object.bits (x : td.Object) (bAlign : Bool) (pos : Nat) : List Bool :=
  (td.element x.choiceId).bits x.held bAlign (pos % 8)

/-- An object is put as a number that has no constraints with the alternative behind it. -/
theorem pEnc_puts {b : AsnBufBits} (wellFormed : b.WellFormed) {pos : Nat}
    (position : (8 - b.writeBitPos) % 8 = pos % 8) (x : td.Object) {index : AsnInt}
    (stored : AsnInt.set (.ofNat (td.rank x.choiceId)) = .ok index) :
    Puts (td.pEnc x) b (indexBits b.bAlign pos index ++
      x.bits b.bAlign (pos + (indexBits b.bAlign pos index).length)) := by
  have size : (index.mBytes.flatMap bitsOf).length = index.mBytes.length * 8 := by
    rw [length_flatMap_bitsOf, Nat.mul_comm]
  have first := encodeGeneral_puts index.interpret_interprets.putsUnits size wellFormed
  rw [AsnBufBits.gap, padding_congr fun _ => position] at first
  -- The alternative is put from the position that the index leaves.
  have second : ∀ b', b.Wrote (indexBits b.bAlign pos index) b' →
      Puts ((td.element x.choiceId).pEnc x.held) b'
        (x.bits b.bAlign (pos + (indexBits b.bAlign pos index).length)) := by
    intro b' wrote
    have place := wrote.position
    have put := (td.element x.choiceId).puts x.held b' wrote.wellFormed
    have next : (8 - b'.writeBitPos) % 8 = (pos + (indexBits b.bAlign pos index).length) % 8 := by
      omega
    rwa [wrote.bAlign, next] at put
  refine (first.add second).of_run ?_
  rw [pEnc, tmpAsnIntChoice_eq_rank, stored, ofExcept_ok, pure_bind, indexValueRanges,
    AsnInt.pEnc_nil]
  rfl

/-! ## What is got back -/

theorem pDecChosen_none {index : AsnInt} {xs : List td.ChoiceId} {k : Nat}
    (others : ∀ ii, k ≤ ii → ii < k + xs.length → index.equals (.ofNat ii) = false)
    (chosen : Option td.Object) (bitsDecoded : AsnLen) :
    td.pDecChosen index (xs.zipIdx k) chosen bitsDecoded = pure (chosen, bitsDecoded) := by
  induction xs generalizing k with
  | nil => rfl
  | cons choiceId rest ih =>
    rw [List.length_cons] at others
    rw [List.zipIdx_cons, pDecChosen, others k (Nat.le_refl k) (by omega)]
    exact ih fun ii least most => others ii (by omega) (by omega)

/-- The alternative whose index is compared with is got, and no other one. -/
theorem pDecChosen_gets (bAlign : Bool) (pos : Nat) (x : td.Object) {index : AsnInt} {n : Nat}
    (read : index.toInteger = .ok (.ofNat n)) {xs : List td.ChoiceId} {k j : Nat}
    (small : k + xs.length < 2 ^ 31) (found : xs[j]? = some x.choiceId) (rank : n = k + j)
    (chosen : Option td.Object) :
    Gets bAlign pos (x.bits bAlign pos) (td.pDecChosen index (xs.zipIdx k) chosen) (· = some x) := by
  induction xs generalizing k j with
  | nil => cases found
  | cons choiceId rest ih =>
    rw [List.length_cons] at small
    have inside := (List.getElem?_eq_some_iff.mp found).1
    rw [List.length_cons] at inside
    have compare : ∀ ii, ii < 2 ^ 31 → index.equals (.ofNat ii) = decide (n = ii) :=
      fun ii smallIndex => equals_index read (by omega) smallIndex
    rw [List.zipIdx_cons]
    cases j with
    | zero =>
      cases found
      -- This alternative is got, and those behind it are not.
      have same : index.equals (.ofNat k) = true := by
        rw [compare k (by omega), rank, Nat.add_zero]
        exact decide_eq_true rfl
      have others : ∀ ii, k + 1 ≤ ii → ii < k + 1 + rest.length →
          index.equals (.ofNat ii) = false := by
        intro ii least most
        rw [compare ii (by omega)]
        exact decide_eq_false (by omega)
      have once : td.pDecChosen index ((x.choiceId, k) :: rest.zipIdx (k + 1)) chosen =
          fun bitsDecoded => do
            let (held, bitsDecoded) ← (td.element x.choiceId).pDec bitsDecoded
            return (some ⟨x.choiceId, held⟩, bitsDecoded) := by
        funext bitsDecoded
        simp only [pDecChosen, same, if_true, pDecChosen_none others]
      rw [once, Object.bits,
        ← List.append_nil ((td.element x.choiceId).bits x.held bAlign (pos % 8))]
      apply ((td.element x.choiceId).gets x.held bAlign pos).bind fun held bitsDecoded =>
        pure (some (⟨x.choiceId, held⟩ : td.Object), bitsDecoded)
      intro held sameHeld
      rw [sameHeld]
      exact gets_pure bAlign _ (some x)
    | succ j =>
      have other : index.equals (.ofNat k) = false := by
        rw [compare k (by omega)]
        exact decide_eq_false (by omega)
      have later : td.pDecChosen index ((choiceId, k) :: rest.zipIdx (k + 1)) chosen =
          td.pDecChosen index (rest.zipIdx (k + 1)) chosen := by
        funext bitsDecoded
        simp only [pDecChosen, other]
        rfl
      rw [later]
      exact ih (by omega) found (by omega)

/-- An object is got back, with the alternative that was selected in it. -/
theorem choice_roundTrips (x : td.Object) (turns : Nat) (bAlign : Bool) (pos : Nat) :
    RoundTrips bAlign pos (td.pEnc x) (td.pDec (turns + 1)) (· = some x) := by
  have counted := td.counted
  have below := rank_lt x.choiceId
  obtain ⟨index, stored, -, short, -, read⟩ :=
    set_index (n := td.rank x.choiceId) (by omega)
  apply roundTrips_of_puts
  intro b wellFormed mode position
  refine ⟨_, pEnc_puts wellFormed position x stored, ?_⟩
  rw [mode]
  have enough : index.mBytes.length / 16384 < turns + 1 := by omega
  apply (index.decodeGeneral_gets enough bAlign pos).bind fun got bitsDecoded =>
    td.pDecChosen got td.sorted.zipIdx none bitsDecoded
  intro got same
  rw [same]
  have found : td.sorted[td.rank x.choiceId]? = some x.choiceId :=
    List.getElem?_idxOf (mem_sorted x.choiceId)
  have all : td.sorted.length = td.alternatives.length := length_sorted
  exact pDecChosen_gets bAlign _ x read (by omega) found (Nat.zero_add _).symm none

/-! ## The index that is asked for -/

/-- An object is put with its rank in the least bits that hold every rank, at every position. -/
def PutsConstrained (x : td.Object) : Prop :=
  ∀ (b : AsnBufBits) (pos : Nat), b.WellFormed → (8 - b.writeBitPos) % 8 = pos % 8 →
    ∃ index, Writes (td.alternatives.length - 1).size (td.rank x.choiceId) index ∧
      Puts (td.pEnc x) b (index ++ x.bits b.bAlign (pos + index.length))

theorem exists_unaligned (pos : Nat) :
    ∃ b : AsnBufBits, b.WellFormed ∧ b.bAlign = false ∧ (8 - b.writeBitPos) % 8 = pos % 8 := by
  -- Some bits of a zero octet bring a fresh buffer there.
  obtain ⟨b, -, wrote⟩ := putSeg_puts (AsnBufBits.make_wellFormed false) [0] (n := pos % 8)
    (by rw [List.length_singleton]; omega) (by omega)
  refine ⟨b, wrote.wellFormed, wrote.bAlign, ?_⟩
  rw [wrote.writePosition, List.length_take, length_flatMap_bitsOf, List.length_singleton]
  omega

theorem puts_unique {x : BitsM UInt64} {b : AsnBufBits} {bits more : List Bool}
    (puts : Puts x b bits) (other : Puts x b more) : bits = more := by
  obtain ⟨b', ran, wrote⟩ := puts
  obtain ⟨b'', ranOther, wroteOther⟩ := other
  rw [ran] at ranOther
  obtain ⟨-, rfl⟩ := EStateM.Result.ok.inj ranOther
  exact List.append_cancel_left (wrote.queued.symm.trans wroteOther.queued)

/-- Lengths that go round the positions of an octet are as long as those they are compared with. -/
theorem eq_of_rounds {w m : Nat} {length : Nat → Nat} (octets : ∀ pos, length (pos + 8) = length pos)
    (same : ∀ pos, w + length (pos + w) = m + length pos) : w = m := by
  -- After eight steps the position in its octet is the first one again.
  have steps : ∀ j, j * w + length (j * w) = j * m + length 0 := by
    intro j
    induction j with
    | zero => simp
    | succ j ih =>
      have step := same (j * w)
      rw [Nat.succ_mul, Nat.succ_mul]
      omega
  have whole : ∀ k, length (8 * k) = length 0 := by
    intro k
    induction k with
    | zero => rfl
    | succ k ih => rw [Nat.mul_succ, octets, ih]
  have round := steps 8
  rw [whole w] at round
  omega

/-- No alternative of any CHOICE is put with a constrained index. -/
theorem never_puts_constrained (td : PerChoice) (x : td.Object) : ¬td.PutsConstrained x := by
  intro constrained
  have counted := td.counted
  have below := rank_lt x.choiceId
  obtain ⟨index, stored, least, short, signed, -⟩ :=
    set_index (n := td.rank x.choiceId) (by omega)
  -- Unaligned, the index is put as a length and as many octets.
  have coded : indexBits false 0 index =
      bitsOf (.ofNat index.mBytes.length) ++ index.mBytes.flatMap bitsOf := by
    rw [indexBits, lengthCoded_of_lt_128 (by omega)]
    rfl
  have anywhere : ∀ pos, indexBits false pos index = indexBits false 0 index := fun _ => rfl
  have octets : (indexBits false 0 index).length = 8 * (1 + index.mBytes.length) := by
    rw [coded, List.length_append, length_bitsOf, length_flatMap_bitsOf]
    omega
  have both : ∀ pos, ∃ field, Writes (td.alternatives.length - 1).size (td.rank x.choiceId) field ∧
      field ++ x.bits false (pos + field.length) =
        indexBits false 0 index ++ x.bits false (pos + (indexBits false 0 index).length) := by
    intro pos
    obtain ⟨b, wellFormed, mode, position⟩ := exists_unaligned pos
    obtain ⟨field, writes, puts⟩ := constrained b pos wellFormed position
    have put := pEnc_puts wellFormed position x stored
    rw [mode, anywhere] at put
    rw [mode] at puts
    exact ⟨field, writes, puts_unique puts put⟩
  have round : ∀ pos k, x.bits false (pos + 8 * k) = x.bits false pos := by
    intro pos k
    rw [Object.bits, Object.bits, Nat.add_mul_mod_self_left]
  -- As many bits would be put for the index.
  have width : (td.alternatives.length - 1).size = 8 * (1 + index.mBytes.length) := by
    refine @eq_of_rounds _ _ (fun pos => (x.bits false pos).length) ?_ ?_
    · intro pos
      exact congrArg List.length (round pos 1)
    · intro pos
      obtain ⟨field, ⟨size, -⟩, same⟩ := both pos
      have sizes := congrArg List.length same
      rw [List.length_append, List.length_append, octets, round, size] at sizes
      exact sizes
  -- They would be the same bits, but the length stands in front of the rank.
  obtain ⟨field, ⟨size, number⟩, same⟩ := both 0
  have equal := (List.append_inj same (by rw [size, width, octets])).1
  rw [equal, coded, ofBits_append, ofBits_bitsOf, ofBits_flatMap, length_flatMap_bitsOf,
    UInt8.toNat_ofNat'] at number
  have power : 1 ≤ 2 ^ (8 * index.mBytes.length) := Nat.one_le_two_pow
  have length : index.mBytes.length % 2 ^ 8 = index.mBytes.length := by omega
  rw [length] at number
  have front : 1 * 1 ≤ index.mBytes.length * 2 ^ (8 * index.mBytes.length) :=
    Nat.mul_le_mul least power
  -- In two's complement, octets write no more than they do without a sign.
  have most : signedOf index.mBytes ≤ ofOctets index.mBytes := by
    cases index.mBytes with
    | nil => exact Int.le_refl 0
    | cons c rest =>
      rw [signedOf]
      by_cases positive : c < 0x80
      · rw [if_pos positive]
      · rw [if_neg positive]
        have power : (0 : Int) < 256 ^ (c :: rest).length := Int.pow_pos (by decide)
        omega
  omega

/-- A choice of two octets. -/
def twoOctets : PerChoice where
  alternatives := [⟨0, UInt8, octetElement⟩, ⟨1, UInt8, octetElement⟩]
  nonempty := List.cons_ne_nil _ _
  counted := by decide

/-- The first of two alternatives is put behind an index of sixteen bits instead of one. -/
theorem index_of_sixteen_bits : ¬∀ (td : PerChoice) (x : td.Object), td.PutsConstrained x := by
  intro always
  have constrained := always twoOctets ⟨⟨0, by decide⟩, (7 : UInt8)⟩
  obtain ⟨index, ⟨size, -⟩, b', ran, -⟩ :=
    constrained (.make false) 0 (AsnBufBits.make_wellFormed false) rfl
  have one : (twoOctets.alternatives.length - 1).size = 1 := by decide
  rw [one] at size
  have nine : (index ++ (⟨⟨0, by decide⟩, (7 : UInt8)⟩ : twoOctets.Object).bits false
      (0 + index.length)).length = 9 := by
    rw [List.length_append, size]
    rfl
  change _ = EStateM.Result.ok
    (UInt64.ofNat (index ++ (_ : twoOctets.Object).bits false _).length) _ at ran
  rw [nine] at ran
  have count : ∃ b'', (twoOctets.pEnc ⟨⟨0, by decide⟩, (7 : UInt8)⟩).run (.make false) =
      .ok 24 b'' := ⟨_, rfl⟩
  obtain ⟨b'', other⟩ := count
  rw [ran] at other
  have same : UInt64.ofNat 9 = 24 := by injection other
  exact absurd same (by decide)

end PerChoice

end Esnacc.Cxx
