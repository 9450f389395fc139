import Esnacc.Compiler.PrintedAlphabets
import Esnacc.Compiler.ValueRanges
import Esnacc.Cxx.StringRoundTrips

/-! The sizes and alphabets that are printed for the constraints of string components. -/

namespace Esnacc.Compiler

open Lib Esnacc.Cxx

/-! ## The sizes that are printed -/

/-- The number at the lower end of a size; a reference is taken as inclusive. -/
def sizeLowerBound (lowerEndValue : ValueRangeEndpoint) : Option Int64 :=
  match lowerEndValue.endValue with
  | .integer kept => do
    let n ← kept
    if lowerEndValue.valueInclusive then some n.toInt64 else plusOne n
  | .localValueRef linked => Int32.toInt64 <$> linked
  | _ => none

/-- The number at the upper end of a size, which is taken as a bound up to 65536. -/
def sizeUpperBound (upperEndValue : ValueRangeEndpoint) : Option (Option Int64) :=
  let bound (m : Int32) : Option Int64 :=
    if upperEndValue.valueInclusive then some m.toInt64 else plusOne m
  match upperEndValue.endValue with
  | .integer kept => do
    let m ← kept
    if m ≤ 65536 then some <$> bound m else some none
  | .localValueRef linked => do
    let m ← linked
    some <$> bound m
  | _ => some none

/-- The entry that is written for a range, which may be one that has no bounds. -/
def sizeRangeEntry (lowerEndValue upperEndValue : ValueRangeEndpoint) : Option ValueRange := do
  match ← sizeUpperBound upperEndValue with
  | some upperBound => return ⟨← sizeLowerBound lowerEndValue, upperBound, 1⟩
  | none => return ⟨0, 0, 2⟩

/-- The entry that is written for an element of a size, where it is counted as one. -/
def sizeEntry : SubtypeValue → Option (Option ValueRange)
  | .valueRange lowerEndValue upperEndValue => some <$> sizeRangeEntry lowerEndValue upperEndValue
  | .singleValue (.integer kept) => do return some ⟨(← kept).toInt64, 0, 0⟩
  | .singleValue (.localValueRef linked) => do return some ⟨(← linked).toInt64, 0, 0⟩
  -- Another value is counted, but its entry is not written.
  | .singleValue _ => none
  | _ => return none

/-- SizeConstraint_LISTS: write the entries of some elements behind those that are there. -/
def sizeConstraintLISTS : List Subtype → List ValueRange → Option (List ValueRange)
  | [], scList => some scList
  | .single value :: rest, scList => do
    let entry ← sizeEntry value
    -- There is room for fifteen entries; what happens to others is not known.
    if scList.length + entry.toList.length ≤ 15 then
      sizeConstraintLISTS rest (scList ++ entry.toList)
    else none
  | _ :: rest, scList => sizeConstraintLISTS rest scList

/-- BasicTypeString_LISTS: write the entries of the sizes among some constraints. -/
def basicTypeStringLISTS : List Subtype → List ValueRange → Option (List ValueRange)
  | [], scList => some scList
  | .single (.sizeConstraint subtype) :: rest, scList => do
    -- What stands behind SIZE is put into a list of its own, as one element.
    basicTypeStringLISTS rest (← sizeConstraintLISTS [subtype] scList)
  | _ :: rest, scList => basicTypeStringLISTS rest scList

/-- A bound as it is compiled, where it is an `unsigned long`. -/
def compiledBound (bound : Int64) : UInt64 :=
  bound.toUInt64

/-- The sizes that are printed for some entries; none are where an entry has no bounds. -/
def printedList (scList : List ValueRange) : List SizeConstraint :=
  if scList.any (·.upperBoundExists == 2) then []
  else scList.map fun entry =>
    ⟨compiledBound entry.lowerBound, compiledBound entry.upperBound, entry.upperBoundExists == 1⟩

/-- The sizes that are printed for the constraints of a component. -/
def printedSizes (subtypes : Subtype) : Option (List SizeConstraint) :=
  printedList <$> eachConstraint basicTypeStringLISTS [] subtypes

/-! ## Sizes as they are written -/

/-- A range of sizes; its upper end is MAX where it has no number. -/
structure SizeRange where
  lower : Nat
  lowerInclusive : Bool
  upper : Option Nat
  upperInclusive : Bool
  lowerSmall : lower ≤ 65536
  upperSmall : ∀ u ∈ upper, u ≤ 65536

/-- A single size or a range. -/
inductive SizeElement where
  | number (n : Nat)
  | range (r : SizeRange)

/-- What stands behind SIZE: elements that are joined with bars. -/
structure SizeUnion where
  first : SizeElement
  rest : List SizeElement

/-- The number that is kept for the digits of a number. -/
def number (n : Nat) : Option Int32 :=
  -- More than 32 bits are no number to the scanner, and the number is narrowed.
  if n ≤ 0xFFFFFFFF then some (.ofNat n) else none

/-- What is parsed for an element. -/
def SizeElement.parsed : SizeElement → SubtypeValue
  | number n => .singleValue (.integer (Compiler.number n))
  | range r =>
    .valueRange ⟨.integer (Compiler.number r.lower), r.lowerInclusive⟩ ⟨match r.upper with
      | none => .specialInteger true
      | some u => .integer (Compiler.number u), r.upperInclusive⟩

def SizeUnion.elements (u : SizeUnion) : List SizeElement :=
  u.first :: u.rest

/-- What is parsed for SIZE. -/
def SizeUnion.parsed (u : SizeUnion) : SubtypeValue :=
  .sizeConstraint (subtypeValueSetList u.first.parsed (u.rest.map SizeElement.parsed))

/-- A size is not above the upper end of a range; every size is below MAX. -/
def SizeRange.Below (r : SizeRange) (n : Nat) : Prop :=
  match r.upper with
  | none => True
  | some u => if r.upperInclusive then n ≤ u else n < u

/-- An element allows a size. -/
def SizeElement.Allows (n : Nat) : SizeElement → Prop
  | number m => n = m
  | range r => (if r.lowerInclusive then r.lower ≤ n else r.lower < n) ∧ r.Below n

/-- SIZE allows a size. -/
def SizeUnion.Allows (u : SizeUnion) (n : Nat) : Prop :=
  ∃ e ∈ u.elements, e.Allows n

/-- The least size from the lower end of a range on. -/
def SizeRange.least (r : SizeRange) : Nat :=
  if r.lowerInclusive then r.lower else r.lower + 1

/-- The sizes of an element alone are accepted as it allows them. -/
def SizeElement.Kept : SizeElement → Prop
  | number n => n < 2 ^ 31
  | range r =>
    match r.upper with
    | none => r.least = 0
    | some u => r.upperInclusive = true ∨ u + 1 < r.least

/-- The sizes behind SIZE are accepted as it allows them; nothing is printed for two elements. -/
def SizeUnion.Kept (u : SizeUnion) : Prop :=
  match u.rest with
  | [] => u.first.Kept
  | _ => ∀ n, u.Allows n

/-! ## What is printed for them -/

/-- The entry of an element. -/
def SizeElement.entry : SizeElement → ValueRange
  | number n => ⟨(Int32.ofNat n).toInt64, 0, 0⟩
  | range r =>
    match r.upper with
    | none => ⟨0, 0, 2⟩
    | some u => ⟨.ofNat r.least, .ofNat (if r.upperInclusive then u else u + 1), 1⟩

theorem toInt64_ofNat {n : Nat} (small : n < 2 ^ 31) : (Int32.ofNat n).toInt64 = .ofNat n := by
  rw [← Int64.toInt_inj, Int32.toInt_toInt64, Int32.toInt_ofNat_of_lt small,
    Int64.toInt_ofNat_of_lt (by omega)]

theorem bound_eq {n : Nat} (small : n ≤ 65536) (inclusive : Bool) :
    (if inclusive then some (Int32.ofNat n).toInt64 else plusOne (Int32.ofNat n)) =
      some (.ofNat (if inclusive then n else n + 1)) := by
  cases inclusive with
  | true => exact congrArg some (toInt64_ofNat (by omega))
  | false =>
    have value : (Int32.ofNat n).toInt = n := Int32.toInt_ofNat_of_lt (by omega)
    change plusOne _ = some (.ofNat (n + 1))
    rw [plusOne, value, if_pos (by omega)]
    rfl

theorem number_eq {n : Nat} (small : n ≤ 65536) : number n = some (.ofNat n) :=
  if_pos (by omega)

/-- The entry of an element is written where its number is read. -/
theorem SizeElement.sizeEntry_eq {e : SizeElement}
    (known : ∀ n, e = .number n → n ≤ 0xFFFFFFFF) : sizeEntry e.parsed = some (some e.entry) := by
  cases e with
  | number n =>
    rw [SizeElement.parsed, Compiler.number, if_pos (known n rfl)]
    rfl
  | range r =>
    have lower : sizeLowerBound ⟨.integer (Compiler.number r.lower), r.lowerInclusive⟩ =
        some (.ofNat r.least) := by
      rw [sizeLowerBound, number_eq r.lowerSmall]
      exact bound_eq r.lowerSmall r.lowerInclusive
    obtain ⟨l, lowerInclusive, upper, upperInclusive, lowerSmall, upperSmall⟩ := r
    cases upper with
    | none => rfl
    | some u =>
      have small := upperSmall u rfl
      have value : (Int32.ofNat u).toInt = u := Int32.toInt_ofNat_of_lt (by omega)
      have least : Int32.ofNat u ≤ 65536 := by
        rw [Int32.le_iff_toInt_le, value]
        change (u : Int) ≤ 65536
        omega
      have upper : sizeUpperBound ⟨.integer (Compiler.number u), upperInclusive⟩ =
          some (some (.ofNat (if upperInclusive then u else u + 1))) := by
        rw [sizeUpperBound, number_eq small]
        change (if Int32.ofNat u ≤ 65536 then _ else _) = _
        rw [if_pos least]
        exact congrArg (Option.map some) (bound_eq small upperInclusive)
      simp only [SizeElement.parsed, sizeEntry, sizeRangeEntry, upper, lower]
      rfl

theorem sizeEntry_of_long {n : Nat} (long : ¬n ≤ 0xFFFFFFFF) :
    sizeEntry (SizeElement.number n).parsed = none := by
  rw [SizeElement.parsed, Compiler.number, if_neg long]
  rfl

/-! ## When it is what is allowed -/

/-- Some constraints accept a size; no constraints accept all. -/
def AcceptsLength (sizeConstraints : List SizeConstraint) (n : Nat) : Prop :=
  sizeConstraints = [] ∨ ∃ constraint ∈ sizeConstraints, constraint.Allows n

theorem acceptsLength_singleton (constraint : SizeConstraint) (n : Nat) :
    AcceptsLength [constraint] n ↔ constraint.Allows n := by
  simp [AcceptsLength]

theorem compiledBound_ofNat {n : Nat} (small : n < 2 ^ 31) :
    (compiledBound (.ofNat n)).toNat = n := by
  rw [compiledBound, Int64.toUInt64_ofNat', UInt64.toNat_ofNat']
  omega

/-- A size that is negative as an `int` is compiled to another one. -/
theorem compiledBound_of_negative {n : Nat} (large : 2 ^ 31 ≤ n) (word : n ≤ 0xFFFFFFFF) :
    (compiledBound (Int32.ofNat n).toInt64).toNat ≠ n := by
  intro same
  have kept : (Int32.ofNat n).toInt64.toInt < 2 ^ 31 := by
    rw [Int32.toInt_toInt64]
    exact Int32.toInt_lt _
  -- Compiled to itself, the size would be the number that is kept.
  have value : (Int32.ofNat n).toInt64.toInt = n := by
    have read : (Int32.ofNat n).toInt64.toInt =
        ((compiledBound (Int32.ofNat n).toInt64).toNat : Int).bmod (2 ^ 64) :=
      BitVec.toInt_eq_toNat_bmod _
    rw [read, same]
    exact Int.bmod_eq_of_le (by omega) (by omega)
  omega

/-- The sizes of an element alone are accepted as it allows them exactly where it is kept. -/
theorem SizeElement.kept_iff {e : SizeElement} (known : ∀ n, e = .number n → n ≤ 0xFFFFFFFF) :
    (∀ n, AcceptsLength (printedList [e.entry]) n ↔ e.Allows n) ↔ e.Kept := by
  cases e with
  | number n =>
    change (∀ k, AcceptsLength [⟨compiledBound (Int32.ofNat n).toInt64, 0, false⟩] k ↔ k = n) ↔
      n < 2 ^ 31
    simp only [acceptsLength_singleton]
    change (∀ k, (compiledBound (Int32.ofNat n).toInt64).toNat = k ↔ k = n) ↔ n < 2 ^ 31
    constructor
    · intro all
      by_contra large
      exact compiledBound_of_negative (Nat.le_of_not_lt large) (known n rfl) ((all n).mpr rfl)
    · intro small k
      rw [toInt64_ofNat small, compiledBound_ofNat small]
      exact eq_comm
  | range r =>
    obtain ⟨l, lowerInclusive, upper, upperInclusive, lowerSmall, upperSmall⟩ := r
    -- What is not below the lower end, in terms of the least size.
    have above : ∀ k, (if lowerInclusive then l ≤ k else l < k) ↔
        (if lowerInclusive then l else l + 1) ≤ k := by
      intro k
      cases lowerInclusive
      · exact Nat.lt_iff_add_one_le
      · exact Iff.rfl
    have small : (if lowerInclusive then l else l + 1) ≤ 65537 := by
      cases lowerInclusive
      · exact Nat.succ_le_succ lowerSmall
      · exact Nat.le_succ_of_le lowerSmall
    simp only [SizeElement.Allows, SizeElement.Kept, SizeRange.Below, SizeRange.least,
      SizeElement.entry, above]
    generalize (if lowerInclusive then l else l + 1) = least at small
    cases upper with
    | none =>
      -- Nothing is printed, and all sizes are accepted.
      have accepts : ∀ k, AcceptsLength (printedList [⟨0, 0, 2⟩]) k := fun k => .inl rfl
      simp only [accepts, true_iff, and_true]
      exact ⟨fun all => Nat.le_zero.mp (all 0), fun zero k => zero ▸ Nat.zero_le k⟩
    | some u =>
      have smallUpper := upperSmall u rfl
      dsimp only
      have accepts : ∀ k, AcceptsLength (printedList [⟨.ofNat least,
          .ofNat (if upperInclusive then u else u + 1), 1⟩]) k ↔
            least ≤ k ∧ k ≤ if upperInclusive then u else u + 1 := by
        intro k
        refine (acceptsLength_singleton _ k).trans ?_
        change (compiledBound (.ofNat least)).toNat ≤ k ∧ k ≤ (compiledBound (.ofNat _)).toNat ↔ _
        rw [compiledBound_ofNat (by omega), compiledBound_ofNat (by split <;> omega)]
      simp only [accepts]
      cases upperInclusive with
      | true => simp
      | false =>
        simp only [Bool.false_eq_true, if_false, false_or]
        constructor
        · intro all
          -- The two sizes from the upper end on would be allowed.
          by_contra reached
          have first := all u
          have second := all (u + 1)
          omega
        · intro crossed k
          omega

/-- What is accepted behind SIZE is what is allowed exactly where it is kept. -/
theorem SizeUnion.printed_spec (u : SizeUnion) :
    (∃ scList, basicTypeStringLISTS [.single u.parsed] [] = some scList ∧
      ∀ n, AcceptsLength (printedList scList) n ↔ u.Allows n) ↔ u.Kept := by
  obtain ⟨first, rest⟩ := u
  cases rest with
  | nil =>
    change _ ↔ first.Kept
    have alone : ∀ n, SizeUnion.Allows ⟨first, []⟩ n ↔ first.Allows n := by
      intro n
      simp only [SizeUnion.Allows, SizeUnion.elements, List.mem_singleton, exists_eq_left]
    simp only [alone]
    have ran : basicTypeStringLISTS [.single (SizeUnion.parsed ⟨first, []⟩)] [] =
        (sizeEntry first.parsed).bind fun entry =>
          if entry.toList.length ≤ 15 then some entry.toList else none := by
      change Option.bind (Option.bind (sizeEntry first.parsed) _) some = _
      rw [Option.bind_fun_some]
      cases sizeEntry first.parsed with
      | none => rfl
      | some entry => cases entry <;> rfl
    by_cases known : ∀ n, first = .number n → n ≤ 0xFFFFFFFF
    · rw [ran, SizeElement.sizeEntry_eq known, ← SizeElement.kept_iff known]
      constructor
      · rintro ⟨scList, written, accepts⟩
        cases written
        exact accepts
      · intro accepts
        exact ⟨[first.entry], rfl, accepts⟩
    · -- A number that is not read is too long to be kept.
      push Not at known
      obtain ⟨n, rfl, long⟩ := known
      rw [ran, sizeEntry_of_long (by omega)]
      refine iff_of_false ?_ ?_
      · rintro ⟨scList, written, -⟩
        cases written
      · intro kept
        have short : n < 2 ^ 31 := kept
        omega
  | cons second rest =>
    -- The elements are one element of the list that is made, which is no single one.
    have ran : basicTypeStringLISTS [.single (SizeUnion.parsed ⟨first, second :: rest⟩)] [] =
        some [] := by
      rw [SizeUnion.parsed, List.map_cons, subtypeValueSetList_cons]
      rfl
    rw [ran]
    constructor
    · rintro ⟨scList, written, accepts⟩ n
      cases written
      exact (accepts n).mp (.inl rfl)
    · intro kept
      exact ⟨[], rfl, fun n => iff_of_true (.inl rfl) (kept n)⟩

/-! ## Components -/

/-- A string component with FROM, SIZE or both, of which either may stand first. -/
structure StringComponent where
  type : StringType
  alphabet : Option AlphabetUnion
  size : Option SizeUnion
  sizeFirst : Bool
  constrained : alphabet.isSome ∨ size.isSome
  proper : ∀ u ∈ alphabet, ∀ e ∈ u.elements, e.Proper type

/-- What is parsed for the constraints of a component. -/
def StringComponent.parsed (c : StringComponent) : List SubtypeValue :=
  let alphabets := c.alphabet.toList.map AlphabetUnion.parsed
  let sizes := c.size.toList.map SizeUnion.parsed
  if c.sizeFirst then sizes ++ alphabets else alphabets ++ sizes

/-- PrintCxxMultiConstraintOrHandler: the alphabet and the sizes of the class that is printed. -/
def StringType.printed (type : StringType) (subtypes : Subtype) : Option AsnStringType := do
  let alphabet ← printedAlphabet subtypes
  let sizes ← printedSizes subtypes
  return ⟨type.alphabetOr alphabet, sizes⟩

/-- The class that is printed for a component. -/
def StringComponent.printed (c : StringComponent) : Option AsnStringType := do
  c.type.printed (← subtypesOf (c.parsed.map fun value => subtypeValueSetList value []))

/-- The characters that a component may have. -/
def StringComponent.allowed (c : StringComponent) : Set UInt8 :=
  { ch ∈ c.type.permittedAlphabet | ∀ u ∈ c.alphabet, ch ∈ u.allowed c.type }

/-- A component may have a size. -/
def StringComponent.Allows (c : StringComponent) (n : Nat) : Prop :=
  ∀ u ∈ c.size, u.Allows n

/--
The class has the characters that are allowed, once each in ascending order.

Of the strings over them, it accepts those whose size is allowed.
-/
def StringComponent.Translated (c : StringComponent) : Prop :=
  ∃ type, c.printed = some type ∧ type.permittedAlphabet.Pairwise (· < ·) ∧
    (∀ ch, ch ∈ type.permittedAlphabet ↔ ch ∈ c.allowed) ∧
    ∀ x : List UInt8, (∀ ch ∈ x, ch ∈ type.permittedAlphabet) →
      ((AsnString.checkConstraints type x).1 = false ↔ c.Allows x.length)

/-- The alphabet that is collected for a component is the one behind FROM. -/
theorem StringComponent.alphabets_eq (c : StringComponent) :
    c.parsed.foldlM (fun s value => findPermittedAlpha [.single value] s) [] =
      match c.alphabet with
      | none => some []
      | some u => findPermittedAlpha [.single u.parsed] [] := by
  obtain ⟨type, alphabet, size, sizeFirst, constrained, proper⟩ := c
  -- Nothing is collected behind SIZE.
  have last : ∀ u : AlphabetUnion, Option.bind (findPermittedAlpha [.single u.parsed] []) some =
      findPermittedAlpha [.single u.parsed] [] := fun u => Option.bind_fun_some _
  cases alphabet with
  | none => cases size <;> cases sizeFirst <;> rfl
  | some u =>
    cases size with
    | none => cases sizeFirst <;> exact last u
    | some v => cases sizeFirst <;> exact last u

/-- The entries that are written for a component are those of SIZE. -/
theorem StringComponent.sizes_eq (c : StringComponent) :
    c.parsed.foldlM (fun s value => basicTypeStringLISTS [.single value] s) [] =
      match c.size with
      | none => some []
      | some u => basicTypeStringLISTS [.single u.parsed] [] := by
  obtain ⟨type, alphabet, size, sizeFirst, constrained, proper⟩ := c
  -- Nothing is written for FROM.
  have last : ∀ u : SizeUnion, Option.bind (basicTypeStringLISTS [.single u.parsed] []) some =
      basicTypeStringLISTS [.single u.parsed] [] := fun u => Option.bind_fun_some _
  cases size with
  | none => cases alphabet <;> cases sizeFirst <;> rfl
  | some u =>
    cases alphabet with
    | none => cases sizeFirst <;> exact last u
    | some v => cases sizeFirst <;> exact last u

/-- What is collected for a component is what is allowed exactly where FROM is kept. -/
theorem StringComponent.collected_spec (c : StringComponent) :
    ∃ all, c.parsed.foldlM (fun s value => findPermittedAlpha [.single value] s) [] = some all ∧
      all.Nodup ∧ ((∀ ch, ch ∈ c.type.alphabetOr all ↔ ch ∈ c.allowed) ↔
        ∀ u ∈ c.alphabet, u.Kept c.type) := by
  rw [alphabets_eq]
  obtain ⟨type, alphabet, size, sizeFirst, constrained, proper⟩ := c
  cases alphabet with
  | none =>
    refine ⟨[], rfl, List.nodup_nil, iff_of_true ?_ nofun⟩
    intro ch
    exact ⟨fun permitted => ⟨permitted, nofun⟩, And.left⟩
  | some u =>
    obtain ⟨all, ran, distinct, right⟩ := AlphabetUnion.collected_spec (proper u rfl)
    refine ⟨all, ran, distinct, ?_⟩
    have same : ∀ ch, ch ∈ StringComponent.allowed ⟨type, some u, size, sizeFirst, constrained,
        proper⟩ ↔ ch ∈ u.allowed type := by
      intro ch
      refine ⟨fun allowed => allowed.2 u rfl, fun allowed => ⟨allowed.1, ?_⟩⟩
      rintro _ ⟨⟩
      exact allowed
    simp only [same, right, Option.mem_some_iff, forall_eq']

/-- What is written for a component accepts what is allowed exactly where SIZE is kept. -/
theorem StringComponent.written_spec (c : StringComponent) :
    (∃ scList, c.parsed.foldlM (fun s value => basicTypeStringLISTS [.single value] s) [] =
        some scList ∧ ∀ n, AcceptsLength (printedList scList) n ↔ c.Allows n) ↔
      ∀ u ∈ c.size, u.Kept := by
  rw [sizes_eq]
  unfold StringComponent.Allows
  obtain ⟨type, alphabet, size, sizeFirst, constrained, proper⟩ := c
  cases size with
  | none => exact iff_of_true ⟨[], rfl, fun n => iff_of_true (.inl rfl) nofun⟩ nofun
  | some u =>
    simp only [Option.mem_some_iff, forall_eq']
    exact u.printed_spec

theorem exists_subtypesOf (first : SubtypeValue) (rest : List SubtypeValue) :
    ∃ s, subtypesOf ((first :: rest).map .single) = some s := by
  cases rest with
  | nil => exact ⟨_, rfl⟩
  | cons second rest => exact ⟨_, subtypesOf_cons _ _ fun _ same => by cases same⟩

/-- The class of a component has what is collected in ascending order, and the sizes written. -/
theorem StringComponent.printed_eq (c : StringComponent) {all : List UInt8}
    (collected : c.parsed.foldlM (fun s value => findPermittedAlpha [.single value] s) [] =
      some all) :
    c.printed = (c.parsed.foldlM (fun s value => basicTypeStringLISTS [.single value] s) []).map
      fun scList => ⟨c.type.alphabetOr (exchangeSort UInt8.toNat all), printedList scList⟩ := by
  have some : c.parsed ≠ [] := by
    obtain ⟨type, alphabet, size, sizeFirst, constrained, proper⟩ := c
    intro none
    cases alphabet with
    | some u => cases size <;> cases sizeFirst <;> cases none
    | none =>
      cases size with
      | some u => cases sizeFirst <;> cases none
      | none => exact constrained.elim Bool.noConfusion Bool.noConfusion
  obtain ⟨first, rest, parsed⟩ := List.exists_cons_of_ne_nil some
  rw [parsed] at collected ⊢
  obtain ⟨s, kept⟩ := exists_subtypesOf first rest
  have alphabets := eachConstraint_subtypesOf findPermittedAlpha [] first rest
  have sizes := eachConstraint_subtypesOf basicTypeStringLISTS [] first rest
  rw [kept, Option.bind_some] at alphabets sizes
  rw [← sizes, StringComponent.printed, parsed]
  change Option.bind (subtypesOf ((first :: rest).map .single)) _ = _
  rw [kept, Option.bind_some, StringType.printed, printedAlphabet, alphabets, collected,
    printedSizes]
  cases eachConstraint basicTypeStringLISTS [] s <;> rfl

theorem StringType.alphabetOr_nonempty (type : StringType) (printed : List UInt8) :
    type.alphabetOr printed ≠ [] := by
  obtain ⟨c, permitted⟩ := type.alphabet_nonempty
  unfold StringType.alphabetOr
  by_cases empty : printed = []
  · rw [if_pos empty]
    exact List.ne_nil_of_mem permitted
  · rwa [if_neg empty]

/-- The strings over the alphabet of a class are accepted by their sizes. -/
theorem accepted_iff {type : AsnStringType} (nonempty : type.permittedAlphabet ≠ [])
    (allows : Nat → Prop) :
    (∀ x : List UInt8, (∀ ch ∈ x, ch ∈ type.permittedAlphabet) →
        ((AsnString.checkConstraints type x).1 = false ↔ allows x.length)) ↔
      ∀ n, AcceptsLength type.sizeConstraints n ↔ allows n := by
  constructor
  · intro all n
    -- There is a string of every size.
    obtain ⟨ch, permitted⟩ := List.exists_mem_of_ne_nil _ nonempty
    have inside : ∀ c ∈ List.replicate n ch, c ∈ type.permittedAlphabet := by
      intro c there
      rwa [List.eq_of_mem_replicate there]
    have accepted := all _ inside
    rw [AsnString.checkConstraints_eq_false nonempty inside, List.length_replicate] at accepted
    exact accepted
  · intro all x inside
    rw [AsnString.checkConstraints_eq_false nonempty inside]
    exact all x.length

/-- A component is translated exactly where FROM and SIZE are kept. -/
theorem StringComponent.translated_iff (c : StringComponent) :
    c.Translated ↔ (∀ u ∈ c.alphabet, u.Kept c.type) ∧ ∀ u ∈ c.size, u.Kept := by
  obtain ⟨all, collected, distinct, right⟩ := c.collected_spec
  have members : ∀ ch, ch ∈ c.type.alphabetOr (exchangeSort UInt8.toNat all) ↔
      ch ∈ c.type.alphabetOr all := by
    intro ch
    have perm : (exchangeSort UInt8.toNat all).Perm all := exchangeSort_perm all
    unfold StringType.alphabetOr
    by_cases empty : all = []
    · subst empty
      rfl
    · have some : exchangeSort UInt8.toNat all ≠ [] := by
        intro none
        rw [none] at perm
        exact empty perm.symm.eq_nil
      rw [if_neg empty, if_neg some, perm.mem_iff]
  have ascending : (c.type.alphabetOr (exchangeSort UInt8.toNat all)).Pairwise (· < ·) := by
    unfold StringType.alphabetOr
    by_cases empty : exchangeSort UInt8.toNat all = []
    · rw [if_pos empty]
      exact c.type.ascending
    · rw [if_neg empty]
      exact exchangeSort_ascending distinct
  have nonempty := c.type.alphabetOr_nonempty (exchangeSort UInt8.toNat all)
  constructor
  · rintro ⟨type, printed, -, chars, sizes⟩
    rw [c.printed_eq collected] at printed
    obtain ⟨scList, written, rfl⟩ := Option.map_eq_some_iff.mp printed
    exact ⟨right.mp fun ch => (members ch).symm.trans (chars ch),
      c.written_spec.mp ⟨scList, written, (accepted_iff nonempty c.Allows).mp sizes⟩⟩
  · rintro ⟨alphabet, size⟩
    obtain ⟨scList, written, accepts⟩ := c.written_spec.mpr size
    refine ⟨_, c.printed_eq collected ▸ congrArg (Option.map _) written, ascending, ?_,
      (accepted_iff nonempty c.Allows).mpr accepts⟩
    intro ch
    exact (members ch).trans (right.mpr alphabet ch)

/-! ## Octet and bit strings -/

/-- The sizes that are printed for an OCTET STRING or a BIT STRING with SIZE. -/
def SizeUnion.printed (u : SizeUnion) : Option (List SizeConstraint) := do
  printedSizes (← subtypesOf [subtypeValueSetList u.parsed []])

/-- The sizes that are printed accept those of octets that are allowed. -/
def SizeUnion.Translated (u : SizeUnion) : Prop :=
  ∃ sizes, u.printed = some sizes ∧ ∀ x : List UInt8,
    (AsnString.checkConstraints ⟨AsnString.permittedAlphabet, sizes⟩ x).1 = false ↔
      u.Allows x.length

theorem SizeUnion.translated_iff (u : SizeUnion) : u.Translated ↔ u.Kept := by
  -- Each octet is one of the characters that the rules are put on.
  have every : ∀ ch, ch ∈ AsnString.permittedAlphabet := by
    intro ch
    have inside : ch ∈ octetRange (0 : UInt8).toNat (255 : UInt8).toNat := by
      rw [mem_octetRange, UInt8.le_iff_toNat_le, UInt8.le_iff_toNat_le]
      exact ⟨Nat.zero_le _, Nat.le_of_lt_succ ch.toNat_lt⟩
    exact inside
  have nonempty : AsnString.permittedAlphabet ≠ [] := List.ne_nil_of_mem (every 0)
  have accepts : ∀ sizes : List SizeConstraint, (∀ x : List UInt8,
      (AsnString.checkConstraints ⟨AsnString.permittedAlphabet, sizes⟩ x).1 = false ↔
        u.Allows x.length) ↔ ∀ n, AcceptsLength sizes n ↔ u.Allows n := by
    intro sizes
    rw [← @accepted_iff ⟨AsnString.permittedAlphabet, sizes⟩ nonempty u.Allows]
    exact ⟨fun all x _ => all x, fun all x => all x fun ch _ => every ch⟩
  have printed : u.printed = (basicTypeStringLISTS [.single u.parsed] []).map printedList := rfl
  unfold SizeUnion.Translated
  simp only [accepts, printed, Option.map_eq_some_iff]
  rw [← u.printed_spec]
  constructor
  · rintro ⟨_, ⟨scList, written, rfl⟩, right⟩
    exact ⟨scList, written, right⟩
  · rintro ⟨scList, written, right⟩
    exact ⟨_, ⟨scList, written, rfl⟩, right⟩

/-! ## The translation -/

/-- Components are translated exactly where their FROM and SIZE are kept, in both kinds of types. -/
theorem stringConstraints_translated_iff (c : StringComponent) (octets : SizeUnion) :
    (c.Translated ↔ (∀ u ∈ c.alphabet, u.Kept c.type) ∧ ∀ u ∈ c.size, u.Kept) ∧
      (octets.Translated ↔ octets.Kept) :=
  ⟨c.translated_iff, octets.translated_iff⟩

/-- One or three characters of IA5String. -/
def oneOrThree : StringComponent where
  type := .ia5Str
  alphabet := none
  size := some ⟨.number 1, [.number 3]⟩
  sizeFirst := true
  constrained := .inr rfl
  proper := nofun

/-- Two characters are accepted where one or three are allowed. -/
theorem two_accepted_of_one_or_three :
    ¬((∀ c : StringComponent, c.Translated) ∧ ∀ u : SizeUnion, u.Translated) := by
  rintro ⟨always, -⟩
  obtain ⟨type, printed, -, -, sizes⟩ := always oneOrThree
  -- No sizes are printed.
  have ran : oneOrThree.printed = some ⟨IA5String.permittedAlphabet, []⟩ := rfl
  cases ran.symm.trans printed
  have inside : ∀ ch ∈ ([0x61, 0x61] : List UInt8), ch ∈ IA5String.permittedAlphabet := by
    decide +kernel
  have accepted : (AsnString.checkConstraints ⟨IA5String.permittedAlphabet, []⟩
      [0x61, 0x61]).1 = false := by decide
  obtain ⟨e, member, allows⟩ := (sizes _ inside).mp accepted _ rfl
  rcases List.mem_cons.mp member with rfl | later
  · cases allows
  · cases List.mem_singleton.mp later
    cases allows

end Esnacc.Compiler
