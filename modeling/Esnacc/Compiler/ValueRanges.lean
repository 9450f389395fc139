import Esnacc.Compiler.Subtypes
import Esnacc.Cxx.PerOffsets
import Esnacc.Lib.TwosComplement
import Mathlib.Data.Set.Basic

/-! The ranges that are printed for the constraints of an INTEGER component. -/

namespace Esnacc.Compiler

open Lib Esnacc.Cxx

/-! ## The table that is printed -/

/-- A number plus one; an `int` cannot hold it where it is the largest one. -/
def plusOne (n : Int32) : Option Int64 :=
  if n.toInt + 1 < 2 ^ 31 then some (.ofInt (n.toInt + 1)) else none

/-- The entry that is written for an element, where one is; `none` where nothing is known of it. -/
def valueRangeEntry : SubtypeValue → Option (Option ValueRange)
  | .valueRange lowerEndValue upperEndValue =>
    match lowerEndValue.endValue with
    | .integer kept => do
      let n ← kept
      let lowerBound ← (if lowerEndValue.valueInclusive then some n.toInt64 else plusOne n)
      match upperEndValue.endValue with
      | .integer kept => do
        let m ← kept
        let upperBound ← (if upperEndValue.valueInclusive then some m.toInt64 else plusOne m)
        return some ⟨lowerBound, upperBound, 1⟩
      | _ => return some ⟨lowerBound, 0, 0⟩
    | _ => return none
  | .singleValue (.integer kept) => do
    let n ← kept
    return some ⟨n.toInt64, 0, 2⟩
  | _ => return none

/-- ValueRange_LISTS: write the entries of some elements behind those that are there. -/
def valueRangeLISTS : List Subtype → List ValueRange → Option (List ValueRange)
  | [], vrList => return vrList
  | .single value :: rest, vrList => do
    -- There is room for fifteen entries.
    if vrList.length < 15 then
      let entry ← valueRangeEntry value
      valueRangeLISTS rest (vrList ++ entry.toList)
    else valueRangeLISTS rest vrList
  | _ :: rest, vrList => valueRangeLISTS rest vrList

/-- Write the entries of one constraint: those of its alternatives, or of itself alone. -/
def constraintLISTS (vrList : List ValueRange) : Subtype → Option (List ValueRange)
  | .or alternatives => valueRangeLISTS alternatives vrList
  | .single value => valueRangeLISTS [.single value] vrList
  | .and _ => return vrList

/-- PrintCxxMultiConstraintOrHandler: the ranges that are printed for an INTEGER. -/
def printedValueRanges : Subtype → Option (List ValueRange)
  | .and subtypes => subtypes.foldlM constraintLISTS []
  | s => constraintLISTS [] s

/-! ## Constraints as they are written -/

/-- An end of a range: a number, or MIN at its lower end and MAX at its upper one. -/
structure EndPoint where
  value : Option Int64
  inclusive : Bool

/-- A single integer or a range. -/
inductive IntElement where
  | single (n : Int64)
  | range (lower upper : EndPoint)

/-- The elements of a constraint, which are joined with bars. -/
structure IntUnion where
  first : IntElement
  rest : List IntElement

/-- The constraints of a component, one after the other. -/
structure IntConstraint where
  first : IntUnion
  rest : List IntUnion

/-- What is parsed for an end of a range. -/
def EndPoint.parsed (e : EndPoint) (max : Bool) : ValueRangeEndpoint :=
  match e.value with
  | none => ⟨.specialInteger max, e.inclusive⟩
  | some n => ⟨.integer (signedNumber n), e.inclusive⟩

/-- What is parsed for an element. -/
def IntElement.parsed : IntElement → SubtypeValue
  | single n => .singleValue (.integer (signedNumber n))
  | range lower upper => .valueRange (lower.parsed false) (upper.parsed true)

/-- The elements of a constraint. -/
def IntUnion.elements (u : IntUnion) : List IntElement :=
  u.first :: u.rest

/-- What is parsed for a constraint. -/
def IntUnion.parsed (u : IntUnion) : Subtype :=
  subtypeValueSetList u.first.parsed (u.rest.map IntElement.parsed)

/-- The constraints of a component. -/
def IntConstraint.unions (c : IntConstraint) : List IntUnion :=
  c.first :: c.rest

/-- The elements of all the constraints. -/
def IntConstraint.elements (c : IntConstraint) : List IntElement :=
  c.unions.flatMap IntUnion.elements

/-- The ranges that are printed for a component. -/
def IntConstraint.valueRanges (c : IntConstraint) : Option (List ValueRange) := do
  printedValueRanges (← subtypesOf (c.unions.map IntUnion.parsed))

/-! ## What constraints mean -/

/-- A number is not below the lower end of a range; MIN is the least number of the parent type. -/
def EndPoint.Above (parent : Set Int) (e : EndPoint) (v : Int) : Prop :=
  match e.value with
  | none => e.inclusive = true ∨ ∃ p ∈ parent, p < v
  | some n => if e.inclusive then n.toInt ≤ v else n.toInt < v

/-- A number is not above the upper end of a range; MAX is the greatest number of the parent type. -/
def EndPoint.Below (parent : Set Int) (e : EndPoint) (v : Int) : Prop :=
  match e.value with
  | none => e.inclusive = true ∨ ∃ p ∈ parent, v < p
  | some n => if e.inclusive then v ≤ n.toInt else v < n.toInt

/-- An element allows a number of the parent type. -/
def IntElement.Allows (parent : Set Int) (v : Int) : IntElement → Prop
  | single n => v = n.toInt
  | range lower upper => lower.Above parent v ∧ upper.Below parent v

/-- The numbers of the parent type that a constraint leaves. -/
def IntUnion.narrow (parent : Set Int) (u : IntUnion) : Set Int :=
  { v ∈ parent | ∃ e ∈ u.elements, e.Allows parent v }

/-- The numbers that satisfy all the constraints, each of which is put on the numbers left before. -/
def IntConstraint.satisfying (c : IntConstraint) : Set Int :=
  c.unions.foldl IntUnion.narrow Set.univ

/-- A C++ INTEGER that keeps a number in the least octets. -/
structure Keeps (x : AsnInt) (v : Int) : Prop where
  some : x.mBytes ≠ []
  signed : signedOf x.mBytes = v
  least : ∀ octets, octets ≠ [] → signedOf octets = v → x.mBytes.length ≤ octets.length

/-- The table that is printed accepts the numbers that satisfy the constraints, among those of a
`long`. -/
def IntConstraint.Translated (c : IntConstraint) : Prop :=
  ∃ table, c.valueRanges = some table ∧
    ∀ (v : Int64) (x : AsnInt), Keeps x v.toInt → (x.Accepted table ↔ v.toInt ∈ c.satisfying)

/-! ## When it does -/

/-- The number that a literal is kept as. -/
def kept (n : Int64) : Int :=
  (Int32.ofInt n.toInt).toInt

/-- The numbers of an `int`. -/
def IsInt (v : Int) : Prop :=
  -2 ^ 31 ≤ v ∧ v < 2 ^ 31

/-- An element does not begin with MIN. -/
def IntElement.listed : IntElement → Bool
  | single _ => true
  | range lower _ => lower.value.isSome

/-- A number is read and, where its end is exclusive, has a successor. -/
def EndPoint.Known (e : EndPoint) : Prop :=
  ∀ n, e.value = some n → n.toInt.natAbs ≤ 0xFFFFFFFF ∧ (e.inclusive = true ∨ kept n + 1 < 2 ^ 31)

/-- The numbers of an element are read. -/
def IntElement.Known : IntElement → Prop
  | single n => n.toInt.natAbs ≤ 0xFFFFFFFF
  | range lower upper => lower.Known ∧ upper.Known

/-- A number is not below a lower end, the number of which is the one kept. -/
def EndPoint.StartsBy (e : EndPoint) (v : Int) : Prop :=
  ∀ n, e.value = some n → if e.inclusive then kept n ≤ v else kept n < v

/-- A number is not above an upper end, the number of which is the one kept. -/
def EndPoint.EndsBehind (e : EndPoint) (v : Int) : Prop :=
  ∀ n, e.value = some n → if e.inclusive then v ≤ kept n else v < kept n

/-- An element contains a number. -/
def IntElement.Contains (v : Int) : IntElement → Prop
  | single n => v = kept n
  | range lower upper => lower.StartsBy v ∧ upper.EndsBehind v

/-- A number is the one at the exclusive upper end of a range or the next one. -/
def IntElement.Overruns (v : Int) : IntElement → Prop
  | single _ => False
  | range lower upper => lower.StartsBy v ∧ upper.inclusive = false ∧
    ∃ n, upper.value = some n ∧ (v = kept n ∨ v = kept n + 1)

/-- What the translation does wrong makes no difference. -/
structure IntConstraint.Harmless (c : IntConstraint) : Prop where
  /-- Numbers that are no `int` are refused. -/
  ints : ∀ v : Int64, v.toInt ∈ c.satisfying → IsInt v.toInt
  /-- Elements of constraints that stand one after the other are all listed. -/
  successive : ∀ e ∈ c.elements, e.listed = true → ∀ v, IsInt v → e.Contains v → v ∈ c.satisfying
  /-- An exclusive upper end is moved up instead of down. -/
  exclusive : ∀ e ∈ c.elements, e.listed = true → ∀ v, IsInt v → e.Overruns v → v ∈ c.satisfying
  /-- Ranges that begin with MIN are not listed. -/
  minimum : ∀ v : Int64, v.toInt ∈ c.satisfying →
    ∃ e ∈ c.elements, e.listed = true ∧ (e.Contains v.toInt ∨ e.Overruns v.toInt)

/-! ## What a table accepts -/

/-- A range accepts a number. -/
def Admits (range : ValueRange) (v : Int) : Prop :=
  if range.upperBoundExists = 1 then range.lowerBound.toInt ≤ v ∧ v ≤ range.upperBound.toInt
  else if range.upperBoundExists = 2 then v = range.lowerBound.toInt
  else if range.upperBoundExists = 0 then range.lowerBound.toInt ≤ v
  else True

/-- A range says nothing of the numbers that it accepts. -/
theorem failure_eq_none_iff (range : ValueRange) (ltemp : Int32) :
    range.failure ltemp = none ↔ Admits range ltemp.toInt := by
  unfold ValueRange.failure Admits
  dsimp only
  by_cases both : range.upperBoundExists = 1
  · rw [if_pos both, if_pos both]
    by_cases outside : ltemp.toInt < range.lowerBound.toInt ∨ range.upperBound.toInt < ltemp.toInt
    · rw [if_pos outside]
      simp only [reduceCtorEq, false_iff]
      omega
    · rw [if_neg outside]
      simp only [true_iff]
      omega
  · rw [if_neg both, if_neg both]
    by_cases only : range.upperBoundExists = 2
    · rw [if_pos only, if_pos only]
      by_cases other : ltemp.toInt ≠ range.lowerBound.toInt
      · rw [if_pos other]
        simp only [reduceCtorEq, false_iff]
        exact other
      · rw [if_neg other]
        simp only [true_iff]
        exact not_not.mp other
    · rw [if_neg only, if_neg only]
      by_cases lower : range.upperBoundExists = 0
      · rw [if_pos lower, if_pos lower]
        by_cases below : ltemp.toInt < range.lowerBound.toInt
        · rw [if_pos below]
          simp only [reduceCtorEq, false_iff]
          omega
        · rw [if_neg below]
          simp only [true_iff]
          omega
      · rw [if_neg lower, if_neg lower]
        simp only

/-- The least octets of a number are at most four where it is an `int`. -/
theorem Keeps.short_iff {x : AsnInt} {v : Int} (keeps : Keeps x v) :
    x.mBytes.length ≤ 4 ↔ IsInt v := by
  constructor
  · intro short
    have below := signedOf_lt short
    have above := le_signedOf short
    rw [keeps.signed] at below above
    exact ⟨above, below⟩
  · intro int
    -- The octets of the `int` stand for the number as well.
    obtain ⟨above, below⟩ := int
    obtain ⟨y, -, some, short, signed, -⟩ := set_spec (.ofInt v)
    rw [Int32.toInt_ofInt_of_le above below] at signed
    exact Nat.le_trans (keeps.least _ some signed) short

theorem all_isSome_eq_false_iff (table : List ValueRange) (ltemp : Int32) :
    (table.map fun range => range.failure ltemp).all Option.isSome = false ↔
      ∃ range ∈ table, Admits range ltemp.toInt := by
  rw [List.all_eq_false]
  simp only [List.mem_map, exists_exists_and_eq_and, Bool.not_eq_true, Option.isSome_eq_false_iff,
    Option.isNone_iff_eq_none, failure_eq_none_iff]

/-- A number is accepted by no ranges, or as an `int` by one of them. -/
theorem Keeps.accepted_iff {x : AsnInt} {v : Int} (keeps : Keeps x v) (table : List ValueRange) :
    x.Accepted table ↔ table = [] ∨ IsInt v ∧ ∃ range ∈ table, Admits range v := by
  rw [← keeps.short_iff]
  by_cases none : table = []
  · -- Without ranges, nothing is looked at.
    subst none
    have checked : x.checkConstraints [] = .ok (false, "") := by
      rw [AsnInt.checkConstraints, if_neg (fun ranged => ranged.2 rfl), if_pos rfl]
      rfl
    exact iff_of_true ⟨"", checked⟩ (.inl rfl)
  · by_cases long : 4 < x.mBytes.length
    · -- More than four octets are refused.
      have refused : ¬x.Accepted table := by
        rintro ⟨text, passed⟩
        rw [AsnInt.checkConstraints, if_pos ⟨long, none⟩] at passed
        cases passed
      refine iff_of_false refused ?_
      rintro (empty | ⟨short, -⟩)
      · exact none empty
      · omega
    · have short : x.mBytes.length ≤ 4 := Nat.not_lt.mp long
      have read := toInteger_eq keeps.some short
      rw [keeps.signed] at read
      obtain ⟨above, below⟩ := keeps.short_iff.mp short
      have number := Int32.toInt_ofInt_of_le above below
      have quiet := all_isSome_eq_false_iff table (Int32.ofInt v)
      rw [number] at quiet
      have checked : x.checkConstraints table =
          .ok ((table.map fun range => range.failure (Int32.ofInt v)).all Option.isSome,
            String.join (table.map fun range => range.failure (Int32.ofInt v)).reduceOption) := by
        rw [AsnInt.checkConstraints, if_neg (fun both => long both.1), read]
        simp only [if_neg none]
        rfl
      rw [AsnInt.Accepted, checked]
      constructor
      · rintro ⟨text, passed⟩
        have failed := (Prod.mk.inj (Except.ok.inj passed)).1
        exact .inr ⟨short, quiet.mp failed⟩
      · rintro (empty | ⟨-, accepts⟩)
        · exact absurd empty none
        · exact ⟨_, by rw [quiet.mpr accepts]⟩

/-! ## The octets of a number -/

/-- Some octets stand for a number. -/
theorem exists_octets (v : Int) : ∃ octets, octets ≠ [] ∧ signedOf octets = v := by
  -- The number without its last octet is nearer to zero.
  induction v using (measure Int.natAbs).wf.induction with
  | h v ih =>
    by_cases zero : v = 0
    · exact ⟨[0], List.cons_ne_nil _ _, zero.symm⟩
    by_cases one : v = -1
    · exact ⟨[0xFF], List.cons_ne_nil _ _, one.symm⟩
    have nearer : (v / 256).natAbs < v.natAbs := by omega
    obtain ⟨octets, some, signed⟩ := ih (v / 256) nearer
    refine ⟨octets ++ [.ofNat (v % 256).toNat], by simp, ?_⟩
    rw [signedOf_concat some, signed, UInt8.toNat_ofNat']
    omega

theorem exists_keeps (v : Int) : ∃ x, Keeps x v := by
  classical
  obtain ⟨octets, some, signed⟩ := exists_octets v
  have sizes : ∃ n, ∃ octets : List UInt8, octets ≠ [] ∧ signedOf octets = v ∧ octets.length = n :=
    ⟨_, octets, some, signed, rfl⟩
  obtain ⟨least, someLeast, signedLeast, size⟩ := Nat.find_spec sizes
  refine ⟨⟨least⟩, someLeast, signedLeast, ?_⟩
  intro others someOthers signedOthers
  change least.length ≤ _
  rw [size]
  exact Nat.find_min' sizes ⟨others, someOthers, signedOthers, rfl⟩

/-! ## The entry of an element -/

theorem toInt_int64 {v : Int} (int : IsInt v) : (Int64.ofInt v).toInt = v := by
  obtain ⟨above, below⟩ := int
  exact Int64.toInt_ofInt_of_le (by omega) (by omega)

theorem isInt_int32 (n : Int32) : IsInt n.toInt :=
  ⟨n.le_toInt, n.toInt_lt⟩

theorem signedNumber_of_le {n : Int64} (short : n.toInt.natAbs ≤ 0xFFFFFFFF) :
    signedNumber n = some (.ofInt n.toInt) := if_pos short

theorem signedNumber_of_lt {n : Int64} (long : ¬n.toInt.natAbs ≤ 0xFFFFFFFF) :
    signedNumber n = none := if_neg long

/-- The bound that is written for an end of a range. -/
def EndPoint.bound (e : EndPoint) (n : Int32) : Option Int64 :=
  if e.inclusive then some n.toInt64 else plusOne n

/-- The bound of an end is its number, or the next one where the end is exclusive. -/
theorem EndPoint.bound_spec (e : EndPoint) (n : Int32) :
    if e.inclusive = true ∨ n.toInt + 1 < 2 ^ 31 then
      ∃ bound, e.bound n = some bound ∧
        bound.toInt = if e.inclusive then n.toInt else n.toInt + 1
    else e.bound n = none := by
  have int := isInt_int32 n
  rw [bound]
  by_cases inclusive : e.inclusive = true
  · rw [if_pos (.inl inclusive), if_pos inclusive, if_pos inclusive]
    exact ⟨_, rfl, Int32.toInt_toInt64 n⟩
  · rw [if_neg inclusive, if_neg inclusive, plusOne]
    by_cases next : n.toInt + 1 < 2 ^ 31
    · rw [if_pos (.inr next), if_pos next]
      refine ⟨_, rfl, toInt_int64 ⟨?_, next⟩⟩
      have above := int.1
      omega
    · rw [if_neg next, if_neg (not_or.mpr ⟨inclusive, next⟩)]

theorem EndPoint.bound_of_known {e : EndPoint} {n : Int64} (value : e.value = some n)
    (known : e.Known) : ∃ bound, (signedNumber n).bind e.bound = some bound ∧
      bound.toInt = if e.inclusive then kept n else kept n + 1 := by
  obtain ⟨short, next⟩ := known n value
  have spec := e.bound_spec (.ofInt n.toInt)
  rw [show (Int32.ofInt n.toInt).toInt = kept n from rfl, if_pos next] at spec
  rwa [signedNumber_of_le short]

/-- No bound is written where its number is not known. -/
theorem EndPoint.bound_of_unknown {e : EndPoint} (unknown : ¬e.Known) :
    ∃ n, e.value = some n ∧ (signedNumber n).bind e.bound = none := by
  unfold Known at unknown
  push Not at unknown
  obtain ⟨n, value, next⟩ := unknown
  refine ⟨n, value, ?_⟩
  by_cases short : n.toInt.natAbs ≤ 0xFFFFFFFF
  · obtain ⟨exclusive, last⟩ := next short
    have spec := e.bound_spec (.ofInt n.toInt)
    rw [show (Int32.ofInt n.toInt).toInt = kept n from rfl, if_neg (not_or.mpr ⟨exclusive, Int.not_lt.mpr last⟩)] at spec
    rwa [signedNumber_of_le short]
  · rw [signedNumber_of_lt short]
    rfl

/-- The entry of a range that begins with a number. -/
theorem valueRangeEntry_range {lower : EndPoint} {n : Int64} (value : lower.value = some n)
    (upper : EndPoint) : valueRangeEntry (IntElement.range lower upper).parsed =
      ((signedNumber n).bind lower.bound).bind fun lowerBound =>
        match upper.value with
        | none => some (some ⟨lowerBound, 0, 0⟩)
        | some m => ((signedNumber m).bind upper.bound).map fun upperBound =>
          some ⟨lowerBound, upperBound, 1⟩ := by
  have parsedLower : lower.parsed false = ⟨.integer (signedNumber n), lower.inclusive⟩ := by
    rw [EndPoint.parsed, value]
  rw [IntElement.parsed, parsedLower, Option.bind_assoc]
  change (signedNumber n).bind _ = _
  congr 1
  funext lowerNumber
  change Option.bind (lower.bound lowerNumber) _ = _
  congr 1
  funext lowerBound
  cases upperValue : upper.value with
  | none => rw [EndPoint.parsed, upperValue]; rfl
  | some m =>
    rw [EndPoint.parsed, upperValue]
    dsimp only
    change (signedNumber m).bind _ = _
    cases signedNumber m with
    | none => rfl
    | some upperNumber =>
      change Option.bind (upper.bound upperNumber) _ = Option.map _ (upper.bound upperNumber)
      cases upper.bound upperNumber <;> rfl

theorem valueRangeEntry_of_not_listed {e : IntElement} (minimum : e.listed = false) :
    valueRangeEntry e.parsed = some none := by
  cases e with
  | single n => cases minimum
  | range lower upper =>
    obtain ⟨value, inclusive⟩ := lower
    cases value with
    | none => rfl
    | some n => cases minimum

/-- The entry of an element accepts the numbers that it contains or overruns to. -/
theorem valueRangeEntry_of_known {e : IntElement} (listed : e.listed = true) (known : e.Known) :
    ∃ range, valueRangeEntry e.parsed = some (some range) ∧
      ∀ v, Admits range v ↔ e.Contains v ∨ e.Overruns v := by
  cases e with
  | single n =>
    refine ⟨⟨(Int32.ofInt n.toInt).toInt64, 0, 2⟩, ?_, ?_⟩
    · change (signedNumber n).bind _ = _
      rw [signedNumber_of_le known]
      rfl
    · intro v
      change v = (Int32.ofInt n.toInt).toInt64.toInt ↔ v = kept n ∨ False
      rw [Int32.toInt_toInt64, or_false]
      rfl
  | range lower upper =>
    obtain ⟨n, lowerValue⟩ := Option.isSome_iff_exists.mp listed
    obtain ⟨lowerBound, written, above⟩ := lower.bound_of_known lowerValue known.1
    rw [valueRangeEntry_range lowerValue, written, Option.bind_some]
    have starts : ∀ v, lowerBound.toInt ≤ v ↔ lower.StartsBy v := by
      intro v
      rw [above, EndPoint.StartsBy]
      constructor
      · intro least n' value'
        cases lowerValue.symm.trans value'
        by_cases inclusive : lower.inclusive = true
        · rw [if_pos inclusive] at least ⊢
          exact least
        · rw [if_neg inclusive] at least ⊢
          omega
      · intro least
        have here := least n lowerValue
        by_cases inclusive : lower.inclusive = true
        · rw [if_pos inclusive] at here ⊢
          exact here
        · rw [if_neg inclusive] at here ⊢
          omega
    cases upperValue : upper.value with
    | none =>
      -- MAX is no bound.
      refine ⟨_, rfl, fun v => ?_⟩
      change lowerBound.toInt ≤ v ↔ _
      rw [starts]
      constructor
      · intro least
        refine .inl ⟨least, fun m value => ?_⟩
        rw [upperValue] at value
        cases value
      · rintro (⟨least, -⟩ | ⟨least, -⟩)
        · exact least
        · exact least
    | some m =>
      obtain ⟨upperBound, writtenUpper, below⟩ := upper.bound_of_known upperValue known.2
      dsimp only
      rw [writtenUpper]
      refine ⟨_, rfl, fun v => ?_⟩
      change lowerBound.toInt ≤ v ∧ v ≤ upperBound.toInt ↔ _
      rw [starts, below]
      constructor
      · rintro ⟨least, most⟩
        by_cases inside : upper.EndsBehind v
        · exact .inl ⟨least, inside⟩
        · -- The number is one of the two that an exclusive end adds.
          rw [EndPoint.EndsBehind] at inside
          push Not at inside
          obtain ⟨m', value', beyond⟩ := inside
          cases upperValue.symm.trans value'
          by_cases inclusive : upper.inclusive = true
          · rw [if_pos inclusive] at most
            rw [if_pos inclusive] at beyond
            exact absurd most beyond
          · rw [if_neg inclusive] at most
            rw [if_neg inclusive] at beyond
            refine .inr ⟨least, Bool.not_eq_true _ ▸ inclusive, m, upperValue, ?_⟩
            omega
      · rintro (⟨least, inside⟩ | ⟨least, exclusive, m', value', at_end⟩)
        · refine ⟨least, ?_⟩
          have most := inside m upperValue
          split at most
          · rwa [if_pos ‹_›]
          · rw [if_neg ‹_›]
            omega
        · cases upperValue.symm.trans value'
          refine ⟨least, ?_⟩
          rw [if_neg (by rw [exclusive]; exact Bool.false_ne_true)]
          omega

/-- Nothing is known of the entry of an element whose numbers are not known. -/
theorem valueRangeEntry_of_unknown {e : IntElement} (listed : e.listed = true)
    (unknown : ¬e.Known) : valueRangeEntry e.parsed = none := by
  cases e with
  | single n =>
    change (signedNumber n).bind _ = _
    rw [signedNumber_of_lt unknown]
    rfl
  | range lower upper =>
    obtain ⟨n, lowerValue⟩ := Option.isSome_iff_exists.mp listed
    rw [valueRangeEntry_range lowerValue]
    by_cases knownLower : lower.Known
    · -- The upper end is the one that is not known.
      have unknownUpper : ¬upper.Known := fun knownUpper => unknown ⟨knownLower, knownUpper⟩
      obtain ⟨m, upperValue, none⟩ := EndPoint.bound_of_unknown unknownUpper
      obtain ⟨lowerBound, written, -⟩ := lower.bound_of_known lowerValue knownLower
      rw [written, Option.bind_some, upperValue]
      dsimp only
      rw [none]
      rfl
    · obtain ⟨n', value', none⟩ := EndPoint.bound_of_unknown knownLower
      cases lowerValue.symm.trans value'
      rw [none]
      rfl

/-! ## The entries of all elements -/

/-- The entries that are written for some elements. -/
def entriesOf : List IntElement → Option (List ValueRange)
  | [] => some []
  | e :: rest =>
    (valueRangeEntry e.parsed).bind fun entry => (entriesOf rest).map (entry.toList ++ ·)

theorem entriesOf_append (es more : List IntElement) :
    entriesOf (es ++ more) = (entriesOf es).bind fun table => (entriesOf more).map (table ++ ·) := by
  induction es with
  | nil =>
    rw [List.nil_append, entriesOf, Option.bind_some]
    cases entriesOf more <;> rfl
  | cons e es ih =>
    rw [List.cons_append, entriesOf, entriesOf, ih]
    cases valueRangeEntry e.parsed with
    | none => rfl
    | some entry =>
      rw [Option.bind_some, Option.bind_some]
      cases entriesOf es with
      | none => rfl
      | some table =>
        rw [Option.bind_some, Option.map_some, Option.bind_some]
        cases entriesOf more with
        | none => rfl
        | some others => simp only [Option.map_some, List.append_assoc]

/-- At most one entry is written for each element. -/
theorem length_entriesOf {es : List IntElement} {table : List ValueRange}
    (written : entriesOf es = some table) : table.length ≤ es.length := by
  induction es generalizing table with
  | nil =>
    cases written
    exact Nat.le_refl 0
  | cons e es ih =>
    obtain ⟨entry, -, rest⟩ := Option.bind_eq_some_iff.mp written
    obtain ⟨others, writtenOthers, rfl⟩ := Option.map_eq_some_iff.mp rest
    have behind := ih writtenOthers
    have one : entry.toList.length ≤ 1 := by
      cases entry
      · exact Nat.zero_le 1
      · exact Nat.le_refl 1
    rw [List.length_append, List.length_cons]
    omega

/-- While there is room, the entries of elements are written behind those that are there. -/
theorem valueRangeLISTS_eq (es : List IntElement) {vrList : List ValueRange}
    (room : vrList.length + es.length ≤ 15) :
    valueRangeLISTS (es.map fun e => .single e.parsed) vrList = (entriesOf es).map (vrList ++ ·) := by
  induction es generalizing vrList with
  | nil =>
    change some vrList = some (vrList ++ [])
    rw [List.append_nil]
  | cons e es ih =>
    rw [List.length_cons] at room
    rw [List.map_cons, valueRangeLISTS, if_pos (by omega), entriesOf]
    change Option.bind _ _ = _
    cases valueRangeEntry e.parsed with
    | none => rfl
    | some entry =>
      rw [Option.bind_some, Option.bind_some]
      have one : entry.toList.length ≤ 1 := by
        cases entry
        · exact Nat.zero_le 1
        · exact Nat.le_refl 1
      rw [ih (by rw [List.length_append]; omega)]
      cases entriesOf es with
      | none => rfl
      | some table => simp only [Option.map_some, List.append_assoc]

theorem constraintLISTS_eq (u : IntUnion) {vrList : List ValueRange}
    (room : vrList.length + u.elements.length ≤ 15) :
    constraintLISTS vrList u.parsed = (entriesOf u.elements).map (vrList ++ ·) := by
  rw [← valueRangeLISTS_eq u.elements room]
  obtain ⟨first, rest⟩ := u
  cases rest with
  | nil => rfl
  | cons second rest =>
    rw [IntUnion.parsed, List.map_cons, subtypeValueSetList_cons, constraintLISTS, List.map_map]
    rfl

/-- The constraints of a component are listed one behind the other. -/
theorem foldlM_unions (unions : List IntUnion) {vrList : List ValueRange}
    (room : vrList.length + (unions.flatMap IntUnion.elements).length ≤ 15) :
    (unions.map IntUnion.parsed).foldlM constraintLISTS vrList =
      (entriesOf (unions.flatMap IntUnion.elements)).map (vrList ++ ·) := by
  induction unions generalizing vrList with
  | nil =>
    change some vrList = some (vrList ++ [])
    rw [List.append_nil]
  | cons u unions ih =>
    rw [List.flatMap_cons, List.length_append] at room
    rw [List.map_cons, List.foldlM_cons, List.flatMap_cons, entriesOf_append,
      constraintLISTS_eq u (by omega)]
    change Option.bind _ _ = _
    cases written : entriesOf u.elements with
    | none => rfl
    | some table =>
      rw [Option.map_some, Option.bind_some, Option.bind_some]
      have size := length_entriesOf written
      rw [ih (by rw [List.length_append]; omega)]
      cases entriesOf (unions.flatMap IntUnion.elements) with
      | none => rfl
      | some others => simp only [Option.map_some, List.append_assoc]

theorem map_nil_append (table : Option (List ValueRange)) : table.map ([] ++ ·) = table := by
  cases table <;> rfl

/-- The table that is printed has the entries of all the elements. -/
theorem IntConstraint.valueRanges_eq {c : IntConstraint} (few : c.elements.length ≤ 15) :
    c.valueRanges = entriesOf c.elements := by
  have room : ([] : List ValueRange).length + (c.unions.flatMap IntUnion.elements).length ≤ 15 := by
    rw [List.length_nil, Nat.zero_add]
    exact few
  have all := foldlM_unions c.unions room
  rw [map_nil_append] at all
  rw [IntConstraint.elements, ← all]
  obtain ⟨first, rest⟩ := c
  cases rest with
  | nil =>
    -- A constraint alone is not put into a list of them.
    change printedValueRanges first.parsed = Option.bind (constraintLISTS [] first.parsed) some
    rw [Option.bind_fun_some]
    cases same : first.parsed with
    | single value => rfl
    | and subtypes => exact absurd same (subtypeValueSetList_ne_and _ _ subtypes)
    | or subtypes => rfl
  | cons second rest =>
    have joined : subtypesOf ((first :: second :: rest).map IntUnion.parsed) =
        some (.and ((first :: second :: rest).map IntUnion.parsed)) :=
      subtypesOf_cons second.parsed (rest.map IntUnion.parsed) (subtypeValueSetList_ne_and _ _)
    rw [IntConstraint.valueRanges, IntConstraint.unions, joined]
    rfl

/-- The entries accept the numbers of the elements that do not begin with MIN. -/
theorem entriesOf_of_known {es : List IntElement}
    (known : ∀ e ∈ es, e.listed = true → e.Known) :
    ∃ table, entriesOf es = some table ∧ (table = [] ↔ ∀ e ∈ es, e.listed = false) ∧
      ∀ v, (∃ range ∈ table, Admits range v) ↔
        ∃ e ∈ es, e.listed = true ∧ (e.Contains v ∨ e.Overruns v) := by
  induction es with
  | nil => exact ⟨[], rfl, by simp, by simp⟩
  | cons e es ih =>
    obtain ⟨table, written, empty, accepts⟩ := ih fun e' mem => known e' (List.mem_cons_of_mem _ mem)
    by_cases listed : e.listed = true
    · obtain ⟨range, entry, admits⟩ :=
        valueRangeEntry_of_known listed (known e List.mem_cons_self listed)
      refine ⟨range :: table, ?_, ?_, fun v => ?_⟩
      · rw [entriesOf, entry, written]
        rfl
      · simp [listed]
      · simp only [List.exists_mem_cons_iff, admits v, accepts v, listed, true_and]
    · rw [Bool.not_eq_true] at listed
      refine ⟨table, ?_, ?_, fun v => ?_⟩
      · rw [entriesOf, valueRangeEntry_of_not_listed listed, written]
        rfl
      · rw [empty]
        simp [listed]
      · rw [accepts v]
        simp [listed]

theorem entriesOf_of_unknown {es : List IntElement} {e : IntElement} (mem : e ∈ es)
    (listed : e.listed = true) (unknown : ¬e.Known) : entriesOf es = none := by
  induction es with
  | nil => cases mem
  | cons e' es ih =>
    rw [entriesOf]
    rcases List.mem_cons.mp mem with rfl | later
    · rw [valueRangeEntry_of_unknown listed unknown]
      rfl
    · rw [ih later]
      cases valueRangeEntry e'.parsed <;> rfl

/-! ## The translation -/

/-- The table is right exactly where its numbers are known and what goes wrong makes no difference. -/
theorem valueRanges_translated_iff (c : IntConstraint) (few : c.elements.length ≤ 15) :
    c.Translated ↔ (∀ e ∈ c.elements, e.listed = true → e.Known) ∧
      ((∃ e ∈ c.elements, e.listed = true) → c.Harmless) ∧
      ((∀ e ∈ c.elements, e.listed = false) → ∀ v : Int64, v.toInt ∈ c.satisfying) := by
  by_cases known : ∀ e ∈ c.elements, e.listed = true → e.Known
  · obtain ⟨table, written, empty, accepts⟩ := entriesOf_of_known known
    rw [← c.valueRanges_eq few] at written
    -- What the table accepts, in terms of the elements.
    have translated : c.Translated ↔ ∀ v : Int64, (table = [] ∨ IsInt v.toInt ∧
        ∃ e ∈ c.elements, e.listed = true ∧ (e.Contains v.toInt ∨ e.Overruns v.toInt)) ↔
          v.toInt ∈ c.satisfying := by
      constructor
      · rintro ⟨table', written', right⟩ v
        cases written.symm.trans written'
        obtain ⟨x, keeps⟩ := exists_keeps v.toInt
        rw [← accepts, ← keeps.accepted_iff]
        exact right v x keeps
      · intro right
        refine ⟨table, written, fun v x keeps => ?_⟩
        rw [keeps.accepted_iff, accepts]
        exact right v
    rw [translated, ← empty]
    by_cases none : table = []
    · have nothing := empty.mp none
      simp only [none, true_or, true_iff, forall_true_left]
      refine ⟨fun all => ⟨known, ?_, all⟩, fun all => all.2.2⟩
      rintro ⟨e, mem, listed⟩
      rw [nothing e mem] at listed
      cases listed
    · have some : ∃ e ∈ c.elements, e.listed = true := by
        by_contra nothing
        push Not at nothing
        exact none (empty.mpr fun e mem => Bool.not_eq_true _ ▸ nothing e mem)
      simp only [none, false_or, false_implies, and_true, some, forall_true_left]
      constructor
      · intro right
        refine ⟨known, fun v satisfies => ((right v).mpr satisfies).1, ?_, ?_, fun v satisfies =>
          ((right v).mpr satisfies).2⟩
        · intro e mem listed v int contains
          have here := right (.ofInt v)
          rw [toInt_int64 int] at here
          exact here.mp ⟨int, e, mem, listed, .inl contains⟩
        · intro e mem listed v int overruns
          have here := right (.ofInt v)
          rw [toInt_int64 int] at here
          exact here.mp ⟨int, e, mem, listed, .inr overruns⟩
      · rintro ⟨-, harmless⟩ v
        constructor
        · rintro ⟨int, e, mem, listed, contains | overruns⟩
          · exact harmless.successive e mem listed _ int contains
          · exact harmless.exclusive e mem listed _ int overruns
        · intro satisfies
          exact ⟨harmless.ints v satisfies, harmless.minimum v satisfies⟩
  · constructor
    · -- Without the numbers, nothing is known of the table.
      rintro ⟨table, written, -⟩
      rw [c.valueRanges_eq few] at written
      push Not at known
      obtain ⟨e, mem, listed, unknown⟩ := known
      rw [entriesOf_of_unknown mem listed unknown] at written
      cases written
    · intro right
      exact absurd right.1 known

/-- The numbers from one to ten. -/
def oneToTen : IntConstraint where
  first := ⟨.range ⟨some 1, true⟩ ⟨some 10, true⟩, []⟩
  rest := []

/-- The numbers from one to ten are translated as they are meant to be. -/
theorem valueRanges_translated_iff_oneToTen :
    oneToTen.elements.length ≤ 15 ∧
      (oneToTen.Translated ↔ (∀ e ∈ oneToTen.elements, e.listed = true → e.Known) ∧
        ((∃ e ∈ oneToTen.elements, e.listed = true) → oneToTen.Harmless) ∧
        ((∀ e ∈ oneToTen.elements, e.listed = false) → ∀ v : Int64, v.toInt ∈ oneToTen.satisfying)) :=
  ⟨by decide, valueRanges_translated_iff oneToTen (by decide)⟩

/-- The numbers from one to below five. -/
def belowFive : IntConstraint where
  first := ⟨.range ⟨some 1, true⟩ ⟨some 5, false⟩, []⟩
  rest := []

/-- Below five, the number five is accepted. -/
theorem five_accepted_below_five :
    ¬∀ c : IntConstraint, c.elements.length ≤ 15 → c.Translated := by
  intro always
  obtain ⟨table, written, right⟩ := always belowFive (by decide)
  have printed : belowFive.valueRanges = some [⟨1, 6, 1⟩] := by decide
  cases printed.symm.trans written
  have keeps : Keeps ⟨[5]⟩ (5 : Int64).toInt := by
    refine ⟨List.cons_ne_nil _ _, by decide, ?_⟩
    intro octets some _
    exact List.length_pos_iff.mpr some
  have satisfies := (right 5 ⟨[5]⟩ keeps).mp ⟨"", rfl⟩
  obtain ⟨-, e, mem, allows⟩ := satisfies
  obtain rfl := List.mem_singleton.mp mem
  have below : (5 : Int64).toInt < (5 : Int64).toInt := allows.2
  exact absurd below (Int.lt_irrefl _)

end Esnacc.Compiler
