import Mathlib.Data.Int.Basic
import Mathlib.Tactic.Common

/-! How the compiler keeps the constraints of a type, and how its parser builds them. -/

namespace Esnacc.Compiler

/-! ## What is kept -/

/-- The value at an end of a range, or a single one. -/
inductive EndValue where
  /-- A number; nothing is known of one whose literal is too long. -/
  | integer (kept : Option Int32)
  /-- MIN or MAX. -/
  | specialInteger (max : Bool)
  | asciiText (octs : List UInt8)
  /-- A reference, with the number of the value that it is linked to. -/
  | localValueRef (linked : Option Int32)

/-- An end of a range. -/
structure ValueRangeEndpoint where
  endValue : EndValue
  valueInclusive : Bool

mutual

/-- An element of a constraint. -/
inductive SubtypeValue where
  | singleValue (value : EndValue)
  | valueRange (lowerEndValue upperEndValue : ValueRangeEndpoint)
  | permittedAlphabet (subtype : Subtype)
  | sizeConstraint (subtype : Subtype)

/-- The constraints of a type. -/
inductive Subtype where
  | single (value : SubtypeValue)
  | and (subtypes : List Subtype)
  | or (subtypes : List Subtype)

end

/-! ## Parsing -/

/-- The number that is kept for a literal. -/
def signedNumber (n : Int64) : Option Int32 :=
  -- A magnitude of more than 32 bits is no number to the scanner, and another one is narrowed.
  if n.toInt.natAbs ≤ 0xFFFFFFFF then some (.ofInt n.toInt) else none

/-- SubtypeValueSetList behind one more element. -/
def Subtype.bar (s : Subtype) (value : SubtypeValue) : Subtype :=
  match s with
  | .or subtypes => .or (subtypes ++ [.single value])
  | _ => .or [s, .single value]

/-- SubtypeValueSetList: the elements between two parentheses, of which there is at least one. -/
def subtypeValueSetList (first : SubtypeValue) (rest : List SubtypeValue) : Subtype :=
  rest.foldl Subtype.bar (.single first)

/-- AppendSubtype with SUBTYPE_AND. -/
@[grind =] def appendSubtype (s : Option Subtype) (newSubtype : Subtype) : Option Subtype :=
  match s with
  | none => some newSubtype
  | some (.and subtypes) => some (.and (subtypes ++ [newSubtype]))
  | some s => some (.and [s, newSubtype])

/-- The subtypes of a type behind which constraints stand. -/
def subtypesOf (constraints : List Subtype) : Option Subtype :=
  constraints.foldl appendSubtype none

/-! ## What is parsed -/

theorem foldl_bar (subtypes : List Subtype) (rest : List SubtypeValue) :
    rest.foldl Subtype.bar (.or subtypes) = .or (subtypes ++ rest.map .single) := by
  induction rest generalizing subtypes with
  | nil => rw [List.foldl_nil, List.map_nil, List.append_nil]
  | cons value rest ih =>
    rw [List.foldl_cons, Subtype.bar, ih, List.append_assoc]
    rfl

theorem subtypeValueSetList_cons (first second : SubtypeValue) (rest : List SubtypeValue) :
    subtypeValueSetList first (second :: rest) =
      .or (.single first :: .single second :: rest.map .single) := by
  rw [subtypeValueSetList, List.foldl_cons, Subtype.bar]
  · exact foldl_bar _ rest
  · intro subtypes same
    cases same

theorem foldl_appendSubtype (subtypes rest : List Subtype) :
    rest.foldl appendSubtype (some (.and subtypes)) = some (.and (subtypes ++ rest)) := by
  induction rest generalizing subtypes with
  | nil => rw [List.foldl_nil, List.append_nil]
  | cons s rest ih =>
    rw [List.foldl_cons, appendSubtype, ih, List.append_assoc]
    rfl

theorem subtypesOf_singleton (s : Subtype) : subtypesOf [s] = some s := rfl

theorem subtypesOf_cons {first : Subtype} (second : Subtype) (rest : List Subtype)
    (other : ∀ subtypes, first ≠ .and subtypes) :
    subtypesOf (first :: second :: rest) = some (.and (first :: second :: rest)) := by
  rw [subtypesOf, List.foldl_cons, appendSubtype, List.foldl_cons, appendSubtype]
  · exact foldl_appendSubtype [first, second] rest
  · intro subtypes same
    exact other subtypes same

theorem subtypeValueSetList_ne_and (first : SubtypeValue) (rest : List SubtypeValue)
    (subtypes : List Subtype) : subtypeValueSetList first rest ≠ .and subtypes := by
  cases rest with
  | nil =>
    intro same
    cases same
  | cons second rest =>
    rw [subtypeValueSetList_cons]
    intro same
    cases same

end Esnacc.Compiler
