import Mathlib.Data.List.Basic
import Mathlib.Logic.Function.Basic
import Mathlib.Logic.Relation
import Mathlib.Tactic.Common

/-! The effective tags of a type: as the compiler gathers them, and as its definitions give them. -/

namespace Esnacc.Compiler

/-! ## Parsed types -/

/-- What is known of the form of an encoding. -/
inductive BerForm where
  | nullForm
  | anyForm
  | prim
  | cons
  deriving DecidableEq

/-- The class of a tag. -/
inductive BerClass where
  | nullClass
  | anyClass
  | univ
  | appl
  | cntx
  | priv
  deriving DecidableEq

/-- A tag of a type definition; its number may be that of a value, which is given by its address. -/
structure Tag where
  tclass : BerClass
  form : BerForm
  code : Int
  explicit : Bool
  valueRef : Option Nat := none
  deriving DecidableEq

/-- The kinds of types that the compiler tells apart. -/
inductive BasicTypeChoiceId where
  | unknown | boolean | integer | bitString | octetString | null | oid | real | enumerated
  | sequence | sequenceOf | set | setOf | choice | selection | componentsOf | any | anyDefinedBy
  | localTypeRef | importTypeRef | macroType | macroDef | numericStr | printableStr | universalStr
  | ia5Str | bmpStr | utf8Str | utcTime | generalizedTime | graphicStr | visibleStr | generalStr
  | objectDescriptor | videotexStr | t61Str | external | octetContaining | bitContaining
  | relativeOid | extension | sequenceT | objectClass | objectClassFieldType
  deriving DecidableEq

/-- The kind of a type, with the type that it refers to or consists of, or the list of its elements. -/
structure BasicType where
  choiceId : BasicTypeChoiceId
  link : Option Nat := none
  elmts : Option Nat := none
  setOf : Option Nat := none

/-- A type with its own tags; the last one is implicit where the type is marked so. -/
structure AsnType where
  tags : Option Nat
  implicit : Bool
  basicType : BasicType
  optional : Bool := false
  hasDefaultVal : Bool := false

/-- A value: a number, or a reference to a value that may be linked. -/
inductive BasicValue where
  | integer (n : Int)
  | localValueRef (link : Option Nat)
  | importValueRef (link : Option Nat)
  | other

/-- The types, values and lists of the parsed modules, each at its address. -/
structure Parsed where
  types : Nat → AsnType
  tagLists : Nat → List Tag
  namedTypeLists : Nat → List Nat
  values : Nat → BasicValue := fun _ => .other

/-- The current node of each list, by its place; behind the last node it is NULL. -/
structure ListCursors where
  tagLists : Nat → Nat
  namedTypeLists : Nat → Nat

/-- The cursors with that of a tag list elsewhere. -/
def ListCursors.setTags (curr : ListCursors) (tl place : Nat) : ListCursors :=
  { curr with tagLists := Function.update curr.tagLists tl place }

/-- The cursors with that of a list of alternatives elsewhere. -/
def ListCursors.setNamedTypes (curr : ListCursors) (elmts place : Nat) : ListCursors :=
  { curr with namedTypeLists := Function.update curr.namedTypeLists elmts place }

/-- Routines that move the cursors of lists; reading through NULL is their end. -/
abbrev CursorM := StateT ListCursors Option

/-- Whether a type is a reference to another one. -/
@[grind =] def BasicType.isTypeRef (b : BasicType) : Bool :=
  b.choiceId = .localTypeRef || b.choiceId = .importTypeRef

/-! ## Lists -/

@[simp] theorem ListCursors.setTags_tagLists (curr : ListCursors) (tl place : Nat) :
    (curr.setTags tl place).tagLists tl = place :=
  Function.update_self ..

@[simp] theorem ListCursors.setNamedTypes_namedTypeLists (curr : ListCursors)
    (elmts place : Nat) : (curr.setNamedTypes elmts place).namedTypeLists elmts = place :=
  Function.update_self ..

section

variable (m : Parsed)

/-- Make the first tag of a list the current one. -/
def asnListFirst (tl : Nat) : CursorM Unit :=
  modify fun curr => curr.setTags tl 0

/-- Make the next tag of a list the current one; behind the last one comes NULL, then the first. -/
def asnListNext (tl : Nat) : CursorM Unit :=
  modify fun curr =>
    let place := curr.tagLists tl
    curr.setTags tl (if place < (m.tagLists tl).length then place + 1 else 0)

/-- Go through a list from its current tag to its end. -/
def forRestListElmt : Option Nat → CursorM (List Tag)
  | none => return []
  | some tl => do
    let curr ← get
    let tags := m.tagLists tl
    set (curr.setTags tl tags.length)
    return tags.drop (curr.tagLists tl)

/-! ## Gathering tags -/

/-- The defining type that references lead to, or the first type where one of them is not linked. -/
def getType (type : Nat) : Nat → Nat → Option Nat
  | 0, _ => none
  | fuel + 1, t =>
    let bt := (m.types t).basicType
    if bt.isTypeRef then
      match bt.link with
      | none => some type
      | some td => getType type fuel td
    else some t

/-- The kind of the defining type. -/
def getBuiltinType (fuel t : Nat) : Option BasicTypeChoiceId :=
  (getType m t fuel t).map fun type => (m.types type).basicType.choiceId

/-- Start on the tags of a type, which may have none. -/
def startOnTags (t : Nat) : CursorM Unit :=
  match (m.types t).tags with
  | none => return
  | some tl => asnListFirst tl

/-- Start on the tags of a referenced type; an implicit reference drops the first one of them. -/
def startOnReferenced (implicitRef : Bool) : Option Nat → CursorM Bool
  | none => return implicitRef
  | some tl => do
    asnListFirst tl
    if !(m.tagLists tl).isEmpty && implicitRef then
      asnListNext m tl
      return false
    return implicitRef

/-- Put the outermost tags of an alternative behind those gathered; an extension marker has none. -/
def stealTags (e : Nat) (tl : List Tag) (stoleChoicesAgain : Bool) (retVal : List Tag) :
    Option (List Tag) :=
  if (m.types e).basicType.choiceId = .extension then some retVal
  else if stoleChoicesAgain then some (retVal ++ tl)
  else
    match tl with
    -- The list has no first node to read.
    | [] => none
    | tag :: _ => some (retVal ++ [tag])

/-- The tags of the alternatives of a CHOICE from the current one on, behind those gathered. -/
def stealChoiceTags (getTags : Nat → CursorM (List Tag × Bool)) (choice : Nat) :
    Nat → List Tag → CursorM (List Tag)
  | 0, _ => failure
  | turns + 1, retVal => do
    let curr ← get
    match (m.namedTypeLists choice)[curr.namedTypeLists choice]? with
    | none => return retVal
    | some e => do
      let (tl, stoleChoicesAgain) ← getTags e
      let retVal ← stealTags m e tl stoleChoicesAgain retVal
      modify fun curr => curr.setNamedTypes choice (curr.namedTypeLists choice + 1)
      stealChoiceTags getTags choice turns retVal

/-- Every tag of a chain but the last one is constructed. -/
def setForms (form : BerForm) : List Tag → List Tag
  | [] => []
  | [last] => [{ last with form }]
  | tag :: rest => { tag with form := .cons } :: setForms form rest

/-- What is done before and after the walk along the references of a type. -/
def getTagsAround (libTypesG : BasicTypeChoiceId → BerForm) (fuel : Nat)
    (walk : Nat → Option Nat → List Tag → Bool → CursorM (Nat × List Tag × Bool)) (t : Nat) :
    CursorM (List Tag × Bool) := do
  startOnTags m t
  let (t, retVal, stoleChoiceTags) ← walk t (m.types t).tags [] false
  if !stoleChoiceTags && !retVal.isEmpty then
    let some builtin := getBuiltinType m fuel t | failure
    return (setForms (libTypesG builtin) retVal, stoleChoiceTags)
  return (retVal, stoleChoiceTags)

/-- The walk along the references of a type, and through the alternatives of an untagged CHOICE. -/
def getTagsLoop (libTypesG : BasicTypeChoiceId → BerForm) :
    Nat → Nat → Option Nat → List Tag → Bool → CursorM (Nat × List Tag × Bool)
  | 0, _, _, _, _ => failure
  | fuel + 1, t, tl, retVal, implicitRef => do
    let retVal := retVal ++ (← forRestListElmt m tl)
    let bt := (m.types t).basicType
    if bt.isTypeRef then
      let implicitRef := if !implicitRef then (m.types t).implicit else implicitRef
      match bt.link with
      -- The reference is not resolved.
      | none => return (t, retVal, false)
      | some t => do
        let tl := (m.types t).tags
        let implicitRef ← startOnReferenced m implicitRef tl
        getTagsLoop libTypesG fuel t tl retVal implicitRef
    else if bt.choiceId = .choice && retVal.isEmpty then
      match bt.elmts with
      | none => return (t, retVal, true)
      | some choice => do
        modify fun curr => curr.setNamedTypes choice 0
        let retVal ← stealChoiceTags m
          (getTagsAround m libTypesG fuel (getTagsLoop libTypesG fuel)) choice fuel retVal
        return (t, retVal, true)
    else return (t, retVal, false)

/-- The tags of a type, and whether they are those of the alternatives of a CHOICE. -/
def getTags (libTypesG : BasicTypeChoiceId → BerForm) (fuel t : Nat) :
    CursorM (List Tag × Bool) :=
  getTagsAround m libTypesG fuel (getTagsLoop m libTypesG fuel) t

/-- The walk along the references of a type that only counts. -/
def countTagsLoop : Nat → Nat → Option Nat → Nat → Bool → CursorM Nat
  | 0, _, _, _, _ => failure
  | fuel + 1, t, tl, tagCount, implicitRef => do
    let tagCount := tagCount + (← forRestListElmt m tl).length
    let bt := (m.types t).basicType
    if bt.isTypeRef then
      let implicitRef := if !implicitRef then (m.types t).implicit else implicitRef
      match bt.link with
      | none => return tagCount
      | some t => do
        let tl := (m.types t).tags
        let implicitRef ← startOnReferenced m implicitRef tl
        countTagsLoop fuel t tl tagCount implicitRef
    else return tagCount

/-- The number of tags on the way along the references of a type. -/
def countTags (fuel t : Nat) : CursorM Nat := do
  startOnTags m t
  countTagsLoop m fuel t (m.types t).tags 0 false

end

section

variable (m : Parsed)

/-! ## Chains of references -/

/-- The tags that a type has of its own. -/
def ownTags (t : Nat) : List Tag :=
  match (m.types t).tags with
  | none => []
  | some tl => m.tagLists tl

/-- The type that a type refers to. -/
@[grind =] def refersTo (t : Nat) : Option Nat :=
  if (m.types t).basicType.isTypeRef then (m.types t).basicType.link else none

/-- The types along the references of a type, from the type itself to the last one. -/
inductive RefChain : Nat → List Nat → Nat → Prop
  | last {t : Nat} : refersTo m t = none → RefChain t [t] t
  | ref {t u last : Nat} {ts : List Nat} : refersTo m t = some u → RefChain u ts last →
      RefChain t (t :: ts) last

/-- Whether the first tag below these types, the nearest one first, is replaced by one of theirs. -/
@[grind =] def replaced : List Nat → Bool
  | [] => false
  | t :: above => (m.types t).implicit || ((ownTags m t).isEmpty && replaced above)

/-- The tags along references, the outermost one first, below the types above them. -/
@[grind =] def chainTags : List Nat → List Nat → List Tag
  | _, [] => []
  | above, t :: ts =>
    (if replaced m above then (ownTags m t).tail else ownTags m t) ++ chainTags (t :: above) ts

/-- The tags along the references of a type, and the type at their end. -/
def Chain (t : Nat) (tags : List Tag) (last : Nat) : Prop :=
  ∃ ts, RefChain m t ts last ∧ chainTags m [] ts = tags

/-! ## Alternatives -/

/-- Whether a type is a CHOICE. -/
def isChoice (t : Nat) : Prop :=
  (m.types t).basicType.choiceId = .choice

instance (t : Nat) : Decidable (isChoice m t) :=
  inferInstanceAs (Decidable (_ = _))

/-- Whether an alternative is the extension marker. -/
def isExtension (t : Nat) : Prop :=
  (m.types t).basicType.choiceId = .extension

instance (t : Nat) : Decidable (isExtension m t) :=
  inferInstanceAs (Decidable (_ = _))

/-- The types of the alternatives of a CHOICE. -/
@[grind =] def alternatives (t : Nat) : List Nat :=
  match (m.types t).basicType.elmts with
  | none => []
  | some choice => m.namedTypeLists choice

/-- An alternative of a type that is a CHOICE without tags. -/
def Offers (t e : Nat) : Prop :=
  ∃ last, Chain m t [] last ∧ isChoice m last ∧ e ∈ alternatives m last

/-- Every chain of references, through the alternatives of untagged CHOICEs as well, has an end. -/
inductive Finite : Nat → Prop
  | intro {t last : Nat} {ts : List Nat} : RefChain m t ts last →
      (∀ e, Offers m t e → Finite e) → Finite t

/-- The tags that an alternative contributes to those of its CHOICE. -/
def outermost (e : Nat) (tags : List Tag) (stole : Bool) : List Tag :=
  if isExtension m e then [] else if stole then tags else tags.take 1

/-- The forms of a chain of tags: all of them constructed, but the last one as its type is. -/
def withForms (form : BerForm) (tags : List Tag) : List Tag :=
  tags.dropLast.map ({ · with form := .cons }) ++ tags.getLast?.toList.map ({ · with form })

/-- The effective tags of a type, and whether they are those of the alternatives of a CHOICE. -/
inductive Effective (libTypesG : BasicTypeChoiceId → BerForm) : Nat → List Tag → Bool → Prop
  | chain {t last : Nat} {tags : List Tag} : Chain m t tags last →
      tags ≠ [] ∨ ¬isChoice m last →
      Effective libTypesG t
        (withForms (libTypesG (m.types last).basicType.choiceId) tags) false
  | choice {t last : Nat} {tagsOf : Nat → List Tag} {stoleOf : Nat → Bool} :
      Chain m t [] last → isChoice m last →
      (∀ e ∈ alternatives m last, Effective libTypesG e (tagsOf e) (stoleOf e)) →
      Effective libTypesG t
        ((alternatives m last).flatMap fun e => outermost m e (tagsOf e) (stoleOf e)) true

end

variable {m : Parsed} {libTypesG : BasicTypeChoiceId → BerForm}

/-! ## What a type determines -/

/-- The references of a type lead one way only. -/
theorem RefChain.unique {t last last' : Nat} {ts ts' : List Nat} (chain : RefChain m t ts last)
    (other : RefChain m t ts' last') : ts = ts' ∧ last = last' := by
  induction chain generalizing ts' with
  | last ends =>
    cases other with
    | last => exact ⟨rfl, rfl⟩
    | ref refers => rw [ends] at refers; cases refers
  | ref refers rest ih =>
    cases other with
    | last ends => rw [refers] at ends; cases ends
    | ref refers' rest' =>
      cases refers.symm.trans refers'
      obtain ⟨rfl, rfl⟩ := ih rest'
      exact ⟨rfl, rfl⟩

theorem Chain.unique {t last last' : Nat} {tags tags' : List Tag} (chain : Chain m t tags last)
    (other : Chain m t tags' last') : tags = tags' ∧ last = last' := by
  obtain ⟨ts, chain, rfl⟩ := chain
  obtain ⟨ts', other, rfl⟩ := other
  obtain ⟨rfl, rfl⟩ := chain.unique other
  exact ⟨rfl, rfl⟩

/-- A type has one list of effective tags. -/
theorem Effective.unique {t : Nat} {tags tags' : List Tag} {stole stole' : Bool}
    (effective : Effective m libTypesG t tags stole)
    (other : Effective m libTypesG t tags' stole') : tags = tags' ∧ stole = stole' := by
  induction effective generalizing tags' stole' with
  | chain chain tagged =>
    cases other with
    | chain chain' =>
      obtain ⟨rfl, rfl⟩ := chain.unique chain'
      exact ⟨rfl, rfl⟩
    | choice chain' isChoice' =>
      obtain ⟨rfl, rfl⟩ := chain.unique chain'
      rcases tagged with some | none
      · exact absurd rfl some
      · exact absurd isChoice' none
  | choice chain choice each ih =>
    cases other with
    | chain chain' tagged =>
      obtain ⟨rfl, rfl⟩ := chain'.unique chain
      rcases tagged with some | none
      · exact absurd rfl some
      · exact absurd choice none
    | choice chain' choice' each' =>
      obtain ⟨-, rfl⟩ := chain.unique chain'
      refine ⟨List.flatMap_congr fun e inside => ?_, rfl⟩
      obtain ⟨tags, stole⟩ := ih e inside (each' e inside)
      rw [tags, stole]

/-- A type whose chains end has effective tags. -/
theorem Finite.effective {t : Nat} (finite : Finite m t)
    (libTypesG : BasicTypeChoiceId → BerForm) :
    ∃ tags stole, Effective m libTypesG t tags stole := by
  classical
  induction finite with
  | @intro t last ts chain _ ih =>
    by_cases untagged : chainTags m [] ts = [] ∧ isChoice m last
    · have ends : Chain m t [] last := ⟨ts, chain, untagged.1⟩
      have each : ∀ e, ∃ tags stole, e ∈ alternatives m last →
          Effective m libTypesG e tags stole := by
        intro e
        by_cases inside : e ∈ alternatives m last
        · obtain ⟨tags, stole, effective⟩ := ih e ⟨last, ends, untagged.2, inside⟩
          exact ⟨tags, stole, fun _ => effective⟩
        · exact ⟨[], false, fun member => absurd member inside⟩
      choose tagsOf stoleOf effective using each
      exact ⟨_, _, .choice ends untagged.2 effective⟩
    · refine ⟨_, _, .chain ⟨ts, chain, rfl⟩ ?_⟩
      rcases not_and_or.mp untagged with tagged | other
      · exact .inl tagged
      · exact .inr other

theorem Finite.not_reaches_self {t : Nat} (finite : Finite m t) :
    ¬Relation.TransGen (Offers m) t t := by
  induction finite with
  | intro _ _ ih =>
    intro circle
    -- The circle goes through an alternative as well.
    obtain ⟨e, offers, back⟩ := Relation.TransGen.head'_iff.mp circle
    exact ih e offers (Relation.TransGen.tail' back offers)

end Esnacc.Compiler
