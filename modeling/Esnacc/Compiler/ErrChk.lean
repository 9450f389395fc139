import Esnacc.Compiler.TagUtil

/-! The part of the error checker that looks for conflicts among the tags of components. -/

namespace Esnacc.Compiler

section

variable (m : Parsed)

/-! ## Comparing tags -/

/-- The number of a tag whose decimal digits are written out; 500 stands for one that is not found. -/
def determineCode (tag : Tag) : Option Int :=
  match tag.valueRef with
  | none => some tag.code
  | some v =>
    match m.values v with
    | .localValueRef (some link) =>
      match m.values link with
      | .integer iValue => some iValue
      | .localValueRef (some link) =>
        match m.values link with
        | .integer iValue => some iValue
        | _ => some 500
      -- The second reference is followed without a test.
      | .localValueRef none => none
      | _ => some 500
    | .importValueRef (some link) =>
      match m.values link with
      | .integer iValue => some iValue
      | _ => some 500
    | _ => some 500

/-- Whether two tags are the same in class and code, or in code alone where a value is referenced. -/
def tagObjCmp (t1 t2 : Tag) : Option Bool :=
  if t1.valueRef.isNone && t2.valueRef.isNone then
    some (t1.tclass = t2.tclass && t1.code = t2.code)
  else do
    let p1 ← determineCode m t1
    let p2 ← determineCode m t2
    return p1 = p2

/-- Whether one of the tags defined so far is the same as a tag. -/
def objIsDefined : List Tag → Tag → Option Bool
  | [], _ => some false
  | obj :: objs, tag => do
    if ← tagObjCmp m obj tag then return true
    objIsDefined objs tag

/-- Define a tag that is not defined yet. -/
def addTag (definedTags : List Tag) (tag : Tag) : Option (Bool × List Tag) := do
  if ← objIsDefined m definedTags tag then return (false, definedTags)
  return (true, tag :: definedTags)

/-! ## First tags -/

/-- The current tag of a list, if there is a list and a tag. -/
def currTag : Option Nat → CursorM (Option Tag)
  | none => return none
  | some tl => return (m.tagLists tl)[(← get).tagLists tl]?

/-- Define the first tags of the elements of a list from the current one on. -/
def addFirstTagsFrom (addFirstTag : List Tag → Nat → CursorM (Bool × List Tag)) (elmts : Nat) :
    Nat → List Tag → CursorM (Bool × List Tag)
  | 0, _ => failure
  | turns + 1, definedTags => do
    let curr ← get
    match (m.namedTypeLists elmts)[curr.namedTypeLists elmts]? with
    | none => return (true, definedTags)
    | some e => do
      let (distinct, definedTags) ← addFirstTag definedTags e
      if distinct then
        modify fun curr => curr.setNamedTypes elmts (curr.namedTypeLists elmts + 1)
        addFirstTagsFrom addFirstTag elmts turns definedTags
      else return (false, definedTags)

/-- Define the first tags of the elements of a list that may be missing. -/
def addFirstTags (addFirstTag : List Tag → Nat → CursorM (Bool × List Tag)) (turns : Nat)
    (definedTags : List Tag) : Option Nat → CursorM (Bool × List Tag)
  | none => return (true, definedTags)
  | some elmts => do
    modify fun curr => curr.setNamedTypes elmts 0
    addFirstTagsFrom m addFirstTag elmts turns definedTags

/-- The walk to the first tag of a type, or to those of the alternatives of an untagged CHOICE. -/
def addFirstTagLoop : Nat → Nat → Option Nat → Bool → List Tag → CursorM (Bool × List Tag)
  | 0, _, _, _, _ => failure
  | fuel + 1, t, tl, implicitRef, definedTags => do
    match ← currTag m tl with
    | some tag => addTag m definedTags tag
    | none =>
      let bt := (m.types t).basicType
      if bt.isTypeRef then
        let implicitRef := if !implicitRef then (m.types t).implicit else implicitRef
        match bt.link with
        | none => return (true, definedTags)
        | some t => do
          let tl := (m.types t).tags
          let implicitRef ← startOnReferenced m implicitRef tl
          addFirstTagLoop fuel t tl implicitRef definedTags
      else if bt.choiceId = .choice then
        addFirstTags m (fun definedTags e => do
          startOnTags m e
          addFirstTagLoop fuel e (m.types e).tags false definedTags) fuel definedTags bt.elmts
      -- It could be an ANY; correct tagging is assumed.
      else return (true, definedTags)

/-- Define the first tags of a type, as long as none of them is defined already. -/
def addFirstTag (fuel : Nat) (definedTags : List Tag) (t : Nat) : CursorM (Bool × List Tag) := do
  startOnTags m t
  addFirstTagLoop m fuel t (m.types t).tags false definedTags

/-- Whether the first tags of elements are all different. -/
def hasDistinctTags (fuel : Nat) (elmts : Option Nat) : CursorM Bool := do
  let (distinct, _) ← addFirstTags m (addFirstTag m fuel) fuel [] elmts
  return distinct

/-- Whether a component may be left out of a SEQUENCE. -/
def mayBeAbsent (e : Nat) : Bool :=
  (m.types e).optional || (m.types e).hasDefaultVal

/-- Check an element of a SEQUENCE against the optional ones before it; errors are counted. -/
def chkSeqElmt (fuel : Nat) (dO : List Tag) (errors e : Nat) : CursorM (Nat × List Tag) :=
  if mayBeAbsent m e then do
    let (distinct, dO) ← addFirstTag m fuel dO e
    return (if distinct then errors else errors + 1, dO)
  -- The first element that is not optional behind optional ones.
  else if !dO.isEmpty then do
    let (distinct, _) ← addFirstTag m fuel dO e
    return (if distinct then errors else errors + 1, [])
  else return (errors, dO)

/-- The number of errors that the elements of a SEQUENCE give from the current one on. -/
def chkSeqTagsFrom (fuel elmts : Nat) : Nat → List Tag → Nat → CursorM Nat
  | 0, _, _ => failure
  | turns + 1, dO, errors => do
    let curr ← get
    match (m.namedTypeLists elmts)[curr.namedTypeLists elmts]? with
    | none => return errors
    | some e => do
      let (errors, dO) ← chkSeqElmt m fuel dO errors e
      modify fun curr => curr.setNamedTypes elmts (curr.namedTypeLists elmts + 1)
      chkSeqTagsFrom fuel elmts turns dO errors

/-- The number of errors for consecutive optional elements and the one that follows them. -/
def chkSeqTags (fuel : Nat) : Option Nat → CursorM Nat
  | none => return 0
  | some elmts => do
    modify fun curr => curr.setNamedTypes elmts 0
    chkSeqTagsFrom m fuel elmts fuel [] 0

/-! ## Modules -/

/-- Check the types of the elements of a list from the current one on. -/
def errChkElmtTypesFrom (errChkType : Nat → CursorM (List Nat)) (elmts : Nat) :
    Nat → CursorM (List Nat)
  | 0 => failure
  | turns + 1 => do
    let curr ← get
    match (m.namedTypeLists elmts)[curr.namedTypeLists elmts]? with
    | none => return []
    | some e => do
      let errors ← errChkType e
      modify fun curr => curr.setNamedTypes elmts (curr.namedTypeLists elmts + 1)
      return errors ++ (← errChkElmtTypesFrom errChkType elmts turns)

/-- Check the types of the elements of a list that may be missing. -/
def errChkElmtTypes (errChkType : Nat → CursorM (List Nat)) (turns : Nat) :
    Option Nat → CursorM (List Nat)
  | none => return []
  | some elmts => do
    modify fun curr => curr.setNamedTypes elmts 0
    errChkElmtTypesFrom m errChkType elmts turns

/-- The types for which conflicts of tags are reported when a type is checked. -/
def errChkType : Nat → Nat → CursorM (List Nat)
  | 0, _ => failure
  | fuel + 1, t => do
    let bt := (m.types t).basicType
    match bt.choiceId with
    | .sequenceOf | .setOf =>
      match bt.setOf with
      | none => return []
      | some elmt => errChkType fuel elmt
    | .sequence => do
      let errors ← errChkElmtTypes m (errChkType fuel) fuel bt.elmts
      let conflicts ← chkSeqTags m fuel bt.elmts
      return errors ++ List.replicate conflicts t
    | .objectClass => errChkElmtTypes m (errChkType fuel) fuel bt.elmts
    | .choice | .set => do
      let distinct ← hasDistinctTags m fuel bt.elmts
      let errors ← errChkElmtTypes m (errChkType fuel) fuel bt.elmts
      return (if distinct then [] else [t]) ++ errors
    | _ => return []

/-- The types for which conflicts of tags are reported when the definitions of a module are checked. -/
def errChkModule (fuel : Nat) : List Nat → CursorM (List Nat)
  | [] => return []
  | td :: typeDefs => do
    let errors ← errChkType m fuel td
    return errors ++ (← errChkModule fuel typeDefs)

end

end Esnacc.Compiler
