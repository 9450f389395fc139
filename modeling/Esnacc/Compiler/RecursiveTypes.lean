import Esnacc.Lib.GraphWalks
import Esnacc.Compiler.TagUtil
import Mathlib.Logic.Function.Basic

/-! The types of linked definitions that contain themselves, as the compiler marks them. -/

namespace Esnacc.Compiler

open Lib

/-- What a type says of itself as a component, and the line it stands on. -/
structure TypeAttrs where
  optional : Bool := false
  hasDefaultVal : Bool := false
  extensionAddition : Bool := false
  lineNo : Int := 0

/-- A type written out, down to the references in it; those carry the addresses of definitions. -/
inductive TypeTree
  | choice (attrs : TypeAttrs) (elmts : List TypeTree)
  | set (attrs : TypeAttrs) (elmts : List TypeTree)
  | sequence (attrs : TypeAttrs) (elmts : List TypeTree)
  | setOf (attrs : TypeAttrs) (elmt : TypeTree)
  | sequenceOf (attrs : TypeAttrs) (elmt : TypeTree)
  | localTypeRef (attrs : TypeAttrs) (link : Nat)
  | importTypeRef (attrs : TypeAttrs) (link : Nat)
  | other (attrs : TypeAttrs) (choiceId : BasicTypeChoiceId)

/-- What a type says of itself. -/
def TypeTree.attrs : TypeTree → TypeAttrs
  | .choice attrs _ | .set attrs _ | .sequence attrs _ | .setOf attrs _ | .sequenceOf attrs _
  | .localTypeRef attrs _ | .importTypeRef attrs _ | .other attrs _ => attrs

/-- A type definition. -/
structure LinkedDef where
  definedName : String
  type : TypeTree

/-- A printed warning, and the definition it is about. -/
structure RecWarning where
  definition : Nat
  fileName : String
  lineNo : Int
  text : String

/-- The counts and marks of the definitions, and the warnings printed. -/
structure RecState where
  tmpRefCount : Nat → Int
  recursive : Nat → Bool
  warnings : List RecWarning

/-- Routines that mark definitions; the walk through them may run out of fuel. -/
abbrev RecM := StateT RecState Option

/-- The state with the count of a definition set. -/
def RecState.setCount (s : RecState) (d : Nat) (count : Int) : RecState :=
  { s with tmpRefCount := Function.update s.tmpRefCount d count }

section

variable (defs : Nat → LinkedDef) (asn1SrcFileName : String) (td : Nat)

/-- The text printed of a definition that can hold no values. -/
def noValuesText (definedName : String) : String :=
  "WARNING: Type \"" ++ definedName ++ "\" appears to be infinitely recursive and can hold " ++
    "no values! (circular type references)\n"

/-- The text printed of a definition whose values have no end. -/
def infiniteText (definedName : String) : String :=
  "WARNING: Type \"" ++ definedName ++ "\" appears to be infinitely recursive! " ++
    "(infinitely sized values)\n"

/-- The warnings about a reference back to the definition. -/
def refWarnings (attrs : TypeAttrs) (optional empty : Bool) : List RecWarning :=
  if empty then
    [⟨td, asn1SrcFileName, (defs td).type.attrs.lineNo, noValuesText (defs td).definedName⟩]
  else if !optional then
    [⟨td, asn1SrcFileName, attrs.lineNo, infiniteText (defs td).definedName⟩]
  else []

/-- The state once a reference back to the definition is found. -/
def RecState.refFound (s : RecState) (attrs : TypeAttrs) (optional empty : Bool) : RecState :=
  { s with
    recursive := Function.update s.recursive td true
    warnings := s.warnings ++ refWarnings defs asn1SrcFileName td attrs optional empty }

/-- A type reference: one to the definition itself is noted, any other is followed unless the walk is
within it already. -/
def mkRecTypeRef (mkRecType : TypeTree → Bool → Bool → RecM Unit) (attrs : TypeAttrs) (link : Nat)
    (optional empty : Bool) : RecM Unit := do
  if link = td then
    modify fun s => s.refFound defs asn1SrcFileName td attrs optional empty
  else if (← get).tmpRefCount link = 0 then
    modify fun s => s.setCount link 1
    let newOptional := optional || attrs.optional || attrs.hasDefaultVal
    mkRecType (defs link).type newOptional empty
    modify fun s => s.setCount link 0

end

mutual

/-- The references in a type, with whether the way to them may be left out or holds no data. -/
def mkRecTypeIn (typeRef : TypeAttrs → Nat → Bool → Bool → RecM Unit) :
    TypeTree → Bool → Bool → RecM Unit
  | .choice _ elmts, optional, empty =>
    if 1 < elmts.length then mkRecAlternatives typeRef elmts true false
    else mkRecAlternatives typeRef elmts optional empty
  | .set _ elmts, optional, _ => mkRecComponents typeRef elmts optional
  | .sequence _ elmts, optional, _ => mkRecComponents typeRef elmts optional
  -- An empty list is data, and a list may be empty.
  | .setOf _ elmt, _, _ => mkRecTypeIn typeRef elmt true false
  | .sequenceOf _ elmt, _, _ => mkRecTypeIn typeRef elmt true false
  | .localTypeRef attrs link, optional, empty => typeRef attrs link optional empty
  | .importTypeRef attrs link, optional, empty => typeRef attrs link optional empty
  | .other _ _, _, _ => return

/-- The references in the alternatives of a CHOICE. -/
def mkRecAlternatives (typeRef : TypeAttrs → Nat → Bool → Bool → RecM Unit) :
    List TypeTree → Bool → Bool → RecM Unit
  | [], _, _ => return
  | e :: elmts, optional, empty => do
    mkRecTypeIn typeRef e optional empty
    mkRecAlternatives typeRef elmts optional empty

/-- The references in the components of a SET or SEQUENCE. -/
def mkRecComponents (typeRef : TypeAttrs → Nat → Bool → Bool → RecM Unit) :
    List TypeTree → Bool → RecM Unit
  | [], _ => return
  | e :: elmts, optional => do
    let newOptional := optional || e.attrs.optional || e.attrs.hasDefaultVal
    mkRecTypeIn typeRef e newOptional false
    mkRecComponents typeRef elmts optional

end

section

variable (defs : Nat → LinkedDef) (asn1SrcFileName : String)

/-- The walk through a type and the definitions it refers to, for references to one of these. -/
def mkRecType (td : Nat) : Nat → TypeTree → Bool → Bool → RecM Unit
  | 0 => fun _ _ _ => failure
  | fuel + 1 => mkRecTypeIn (mkRecTypeRef defs asn1SrcFileName td (mkRecType td fuel))

/-- The walk from a definition for references back to it. -/
def mkRecTypeDef (fuel td : Nat) : RecM Unit :=
  mkRecType defs asn1SrcFileName td fuel (defs td).type false true

/-- Mark the definitions of a module that contain themselves. -/
def markRecursiveTypes (fuel : Nat) (typeDefs : List Nat) : RecM Unit := do
  typeDefs.forM fun td => modify fun s => s.setCount td 0
  typeDefs.forM fun td => mkRecTypeDef defs asn1SrcFileName fuel td

end

/-! ## The references in a type -/

/-- What is known of the way to a reference within its type: whether it may be left out or holds no
data, as the compiler sees it, and whether it leads through an extension addition. -/
structure RefLabel where
  attrs : TypeAttrs
  optional : Bool
  empty : Bool
  extended : Bool

mutual

/-- The references in a type with the definitions they lead to, from left to right. -/
@[grind =] def references : TypeTree → Bool → Bool → Bool → List (Nat × RefLabel)
  | .choice _ elmts, optional, empty, extended =>
    if 1 < elmts.length then alternativeReferences elmts true false extended
    else alternativeReferences elmts optional empty extended
  | .set _ elmts, optional, _, extended => componentReferences elmts optional extended
  | .sequence _ elmts, optional, _, extended => componentReferences elmts optional extended
  | .setOf _ elmt, _, _, extended => references elmt true false extended
  | .sequenceOf _ elmt, _, _, extended => references elmt true false extended
  | .localTypeRef attrs link, optional, empty, extended => [(link, ⟨attrs, optional, empty, extended⟩)]
  | .importTypeRef attrs link, optional, empty, extended =>
    [(link, ⟨attrs, optional, empty, extended⟩)]
  | .other _ _, _, _, _ => []

/-- The references in the alternatives of a CHOICE. -/
@[grind =] def alternativeReferences : List TypeTree → Bool → Bool → Bool → List (Nat × RefLabel)
  | [], _, _, _ => []
  | e :: elmts, optional, empty, extended =>
    references e optional empty extended ++ alternativeReferences elmts optional empty extended

/-- The references in the components of a SET or SEQUENCE. -/
@[grind =] def componentReferences : List TypeTree → Bool → Bool → List (Nat × RefLabel)
  | [], _, _ => []
  | e :: elmts, optional, extended =>
    references e (optional || e.attrs.optional || e.attrs.hasDefaultVal) false
        (extended || e.attrs.extensionAddition) ++
      componentReferences elmts optional extended

end

/-- The references in the type of a definition. -/
def referencesOf (defs : Nat → LinkedDef) (d : Nat) : List (Nat × RefLabel) :=
  references (defs d).type false true false

/-- That the type of a definition refers to another one. -/
def RefersTo (defs : Nat → LinkedDef) (d e : Nat) : Prop :=
  ∃ label, (e, label) ∈ referencesOf defs d

/-- What is done at a reference on a way that is already known to be optional or empty. -/
def atReference (typeRef : TypeAttrs → Nat → Bool → Bool → RecM Unit) (optional empty : Bool)
    (ref : Nat × RefLabel) : RecM Unit :=
  typeRef ref.2.attrs ref.1 (optional || ref.2.optional) (empty && ref.2.empty)

variable {typeRef : TypeAttrs → Nat → Bool → Bool → RecM Unit}

mutual

/-- The walk through a type goes from one reference in it to the next. -/
theorem mkRecTypeIn_eq (t : TypeTree) (optional empty optional' empty' extended : Bool) :
    mkRecTypeIn typeRef t (optional || optional') (empty && empty') =
      forM (references t optional' empty' extended) (atReference typeRef optional empty) := by
  match t with
  | .choice _ elmts =>
    rw [mkRecTypeIn, references]
    split
    · have := mkRecAlternatives_eq elmts optional empty true false extended
      rwa [Bool.or_true, Bool.and_false] at this
    · exact mkRecAlternatives_eq elmts optional empty optional' empty' extended
  | .set _ elmts =>
    rw [mkRecTypeIn, references]
    exact mkRecComponents_eq elmts optional empty optional' extended
  | .sequence _ elmts =>
    rw [mkRecTypeIn, references]
    exact mkRecComponents_eq elmts optional empty optional' extended
  | .setOf _ elmt =>
    rw [mkRecTypeIn, references]
    have := mkRecTypeIn_eq elmt optional empty true false extended
    rwa [Bool.or_true, Bool.and_false] at this
  | .sequenceOf _ elmt =>
    rw [mkRecTypeIn, references]
    have := mkRecTypeIn_eq elmt optional empty true false extended
    rwa [Bool.or_true, Bool.and_false] at this
  | .localTypeRef attrs link =>
    rw [mkRecTypeIn, references]
    simp [atReference]
  | .importTypeRef attrs link =>
    rw [mkRecTypeIn, references]
    simp [atReference]
  | .other _ _ =>
    rw [mkRecTypeIn, references, List.forM_nil]

theorem mkRecAlternatives_eq (elmts : List TypeTree)
    (optional empty optional' empty' extended : Bool) :
    mkRecAlternatives typeRef elmts (optional || optional') (empty && empty') =
      forM (alternativeReferences elmts optional' empty' extended)
        (atReference typeRef optional empty) := by
  match elmts with
  | [] => rw [mkRecAlternatives, alternativeReferences, List.forM_nil]
  | e :: elmts =>
    rw [mkRecAlternatives, alternativeReferences, List.forM_append,
      mkRecTypeIn_eq e optional empty optional' empty' extended,
      mkRecAlternatives_eq elmts optional empty optional' empty' extended]

/-- The walk through components goes from one reference in them to the next. -/
theorem mkRecComponents_eq (elmts : List TypeTree) (optional empty optional' extended : Bool) :
    mkRecComponents typeRef elmts (optional || optional') =
      forM (componentReferences elmts optional' extended)
        (atReference typeRef optional empty) := by
  match elmts with
  | [] => rw [mkRecComponents, componentReferences, List.forM_nil]
  | e :: elmts =>
    have first := mkRecTypeIn_eq e optional empty
      (optional' || e.attrs.optional || e.attrs.hasDefaultVal) false
      (extended || e.attrs.extensionAddition)
    rw [Bool.and_false] at first
    rw [mkRecComponents, componentReferences, List.forM_append, ← first,
      mkRecComponents_eq elmts optional empty optional' extended]
    simp only [Bool.or_assoc]

end

/-! ## The walk through the definitions -/

/-- Whether a way is optional once it has followed references. -/
def optionalAlong (optional : Bool) (before : List RefLabel) : Bool :=
  optional || before.any fun label =>
    label.optional || label.attrs.optional || label.attrs.hasDefaultVal

/-- Whether a way holds no data once it has followed references. -/
def emptyAlong (empty : Bool) (before : List RefLabel) : Bool :=
  empty && before.all fun label => label.empty

section

variable (defs : Nat → LinkedDef) (asn1SrcFileName : String) (td : Nat)

/-- The warnings about a path that leads back to the definition. -/
def pathWarnings (optional empty : Bool) (path : List RefLabel × RefLabel) : List RecWarning :=
  refWarnings defs asn1SrcFileName td path.2.attrs (optionalAlong optional path.1 || path.2.optional)
    (emptyAlong empty path.1 && path.2.empty)

/-- The state once a path back to the definition is found. -/
def RecState.pathFound (optional empty : Bool) (s : RecState) (path : List RefLabel × RefLabel) :
    RecState :=
  s.refFound defs asn1SrcFileName td path.2.attrs (optionalAlong optional path.1 || path.2.optional)
    (emptyAlong empty path.1 && path.2.empty)

/-- The state once several paths back to the definition are found. -/
def RecState.pathsFound (optional empty : Bool) (s : RecState)
    (paths : List (List RefLabel × RefLabel)) : RecState :=
  paths.foldl (RecState.pathFound defs asn1SrcFileName td optional empty) s

variable {defs : Nat → LinkedDef} {asn1SrcFileName : String} {td : Nat}

theorem pathsFound_setCount (optional empty : Bool) (s : RecState) (d : Nat) (count : Int)
    (paths : List (List RefLabel × RefLabel)) :
    (s.setCount d count).pathsFound defs asn1SrcFileName td optional empty paths =
      (s.pathsFound defs asn1SrcFileName td optional empty paths).setCount d count := by
  induction paths generalizing s with
  | nil => rfl
  | cons path paths ih => exact ih (s.pathFound defs asn1SrcFileName td optional empty path)

@[simp] theorem pathsFound_tmpRefCount (optional empty : Bool) (s : RecState)
    (paths : List (List RefLabel × RefLabel)) :
    (s.pathsFound defs asn1SrcFileName td optional empty paths).tmpRefCount = s.tmpRefCount := by
  induction paths generalizing s with
  | nil => rfl
  | cons path paths ih => exact ih (s.pathFound defs asn1SrcFileName td optional empty path)

/-- The definition is marked when a path back to it is found, and no other one is. -/
theorem pathsFound_recursive (optional empty : Bool) (s : RecState)
    (paths : List (List RefLabel × RefLabel)) (d : Nat) :
    (s.pathsFound defs asn1SrcFileName td optional empty paths).recursive d = true ↔
      s.recursive d = true ∨ d = td ∧ paths ≠ [] := by
  induction paths generalizing s with
  | nil => simp [RecState.pathsFound]
  | cons path paths ih =>
    have first : (s.pathFound defs asn1SrcFileName td optional empty path).recursive d = true ↔
        s.recursive d = true ∨ d = td := by
      by_cases same : d = td
      · simp [RecState.pathFound, RecState.refFound, same]
      · simp [RecState.pathFound, RecState.refFound, same]
    have rest := ih (s.pathFound defs asn1SrcFileName td optional empty path)
    rw [first] at rest
    refine rest.trans ?_
    simp only [ne_eq, reduceCtorEq, not_false_eq_true, and_true]
    tauto

theorem pathsFound_warnings (optional empty : Bool) (s : RecState)
    (paths : List (List RefLabel × RefLabel)) :
    (s.pathsFound defs asn1SrcFileName td optional empty paths).warnings =
      s.warnings ++ paths.flatMap (pathWarnings defs asn1SrcFileName td optional empty) := by
  induction paths generalizing s with
  | nil => simp [RecState.pathsFound]
  | cons path paths ih =>
    rw [List.flatMap_cons, ← List.append_assoc]
    exact ih (s.pathFound defs asn1SrcFileName td optional empty path)

theorem setCount_setCount_zero {s : RecState} {d : Nat} (zero : s.tmpRefCount d = 0)
    (count : Int) : (s.setCount d count).setCount d 0 = s := by
  unfold RecState.setCount
  rw [Function.update_idem, ← zero, Function.update_eq_self]

/-- A label in front of paths counts with what is known before them. -/
theorem pathsFound_map_cons (optional empty : Bool) (s : RecState) (label : RefLabel)
    (paths : List (List RefLabel × RefLabel)) :
    s.pathsFound defs asn1SrcFileName td optional empty
        (paths.map fun path => (label :: path.1, path.2)) =
      s.pathsFound defs asn1SrcFileName td
        (optional || label.optional || label.attrs.optional || label.attrs.hasDefaultVal)
        (empty && label.empty) paths := by
  unfold RecState.pathsFound
  rw [List.foldl_map]
  congr 1
  funext s path
  simp [RecState.pathFound, optionalAlong, emptyAlong, Bool.or_assoc, Bool.and_assoc]

/-- A reference that is not marked is followed, and its mark taken back. -/
theorem atReference_run {walk : TypeTree → Bool → Bool → RecM Unit} {e : Nat} {label : RefLabel}
    {s : RecState} {marked : Finset Nat} {paths : List (List RefLabel × RefLabel)}
    (count : s.tmpRefCount e = 0 ↔ e ∉ marked)
    (follows : e ∉ marked → ∀ optional empty,
      (walk (defs e).type optional empty).run (s.setCount e 1) =
        some ((), (s.setCount e 1).pathsFound defs asn1SrcFileName td optional empty paths))
    (optional empty : Bool) :
    (atReference (mkRecTypeRef defs asn1SrcFileName td walk) optional empty (e, label)).run s =
      some ((), s.pathsFound defs asn1SrcFileName td optional empty
        (if e = td then [([], label)]
          else if e ∈ marked then []
          else paths.map fun path => (label :: path.1, path.2))) := by
  unfold atReference mkRecTypeRef
  by_cases arrived : e = td
  · rw [if_pos arrived, if_pos arrived]
    simp [RecState.pathsFound, RecState.pathFound, optionalAlong, emptyAlong]
  · rw [if_neg arrived, if_neg arrived]
    by_cases isMarked : e ∈ marked
    · have entered : ¬s.tmpRefCount e = 0 := by
        rw [count]
        exact not_not_intro isMarked
      simp [isMarked, entered, RecState.pathsFound]
    · have free : s.tmpRefCount e = 0 := count.mpr isMarked
      rw [if_neg isMarked, pathsFound_map_cons]
      simp only [StateT.run_bind, StateT.run_get, Option.pure_def, Option.bind_eq_bind,
        Option.bind_some, free, if_true, StateT.run_modify, follows isMarked, pathsFound_setCount,
        setCount_setCount_zero (pathsFound_tmpRefCount .. ▸ free)]

/-- The walk from a type finds the paths back to the definition that mark what they pass. -/
theorem mkRecType_run {nodes : Finset Nat}
    (closed : ∀ d ∈ nodes, ∀ ref ∈ referencesOf defs d, ref.1 ∈ nodes) {fuel : Nat}
    {marked : Finset Nat} {d : Nat} (inside : d ∈ nodes) (enough : (nodes \ marked).card < fuel)
    {s : RecState} (counts : ∀ e ∈ nodes, s.tmpRefCount e = 0 ↔ e ∉ marked)
    (optional empty : Bool) :
    (mkRecType defs asn1SrcFileName td fuel (defs d).type optional empty).run s =
      some ((), s.pathsFound defs asn1SrcFileName td optional empty
        (pathsTo (referencesOf defs) td fuel marked d)) := by
  induction fuel generalizing marked d s optional empty with
  | zero => omega
  | succ fuel ih =>
    have asLoop : mkRecTypeIn
        (mkRecTypeRef defs asn1SrcFileName td (mkRecType defs asn1SrcFileName td fuel))
        (defs d).type (optional || false) (empty && true) = _ :=
      mkRecTypeIn_eq (defs d).type optional empty false true false
    rw [Bool.or_false, Bool.and_true] at asLoop
    rw [mkRecType, asLoop, pathsTo]
    have all : ∀ ref ∈ referencesOf defs d, ref.1 ∈ nodes := closed d inside
    change (forM (m := RecM) (referencesOf defs d) _).run s = _
    -- The induction is on the references left, each of which leaves the counts as they are.
    generalize referencesOf defs d = refs at all
    induction refs generalizing s with
    | nil => rfl
    | cons ref refs rest =>
      obtain ⟨e, label⟩ := ref
      have next : e ∈ nodes := all (e, label) List.mem_cons_self
      have counts' : ∀ c ∈ nodes, (s.setCount e 1).tmpRefCount c = 0 ↔ c ∉ insert e marked := by
        intro c isNode
        by_cases same : c = e
        · simp [RecState.setCount, same]
        · simp [RecState.setCount, same, counts c isNode]
      have first : (atReference (mkRecTypeRef defs asn1SrcFileName td
          (mkRecType defs asn1SrcFileName td fuel)) optional empty (e, label)).run s = _ :=
        atReference_run (counts e next) (fun isMarked => ih next
          (card_sdiff_insert_lt next isMarked enough) counts') optional empty
      have others : ∀ ref ∈ refs, ref.1 ∈ nodes :=
        fun ref isIn => all ref (List.mem_cons_of_mem _ isIn)
      rw [List.forM_cons, StateT.run_bind, first, Option.bind_eq_bind, Option.bind_some,
        rest (by simpa using counts) others, List.flatMap_cons]
      simp [RecState.pathsFound]

theorem mkRecTypeDef_run {nodes : Finset Nat}
    (closed : ∀ d ∈ nodes, ∀ ref ∈ referencesOf defs d, ref.1 ∈ nodes) {fuel : Nat}
    (inside : td ∈ nodes) (enough : nodes.card < fuel) {s : RecState}
    (counts : ∀ e ∈ nodes, s.tmpRefCount e = 0) :
    (mkRecTypeDef defs asn1SrcFileName fuel td).run s =
      some ((), s.pathsFound defs asn1SrcFileName td false true
        (pathsTo (referencesOf defs) td fuel ∅ td)) :=
  mkRecType_run closed inside (by simpa using enough)
    (fun e isNode => by simp [counts e isNode]) false true

end

/-- The paths back to a definition that the walk from it finds in a graph with these nodes. -/
def cycles (defs : Nat → LinkedDef) (nodes : Finset Nat) (td : Nat) :
    List (List RefLabel × RefLabel) :=
  pathsTo (referencesOf defs) td (nodes.card + 1) ∅ td

/-- The warnings printed of the definitions of a module. -/
def moduleWarnings (defs : Nat → LinkedDef) (asn1SrcFileName : String) (nodes : Finset Nat)
    (typeDefs : List Nat) : List RecWarning :=
  typeDefs.flatMap fun td =>
    (cycles defs nodes td).flatMap (pathWarnings defs asn1SrcFileName td false true)

section

variable {defs : Nat → LinkedDef} {asn1SrcFileName : String} {nodes : Finset Nat}

/-- The definitions of a module are walked through one after another. -/
theorem mkRecTypeDefs_run (closed : ∀ d ∈ nodes, ∀ ref ∈ referencesOf defs d, ref.1 ∈ nodes)
    {fuel : Nat} (enough : nodes.card < fuel) {typeDefs : List Nat}
    (inside : ∀ td ∈ typeDefs, td ∈ nodes) {s : RecState}
    (counts : ∀ e ∈ nodes, s.tmpRefCount e = 0) :
    ∃ s', (forM typeDefs fun td => mkRecTypeDef defs asn1SrcFileName fuel td).run s =
        some ((), s') ∧
      (∀ d, s'.recursive d = true ↔
        s.recursive d = true ∨ d ∈ typeDefs ∧ cycles defs nodes d ≠ []) ∧
      s'.warnings = s.warnings ++ moduleWarnings defs asn1SrcFileName nodes typeDefs := by
  induction typeDefs generalizing s with
  | nil => exact ⟨s, rfl, by simp, by simp [moduleWarnings]⟩
  | cons td typeDefs ih =>
    have isNode : td ∈ nodes := inside td List.mem_cons_self
    have first : (mkRecTypeDef defs asn1SrcFileName fuel td).run s = _ :=
      mkRecTypeDef_run closed isNode enough counts
    have paths : pathsTo (referencesOf defs) td fuel ∅ td = cycles defs nodes td :=
      pathsTo_eq_of_enough closed isNode (by simp) enough
    rw [paths] at first
    obtain ⟨s', run, marks, printed⟩ := ih (fun d isIn => inside d (List.mem_cons_of_mem td isIn))
      (s := s.pathsFound defs asn1SrcFileName td false true (cycles defs nodes td))
      (by simpa using counts)
    refine ⟨s', ?_, ?_, ?_⟩
    · rw [List.forM_cons, StateT.run_bind, first, Option.bind_eq_bind, Option.bind_some, run]
    · intro d
      rw [marks, pathsFound_recursive, List.mem_cons]
      constructor
      · rintro ((before | ⟨rfl, found⟩) | ⟨later, found⟩)
        · exact .inl before
        · exact .inr ⟨.inl rfl, found⟩
        · exact .inr ⟨.inr later, found⟩
      · rintro (before | ⟨rfl | later, found⟩)
        · exact .inl (.inl before)
        · exact .inl (.inr ⟨rfl, found⟩)
        · exact .inr ⟨later, found⟩
    · rw [printed, pathsFound_warnings, List.append_assoc]
      rfl

/-- The counts of the definitions of a module are zero once they are reset. -/
theorem resetCounts_run (typeDefs : List Nat) (s : RecState) :
    ∃ s', (forM typeDefs fun td => (modify fun s => s.setCount td 0 : RecM Unit)).run s =
        some ((), s') ∧
      (∀ d, s'.tmpRefCount d = if d ∈ typeDefs then 0 else s.tmpRefCount d) ∧
      s'.recursive = s.recursive ∧ s'.warnings = s.warnings := by
  induction typeDefs generalizing s with
  | nil => exact ⟨s, rfl, by simp, rfl, rfl⟩
  | cons td typeDefs ih =>
    obtain ⟨s', run, counts, marks, printed⟩ := ih (s.setCount td 0)
    refine ⟨s', ?_, ?_, marks, printed⟩
    · rw [List.forM_cons, StateT.run_bind, StateT.run_modify, Option.pure_def, Option.bind_eq_bind,
        Option.bind_some, run]
    · intro d
      rw [counts d]
      by_cases same : d = td
      · simp [RecState.setCount, same]
      · simp [RecState.setCount, same]

/-- The marks and warnings of a module are those of the paths back to its definitions. -/
theorem markRecursiveTypes_run
    (closed : ∀ d ∈ nodes, ∀ ref ∈ referencesOf defs d, ref.1 ∈ nodes) {fuel : Nat}
    (enough : nodes.card < fuel) {typeDefs : List Nat} (inside : ∀ td ∈ typeDefs, td ∈ nodes)
    {s : RecState} (unmarked : ∀ d ∈ nodes, d ∉ typeDefs → s.tmpRefCount d = 0) :
    ∃ s', (markRecursiveTypes defs asn1SrcFileName fuel typeDefs).run s = some ((), s') ∧
      (∀ d, s'.recursive d = true ↔
        s.recursive d = true ∨ d ∈ typeDefs ∧ cycles defs nodes d ≠ []) ∧
      s'.warnings = s.warnings ++ moduleWarnings defs asn1SrcFileName nodes typeDefs := by
  obtain ⟨s₁, reset, counts, marks, printed⟩ := resetCounts_run typeDefs s
  have zero : ∀ e ∈ nodes, s₁.tmpRefCount e = 0 := by
    intro e isNode
    rw [counts e]
    split
    next => rfl
    next outside => exact unmarked e isNode outside
  obtain ⟨s', run, marks', printed'⟩ := mkRecTypeDefs_run closed enough inside zero
  refine ⟨s', ?_, ?_, ?_⟩
  · have reset' : (typeDefs.forM fun td => (modify fun s => s.setCount td 0 : RecM Unit)).run s =
        some ((), s₁) := reset
    rw [markRecursiveTypes, StateT.run_bind, reset', Option.bind_eq_bind, Option.bind_some]
    exact run
  · intro d
    rw [marks', marks]
  · rw [printed', printed]

end

end Esnacc.Compiler
