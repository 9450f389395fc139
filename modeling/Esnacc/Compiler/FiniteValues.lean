import Esnacc.Compiler.RecursiveTypes

/-! Which types have finite values, and which of the recursive ones the compiler warns about. -/

namespace Esnacc.Compiler

open Lib

/-! ## Finite values -/

/-- Whether a component may be missing from a value. -/
def TypeTree.mayBeMissing (t : TypeTree) : Bool :=
  t.attrs.optional || t.attrs.hasDefaultVal || t.attrs.extensionAddition

/-- Whether an alternative is the extension marker, which no value chooses. -/
def TypeTree.isMarker : TypeTree → Bool
  | .other _ choiceId => choiceId = .extension
  | _ => false

mutual

/-- Whether a type has a value, where it is known which definitions have one. -/
def TypeTree.hasValue (defined : Nat → Bool) : TypeTree → Bool
  | .choice _ elmts => anyHasValue defined elmts
  | .set _ elmts => allHaveValues defined elmts
  | .sequence _ elmts => allHaveValues defined elmts
  -- The list may be empty.
  | .setOf _ _ => true
  | .sequenceOf _ _ => true
  | .localTypeRef _ link => defined link
  | .importTypeRef _ link => defined link
  | .other _ _ => true

/-- Whether one of the alternatives has a value. -/
def anyHasValue (defined : Nat → Bool) : List TypeTree → Bool
  | [] => false
  | e :: elmts => (!e.isMarker && e.hasValue defined) || anyHasValue defined elmts

/-- Whether all the components have values, or may be missing. -/
def allHaveValues (defined : Nat → Bool) : List TypeTree → Bool
  | [] => true
  | e :: elmts => (e.mayBeMissing || e.hasValue defined) && allHaveValues defined elmts

end

/-- Whether a definition has a value of at most this depth in references. -/
def hasValueWithin (defs : Nat → LinkedDef) : Nat → Nat → Bool
  | 0, _ => false
  | depth + 1, d => (defs d).type.hasValue (hasValueWithin defs depth)

/-- That a definition has a finite value. -/
def HasFiniteValue (defs : Nat → LinkedDef) (d : Nat) : Prop :=
  ∃ depth, hasValueWithin defs depth d = true

/-! ## References that a value follows -/

mutual

/-- A way that is optional, holds data or leads through an extension addition stays so. -/
theorem references_flags (t : TypeTree) {optional empty extended : Bool}
    {ref : Nat × RefLabel} (isRef : ref ∈ references t optional empty extended) :
    (optional = true → ref.2.optional = true) ∧ (empty = false → ref.2.empty = false) ∧
      (extended = true → ref.2.extended = true) := by
  match t with
  | .choice _ elmts =>
    rw [references] at isRef
    split at isRef
    · have flags := alternativeReferences_flags elmts isRef
      exact ⟨fun _ => flags.1 rfl, fun _ => flags.2.1 rfl, flags.2.2⟩
    · exact alternativeReferences_flags elmts isRef
  | .set _ elmts =>
    rw [references] at isRef
    have flags := componentReferences_flags elmts isRef
    exact ⟨flags.1, fun _ => flags.2.1, flags.2.2⟩
  | .sequence _ elmts =>
    rw [references] at isRef
    have flags := componentReferences_flags elmts isRef
    exact ⟨flags.1, fun _ => flags.2.1, flags.2.2⟩
  | .setOf _ elmt =>
    rw [references] at isRef
    have flags := references_flags elmt isRef
    exact ⟨fun _ => flags.1 rfl, fun _ => flags.2.1 rfl, flags.2.2⟩
  | .sequenceOf _ elmt =>
    rw [references] at isRef
    have flags := references_flags elmt isRef
    exact ⟨fun _ => flags.1 rfl, fun _ => flags.2.1 rfl, flags.2.2⟩
  | .localTypeRef attrs link =>
    rw [references, List.mem_singleton] at isRef
    subst isRef
    exact ⟨id, id, id⟩
  | .importTypeRef attrs link =>
    rw [references, List.mem_singleton] at isRef
    subst isRef
    exact ⟨id, id, id⟩
  | .other _ _ =>
    rw [references] at isRef
    exact absurd isRef List.not_mem_nil

/-- So it does through alternatives. -/
theorem alternativeReferences_flags (elmts : List TypeTree) {optional empty extended : Bool}
    {ref : Nat × RefLabel} (isRef : ref ∈ alternativeReferences elmts optional empty extended) :
    (optional = true → ref.2.optional = true) ∧ (empty = false → ref.2.empty = false) ∧
      (extended = true → ref.2.extended = true) := by
  match elmts with
  | [] =>
    rw [alternativeReferences] at isRef
    exact absurd isRef List.not_mem_nil
  | e :: elmts =>
    rw [alternativeReferences, List.mem_append] at isRef
    rcases isRef with here | later
    · exact references_flags e here
    · exact alternativeReferences_flags elmts later

/-- So it does through components, which are data. -/
theorem componentReferences_flags (elmts : List TypeTree) {optional extended : Bool}
    {ref : Nat × RefLabel} (isRef : ref ∈ componentReferences elmts optional extended) :
    (optional = true → ref.2.optional = true) ∧ ref.2.empty = false ∧
      (extended = true → ref.2.extended = true) := by
  match elmts with
  | [] =>
    rw [componentReferences] at isRef
    exact absurd isRef List.not_mem_nil
  | e :: elmts =>
    rw [componentReferences, List.mem_append] at isRef
    rcases isRef with here | later
    · have flags := references_flags e here
      refine ⟨fun isOptional => flags.1 ?_, flags.2.1 rfl, fun isExtended => flags.2.2 ?_⟩
      · simp [isOptional]
      · simp [isExtended]
    · exact componentReferences_flags elmts later

end

/-- That every value of a type leads through a reference with this label: the way there holds no
data, or it has nothing that may be missing. -/
def RefLabel.needed (label : RefLabel) : Prop :=
  label.empty = true ∨ label.optional = false ∧ label.extended = false

mutual

/-- A value of a type holds a value of every definition that the type needs. -/
theorem TypeTree.hasValue_of_needed (t : TypeTree) {optional empty extended : Bool}
    {ref : Nat × RefLabel} (isRef : ref ∈ references t optional empty extended)
    (needed : ref.2.needed) {defined : Nat → Bool} (value : t.hasValue defined = true) :
    defined ref.1 = true := by
  match t with
  | .choice _ elmts =>
    rw [references] at isRef
    rw [TypeTree.hasValue] at value
    by_cases several : 1 < elmts.length
    · -- With several alternatives the way is optional and holds data.
      rw [if_pos several] at isRef
      have flags := alternativeReferences_flags elmts isRef
      rcases needed with noData | ⟨mandatory, -⟩
      · rw [flags.2.1 rfl] at noData
        exact absurd noData Bool.false_ne_true
      · rw [flags.1 rfl] at mandatory
        exact absurd mandatory.symm Bool.false_ne_true
    · rw [if_neg several] at isRef
      match elmts with
      | [] =>
        rw [alternativeReferences] at isRef
        exact absurd isRef List.not_mem_nil
      | [e] =>
        rw [alternativeReferences, alternativeReferences, List.append_nil] at isRef
        rw [anyHasValue, anyHasValue, Bool.or_false, Bool.and_eq_true] at value
        exact TypeTree.hasValue_of_needed e isRef needed value.2
      | _ :: _ :: _ => exact absurd (by simp) several
  | .set _ elmts =>
    rw [references] at isRef
    rw [TypeTree.hasValue] at value
    exact allHaveValues_of_needed elmts isRef needed value
  | .sequence _ elmts =>
    rw [references] at isRef
    rw [TypeTree.hasValue] at value
    exact allHaveValues_of_needed elmts isRef needed value
  | .setOf _ elmt | .sequenceOf _ elmt =>
    rw [references] at isRef
    have flags := references_flags elmt isRef
    rcases needed with noData | ⟨mandatory, -⟩
    · rw [flags.2.1 rfl] at noData
      exact absurd noData Bool.false_ne_true
    · rw [flags.1 rfl] at mandatory
      exact absurd mandatory.symm Bool.false_ne_true
  | .localTypeRef attrs link | .importTypeRef attrs link =>
    rw [references, List.mem_singleton] at isRef
    subst isRef
    rwa [TypeTree.hasValue] at value
  | .other _ _ =>
    rw [references] at isRef
    exact absurd isRef List.not_mem_nil

/-- A value of components holds a value of every definition that these need. -/
theorem allHaveValues_of_needed (elmts : List TypeTree) {optional extended : Bool}
    {ref : Nat × RefLabel} (isRef : ref ∈ componentReferences elmts optional extended)
    (needed : ref.2.needed) {defined : Nat → Bool} (value : allHaveValues defined elmts = true) :
    defined ref.1 = true := by
  match elmts with
  | [] =>
    rw [componentReferences] at isRef
    exact absurd isRef List.not_mem_nil
  | e :: elmts =>
    rw [allHaveValues, Bool.and_eq_true] at value
    have noData := (componentReferences_flags (e :: elmts) isRef).2.1
    rw [componentReferences, List.mem_append] at isRef
    rcases isRef with here | later
    · -- What is needed comes from a component that may not be missing.
      have flags := references_flags e here
      obtain ⟨mandatory, notExtended⟩ := needed.resolve_left (by simp [noData])
      have present : e.mayBeMissing = false := by
        rw [← Bool.not_eq_true]
        intro missing
        unfold TypeTree.mayBeMissing at missing
        rw [Bool.or_eq_true] at missing
        rcases missing with isOptional | isExtended
        · rw [Bool.or_assoc, isOptional, Bool.or_true] at flags
          rw [flags.1 rfl] at mandatory
          exact absurd mandatory.symm Bool.false_ne_true
        · rw [isExtended, Bool.or_true] at flags
          rw [flags.2.2 rfl] at notExtended
          exact absurd notExtended.symm Bool.false_ne_true
      rw [present, Bool.false_or] at value
      exact TypeTree.hasValue_of_needed e here needed value.1
    · exact allHaveValues_of_needed elmts later needed value.2

end

variable {defs : Nat → LinkedDef} {asn1SrcFileName : String}

/-- Along references that are needed, values get less deep. -/
theorem hasValueWithin_of_walk {td d : Nat} {before : List RefLabel} {last : RefLabel}
    (walk : Walk (referencesOf defs) td ∅ d before last)
    (needed : ∀ label ∈ before ++ [last], label.needed) {depth : Nat}
    (value : hasValueWithin defs depth d = true) :
    ∃ less < depth, hasValueWithin defs less td = true := by
  induction walk generalizing depth with
  | last isRef =>
    cases depth with
    | zero => exact absurd value Bool.false_ne_true
    | succ depth =>
      exact ⟨depth, Nat.lt_succ_self depth,
        TypeTree.hasValue_of_needed _ isRef (needed _ (by simp)) value⟩
  | step isRef _ _ _ ih =>
    cases depth with
    | zero => exact absurd value Bool.false_ne_true
    | succ depth =>
      have inner := TypeTree.hasValue_of_needed _ isRef (needed _ (by simp)) value
      obtain ⟨less, below, found⟩ := ih
        (fun label isIn => needed label (List.mem_cons_of_mem _ isIn)) inner
      exact ⟨less, Nat.lt_succ_of_lt below, found⟩

theorem not_hasFiniteValue_of_walk {td : Nat} {before : List RefLabel} {last : RefLabel}
    (walk : Walk (referencesOf defs) td ∅ td before last)
    (needed : ∀ label ∈ before ++ [last], label.needed) : ¬HasFiniteValue defs td := by
  rintro ⟨depth, value⟩
  -- A value of the least depth would hold a less deep one.
  induction depth using Nat.strong_induction_on with
  | h depth ih =>
    obtain ⟨less, below, found⟩ := hasValueWithin_of_walk walk needed value
    exact ih less below found

/-! ## Warnings -/

/-- That nothing at a reference that is followed is OPTIONAL or has a default, nor on the way. -/
def RefLabel.mandatory (label : RefLabel) : Prop :=
  label.optional = false ∧ label.attrs.optional = false ∧ label.attrs.hasDefaultVal = false

/-- That a definition leads back to itself with nothing OPTIONAL, DEFAULT, or chosen among several
alternatives on the way, but with an extension addition. -/
def ExtendedCycle (defs : Nat → LinkedDef) (td : Nat) : Prop :=
  ∃ before last, Walk (referencesOf defs) td ∅ td before last ∧
    (∀ label ∈ before, label.mandatory) ∧ last.optional = false ∧
    ∃ label ∈ before ++ [last], label.extended = true

theorem optionalAlong_eq_false_iff (before : List RefLabel) :
    optionalAlong false before = false ↔ ∀ label ∈ before, label.mandatory := by
  simp [optionalAlong, RefLabel.mandatory, List.any_eq_false, and_assoc]

theorem pathWarnings_eq_nil_iff (td : Nat) (path : List RefLabel × RefLabel) :
    pathWarnings defs asn1SrcFileName td false true path = [] ↔
      (emptyAlong true path.1 && path.2.empty) = false ∧
        (optionalAlong false path.1 || path.2.optional) = true := by
  unfold pathWarnings refWarnings
  cases emptyAlong true path.1 && path.2.empty with
  | true => simp
  | false => cases optionalAlong false path.1 || path.2.optional <;> simp

theorem definition_of_mem_pathWarnings {td : Nat} {path : List RefLabel × RefLabel}
    {w : RecWarning} (isIn : w ∈ pathWarnings defs asn1SrcFileName td false true path) :
    w.definition = td := by
  unfold pathWarnings refWarnings at isIn
  split at isIn
  · rw [List.mem_singleton] at isIn
    rw [isIn]
  · split at isIn
    · rw [List.mem_singleton] at isIn
      rw [isIn]
    · exact absurd isIn List.not_mem_nil

/-- A definition with a warning has no finite value, or an extension addition on a cycle. -/
theorem extendedCycle_of_warning {td : Nat} {before : List RefLabel} {last : RefLabel}
    (walk : Walk (referencesOf defs) td ∅ td before last)
    (warned : pathWarnings defs asn1SrcFileName td false true (before, last) ≠ [])
    (value : HasFiniteValue defs td) : ExtendedCycle defs td := by
  have someNotNeeded : ¬∀ label ∈ before ++ [last], label.needed :=
    fun needed => not_hasFiniteValue_of_walk walk needed value
  have hasData : (emptyAlong true before && last.empty) = false := by
    rw [← Bool.not_eq_true]
    intro noData
    rw [Bool.and_eq_true, emptyAlong, Bool.true_and, List.all_eq_true] at noData
    apply someNotNeeded
    intro label isIn
    rcases List.mem_append.mp isIn with isBefore | isLast
    · exact .inl (noData.1 label isBefore)
    · rw [List.mem_singleton.mp isLast]
      exact .inl noData.2
  have notOptional : (optionalAlong false before || last.optional) = false := by
    rw [← Bool.not_eq_true]
    intro optional
    exact warned ((pathWarnings_eq_nil_iff td (before, last)).mpr ⟨hasData, optional⟩)
  rw [Bool.or_eq_false_iff, optionalAlong_eq_false_iff] at notOptional
  refine ⟨before, last, walk, notOptional.1, notOptional.2, ?_⟩
  by_contra none
  push Not at none
  -- Without extension additions all of the cycle is needed.
  apply someNotNeeded
  intro label isIn
  refine .inr ⟨?_, Bool.not_eq_true _ ▸ none label isIn⟩
  rcases List.mem_append.mp isIn with isBefore | isLast
  · exact (notOptional.1 label isBefore).1
  · rw [List.mem_singleton.mp isLast]
    exact notOptional.2

/-- A definition with an extension addition on a mandatory cycle gets a warning. -/
theorem exists_warning_of_extendedCycle {nodes : Finset Nat}
    (closed : ∀ d ∈ nodes, ∀ ref ∈ referencesOf defs d, ref.1 ∈ nodes) {td : Nat}
    (inside : td ∈ nodes) (cycle : ExtendedCycle defs td) :
    ∃ path ∈ cycles defs nodes td,
      pathWarnings defs asn1SrcFileName td false true path ≠ [] := by
  obtain ⟨before, last, walk, mandatory, lastMandatory, -⟩ := cycle
  obtain ⟨kept, fresh, fewer⟩ := walk.exists_fresh
  have found : (kept, last) ∈ cycles defs nodes td :=
    (mem_pathsTo_iff closed inside (by simp)).mpr fresh
  refine ⟨(kept, last), found, ?_⟩
  intro none
  have optional := ((pathWarnings_eq_nil_iff td (kept, last)).mp none).2
  have notOptional : optionalAlong false kept = false :=
    (optionalAlong_eq_false_iff kept).mpr fun label isIn => mandatory label (fewer.subset isIn)
  rw [notOptional, lastMandatory] at optional
  exact absurd optional Bool.false_ne_true

/-- That the walk through a module ends, marks exactly the definitions of it that contain themselves,
and prints warnings about definitions without finite values only. -/
def MarksExactly (defs : Nat → LinkedDef) (asn1SrcFileName : String) (nodes : Finset Nat)
    (typeDefs : List Nat) (s : RecState) : Prop :=
  ∀ fuel, nodes.card < fuel →
    ∃ s' printed, (markRecursiveTypes defs asn1SrcFileName fuel typeDefs).run s = some ((), s') ∧
      (∀ d, s'.recursive d = true ↔
        s.recursive d = true ∨ d ∈ typeDefs ∧ Relation.TransGen (RefersTo defs) d d) ∧
      s'.warnings = s.warnings ++ printed ∧
      ∀ w ∈ printed, ¬HasFiniteValue defs w.definition

/-- A path back to a definition is found exactly when it contains itself. -/
theorem cycles_ne_nil_iff {nodes : Finset Nat}
    (closed : ∀ d ∈ nodes, ∀ ref ∈ referencesOf defs d, ref.1 ∈ nodes) {td : Nat}
    (inside : td ∈ nodes) :
    cycles defs nodes td ≠ [] ↔ Relation.TransGen (RefersTo defs) td td := by
  have enough : (nodes \ ∅).card < nodes.card + 1 := by simp
  refine Iff.trans ?_ (exists_walk_iff : (∃ before last,
    Walk (referencesOf defs) td ∅ td before last) ↔ Relation.TransGen (RefersTo defs) td td)
  constructor
  · intro found
    obtain ⟨⟨before, last⟩, found⟩ := List.exists_mem_of_ne_nil _ found
    exact ⟨before, last, ((mem_pathsTo_iff closed inside enough).mp found).walk⟩
  · rintro ⟨before, last, walk⟩
    obtain ⟨kept, fresh, -⟩ := walk.exists_fresh
    exact List.ne_nil_of_mem ((mem_pathsTo_iff closed inside enough).mpr fresh)

/-- In a finite graph of definitions whose counts are zero outside the module, the walk through the
module marks the definitions that contain themselves and warns about those without finite values only,
exactly when no definition of it that has a finite value leads back to itself with nothing optional
but an extension addition. -/
theorem marksExactly_iff (defs : Nat → LinkedDef) (asn1SrcFileName : String) (nodes : Finset Nat)
    (typeDefs : List Nat) (s : RecState)
    (closed : ∀ d ∈ nodes, ∀ ref ∈ referencesOf defs d, ref.1 ∈ nodes)
    (inside : ∀ td ∈ typeDefs, td ∈ nodes)
    (unmarked : ∀ d ∈ nodes, d ∉ typeDefs → s.tmpRefCount d = 0) :
    MarksExactly defs asn1SrcFileName nodes typeDefs s ↔
      ∀ td ∈ typeDefs, HasFiniteValue defs td → ¬ExtendedCycle defs td := by
  have run {fuel : Nat} (enough : nodes.card < fuel) :
      ∃ s', (markRecursiveTypes defs asn1SrcFileName fuel typeDefs).run s = some ((), s') ∧ _ :=
    markRecursiveTypes_run closed enough inside unmarked
  constructor
  · intro exact td isIn value cycle
    obtain ⟨s', printed, ran, -, warnings, sound⟩ := exact _ (Nat.lt_succ_self nodes.card)
    obtain ⟨s'', ran', -, warnings'⟩ := run (Nat.lt_succ_self nodes.card)
    obtain rfl : s' = s'' := by
      have same := ran.symm.trans ran'
      exact congrArg Prod.snd (Option.some.inj same)
    have all : printed = moduleWarnings defs asn1SrcFileName nodes typeDefs :=
      List.append_cancel_left (warnings.symm.trans warnings')
    obtain ⟨path, found, warned⟩ : ∃ path ∈ cycles defs nodes td,
        pathWarnings defs asn1SrcFileName td false true path ≠ [] :=
      exists_warning_of_extendedCycle closed (inside td isIn) cycle
    obtain ⟨w, isWarning⟩ := List.exists_mem_of_ne_nil _ warned
    have isPrinted : w ∈ printed := by
      rw [all]
      exact List.mem_flatMap.mpr ⟨td, isIn, List.mem_flatMap.mpr ⟨path, found, isWarning⟩⟩
    have noValue := sound w isPrinted
    rw [definition_of_mem_pathWarnings isWarning] at noValue
    exact noValue value
  · intro none fuel enough
    obtain ⟨s', ran, marks, warnings⟩ := run enough
    refine ⟨s', _, ran, ?_, warnings, ?_⟩
    · intro d
      rw [marks]
      refine or_congr_right (and_congr_right fun isIn => ?_)
      exact cycles_ne_nil_iff closed (inside d isIn)
    · intro w isPrinted value
      obtain ⟨td, isIn, inModule⟩ := List.mem_flatMap.mp isPrinted
      obtain ⟨⟨before, last⟩, found, isWarning⟩ := List.mem_flatMap.mp inModule
      rw [definition_of_mem_pathWarnings isWarning] at value
      have walk := ((mem_pathsTo_iff closed (inside td isIn) (by simp)).mp found).walk
      exact none td isIn value
        (extendedCycle_of_warning walk (List.ne_nil_of_mem isWarning) value)

/-- The definition A ::= SEQUENCE { a INTEGER, ..., b A }, in which b is an extension addition unless
it is an ordinary component. -/
def selfExtended (extensionAddition : Bool) : Nat → LinkedDef := fun _ =>
  { definedName := "A"
    type := .sequence {} [.other {} .integer, .other { extensionAddition := true } .extension,
      .localTypeRef { extensionAddition } 0] }

/-- The counts and marks before the walk, with nothing printed yet. -/
def unvisited : RecState where
  tmpRefCount := fun _ => 0
  recursive := fun _ => false
  warnings := []

theorem selfExtended_closed (extensionAddition : Bool) :
    ∀ d ∈ ({0} : Finset Nat), ∀ ref ∈ referencesOf (selfExtended extensionAddition) d,
      ref.1 ∈ ({0} : Finset Nat) := by
  intro d _ ref isRef
  have only : ref ∈ [(0, (⟨{ extensionAddition }, false, false, extensionAddition⟩ : RefLabel))] :=
    isRef
  rw [List.mem_singleton.mp only]
  exact Finset.mem_singleton_self 0

/-- An ordinary component of its own type leaves the definition without values. -/
theorem marksExactly_iff_selfExtended :
    MarksExactly (selfExtended false) "a.asn1" {0} [0] unvisited ↔
      ∀ td ∈ [0], HasFiniteValue (selfExtended false) td → ¬ExtendedCycle (selfExtended false) td :=
  marksExactly_iff (selfExtended false) "a.asn1" {0} [0] unvisited (selfExtended_closed false)
    (by decide) (fun _ _ _ => rfl)

/-- A component of its own type that is an extension addition is warned about, but may be missing. -/
theorem not_marksExactly :
    ¬ ∀ (defs : Nat → LinkedDef) (asn1SrcFileName : String) (nodes : Finset Nat)
      (typeDefs : List Nat) (s : RecState),
      (∀ d ∈ nodes, ∀ ref ∈ referencesOf defs d, ref.1 ∈ nodes) → (∀ td ∈ typeDefs, td ∈ nodes) →
      (∀ d ∈ nodes, d ∉ typeDefs → s.tmpRefCount d = 0) →
      MarksExactly defs asn1SrcFileName nodes typeDefs s := by
  intro claim
  obtain ⟨s', printed, ran, -, warnings, sound⟩ := claim (selfExtended true) "a.asn1" {0} [0]
    unvisited (selfExtended_closed true) (by decide) (fun _ _ _ => rfl) 2 (by decide)
  have warned : s'.warnings =
      [⟨0, "a.asn1", 0, infiniteText "A"⟩] := by
    have same : some ((), s') = some ((), _) := ran.symm.trans rfl
    have state : s' = _ := congrArg Prod.snd (Option.some.inj same)
    rw [state]
    rfl
  rw [warned] at warnings
  have isPrinted : (⟨0, "a.asn1", 0, infiniteText "A"⟩ : RecWarning) ∈ printed := by
    rw [← (show [] ++ printed = printed from List.nil_append printed)]
    exact warnings ▸ List.mem_singleton_self _
  exact sound _ isPrinted ⟨1, rfl⟩

end Esnacc.Compiler
