import Esnacc.Compiler.FiniteValues
import Esnacc.Lib.DependencyOrder

/-! The order in which the type definitions of a module are generated. -/

namespace Esnacc.Compiler

open Lib

/-! ## The types and what they refer to -/

/-- The C or C++ type given to a type where it is used. -/
structure TypeRefInfo where
  isPtr : Bool
  deriving DecidableEq

/-- A type with the C and C++ types that decide about the order of the definitions. -/
inductive TypeNode
  | choice (attrs : TypeAttrs) (elmts : List TypeNode)
  | set (attrs : TypeAttrs) (elmts : List TypeNode)
  | sequence (attrs : TypeAttrs) (elmts : List TypeNode)
  | objectClass (attrs : TypeAttrs) (classdef : List TypeNode)
  | setOf (attrs : TypeAttrs) (cTypeRefInfo : Option TypeRefInfo) (elmt : TypeNode)
  | sequenceOf (attrs : TypeAttrs) (cTypeRefInfo : Option TypeRefInfo) (elmt : TypeNode)
  | localTypeRef (attrs : TypeAttrs) (cTypeRefInfo cxxTypeRefInfo : Option TypeRefInfo) (link : Nat)
  | importTypeRef (attrs : TypeAttrs) (link : Nat)
  | other (attrs : TypeAttrs) (choiceId : BasicTypeChoiceId)

mutual

/-- The definitions of the module that a type refers to. -/
def buildLocalRefList : TypeNode → List Nat
  | .choice _ elmts | .set _ elmts | .sequence _ elmts => buildLocalRefLists elmts
  | .objectClass _ classdef => buildLocalRefLists classdef
  | .setOf _ _ elmt | .sequenceOf _ _ elmt => buildLocalRefList elmt
  | .localTypeRef _ _ _ link => [link]
  | .importTypeRef _ _ | .other _ _ => []

/-- The definitions of the module that the types of a list refer to. -/
def buildLocalRefLists : List TypeNode → List Nat
  | [] => []
  | e :: elmts => buildLocalRefList e ++ buildLocalRefLists elmts

end

/-- Whether the C or C++ type given to a reference is there and is no pointer. -/
def notPtr (info : Option TypeRefInfo) : Bool := info.any fun info => !info.isPtr

mutual

/-- The definitions of the module that a type refers to other than through pointers. -/
def buildWeightedLocalRefList : TypeNode → List Nat
  | .choice _ elmts | .set _ elmts | .sequence _ elmts => buildWeightedLocalRefLists elmts
  -- A list of C does not depend on the type of its elements.
  | .setOf _ cTypeRefInfo elmt | .sequenceOf _ cTypeRefInfo elmt =>
    if cTypeRefInfo.isNone then buildWeightedLocalRefList elmt else []
  | .localTypeRef _ cTypeRefInfo cxxTypeRefInfo link =>
    if notPtr cxxTypeRefInfo || notPtr cTypeRefInfo then [link] else []
  | .objectClass _ _ | .importTypeRef _ _ | .other _ _ => []

/-- The definitions of the module that the types of a list refer to other than through pointers. -/
def buildWeightedLocalRefLists : List TypeNode → List Nat
  | [] => []
  | e :: elmts => buildWeightedLocalRefList e ++ buildWeightedLocalRefLists elmts

end

/-- Whether values of a type are encoded as primitives, by the way it is defined. -/
def isPrimitiveByDef : BasicTypeChoiceId → Bool
  | .boolean | .integer | .bitString | .octetString | .null | .oid | .relativeOid | .real
  | .enumerated | .numericStr | .printableStr | .ia5Str | .bmpStr | .universalStr | .utf8Str
  | .t61Str | .generalizedTime | .utcTime | .objectDescriptor | .visibleStr | .graphicStr
  | .videotexStr | .generalStr => true
  | _ => false

/-- Whether a type is one of the library's; references are not followed. -/
def isDefinedByLibraryType : TypeNode → Bool
  | .other _ choiceId =>
    isPrimitiveByDef choiceId || choiceId = .anyDefinedBy || choiceId = .any
  | _ => false

/-- Whether a type is a SET OF or SEQUENCE OF. -/
def TypeNode.isListType : TypeNode → Bool
  | .setOf _ _ _ | .sequenceOf _ _ _ => true
  | _ => false

/-! ## The order -/

/-- A type definition: its type, whether C is generated for it, and how often the module refers to
it. -/
structure DependentDef where
  definedName : String
  type : TypeNode
  hasCTypeDefInfo : Bool
  localRefCount : Int

section

variable (defs : Nat → DependentDef) (recursive : Nat → Bool)

/-- The definitions of the module that a definition refers to. -/
def localRefs (d : Nat) : List Nat := buildLocalRefList (defs d).type

/-- The definitions of the module that a definition refers to other than through pointers. -/
def weightedRefs (d : Nat) : List Nat := buildWeightedLocalRefList (defs d).type

/-- Whether a definition is a list for which C is generated. -/
def isCList (d : Nat) : Bool := (defs d).hasCTypeDefInfo && (defs d).type.isListType

/-- The definitions that depend on no others of the list, one after another, and those that are left. -/
def removeAndSortIndependents (refList : Nat → List Nat) (tdl : List Nat) : List Nat × List Nat :=
  takeRounds refList [] tdl

/-- The text printed where definitions that are not recursive were not sorted. -/
def failedSortText : String :=
  "SortTypeDefs: internal compiler error - non recursive type defs failed sort.\n"

/-- Sort definitions that depend on each other; also the texts printed. -/
def sortTypeDefs (tdl : List Nat) : List Nat × List String :=
  let (subList, left) := removeAndSortIndependents (localRefs defs) tdl
  let nonRec := left.filter fun d => !recursive d
  let (sortedNonRec, failed) := removeAndSortIndependents (localRefs defs) nonRec
  let cLists := (left.filter recursive).filter (isCList defs)
  let (sortedRec, impossible) := removeAndSortIndependents (weightedRefs defs)
    ((left.filter recursive).filter fun d => !isCList defs d)
  (subList ++ cLists ++ sortedRec ++ impossible ++ (sortedNonRec ++ failed),
    if failed.isEmpty then [] else [failedSortText])

/-- The definitions of a module in the order of their dependencies; also the texts printed. -/
def sortTypeDependencies (typeDefs : List Nat) : List Nat × List String :=
  let prims := typeDefs.filter fun d => isDefinedByLibraryType (defs d).type
  let others := typeDefs.filter fun d => !isDefinedByLibraryType (defs d).type
  let notRefd := others.filter fun d => (defs d).localRefCount = 0
  let refd := others.filter fun d => !((defs d).localRefCount = 0)
  let noRefs := refd.filter fun d => (localRefs defs d).isEmpty
  let refs := refd.filter fun d => !(localRefs defs d).isEmpty
  let (sorted, texts) := sortTypeDefs defs recursive refs
  (prims ++ noRefs ++ sorted ++ notRefd, texts)

end

/-! ## What the sorted lists hold -/

section

variable {defs : Nat → DependentDef} {recursive : Nat → Bool}

theorem removeAndSortIndependents_perm (refList : Nat → List Nat) (tdl : List Nat) :
    ((removeAndSortIndependents refList tdl).1 ++ (removeAndSortIndependents refList tdl).2).Perm
      tdl :=
  (takeRounds_nil_spec refList tdl).2.1

theorem filter_append_filter_not (p : Nat → Bool) (l : List Nat) :
    (l.filter p ++ l.filter fun d => !p d).Perm l := by
  simpa using List.filter_append_perm p l

theorem sortTypeDefs_perm (tdl : List Nat) : (sortTypeDefs defs recursive tdl).1.Perm tdl := by
  have first := removeAndSortIndependents_perm (localRefs defs) tdl
  rw [sortTypeDefs]
  generalize removeAndSortIndependents (localRefs defs) tdl = taken at first
  obtain ⟨subList, left⟩ := taken
  have nonRec := removeAndSortIndependents_perm (localRefs defs) (left.filter fun d => !recursive d)
  have sortedRec := removeAndSortIndependents_perm (weightedRefs defs)
    ((left.filter recursive).filter fun d => !isCList defs d)
  have rec' := filter_append_filter_not (isCList defs) (left.filter recursive)
  have all := filter_append_filter_not recursive left
  -- The definitions that are left are the lists, the other recursive ones and those that are not.
  rw [List.perm_iff_count] at *
  intro d
  have counts := nonRec d
  have counts' := sortedRec d
  have counts'' := rec' d
  have counts₃ := all d
  have counts₄ := first d
  simp only [List.count_append] at *
  omega

/-- No definition is lost or doubled where a module is sorted. -/
theorem sortTypeDependencies_perm (defs : Nat → DependentDef) (recursive : Nat → Bool)
    (typeDefs : List Nat) : (sortTypeDependencies defs recursive typeDefs).1.Perm typeDefs := by
  let others := typeDefs.filter fun d => !isDefinedByLibraryType (defs d).type
  let refd := others.filter fun d => !decide ((defs d).localRefCount = 0)
  have sorted := @sortTypeDefs_perm defs recursive
    (refd.filter fun d => !(localRefs defs d).isEmpty)
  have prims := filter_append_filter_not (fun d => isDefinedByLibraryType (defs d).type) typeDefs
  have notRefd := filter_append_filter_not (fun d => decide ((defs d).localRefCount = 0)) others
  have noRefs := filter_append_filter_not (fun d => (localRefs defs d).isEmpty) refd
  rw [sortTypeDependencies]
  rw [List.perm_iff_count] at *
  intro d
  have counts := sorted d
  have counts' := prims d
  have counts'' := notRefd d
  have counts₃ := noRefs d
  simp only [List.count_append, others, refd] at *
  omega

/-! ## The order of the definitions -/

/-- Where a definition may stand before one that it refers to: it is recursive, and it is a list of C,
or refers to the other one through pointers only, or leads by value to a cycle, or the other one is
not recursive and leads to a cycle. -/
def MayPrecede (defs : Nat → DependentDef) (recursive : Nat → Bool) (d e : Nat) : Prop :=
  recursive d = true ∧
    (isCList defs d = true ∨ e ∉ weightedRefs defs d ∨
      LeadsToCycle (RefersOnward (weightedRefs defs)) d ∨
      recursive e = false ∧ LeadsToCycle (RefersOnward (localRefs defs)) e)

/-- That a definition that stands before another one needs nothing of it. -/
def InPlace (defs : Nat → DependentDef) (recursive : Nat → Bool) (d e : Nat) : Prop :=
  RefersOnward (localRefs defs) d e → MayPrecede defs recursive d e

theorem removeAndSortIndependents_spec (refList : Nat → List Nat) (tdl : List Nat) :
    ∃ sorted left, removeAndSortIndependents refList tdl = (sorted, left) ∧
      IndependentFirst refList sorted left ∧ (sorted ++ left).Perm tdl ∧
      ∀ d ∈ left, ∃ e ∈ left, Relation.ReflTransGen (RefersOnward refList) d e ∧
        Relation.TransGen (RefersOnward refList) e e := by
  obtain ⟨first, perm, -⟩ := takeRounds_nil_spec refList tdl
  exact ⟨_, _, rfl, first, perm, fun d isLeft => takeRounds_cycle isLeft⟩

/-- Where every definition on a cycle is marked, no text is printed, and definitions stand in front of
those that they need only where they may. -/
theorem sortTypeDefs_spec {tdl : List Nat}
    (marked : ∀ d ∈ tdl, Relation.TransGen (RefersOnward (localRefs defs)) d d →
      recursive d = true) :
    (sortTypeDefs defs recursive tdl).2 = [] ∧
      (sortTypeDefs defs recursive tdl).1.Pairwise (InPlace defs recursive) := by
  obtain ⟨subList, left, ran, first, perm, cycles⟩ :=
    removeAndSortIndependents_spec (localRefs defs) tdl
  obtain ⟨sortedNonRec, failed, ran', plain, perm', cycles'⟩ :=
    removeAndSortIndependents_spec (localRefs defs) (left.filter fun d => !recursive d)
  obtain ⟨sortedRec, impossible, ran'', weighted, perm'', cycles''⟩ :=
    removeAndSortIndependents_spec (weightedRefs defs)
      ((left.filter recursive).filter fun d => !isCList defs d)
  rw [sortTypeDefs, ran]
  dsimp only
  rw [ran', ran'']
  dsimp only
  have isPlain : ∀ d ∈ sortedNonRec ++ failed, d ∈ left ∧ recursive d = false := by
    intro d isIn
    simpa using perm'.subset isIn
  have isRec : ∀ d ∈ sortedRec ++ impossible, d ∈ left ∧ recursive d = true := by
    intro d isIn
    have here := perm''.subset isIn
    rw [List.mem_filter, List.mem_filter] at here
    exact here.1
  -- A cycle of definitions that are not recursive would be marked.
  have sorted : failed = [] := by
    rw [List.eq_nil_iff_forall_not_mem]
    intro d isFailed
    obtain ⟨e, isFailed', -, cycle⟩ := cycles' d isFailed
    obtain ⟨isLeft, notRec⟩ := isPlain e (List.mem_append_right _ isFailed')
    have isRec := marked e (perm.subset (List.mem_append_right _ isLeft)) cycle
    rw [notRec] at isRec
    cases isRec
  subst sorted
  rw [List.append_nil] at isPlain ⊢
  have leads : ∀ d ∈ left, LeadsToCycle (RefersOnward (localRefs defs)) d := by
    intro d isLeft
    obtain ⟨e, -, reaches, cycle⟩ := cycles d isLeft
    exact ⟨e, reaches, cycle⟩
  have lists : ∀ d ∈ (left.filter recursive).filter (isCList defs), ∀ e, d ∈ left ∧
      InPlace defs recursive d e := by
    intro d isIn e
    rw [List.mem_filter, List.mem_filter] at isIn
    exact ⟨isIn.1.1, fun _ => ⟨isIn.1.2, .inl isIn.2⟩⟩
  have hard : ∀ d ∈ impossible, ∀ e, InPlace defs recursive d e := by
    intro d isIn e _
    obtain ⟨d', -, reaches, cycle⟩ := cycles'' d isIn
    exact ⟨(isRec d (List.mem_append_right _ isIn)).2, .inr (.inr (.inl ⟨d', reaches, cycle⟩))⟩
  have byValue : ∀ d ∈ sortedRec, ∀ e, ¬RefersOnward (weightedRefs defs) d e →
      InPlace defs recursive d e := by
    intro d isIn e free refers
    exact ⟨(isRec d (List.mem_append_left _ isIn)).2, .inr (.inl fun inside =>
      free ⟨inside, refers.2⟩)⟩
  have behind : ∀ d ∈ sortedRec, ∀ e ∈ sortedNonRec, InPlace defs recursive d e := by
    intro d isIn e isPlain' _
    obtain ⟨isLeft, notRec⟩ := isPlain e isPlain'
    exact ⟨(isRec d (List.mem_append_left _ isIn)).2, .inr (.inr (.inr ⟨notRec, leads e isLeft⟩))⟩
  have front : ∀ d ∈ subList, ∀ e ∈ left, InPlace defs recursive d e :=
    fun d isIn e isLeft refers => absurd refers (first.ended d isIn e isLeft)
  refine ⟨rfl, ?_⟩
  simp only [List.append_assoc, List.pairwise_append, List.mem_append]
  refine ⟨first.ordered.imp fun free refers => absurd refers free, ⟨?_, ⟨?_, ⟨?_,
    plain.ordered.imp fun free refers => absurd refers free, ?_⟩, ?_⟩, ?_⟩, ?_⟩
  · exact List.pairwise_of_forall_mem_list fun d isIn e _ => (lists d isIn e).2
  · exact weighted.ordered.imp_of_mem fun isIn _ free => byValue _ isIn _ free
  · exact List.pairwise_of_forall_mem_list fun d isIn e _ => hard d isIn e
  · exact fun d isIn e _ => hard d isIn e
  · rintro d isIn e (isHard | isPlain')
    · exact byValue d isIn e (weighted.ended d isIn e isHard)
    · exact behind d isIn e isPlain'
  · exact fun d isIn e _ => (lists d isIn e).2
  · rintro d isIn e (isList | isRec' | isHard | isPlain')
    · exact front d isIn e (lists e isList e).1
    · exact front d isIn e (isRec e (List.mem_append_left _ isRec')).1
    · exact front d isIn e (isRec e (List.mem_append_right _ isHard)).1
    · exact front d isIn e (isPlain e isPlain').1

theorem buildLocalRefList_of_library {t : TypeNode} (library : isDefinedByLibraryType t = true) :
    buildLocalRefList t = [] := by
  cases t with
  | other _ _ => rfl
  | _ => cases library

/-- Where every definition on a cycle is marked and every reference is counted, no text is printed,
and definitions stand in front of those that they need only where they may. -/
theorem sortTypeDependencies_spec {typeDefs : List Nat}
    (marked : ∀ d ∈ typeDefs, Relation.TransGen (RefersOnward (localRefs defs)) d d →
      recursive d = true)
    (counted : ∀ d ∈ typeDefs, ∀ e ∈ localRefs defs d, (defs e).localRefCount ≠ 0) :
    (sortTypeDependencies defs recursive typeDefs).2 = [] ∧
      (sortTypeDependencies defs recursive typeDefs).1.Pairwise (InPlace defs recursive) := by
  let others := typeDefs.filter fun d => !isDefinedByLibraryType (defs d).type
  let refd := others.filter fun d => !decide ((defs d).localRefCount = 0)
  let refs := refd.filter fun d => !(localRefs defs d).isEmpty
  have amongRefs : ∀ d ∈ refs, d ∈ typeDefs := fun d isIn =>
    List.mem_of_mem_filter (List.mem_of_mem_filter (List.mem_of_mem_filter isIn))
  obtain ⟨noText, sorted⟩ := sortTypeDefs_spec fun d isIn => marked d (amongRefs d isIn)
  have perm := @sortTypeDefs_perm defs recursive refs
  have free : ∀ d, localRefs defs d = [] → ∀ e, InPlace defs recursive d e := by
    intro d none e refers
    rw [RefersOnward, none] at refers
    cases refers.1
  have prims : ∀ d ∈ typeDefs.filter fun d => isDefinedByLibraryType (defs d).type, ∀ e,
      InPlace defs recursive d e := fun d isIn =>
    free d (buildLocalRefList_of_library (List.mem_filter.mp isIn).2)
  have noRefs : ∀ d ∈ refd.filter fun d => (localRefs defs d).isEmpty, ∀ e,
      InPlace defs recursive d e := fun d isIn =>
    free d (List.isEmpty_iff.mp (List.mem_filter.mp isIn).2)
  -- Nothing refers to the definitions that come last.
  have last : ∀ d ∈ typeDefs, ∀ e ∈ others.filter fun d => (defs d).localRefCount = 0,
      InPlace defs recursive d e := by
    intro d isIn e isLast refers
    exact absurd (of_decide_eq_true (List.mem_filter.mp isLast).2) (counted d isIn e refers.1)
  rw [sortTypeDependencies]
  refine ⟨noText, ?_⟩
  simp only [List.append_assoc, List.pairwise_append, List.mem_append]
  refine ⟨List.pairwise_of_forall_mem_list fun d isIn e _ => prims d isIn e,
    ⟨List.pairwise_of_forall_mem_list fun d isIn e _ => noRefs d isIn e, ⟨sorted,
      List.pairwise_of_forall_mem_list fun d isIn e isLast => last d ?_ e isLast,
      fun d isIn e isLast => last d (amongRefs d (perm.subset isIn)) e isLast⟩,
      fun d isIn e _ => noRefs d isIn e⟩, fun d isIn e _ => prims d isIn e⟩
  exact List.mem_of_mem_filter (List.mem_of_mem_filter isIn)

end

/-! ## After the recursive definitions are marked -/

mutual

/-- A type as the search for recursive definitions sees it. -/
def TypeNode.tree : TypeNode → TypeTree
  | .choice attrs elmts => .choice attrs (TypeNode.trees elmts)
  | .set attrs elmts => .set attrs (TypeNode.trees elmts)
  | .sequence attrs elmts => .sequence attrs (TypeNode.trees elmts)
  | .objectClass attrs _ => .other attrs .objectClass
  | .setOf attrs _ elmt => .setOf attrs elmt.tree
  | .sequenceOf attrs _ elmt => .sequenceOf attrs elmt.tree
  | .localTypeRef attrs _ _ link => .localTypeRef attrs link
  | .importTypeRef attrs link => .importTypeRef attrs link
  | .other attrs choiceId => .other attrs choiceId

/-- The types of a list as the search for recursive definitions sees them. -/
def TypeNode.trees : List TypeNode → List TypeTree
  | [] => []
  | e :: elmts => e.tree :: TypeNode.trees elmts

end

mutual

/-- Whether a type has no object class in it, which the search does not enter. -/
def TypeNode.classFree : TypeNode → Bool
  | .choice _ elmts | .set _ elmts | .sequence _ elmts => TypeNode.allClassFree elmts
  | .objectClass _ _ => false
  | .setOf _ _ elmt | .sequenceOf _ _ elmt => elmt.classFree
  | .localTypeRef _ _ _ _ | .importTypeRef _ _ | .other _ _ => true

/-- Whether the types of a list have no object class in them. -/
def TypeNode.allClassFree : List TypeNode → Bool
  | [] => true
  | e :: elmts => e.classFree && TypeNode.allClassFree elmts

end

mutual

/-- The search follows every reference of a type that counts for the order. -/
theorem references_of_localRef (t : TypeNode) (free : t.classFree = true) {link : Nat}
    (isRef : link ∈ buildLocalRefList t) (optional empty extended : Bool) :
    ∃ label, (link, label) ∈ references t.tree optional empty extended := by
  cases t with
  | choice _ elmts =>
    rw [TypeNode.tree, references]
    split
    · exact (references_of_localRefs elmts free isRef).1 true false extended
    · exact (references_of_localRefs elmts free isRef).1 optional empty extended
  | set _ elmts => exact (references_of_localRefs elmts free isRef).2 optional extended
  | sequence _ elmts => exact (references_of_localRefs elmts free isRef).2 optional extended
  | objectClass _ _ => cases free
  | setOf _ _ elmt => exact references_of_localRef elmt free isRef true false extended
  | sequenceOf _ _ elmt => exact references_of_localRef elmt free isRef true false extended
  | localTypeRef _ _ _ link' =>
    obtain rfl := List.mem_singleton.mp isRef
    exact ⟨_, List.mem_singleton_self _⟩
  | importTypeRef _ _ => cases isRef
  | other _ _ => cases isRef

/-- The search follows every reference of the types of a list that counts for the order. -/
theorem references_of_localRefs (elmts : List TypeNode) (free : TypeNode.allClassFree elmts = true)
    {link : Nat} (isRef : link ∈ buildLocalRefLists elmts) :
    (∀ optional empty extended, ∃ label,
        (link, label) ∈ alternativeReferences (TypeNode.trees elmts) optional empty extended) ∧
      ∀ optional extended, ∃ label,
        (link, label) ∈ componentReferences (TypeNode.trees elmts) optional extended := by
  cases elmts with
  | nil => cases isRef
  | cons e elmts =>
    rw [TypeNode.allClassFree, Bool.and_eq_true] at free
    rw [buildLocalRefLists, List.mem_append] at isRef
    rw [TypeNode.trees]
    simp only [alternativeReferences, componentReferences, List.mem_append]
    rcases isRef with here | later
    · constructor
      · intro optional empty extended
        obtain ⟨label, isIn⟩ := references_of_localRef e free.1 here optional empty extended
        exact ⟨label, .inl isIn⟩
      · intro optional extended
        obtain ⟨label, isIn⟩ := references_of_localRef e free.1 here _ _ _
        exact ⟨label, .inl isIn⟩
    · obtain ⟨alternatives, components⟩ := references_of_localRefs elmts free.2 later
      constructor
      · intro optional empty extended
        obtain ⟨label, isIn⟩ := alternatives optional empty extended
        exact ⟨label, .inr isIn⟩
      · intro optional extended
        obtain ⟨label, isIn⟩ := components optional extended
        exact ⟨label, .inr isIn⟩

end

/-- The definitions as the search for recursive ones sees them. -/
def linkedDefs (defs : Nat → DependentDef) (d : Nat) : LinkedDef :=
  ⟨(defs d).definedName, (defs d).type.tree⟩

/-- In a finite graph of definitions without object classes, whose references are counted, the
recursive definitions of a module are marked, and then the module is sorted: no definition is lost and
no text printed, and each stands behind all that it refers to but where it may precede them. -/
theorem sortTypeDependencies_of_marked {defs : Nat → DependentDef} {nodes : Finset Nat}
    (closed : ∀ d ∈ nodes, ∀ ref ∈ referencesOf (linkedDefs defs) d, ref.1 ∈ nodes)
    (classFree : ∀ d ∈ nodes, (defs d).type.classFree = true) {typeDefs : List Nat}
    (inside : ∀ d ∈ typeDefs, d ∈ nodes)
    (counted : ∀ d ∈ typeDefs, ∀ e ∈ localRefs defs d, (defs e).localRefCount ≠ 0)
    {s : RecState} (unmarked : ∀ d ∈ nodes, d ∉ typeDefs → s.tmpRefCount d = 0)
    (asn1SrcFileName : String) {fuel : Nat} (enough : nodes.card < fuel) :
    ∃ s', (markRecursiveTypes (linkedDefs defs) asn1SrcFileName fuel typeDefs).run s =
        some ((), s') ∧
      (∀ d, s'.recursive d = true ↔ s.recursive d = true ∨
        d ∈ typeDefs ∧ Relation.TransGen (RefersTo (linkedDefs defs)) d d) ∧
      (sortTypeDependencies defs s'.recursive typeDefs).1.Perm typeDefs ∧
      (sortTypeDependencies defs s'.recursive typeDefs).2 = [] ∧
      (sortTypeDependencies defs s'.recursive typeDefs).1.Pairwise
        (InPlace defs s'.recursive) := by
  obtain ⟨s', ran, marks, -⟩ := markRecursiveTypes_run closed enough inside unmarked
  have exact : ∀ d, s'.recursive d = true ↔ s.recursive d = true ∨
      d ∈ typeDefs ∧ Relation.TransGen (RefersTo (linkedDefs defs)) d d := by
    intro d
    rw [marks d]
    exact or_congr_right (and_congr_right fun isIn => cycles_ne_nil_iff closed (inside d isIn))
  -- The references that count for the order are some of those that the search follows.
  have follows : ∀ d ∈ nodes, ∀ e, RefersOnward (localRefs defs) d e →
      RefersTo (linkedDefs defs) d e ∧ e ∈ nodes := by
    intro d isNode e refers
    obtain ⟨label, isRef⟩ :=
      references_of_localRef _ (classFree d isNode) refers.1 false true false
    exact ⟨⟨label, isRef⟩, closed d isNode _ isRef⟩
  have onward : ∀ d e, d ∈ nodes → Relation.TransGen (RefersOnward (localRefs defs)) d e →
      Relation.TransGen (RefersTo (linkedDefs defs)) d e ∧ e ∈ nodes := by
    intro d e isNode path
    induction path with
    | single edge => exact ⟨.single (follows d isNode _ edge).1, (follows d isNode _ edge).2⟩
    | tail _ edge ih =>
      exact ⟨ih.1.tail (follows _ ih.2 _ edge).1, (follows _ ih.2 _ edge).2⟩
  have marked : ∀ d ∈ typeDefs, Relation.TransGen (RefersOnward (localRefs defs)) d d →
      s'.recursive d = true := by
    intro d isIn cycle
    exact (exact d).mpr (.inr ⟨isIn, (onward d d (inside d isIn) cycle).1⟩)
  obtain ⟨noText, ordered⟩ := sortTypeDependencies_spec marked counted
  exact ⟨s', ran, exact, sortTypeDependencies_perm defs s'.recursive typeDefs, noText, ordered⟩

/-- A component of a type of the module. -/
def component (isPtr optional : Bool) (link : Nat) : TypeNode :=
  .localTypeRef { optional } (some ⟨isPtr⟩) none link

/-- `A ::= SEQUENCE { b B, a A OPTIONAL }`, `B ::= SEQUENCE { r R }`,
`R ::= SEQUENCE { s S OPTIONAL }` and `S ::= SEQUENCE { r R OPTIONAL }`. -/
def behindItsNeed : Nat → DependentDef
  | 0 => ⟨"A", .sequence {} [component false false 1, component true true 0], true, 1⟩
  | 1 => ⟨"B", .sequence {} [component false false 2], true, 1⟩
  | 2 => ⟨"R", .sequence {} [component true true 3], true, 2⟩
  | _ => ⟨"S", .sequence {} [component true true 2], true, 1⟩

theorem sortTypeDependencies_behindItsNeed :
    ∃ s', (markRecursiveTypes (linkedDefs behindItsNeed) "a.asn1" 5 [0, 1, 2, 3]).run unvisited =
        some ((), s') ∧
      (∀ d, s'.recursive d = true ↔ false = true ∨
        d ∈ [0, 1, 2, 3] ∧ Relation.TransGen (RefersTo (linkedDefs behindItsNeed)) d d) ∧
      (sortTypeDependencies behindItsNeed s'.recursive [0, 1, 2, 3]).1.Perm [0, 1, 2, 3] ∧
      (sortTypeDependencies behindItsNeed s'.recursive [0, 1, 2, 3]).2 = [] ∧
      (sortTypeDependencies behindItsNeed s'.recursive [0, 1, 2, 3]).1.Pairwise
        (InPlace behindItsNeed s'.recursive) :=
  @sortTypeDependencies_of_marked behindItsNeed {0, 1, 2, 3} (by decide) (by decide) [0, 1, 2, 3]
    (by decide) (by decide) unvisited (fun _ _ _ => rfl) "a.asn1" 5 (by decide)

end Esnacc.Compiler
