import Esnacc.Compiler.ImportLists

/-! What references are linked to, once the import lists of all modules are linked. -/

namespace Esnacc.Compiler

/-- The definition of a name in the module that an identifier means. -/
def definitionIn (kind : RefKind) (mods : List Module) (id : ModuleId) (x : String) :
    Option Definition :=
  (lookupModule mods id).bind fun m => lookupDefinition (kind.defs m) x

/-- A module as it is when references of a kind are linked: types are linked before values. -/
def linkedModule : RefKind → List Module → Module → Module
  | .type, mods, currMod => typeLinkImportLists mods currMod
  | .value, mods, currMod => valueLinkImportLists mods (typeLinkImportLists mods currMod)

/-- Whether an error is noted for a module once a reference was linked with a result. -/
def errorNoted (currMod : Module) (result : Except LinkError LinkTarget) : Bool :=
  currMod.modError ||
    match result with
    | .ok _ => false
    | .error e => e.setsStatus

/-! ## Linked lists -/

/-- What linking makes of a name in an import list. -/
def relinked (kind : RefKind) (mods : List Module) (id : ModuleId) (e : ImportElmt) : ImportElmt :=
  if kind.spells e.name = false then e
  else
    match definitionIn kind mods id e.name with
    | none => e
    | some d => { e with resolvedRef := some (kind.choice d) }

@[simp] theorem relinked_name (kind : RefKind) (mods : List Module) (id : ModuleId)
    (e : ImportElmt) : (relinked kind mods id e).name = e.name := by
  unfold relinked
  split
  · rfl
  · split <;> rfl

@[simp] theorem relinked_privateScope (kind : RefKind) (mods : List Module) (id : ModuleId)
    (e : ImportElmt) : (relinked kind mods id e).privateScope = e.privateScope := by
  unfold relinked
  split
  · rfl
  · split <;> rfl

/-- Linking an import list relinks each of its names. -/
theorem linkImportModule_fst (kind : RefKind) (mods : List Module) (L : ImportModule) :
    (linkImportModule kind mods L).1 =
      { L with importElmts := L.importElmts.map (relinked kind mods L.modId) } := by
  unfold linkImportModule
  cases found : lookupModule mods L.modId with
  | none =>
    -- Nothing is defined in a module that is missing.
    have asBefore : relinked kind mods L.modId = id := by
      funext e
      unfold relinked definitionIn
      rw [found]
      split <;> rfl
    simp [asBefore]
  | some impRefMod =>
    have each (e : ImportElmt) :
        (linkImportElmt kind impRefMod e).1 = relinked kind mods L.modId e := by
      unfold linkImportElmt relinked definitionIn
      rw [found]
      split
      · rfl
      · simp only [Option.bind_some]
        cases lookupDefinition (kind.defs impRefMod) e.name <;> rfl
    simp [each]

/-- A name of the right kind that is not defined where it is imported from is an error of its import
list, but for values of a module that is missing. -/
theorem linkImportModule_snd {kind : RefKind} {mods : List Module} {L : ImportModule}
    {e : ImportElmt} (isIn : e ∈ L.importElmts) (spelt : kind.spells e.name = true)
    (undefined : definitionIn kind mods L.modId e.name = none) :
    (linkImportModule kind mods L).2 = true ∨
      kind = .value ∧ lookupModule mods L.modId = none := by
  unfold linkImportModule
  cases found : lookupModule mods L.modId with
  | none =>
    cases kind with
    | type => exact .inl rfl
    | value => exact .inr ⟨rfl, rfl⟩
  | some impRefMod =>
    left
    have notThere : lookupDefinition (kind.defs impRefMod) e.name = none := by
      rwa [definitionIn, found, Option.bind_some] at undefined
    have error : (linkImportElmt kind impRefMod e).2 = true := by
      simp [linkImportElmt, spelt, notThere]
    simp only [List.any_eq_true, List.mem_map]
    exact ⟨_, ⟨e, isIn, rfl⟩, error⟩

theorem lookupImportElmt_relinked (kind : RefKind) (mods : List Module) (id : ModuleId)
    (elmts : List ImportElmt) (x : String) :
    lookupImportElmtInImportElmtList (elmts.map (relinked kind mods id)) x =
      (lookupImportElmtInImportElmtList elmts x).map (relinked kind mods id) := by
  rw [lookupImportElmtInImportElmtList, List.find?_map]
  congr 2
  funext e
  simp

/-- An import list that was linked. -/
def relist (kind : RefKind) (mods : List Module) (L : ImportModule) : ImportModule :=
  { L with importElmts := L.importElmts.map (relinked kind mods L.modId) }

/-- The import lists of a module that was linked. -/
def relinkedLists (kind : RefKind) (mods : List Module) (imports : List ImportModule) :
    List ImportModule :=
  imports.map (relist kind mods)

theorem linkImportLists_imports (kind : RefKind) (mods : List Module) (currMod : Module) :
    (linkImportLists kind mods currMod).imports = relinkedLists kind mods currMod.imports := by
  simp [linkImportLists, relinkedLists, relist, linkImportModule_fst]

theorem lookupImportModule_relinked (kind : RefKind) (mods : List Module)
    (imports : List ImportModule) (name : String) :
    lookupImportModule (relinkedLists kind mods imports) name =
      (lookupImportModule imports name).map (relist kind mods) := by
  rw [lookupImportModule, relinkedLists, List.find?_map]
  rfl

/-- The first element with a name, linked. -/
theorem lookupImportElmtInModule_relinked (kind : RefKind) (mods : List Module)
    (imports : List ImportModule) (x : String) :
    lookupImportElmtInModule (relinkedLists kind mods imports) x =
      (lookupImportElmtInModule imports x).map fun place =>
        (relist kind mods place.1, relinked kind mods place.1.modId place.2) := by
  -- Along the lists, to the first one with the name.
  induction imports with
  | nil => rfl
  | cons L imports ih =>
    unfold relinkedLists lookupImportElmtInModule at ih ⊢
    rw [List.map_cons, List.findSome?_cons, List.findSome?_cons, relist, lookupImportElmt_relinked]
    cases lookupImportElmtInImportElmtList L.importElmts x with
    | some e => rfl
    | none => exact ih

/-! ## Names that are not linked yet -/

/-- None of the names in some lists is linked yet. -/
def Unlinked (imports : List ImportModule) : Prop :=
  ∀ L ∈ imports, ∀ e ∈ L.importElmts, e.resolvedRef = none

theorem unlinked_appendImportElmt {imports : List ImportModule} (unlinked : Unlinked imports)
    (name y : String) : Unlinked (appendImportElmt name { name := y } imports) := by
  -- Along the lists, to the one that the element is appended to.
  induction imports with
  | nil => exact unlinked
  | cons L imports ih =>
    have here := unlinked L (List.mem_cons_self ..)
    have later : Unlinked imports := fun M isIn => unlinked M (List.mem_cons_of_mem _ isIn)
    rw [appendImportElmt]
    split
    · intro M isIn
      rcases List.mem_cons.1 isIn with rfl | isLater
      · intro e inList
        rcases List.mem_append.1 inList with old | new
        · exact here e old
        · rw [List.mem_singleton.1 new]
      · exact later M isLater
    · intro M isIn
      rcases List.mem_cons.1 isIn with rfl | isLater
      · exact here
      · exact ih later M isLater

theorem unlinked_addPrivateImportElmt {imports : List ImportModule} (unlinked : Unlinked imports)
    (x name : String) : Unlinked (addPrivateImportElmt imports x name) := by
  unfold addPrivateImportElmt
  split
  · intro L isIn e inList
    rcases List.mem_append.1 isIn with old | new
    · exact unlinked L old e inList
    · rw [List.mem_singleton.1 new] at inList
      rw [List.mem_singleton.1 inList]
  · split
    · exact unlinked_appendImportElmt unlinked name x
    · exact unlinked

/-- The import lists of a module that was just parsed. -/
theorem unlinked_parse (text : ModuleText) : Unlinked text.parse.imports := by
  -- The lists of IMPORTS clauses first, then the references one after the other.
  have clauses : Unlinked (text.clauses.map (·.importModule)) := by
    intro L isIn e inList
    obtain ⟨c, -, rfl⟩ := List.mem_map.1 isIn
    obtain ⟨x, -, rfl⟩ := List.mem_map.1 inList
    rfl
  have general (qualified : List (String × String)) (imports : List ImportModule)
      (unlinked : Unlinked imports) : Unlinked (addQualified imports qualified) := by
    induction qualified generalizing imports with
    | nil => exact unlinked
    | cons q qualified ih => exact ih _ (unlinked_addPrivateImportElmt unlinked q.2 q.1)
  exact general text.qualified _ clauses

/-! ## Linking references to imported names -/

/-- Names of values are not spelt as names of types. -/
theorem spells_type_of_value {x : String} (spelt : RefKind.value.spells x = true) :
    RefKind.type.spells x = false := by
  change x.toList.head?.any Char.isLower = true at spelt
  change x.toList.head?.any Char.isUpper = false
  cases first : x.toList.head? with
  | none => rfl
  | some c =>
    rw [first, Option.any_some] at spelt
    rw [Option.any_some]
    change (decide (c.val ≥ 'a'.val) && decide (c.val ≤ 'z'.val)) = true at spelt
    change decide (c.val ≥ 'A'.val ∧ c.val ≤ 'Z'.val) = false
    simp only [Bool.and_eq_true, decide_eq_true_eq, ge_iff_le,
      UInt32.le_iff_toNat_le, decide_eq_false_iff_not] at spelt ⊢
    have low : 'a'.val.toNat = 97 := rfl
    have high : 'Z'.val.toNat = 90 := rfl
    omega

/-- What a reference to an imported name is linked to, where the name has a definition or not. -/
def linkOf : Option Definition → Except LinkError LinkTarget
  | some d => .ok (.definition d)
  | none => .error .unresolvedImport

section

variable (kind : RefKind) (mods : List Module)

/-- A name of a kind as it is when references of that kind are linked. -/
def linkedElmt (id : ModuleId) (e : ImportElmt) : ImportElmt :=
  match kind with
  | .type => relinked .type mods id e
  | .value => relinked .value mods id (relinked .type mods id e)

/-- The import lists as they are when references of a kind are linked. -/
def linkedLists (imports : List ImportModule) : List ImportModule :=
  match kind with
  | .type => relinkedLists .type mods imports
  | .value => relinkedLists .value mods (relinkedLists .type mods imports)

theorem linkedModule_imports (currMod : Module) :
    (linkedModule kind mods currMod).imports = linkedLists kind mods currMod.imports := by
  cases kind with
  | type => exact linkImportLists_imports .type mods currMod
  | value =>
    have types := linkImportLists_imports .type mods currMod
    have values := linkImportLists_imports .value mods (typeLinkImportLists mods currMod)
    unfold linkedLists
    rw [← types]
    exact values

/-- A name that was not linked is linked to its definition in the module that it is imported from. -/
theorem linkToImport_linkedElmt {e : ImportElmt} (unlinked : e.resolvedRef = none)
    (spelt : kind.spells e.name = true) (id : ModuleId) :
    linkToImport (linkedElmt kind mods id e) = linkOf (definitionIn kind mods id e.name) := by
  -- A name of a value is passed over when types are linked.
  have once : linkedElmt kind mods id e = relinked kind mods id e := by
    cases kind with
    | type => rfl
    | value =>
      have passed : relinked .type mods id e = e := by
        rw [relinked, if_pos (spells_type_of_value spelt)]
      rw [linkedElmt, passed]
  have notMissed : ¬ kind.spells e.name = false := by simp [spelt]
  rw [once, relinked, if_neg notMissed]
  cases definitionIn kind mods id e.name with
  | none => simp [linkToImport, linkOf, unlinked]
  | some d => cases kind <;> rfl

/-- The first element with a name, linked. -/
theorem lookupImportElmtInModule_linked (imports : List ImportModule) (x : String) :
    (lookupImportElmtInModule (linkedLists kind mods imports) x).map Prod.snd =
      (lookupImportElmtInModule imports x).map fun place =>
        linkedElmt kind mods place.1.modId place.2 := by
  cases kind with
  | type =>
    unfold linkedLists
    rw [lookupImportElmtInModule_relinked, Option.map_map]
    rfl
  | value =>
    unfold linkedLists
    rw [lookupImportElmtInModule_relinked, lookupImportElmtInModule_relinked, Option.map_map,
      Option.map_map]
    rfl

/-- The name in the first list from a module, linked. -/
theorem lookupImportElmt_linked (imports : List ImportModule) (name x : String) :
    (lookupImportModule (linkedLists kind mods imports) name).map
        (fun L => lookupImportElmtInImportElmtList L.importElmts x) =
      (lookupImportModule imports name).map fun L =>
        (lookupImportElmtInImportElmtList L.importElmts x).map (linkedElmt kind mods L.modId) := by
  cases kind with
  | type =>
    unfold linkedLists
    rw [lookupImportModule_relinked, Option.map_map]
    congr 1
    funext L
    exact lookupImportElmt_relinked .type mods L.modId L.importElmts x
  | value =>
    unfold linkedLists
    rw [lookupImportModule_relinked, lookupImportModule_relinked, Option.map_map, Option.map_map]
    congr 1
    funext L
    change lookupImportElmtInImportElmtList ((L.importElmts.map _).map _) x = _
    rw [lookupImportElmt_relinked, lookupImportElmt_relinked, Option.map_map]
    rfl

/-- An imported name of the kind without a definition is an error that is noted for its module. -/
theorem modError_of_undefined {currMod : Module} {L : ImportModule} {e : ImportElmt}
    (inModule : L ∈ currMod.imports) (isIn : e ∈ L.importElmts)
    (spelt : kind.spells e.name = true) (undefined : definitionIn kind mods L.modId e.name = none) :
    (linkedModule kind mods currMod).modError = true := by
  -- The list is in error when it is linked, as a list of types where the module is missing.
  have listed (kind : RefKind) (currMod : Module) (L : ImportModule)
      (inModule : L ∈ currMod.imports) (error : (linkImportModule kind mods L).2 = true) :
      (linkImportLists kind mods currMod).modError = true := by
    simp only [linkImportLists, Bool.or_eq_true, List.any_eq_true, List.mem_map]
    exact .inr ⟨_, ⟨L, inModule, rfl⟩, error⟩
  cases kind with
  | type =>
    rcases linkImportModule_snd isIn spelt undefined with error | ⟨isValue, -⟩
    · exact listed .type currMod L inModule error
    · cases isValue
  | value =>
    have keeps (m : Module) (error : m.modError = true) :
        (valueLinkImportLists mods m).modError = true := by
      simp [valueLinkImportLists, linkImportLists, error]
    have typeLists := linkImportLists_imports .type mods currMod
    -- The same list with its types linked.
    have isInLinked : relinked .type mods L.modId e ∈
        L.importElmts.map (relinked .type mods L.modId) := List.mem_map_of_mem isIn
    have speltLinked : RefKind.value.spells (relinked .type mods L.modId e).name = true := by
      rw [relinked_name]
      exact spelt
    have undefinedLinked :
        definitionIn .value mods L.modId (relinked .type mods L.modId e).name = none := by
      rw [relinked_name]
      exact undefined
    have inLinked : relist .type mods L ∈ (typeLinkImportLists mods currMod).imports := by
      rw [typeLinkImportLists, typeLists]
      exact List.mem_map_of_mem inModule
    rcases @linkImportModule_snd .value mods (relist .type mods L) _ isInLinked speltLinked
      undefinedLinked with error | ⟨-, missing⟩
    · exact listed .value (typeLinkImportLists mods currMod) _ inLinked error
    · apply keeps
      apply listed .type currMod L inModule
      change lookupModule mods L.modId = none at missing
      unfold linkImportModule
      rw [missing]

end

/-- What a lookup finds in some lists is one of their elements. -/
theorem mem_of_lookupImportElmtInModule {imports : List ImportModule} {x : String}
    {L : ImportModule} {e : ImportElmt}
    (found : lookupImportElmtInModule imports x = some (L, e)) :
    L ∈ imports ∧ e ∈ L.importElmts ∧ e.name = x := by
  obtain ⟨M, isIn, here⟩ := List.exists_of_findSome?_eq_some found
  cases first : lookupImportElmtInImportElmtList M.importElmts x with
  | none => simp [first] at here
  | some elmt =>
    rw [first, Option.map_some, Option.some.injEq, Prod.mk.injEq] at here
    obtain ⟨rfl, rfl⟩ := here
    have named := List.find?_some first
    exact ⟨isIn, List.mem_of_find?_eq_some first, by simpa using named⟩

/-- What an unqualified reference is linked to through the import lists. -/
theorem linkUnqualified_eq {kind : RefKind} {x : String} (spelt : kind.spells x = true)
    (mods : List Module) (text : ModuleText) :
    linkUnqualified (linkedModule kind mods text.parse) x =
      match shown text.parse.imports x with
      | some (id, false) => linkOf (definitionIn kind mods id x)
      | _ => .error .notDefinedOrImported := by
  have linked := lookupImportElmtInModule_linked kind mods text.parse.imports x
  unfold linkUnqualified shown
  rw [linkedModule_imports]
  cases found : lookupImportElmtInModule text.parse.imports x with
  | none =>
    rw [found, Option.map_none, Option.map_eq_none_iff] at linked
    rw [linked]
    rfl
  | some place =>
    obtain ⟨L, e⟩ := place
    obtain ⟨inModule, isIn, named⟩ := mem_of_lookupImportElmtInModule found
    have unlinked := unlinked_parse text L inModule e isIn
    have link := linkToImport_linkedElmt kind mods unlinked (named ▸ spelt) L.modId
    have scope : (linkedElmt kind mods L.modId e).privateScope = e.privateScope := by
      cases kind <;> simp [linkedElmt]
    rw [found, Option.map_some, Option.map_eq_some_iff] at linked
    obtain ⟨⟨M, final⟩, foundLinked, isLinked⟩ := linked
    change final = linkedElmt kind mods L.modId e at isLinked
    rw [foundLinked, isLinked]
    simp only [Option.map_some, scope, link, named]
    cases e.privateScope <;> rfl

/-- Every error of a reference through the import lists is noted for the module. -/
theorem errorNoted_linkUnqualified {kind : RefKind} {x : String} (spelt : kind.spells x = true)
    (mods : List Module) (text : ModuleText) {e : LinkError}
    (failed : linkUnqualified (linkedModule kind mods text.parse) x = .error e) :
    errorNoted (linkedModule kind mods text.parse) (.error e) = true := by
  rw [linkUnqualified_eq spelt] at failed
  unfold shown at failed
  cases found : lookupImportElmtInModule text.parse.imports x with
  | none =>
    rw [found] at failed
    cases failed
    simp [errorNoted, LinkError.setsStatus]
  | some place =>
    obtain ⟨L, elmt⟩ := place
    obtain ⟨inModule, isIn, named⟩ := mem_of_lookupImportElmtInModule found
    rw [found, Option.map_some] at failed
    cases scope : elmt.privateScope with
    | true =>
      simp only [scope] at failed
      cases failed
      simp [errorNoted, LinkError.setsStatus]
    | false =>
      -- The name has no definition, which was noted when its list was linked.
      simp only [scope] at failed
      cases defined : definitionIn kind mods L.modId x with
      | some d =>
        rw [defined] at failed
        cases failed
      | none =>
        have noted := modError_of_undefined kind mods inModule isIn (named ▸ spelt)
          (named ▸ defined)
        simp [errorNoted, noted]

/-- What a qualified reference that is registered is linked to. -/
theorem linkQualified_eq {kind : RefKind} {x : String} (spelt : kind.spells x = true)
    (mods : List Module) (text : ModuleText) {name : String} {L : ImportModule} {e : ImportElmt}
    (first : lookupImportModule text.parse.imports name = some L)
    (found : lookupImportElmtInImportElmtList L.importElmts x = some e) :
    linkQualified (linkedModule kind mods text.parse) name x =
      linkOf (definitionIn kind mods L.modId x) := by
  have linked := lookupImportElmt_linked kind mods text.parse.imports name x
  have isIn := List.mem_of_find?_eq_some found
  have inModule := List.mem_of_find?_eq_some first
  have named : e.name = x := by simpa using List.find?_some found
  have unlinked := unlinked_parse text L inModule e isIn
  have link := linkToImport_linkedElmt kind mods unlinked (named ▸ spelt) L.modId
  rw [first, Option.map_some, found, Option.map_some, Option.map_eq_some_iff] at linked
  obtain ⟨M, firstLinked, foundLinked⟩ := linked
  unfold linkQualified
  rw [linkedModule_imports, firstLinked]
  simp only [foundLinked, link, named]

theorem errorNoted_linkQualified {kind : RefKind} {x : String} (spelt : kind.spells x = true)
    (mods : List Module) (text : ModuleText) {name : String} {L : ImportModule} {e : ImportElmt}
    (first : lookupImportModule text.parse.imports name = some L)
    (found : lookupImportElmtInImportElmtList L.importElmts x = some e)
    (undefined : definitionIn kind mods L.modId x = none) (error : LinkError) :
    errorNoted (linkedModule kind mods text.parse) (.error error) = true := by
  have named : e.name = x := by simpa using List.find?_some found
  have noted := modError_of_undefined kind mods (List.mem_of_find?_eq_some first)
    (List.mem_of_find?_eq_some found) (named ▸ spelt) (named ▸ undefined)
  simp [errorNoted, noted]

end Esnacc.Compiler
