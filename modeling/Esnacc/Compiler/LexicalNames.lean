import Esnacc.Compiler.LinkedImports
import Mathlib.Data.List.Nodup

/-! Which references are resolved lexically, in modules with qualified references. -/

namespace Esnacc.Compiler

/-! ## What names mean -/

/-- The definition that IMPORTS clauses give a name. -/
def importedDefinition (kind : RefKind) (mods : List Module) (clauses : List SymbolsFromModule)
    (x : String) : Option Definition :=
  (clauses.find? fun c => x ∈ c.symbolList).bind fun c => definitionIn kind mods c.modId x

/-- A reference is linked to the definition that it means, or an error is reported for the module
where it means none. -/
def LinksTo (currMod : Module) (result : Except LinkError LinkTarget) :
    Option Definition → Prop
  | some d => result = .ok (.definition d)
  | none => ∃ e, result = .error e ∧ errorNoted currMod result = true

/-- What a reference is linked to, if anything. -/
def linkedTo : Except LinkError LinkTarget → Option LinkTarget
  | .ok target => some target
  | .error _ => none

/-- The modules that the parser makes of some texts. -/
def parseAll (texts : List ModuleText) : List Module :=
  texts.map ModuleText.parse

/-- What a reference to a type is linked to in a module of some texts. -/
def typeResult (texts : List ModuleText) (text : ModuleText)
    (head : Option (List (String × Bool))) (moduleName : Option String) (x : String) :
    Except LinkError LinkTarget :=
  typeLinkTypeRef (linkedModule .type (parseAll texts) text.parse) head moduleName x

/-- What a reference to a value is linked to in a module of some texts. -/
def valueResult (texts : List ModuleText) (text : ModuleText) (namedElmts : List Definition)
    (moduleName : Option String) (x : String) : Except LinkError LinkTarget :=
  valueLinkValueRef (linkedModule .value (parseAll texts) text.parse) namedElmts moduleName x

/-- The definition that an unqualified name means: one of those in scope before all imported ones. -/
def lexicalDefinition (kind : RefKind) (texts : List ModuleText) (text : ModuleText)
    (inScope : Option Definition) (x : String) : Option Definition :=
  inScope.or (importedDefinition kind (parseAll texts) text.clauses x)

/-- The module that a qualified reference names, as an IMPORTS clause identifies it. -/
def namedModule (text : ModuleText) (name : String) : ModuleId :=
  match text.clauses.find? fun c => c.modId.name = name with
  | some c => c.modId
  | none => { name }

/-! ## When qualified references disturb a name -/

/-- The first IMPORTS clause that lists a name, or whose module the name is qualified with; the
latter counts for the first clause of a module. -/
@[grind =] def firstSight (qualified : List (String × String)) (x : String) :
    List String → List SymbolsFromModule → Option (SymbolsFromModule × Bool)
  | _, [] => none
  | earlier, c :: clauses =>
    if x ∈ c.symbolList then some (c, true)
    else if c.modId.name ∉ earlier ∧ (c.modId.name, x) ∈ qualified then some (c, false)
    else firstSight qualified x (c.modId.name :: earlier) clauses

/-- Qualified references leave a name to the IMPORTS clauses: where a clause is met first whose
module the name is only qualified with, that module defines it as imported; and where no clause
shows the name, it is the first one to be qualified with the first module without a clause that it
is qualified with, or that module does not define it. -/
def Undisturbed (kind : RefKind) (texts : List ModuleText) (text : ModuleText) (x : String) :
    Prop :=
  match firstSight text.qualified x [] text.clauses with
  | some (_, true) => True
  | some (c, false) =>
    definitionIn kind (parseAll texts) c.modId x =
      importedDefinition kind (parseAll texts) text.clauses x
  | none =>
    ∀ q ∈ text.qualified.find? fun q =>
        q.1 ∉ text.clauses.map (·.modId.name) ∧ (q.1, x) ∈ text.qualified,
      q.2 = x ∨ definitionIn kind (parseAll texts) { name := q.1 } x = none

/-! ## Unqualified references to imported names -/

/-- The lists of IMPORTS clauses show a name where its first sight is. -/
theorem shownIn_clauses (qualified : List (String × String)) (x : String) (earlier : List String)
    (clauses : List SymbolsFromModule) :
    shownIn qualified x earlier (clauses.map (·.importModule)) =
      (firstSight qualified x earlier clauses).map fun sight => (sight.1.modId, false) := by
  -- Along the clauses.
  induction clauses generalizing earlier with
  | nil => rfl
  | cons c clauses ih =>
    rw [List.map_cons, shownIn, SymbolsFromModule.importModule, lookupImportElmt_symbols]
    unfold firstSight
    by_cases listed : x ∈ c.symbolList
    · simp only [if_pos listed, Option.map_some]
    · simp only [if_neg listed]
      split
      · rfl
      · exact ih (c.modId.name :: earlier)

/-- Where the first sight of a name is a clause that lists it, the clause is the one that imports
it. -/
theorem find_of_firstSight {qualified : List (String × String)} {x : String}
    {clauses : List SymbolsFromModule} {earlier : List String} {c : SymbolsFromModule}
    (first : firstSight qualified x earlier clauses = some (c, true)) :
    clauses.find? (fun c => x ∈ c.symbolList) = some c := by
  induction clauses generalizing earlier with
  | nil => cases first
  | cons d clauses ih =>
    rw [firstSight] at first
    by_cases listed : x ∈ d.symbolList
    · rw [if_pos listed] at first
      cases first
      simp [listed]
    · rw [if_neg listed] at first
      split at first
      · cases first
      · simpa [listed] using ih first

/-- A name without a sight is not imported. -/
theorem find_of_no_firstSight {qualified : List (String × String)} {x : String}
    {clauses : List SymbolsFromModule} {earlier : List String}
    (unseen : firstSight qualified x earlier clauses = none) :
    clauses.find? (fun c => x ∈ c.symbolList) = none := by
  induction clauses generalizing earlier with
  | nil => rfl
  | cons d clauses ih =>
    rw [firstSight] at unseen
    by_cases listed : x ∈ d.symbolList
    · rw [if_pos listed] at unseen
      cases unseen
    · rw [if_neg listed] at unseen
      split at unseen
      · cases unseen
      · simpa [listed] using ih unseen

theorem shown_parse (text : ModuleText) (x : String) :
    shown text.parse.imports x =
      ((firstSight text.qualified x [] text.clauses).map fun sight =>
        (sight.1.modId, false)).or
          (shownByNew (text.clauses.map (·.modId.name)) text.qualified x) := by
  have names : listNames (text.clauses.map (·.importModule)) =
      text.clauses.map (·.modId.name) := by
    simp [listNames, SymbolsFromModule.importModule, Function.comp_def]
  change shown (addQualified _ _) x = _
  rw [shown_addQualified, shownIn_clauses, names]

theorem linksTo_linkOf_iff {currMod : Module} (found meant : Option Definition)
    (noted : found = none → errorNoted currMod (.error .unresolvedImport) = true) :
    LinksTo currMod (linkOf found) meant ↔ found = meant := by
  cases found with
  | none =>
    have error := noted rfl
    cases meant <;> simp [LinksTo, linkOf, error]
  | some d =>
    cases meant <;> simp [LinksTo, linkOf]

/-- An unqualified reference that is not in scope otherwise is linked to what IMPORTS clauses give it
exactly when qualified references leave it to them. -/
theorem linksTo_linkUnqualified_iff {kind : RefKind} {x : String} (spelt : kind.spells x = true)
    (texts : List ModuleText) (text : ModuleText) :
    let currMod := linkedModule kind (parseAll texts) text.parse
    LinksTo currMod (linkUnqualified currMod x)
      (importedDefinition kind (parseAll texts) text.clauses x) ↔
        Undisturbed kind texts text x := by
  intro currMod
  have result := linkUnqualified_eq spelt (parseAll texts) text
  have noted {e : LinkError} := @errorNoted_linkUnqualified kind x spelt (parseAll texts) text e
  rw [shown_parse] at result
  unfold Undisturbed
  -- What the reference is linked to, by where the name is first seen.
  have linked (id : ModuleId) (link : linkUnqualified currMod x =
      linkOf (definitionIn kind (parseAll texts) id x)) (meant : Option Definition) :
      LinksTo currMod (linkUnqualified currMod x) meant ↔
        definitionIn kind (parseAll texts) id x = meant := by
    rw [link]
    apply linksTo_linkOf_iff
    intro undefined
    rw [undefined] at link
    exact noted link
  have failed (error : linkUnqualified currMod x = .error .notDefinedOrImported) :
      LinksTo currMod (linkUnqualified currMod x) none := by
    refine ⟨_, error, ?_⟩
    rw [error]
    exact noted error
  cases first : firstSight text.qualified x [] text.clauses with
  | some sight =>
    obtain ⟨c, isListed⟩ := sight
    rw [first] at result
    rw [linked c.modId result]
    cases isListed with
    | false => exact Iff.rfl
    | true =>
      have clause := find_of_firstSight first
      simp [importedDefinition, clause]
  | none =>
    have notImported : importedDefinition kind (parseAll texts) text.clauses x = none := by
      rw [importedDefinition, find_of_no_firstSight first, Option.bind_none]
    rw [first] at result
    rw [notImported]
    unfold shownByNew at result
    simp only [Option.map_none, Option.none_or] at result
    cases new : text.qualified.find? fun q =>
        q.1 ∉ text.clauses.map (·.modId.name) ∧ (q.1, x) ∈ text.qualified with
    | none =>
      rw [new] at result
      simp [failed result]
    | some q =>
      rw [new] at result
      by_cases same : q.2 = x
      · -- The name is private in the list.
        simp only [Option.map_some, same, decide_true] at result
        simp [failed result, same]
      · simp only [Option.map_some, same, decide_false] at result
        rw [linked { name := q.1 } result]
        simp [same]

/-! ## Qualified references -/

/-- The first list from a module where an element was appended to the list of one. -/
theorem lookupImportModule_appendImportElmt (refdModuleName name : String) (newElmt : ImportElmt)
    (imports : List ImportModule) :
    lookupImportModule (appendImportElmt refdModuleName newElmt imports) name =
      (lookupImportModule imports name).map fun L =>
        if name = refdModuleName then { L with importElmts := L.importElmts ++ [newElmt] }
        else L := by
  -- Along the lists, to the one that the element is appended to.
  unfold lookupImportModule
  induction imports with
  | nil => rfl
  | cons L imports ih =>
    rw [appendImportElmt]
    by_cases here : L.modId.name = refdModuleName
    · rw [if_pos here, List.find?_cons, List.find?_cons]
      by_cases same : L.modId.name = name
      · simp [same, ← here]
      · have other : ¬ name = refdModuleName := fun eq => same (here.trans eq.symm)
        simp [same, other]
    · rw [if_neg here, List.find?_cons, List.find?_cons, ih]
      by_cases same : L.modId.name = name
      · have other : ¬ name = refdModuleName := fun eq => here (same.trans eq)
        simp [same, other]
      · simp [same]

/-- The first list from a module is one of a module that is identified in a given way. -/
def ListedAs (imports : List ImportModule) (name : String) (id : ModuleId) : Prop :=
  ∃ L, lookupImportModule imports name = some L ∧ L.modId = id

/-- The first list from a module, which is identified in a given way, has a name. -/
def HasName (imports : List ImportModule) (name : String) (id : ModuleId) (x : String) : Prop :=
  ∃ L e, lookupImportModule imports name = some L ∧ L.modId = id ∧
    lookupImportElmtInImportElmtList L.importElmts x = some e

section

variable {imports : List ImportModule} {name : String} {id : ModuleId} {x : String}

/-- Registering a reference keeps the lists that there are. -/
theorem ListedAs.addPrivate (listed : ListedAs imports name id) (y other : String) :
    ListedAs (addPrivateImportElmt imports y other) name id := by
  obtain ⟨L, first, named⟩ := listed
  unfold addPrivateImportElmt
  split
  · refine ⟨L, ?_, named⟩
    unfold lookupImportModule at first ⊢
    rw [List.find?_append, first, Option.some_or]
  · split
    · refine ⟨if name = other then { L with importElmts := L.importElmts ++ [{ name := y }] }
        else L, ?_, ?_⟩
      · rw [lookupImportModule_appendImportElmt, first, Option.map_some]
      · split <;> exact named
    · exact ⟨L, first, named⟩

/-- Registering a reference keeps the names that there are. -/
theorem HasName.addPrivate (has : HasName imports name id x) (y other : String) :
    HasName (addPrivateImportElmt imports y other) name id x := by
  obtain ⟨L, e, first, named, found⟩ := has
  unfold addPrivateImportElmt
  split
  · refine ⟨L, e, ?_, named, found⟩
    unfold lookupImportModule at first ⊢
    rw [List.find?_append, first, Option.some_or]
  · split
    · refine ⟨if name = other then { L with importElmts := L.importElmts ++ [{ name := y }] }
        else L, e, ?_, ?_, ?_⟩
      · rw [lookupImportModule_appendImportElmt, first, Option.map_some]
      · split <;> exact named
      · split
        · rw [lookupImportElmt_append, found, Option.some_or]
        · exact found
    · exact ⟨L, e, first, named, found⟩

/-- A reference that was registered is in the list that was there. -/
theorem ListedAs.registered (listed : ListedAs imports name id) (x : String) :
    HasName (addPrivateImportElmt imports x name) name id x := by
  obtain ⟨L, first, named⟩ := listed
  cases present : lookupImportElmtInImportElmtList L.importElmts x with
  | some e =>
    rw [addPrivateImportElmt_of_present first present]
    exact ⟨L, e, first, named, present⟩
  | none =>
    rw [addPrivateImportElmt_of_missing first present]
    refine ⟨{ L with importElmts := L.importElmts ++ [{ name := x }] }, { name := x }, ?_, named,
      ?_⟩
    · simp only [lookupImportModule_appendImportElmt, first, Option.map_some, if_true]
    · rw [lookupImportElmt_append, present]
      simp

theorem registered_of_new (new : lookupImportModule imports name = none) (x : String) :
    HasName (addPrivateImportElmt imports x name) name { name } x := by
  rw [addPrivateImportElmt_of_new new]
  refine ⟨{ modId := { name }, importElmts := [{ name := x, privateScope := true }] },
    { name := x, privateScope := true }, ?_, rfl, ?_⟩
  · unfold lookupImportModule at new ⊢
    rw [List.find?_append, new]
    simp
  · simp [lookupImportElmtInImportElmtList]

theorem HasName.addQualified (has : HasName imports name id x)
    (qualified : List (String × String)) :
    HasName (addQualified imports qualified) name id x := by
  induction qualified generalizing imports with
  | nil => exact has
  | cons q qualified ih => exact ih (has.addPrivate q.2 q.1)

end

/-- Every qualified reference of a module is in the list of the module that it names. -/
theorem hasName_of_mem {qualified : List (String × String)} {name x : String}
    (isIn : (name, x) ∈ qualified) (imports : List ImportModule) :
    HasName (addQualified imports qualified) name
      (((lookupImportModule imports name).map (·.modId)).getD { name }) x := by
  -- Along the references; the first one to the module may create its list.
  induction qualified generalizing imports with
  | nil => cases isIn
  | cons q qualified ih =>
    change HasName (addQualified (addPrivateImportElmt imports q.2 q.1) qualified) _ _ _
    by_cases now : q = (name, x)
    · subst now
      apply HasName.addQualified
      cases first : lookupImportModule imports name with
      | none => exact registered_of_new first x
      | some L => exact ListedAs.registered ⟨L, first, rfl⟩ x
    · have later : (name, x) ∈ qualified := by
        rcases List.mem_cons.1 isIn with same | later
        · exact absurd same.symm now
        · exact later
      have registered := ih later (addPrivateImportElmt imports q.2 q.1)
      cases first : lookupImportModule imports name with
      | some L =>
        obtain ⟨M, firstThen, named⟩ := ListedAs.addPrivate ⟨L, first, rfl⟩ q.2 q.1
        rw [firstThen, Option.map_some, named] at registered
        exact registered
      | none =>
        -- A list that was created now names the module by its name alone.
        by_cases same : q.1 = name
        · obtain ⟨other, y⟩ := q
          change other = name at same
          subst same
          obtain ⟨M, e, firstThen, named, -⟩ := registered_of_new first y
          rw [firstThen, Option.map_some, named] at registered
          exact registered
        · have stays : lookupImportModule (addPrivateImportElmt imports q.2 q.1) name = none := by
            unfold addPrivateImportElmt
            split
            · unfold lookupImportModule at first ⊢
              rw [List.find?_append, first]
              simp [same]
            · split
              · rw [lookupImportModule_appendImportElmt, first, Option.map_none]
              · exact first
          rw [stays] at registered
          exact registered

/-- A qualified reference is linked to the definition in the module that it names. -/
theorem linksTo_linkQualified {kind : RefKind} {name x : String} (spelt : kind.spells x = true)
    (texts : List ModuleText) {text : ModuleText} (isIn : (name, x) ∈ text.qualified) :
    let currMod := linkedModule kind (parseAll texts) text.parse
    LinksTo currMod (linkQualified currMod name x)
      (definitionIn kind (parseAll texts) (namedModule text name) x) := by
  intro currMod
  obtain ⟨L, e, first, named, found⟩ :=
    hasName_of_mem isIn (text.clauses.map (·.importModule))
  have isNamed : L.modId = namedModule text name := by
    rw [named, namedModule, lookupImportModule, List.find?_map]
    have same : ((fun L : ImportModule => decide (L.modId.name = name)) ∘
        SymbolsFromModule.importModule) = fun c => decide (c.modId.name = name) := rfl
    rw [same]
    cases text.clauses.find? fun c => decide (c.modId.name = name) <;> rfl
  have result := linkQualified_eq spelt (parseAll texts) text first found
  rw [result, ← isNamed]
  apply (linksTo_linkOf_iff _ _ _).2 rfl
  intro undefined
  exact errorNoted_linkQualified spelt (parseAll texts) text first found undefined _

end Esnacc.Compiler
