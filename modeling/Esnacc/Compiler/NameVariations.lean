import Esnacc.Compiler.LexicalNames
import Mathlib.Data.List.Pairwise

/-! References in a module whose import lists are reordered and whose qualified references vary. -/

namespace Esnacc.Compiler

/-! ## References of both kinds -/

/-- The definition in scope of a reference to a type before all imported ones. -/
def typeInScope (text : ModuleText) (x : String) : Option Definition :=
  lookupDefinition text.typeDefs x

/-- The definition in scope of a reference to a value before all imported ones: a named element of
its type, or a value of the module. -/
def valueInScope (text : ModuleText) (namedElmts : List Definition) (x : String) :
    Option Definition :=
  (lookupDefinition namedElmts x).or (lookupDefinition text.valueDefs x)

/-- When a reference to a type is left to its module and its IMPORTS clauses; one in the definition
of a class finds its fields instead of imported types. -/
def TypeUndisturbed (texts : List ModuleText) (text : ModuleText)
    (head : Option (List (String × Bool))) (x : String) : Prop :=
  typeInScope text x ≠ none ∨
    match head with
    | none => Undisturbed .type texts text x
    | some classdef =>
      importedDefinition .type (parseAll texts) text.clauses x = none ∧
        ∀ namedType ∈ classdef.find? fun namedType => x = namedType.1, namedType.2 = false

/-- When a reference to a value is left to its type, its module and its IMPORTS clauses. -/
def ValueUndisturbed (texts : List ModuleText) (text : ModuleText) (namedElmts : List Definition)
    (x : String) : Prop :=
  valueInScope text namedElmts x ≠ none ∨ Undisturbed .value texts text x

/-- An unqualified reference to a type. -/
theorem typeResult_unqualified (texts : List ModuleText) (text : ModuleText)
    (head : Option (List (String × Bool))) (x : String) :
    typeResult texts text head none x =
      match typeInScope text x with
      | some d => .ok (.definition d)
      | none =>
        match head with
        | none => linkUnqualified (linkedModule .type (parseAll texts) text.parse) x
        | some classdef =>
          match classdef.find? fun namedType => x = namedType.1 with
          | none => .error .notClassField
          | some namedType => if namedType.2 then .ok .classField else .error .notTypeField := rfl

/-- An unqualified reference to a value. -/
theorem valueResult_unqualified (texts : List ModuleText) (text : ModuleText)
    (namedElmts : List Definition) (x : String) :
    valueResult texts text namedElmts none x =
      match valueInScope text namedElmts x with
      | some d => .ok (.definition d)
      | none => linkUnqualified (linkedModule .value (parseAll texts) text.parse) x := by
  have defs : (linkedModule .value (parseAll texts) text.parse).valueDefs = text.valueDefs := rfl
  unfold valueResult valueLinkValueRef valueInScope
  rw [defs]
  cases lookupDefinition namedElmts x with
  | some n => rfl
  | none => cases lookupDefinition text.valueDefs x <;> rfl

/-- An unqualified reference to a type is linked to the definition that it means exactly when it is
left to its module and its IMPORTS clauses. -/
theorem linksTo_typeResult_iff {x : String} (spelt : RefKind.type.spells x = true)
    (texts : List ModuleText) (text : ModuleText) (head : Option (List (String × Bool))) :
    LinksTo (linkedModule .type (parseAll texts) text.parse) (typeResult texts text head none x)
      (lexicalDefinition .type texts text (typeInScope text x) x) ↔
        TypeUndisturbed texts text head x := by
  rw [typeResult_unqualified]
  unfold lexicalDefinition TypeUndisturbed
  cases typeInScope text x with
  | some d => simp [LinksTo]
  | none =>
    simp only [Option.none_or, ne_eq, not_true_eq_false, false_or]
    cases head with
    | none => exact linksTo_linkUnqualified_iff spelt texts text
    | some classdef =>
      -- The errors of references in classes are noted, and a field is no definition.
      have failed (e : LinkError) (sets : e.setsStatus = true) (meant : Option Definition) :
          LinksTo (linkedModule .type (parseAll texts) text.parse) (.error e) meant ↔
            meant = none := by
        cases meant <;> simp [LinksTo, errorNoted, sets]
      cases found : classdef.find? fun namedType => decide (x = namedType.1) with
      | none => simp [found, failed .notClassField rfl]
      | some namedType =>
        cases isUnknown : namedType.2 with
        | true =>
          cases importedDefinition .type (parseAll texts) text.clauses x <;>
            simp [found, LinksTo, isUnknown]
        | false => simp [found, failed .notTypeField rfl, isUnknown]

/-- An unqualified reference to a value is linked to the definition that it means exactly when it is
left to its type, its module and its IMPORTS clauses. -/
theorem linksTo_valueResult_iff {x : String} (spelt : RefKind.value.spells x = true)
    (texts : List ModuleText) (text : ModuleText) (namedElmts : List Definition) :
    LinksTo (linkedModule .value (parseAll texts) text.parse)
      (valueResult texts text namedElmts none x)
      (lexicalDefinition .value texts text (valueInScope text namedElmts x) x) ↔
        ValueUndisturbed texts text namedElmts x := by
  rw [valueResult_unqualified]
  unfold lexicalDefinition ValueUndisturbed
  cases valueInScope text namedElmts x with
  | some d => simp [LinksTo]
  | none =>
    simp only [Option.none_or, ne_eq, not_true_eq_false, false_or]
    exact linksTo_linkUnqualified_iff spelt texts text

/-! ## Variations of a module -/

/-- Texts of modules with the same identifiers and definitions. -/
def SameDefinitions (text text' : ModuleText) : Prop :=
  text'.modId = text.modId ∧ text'.typeDefs = text.typeDefs ∧ text'.valueDefs = text.valueDefs

/-- A module whose import lists are reordered and whose qualified references vary, among modules that
define the same; its imported names are distinct. -/
structure Varied (texts : List ModuleText) (text : ModuleText) (texts' : List ModuleText)
    (text' : ModuleText) : Prop where
  modules : List.Forall₂ SameDefinitions texts texts'
  definitions : SameDefinitions text text'
  clauses : text'.clauses.Perm text.clauses
  distinct : (text.clauses.flatMap (·.symbolList)).Nodup

/-- Modules with the same definitions define the same. -/
theorem definitionIn_same {texts texts' : List ModuleText}
    (same : List.Forall₂ SameDefinitions texts texts') (kind : RefKind) (id : ModuleId)
    (x : String) :
    definitionIn kind (parseAll texts') id x = definitionIn kind (parseAll texts) id x := by
  -- Along the modules, to the first one that the identifier means.
  induction same with
  | nil => rfl
  | @cons text text' texts texts' here _ ih =>
    obtain ⟨sameId, sameTypes, sameValues⟩ := here
    have sameDefs : kind.defs text'.parse = kind.defs text.parse := by
      cases kind
      · exact sameTypes
      · exact sameValues
    have sameName : text'.parse.modId = text.parse.modId := sameId
    unfold definitionIn lookupModule parseAll at ih ⊢
    rw [List.map_cons, List.map_cons, List.find?_cons, List.find?_cons, sameName]
    split
    · rw [Option.bind_some, Option.bind_some, sameDefs]
    · exact ih

/-- Where imported names are distinct, reordered clauses import them from the same modules. -/
theorem find_perm {clauses clauses' : List SymbolsFromModule} (reordered : clauses'.Perm clauses)
    (distinct : (clauses.flatMap (·.symbolList)).Nodup) (x : String) :
    clauses'.find? (fun c => x ∈ c.symbolList) = clauses.find? (fun c => x ∈ c.symbolList) := by
  -- No two clauses list the name.
  have once : ∀ c ∈ clauses, ∀ d ∈ clauses, x ∈ c.symbolList → x ∈ d.symbolList → c = d := by
    have apart := (List.nodup_flatMap.1 distinct).2
    intro c isIn d isInToo listed listedToo
    by_contra differ
    have symm : Std.Symm (Function.onFun List.Disjoint fun c : SymbolsFromModule => c.symbolList) :=
      ⟨fun _ _ disjoint => List.disjoint_symm disjoint⟩
    exact apart.forall isIn isInToo differ listed listedToo
  cases found : clauses.find? (fun c => x ∈ c.symbolList) with
  | none =>
    rw [List.find?_eq_none] at found ⊢
    exact fun c isIn => found c (reordered.mem_iff.1 isIn)
  | some c =>
    have listed : x ∈ c.symbolList := by simpa using List.find?_some found
    have isIn := List.mem_of_find?_eq_some found
    cases foundThen : clauses'.find? (fun c => x ∈ c.symbolList) with
    | none =>
      rw [List.find?_eq_none] at foundThen
      exact absurd (decide_eq_true listed) (foundThen c (reordered.mem_iff.2 isIn))
    | some d =>
      have listedThen : x ∈ d.symbolList := by simpa using List.find?_some foundThen
      have isInThen := reordered.mem_iff.1 (List.mem_of_find?_eq_some foundThen)
      rw [once c isIn d isInThen listed listedThen]

theorem Varied.lexicalDefinition {texts texts' : List ModuleText} {text text' : ModuleText}
    (varied : Varied texts text texts' text') (kind : RefKind) (inScope : Option Definition)
    (x : String) :
    lexicalDefinition kind texts' text' inScope x =
      lexicalDefinition kind texts text inScope x := by
  have same (id : ModuleId) := definitionIn_same varied.modules kind id x
  unfold Compiler.lexicalDefinition importedDefinition
  rw [find_perm varied.clauses varied.distinct x]
  simp only [same]

theorem LinksTo.linkedTo {currMod : Module} {result : Except LinkError LinkTarget}
    {meant : Option Definition} (links : LinksTo currMod result meant) :
    linkedTo result = meant.map .definition := by
  cases meant with
  | some d =>
    rw [links]
    rfl
  | none =>
    obtain ⟨e, failed, -⟩ := links
    rw [failed]
    rfl

/-- Where every error is noted, what a reference is linked to tells whether it links to what it
means. -/
theorem linksTo_iff_linkedTo {currMod : Module} {result : Except LinkError LinkTarget}
    (noted : ∀ e, result = .error e → errorNoted currMod (.error e) = true)
    (meant : Option Definition) :
    LinksTo currMod result meant ↔ linkedTo result = meant.map .definition := by
  refine ⟨LinksTo.linkedTo, ?_⟩
  intro same
  cases result with
  | ok target =>
    cases meant with
    | none => cases same
    | some d =>
      cases same
      rfl
  | error e =>
    cases meant with
    | none => exact ⟨e, rfl, noted e rfl⟩
    | some d => cases same

/-- Every error of an unqualified reference to a type is noted. -/
theorem errorNoted_typeResult {x : String} (spelt : RefKind.type.spells x = true)
    (texts : List ModuleText) (text : ModuleText) (head : Option (List (String × Bool)))
    (e : LinkError) (failed : typeResult texts text head none x = .error e) :
    errorNoted (linkedModule .type (parseAll texts) text.parse) (.error e) = true := by
  rw [typeResult_unqualified] at failed
  split at failed
  · cases failed
  · split at failed
    · exact errorNoted_linkUnqualified spelt (parseAll texts) text failed
    · -- The errors of references in classes set the status.
      split at failed
      · cases failed
        simp [errorNoted, LinkError.setsStatus]
      · split at failed <;> cases failed
        simp [errorNoted, LinkError.setsStatus]

theorem errorNoted_valueResult {x : String} (spelt : RefKind.value.spells x = true)
    (texts : List ModuleText) (text : ModuleText) (namedElmts : List Definition) (e : LinkError)
    (failed : valueResult texts text namedElmts none x = .error e) :
    errorNoted (linkedModule .value (parseAll texts) text.parse) (.error e) = true := by
  rw [valueResult_unqualified] at failed
  split at failed
  · cases failed
  · exact errorNoted_linkUnqualified spelt (parseAll texts) text failed

theorem linksTo_and_same_iff {currMod currMod' : Module}
    {result result' : Except LinkError LinkTarget} {meant : Option Definition}
    (noted : ∀ e, result' = .error e → errorNoted currMod' (.error e) = true) :
    LinksTo currMod result meant ∧ linkedTo result' = linkedTo result ↔
      LinksTo currMod result meant ∧ LinksTo currMod' result' meant := by
  rw [linksTo_iff_linkedTo noted]
  refine and_congr_right fun links => ?_
  rw [links.linkedTo]

/-- References are resolved lexically: an unqualified reference is linked to the definition that it
means, and to the same one when import lists are reordered and qualified references vary, exactly
when it is undisturbed in both cases; a qualified reference is linked to the definition in the
module that it names. -/
theorem references_lexical_iff {texts texts' : List ModuleText} {text text' : ModuleText}
    (varied : Varied texts text texts' text') :
    (∀ head x, RefKind.type.spells x = true →
      (LinksTo (linkedModule .type (parseAll texts) text.parse) (typeResult texts text head none x)
          (lexicalDefinition .type texts text (typeInScope text x) x) ∧
        linkedTo (typeResult texts' text' head none x) =
          linkedTo (typeResult texts text head none x) ↔
        TypeUndisturbed texts text head x ∧ TypeUndisturbed texts' text' head x)) ∧
    (∀ namedElmts x, RefKind.value.spells x = true →
      (LinksTo (linkedModule .value (parseAll texts) text.parse)
          (valueResult texts text namedElmts none x)
          (lexicalDefinition .value texts text (valueInScope text namedElmts x) x) ∧
        linkedTo (valueResult texts' text' namedElmts none x) =
          linkedTo (valueResult texts text namedElmts none x) ↔
        ValueUndisturbed texts text namedElmts x ∧ ValueUndisturbed texts' text' namedElmts x)) ∧
    (∀ name x, (name, x) ∈ text.qualified →
      (RefKind.type.spells x = true → ∀ head,
        LinksTo (linkedModule .type (parseAll texts) text.parse)
          (typeResult texts text head (some name) x)
          (definitionIn .type (parseAll texts) (namedModule text name) x)) ∧
      (RefKind.value.spells x = true → ∀ namedElmts,
        LinksTo (linkedModule .value (parseAll texts) text.parse)
          (valueResult texts text namedElmts (some name) x)
          (definitionIn .value (parseAll texts) (namedModule text name) x))) := by
  refine ⟨?_, ?_, ?_⟩
  · intro head x spelt
    have scope : typeInScope text' x = typeInScope text x := by
      rw [typeInScope, varied.definitions.2.1, typeInScope]
    rw [linksTo_and_same_iff (errorNoted_typeResult spelt texts' text' head),
      ← linksTo_typeResult_iff spelt texts text, ← linksTo_typeResult_iff spelt texts' text', scope,
      varied.lexicalDefinition]
  · intro namedElmts x spelt
    have scope : valueInScope text' namedElmts x = valueInScope text namedElmts x := by
      rw [valueInScope, varied.definitions.2.2, valueInScope]
    rw [linksTo_and_same_iff (errorNoted_valueResult spelt texts' text' namedElmts),
      ← linksTo_valueResult_iff spelt texts text, ← linksTo_valueResult_iff spelt texts' text',
      scope, varied.lexicalDefinition]
  · intro name x isIn
    exact ⟨fun spelt _ => linksTo_linkQualified spelt texts isIn,
      fun spelt _ => linksTo_linkQualified spelt texts isIn⟩

/-- A module that defines the types `X` and `Y`. -/
def moduleN : ModuleText where
  modId := { name := "N" }
  typeDefs := [⟨"X", true, 1⟩, ⟨"Y", true, 2⟩]
  valueDefs := []
  clauses := []
  qualified := []

/-- A module with two references `N.X` and `N.Y`, or with the first one of them only. -/
def moduleM (qualified : List (String × String)) : ModuleText where
  modId := { name := "M" }
  typeDefs := []
  valueDefs := []
  clauses := []
  qualified

/-- The theorem at a module with no qualified reference, to which one is added. -/
theorem references_lexical_iff_moduleM :
    LinksTo (linkedModule .type (parseAll [moduleN, moduleM []]) (moduleM []).parse)
        (typeResult [moduleN, moduleM []] (moduleM []) none none "Y") none ∧
      linkedTo (typeResult [moduleN, moduleM [("N", "X")]] (moduleM [("N", "X")]) none none "Y") =
        none := by
  have varied : Varied [moduleN, moduleM []] (moduleM []) [moduleN, moduleM [("N", "X")]]
      (moduleM [("N", "X")]) :=
    ⟨.cons ⟨rfl, rfl, rfl⟩ (.cons ⟨rfl, rfl, rfl⟩ .nil), ⟨rfl, rfl, rfl⟩, .refl [], by decide⟩
  have iff := (references_lexical_iff varied).1 none "Y" (by decide)
  have before : TypeUndisturbed [moduleN, moduleM []] (moduleM []) none "Y" := by
    right
    intro q isIn
    cases isIn
  have after : TypeUndisturbed [moduleN, moduleM [("N", "X")]] (moduleM [("N", "X")]) none "Y" := by
    right
    intro q isIn
    simp [moduleM] at isIn
  obtain ⟨links, same⟩ := iff.2 ⟨before, after⟩
  exact ⟨links, same.trans links.linkedTo⟩

/-- An unqualified reference to a type that is neither defined nor imported is linked, where another
type of that module was qualified first. -/
theorem neither_defined_nor_imported :
    ¬ ∀ texts text x, RefKind.type.spells x = true →
      LinksTo (linkedModule .type (parseAll texts) text.parse) (typeResult texts text none none x)
        (lexicalDefinition .type texts text (typeInScope text x) x) := by
  intro claimed
  let text := moduleM [("N", "X"), ("N", "Y")]
  obtain ⟨e, failed, -⟩ := claimed [moduleN, text] text "Y" (by decide)
  have linked : typeResult [moduleN, text] text none none "Y" =
      .ok (.definition ⟨"Y", true, 2⟩) := by decide
  rw [linked] at failed
  cases failed

end Esnacc.Compiler
