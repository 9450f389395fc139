import Mathlib.Data.List.Basic

/-! Import lists of modules, and the definitions that the two linkers link references to. -/

namespace Esnacc.Compiler

/-- Qualified names are equal where their parts are. -/
instance lawfulQualified : LawfulBEq (String × String) := inferInstance

/-! ## Modules -/

/-- The definition of a type or of a value, at its address. -/
structure Definition where
  definedName : String
  exported : Bool
  address : Nat
  deriving DecidableEq

/-- Names of modules: an identifier, and the numbers of an object identifier as far as known. -/
structure ModuleId where
  name : String
  oid : List (Option Nat) := []
  deriving DecidableEq

/-- What an imported name was found to be. -/
inductive ImportElmtChoice where
  | type (t : Definition)
  | value (v : Definition)

/-- The definition that was found. -/
def ImportElmtChoice.definition : ImportElmtChoice → Definition
  | .type t => t
  | .value v => v

/-- An imported name; one of private scope stands for qualified references only. -/
structure ImportElmt where
  name : String
  privateScope : Bool := false
  resolvedRef : Option ImportElmtChoice := none

/-- The names that are imported from a module. -/
structure ImportModule where
  modId : ModuleId
  importElmts : List ImportElmt

/-- A module: its definitions, its import lists, and whether an error was found in it. -/
structure Module where
  modId : ModuleId
  typeDefs : List Definition
  valueDefs : List Definition
  imports : List ImportModule
  modError : Bool := false

/-! ## Import lists -/

/-- The element of a list with a name. -/
def lookupImportElmtInImportElmtList (impElmtList : List ImportElmt) (name : String) :
    Option ImportElmt :=
  impElmtList.find? fun impElmt => impElmt.name = name

/-- The first import list from a module. -/
@[grind =] def lookupImportModule (imports : List ImportModule) (importModuleName : String) :
    Option ImportModule :=
  imports.find? fun importModule => importModule.modId.name = importModuleName

/-- The element with a name in the first import list that has one, with that list. -/
def lookupImportElmtInModule (imports : List ImportModule) (name : String) :
    Option (ImportModule × ImportElmt) :=
  imports.findSome? fun importMod =>
    (lookupImportElmtInImportElmtList importMod.importElmts name).map (importMod, ·)

/-- Append an element to the first import list from a module. -/
@[grind =] def appendImportElmt (refdModuleName : String) (newElmt : ImportElmt) :
    List ImportModule → List ImportModule
  | [] => []
  | impMod :: imports =>
    if impMod.modId.name = refdModuleName then
      { impMod with importElmts := impMod.importElmts ++ [newElmt] } :: imports
    else impMod :: appendImportElmt refdModuleName newElmt imports

/-- Register a qualified reference in the import lists. -/
def addPrivateImportElmt (imports : List ImportModule) (name refdModuleName : String) :
    List ImportModule :=
  match lookupImportModule imports refdModuleName with
  | none =>
    imports ++ [{
      modId := { name := refdModuleName }
      importElmts := [{ name, privateScope := true }] }]
  | some impMod =>
    match lookupImportElmtInImportElmtList impMod.importElmts name with
    -- The scope of the new element stays that of an imported name.
    | none => appendImportElmt refdModuleName { name } imports
    | some _ => imports

/-! ## The parsed text of a module -/

/-- The names that an IMPORTS clause lists for a module. -/
structure SymbolsFromModule where
  modId : ModuleId
  symbolList : List String

/-- The import list of an IMPORTS clause. -/
def SymbolsFromModule.importModule (c : SymbolsFromModule) : ImportModule :=
  { modId := c.modId, importElmts := c.symbolList.map fun name => { name } }

/-- The text of a module: its definitions, its IMPORTS clauses, and its qualified references, each
with the module and the name, in the order of the text. -/
structure ModuleText where
  modId : ModuleId
  typeDefs : List Definition
  valueDefs : List Definition
  clauses : List SymbolsFromModule
  qualified : List (String × String)

/-- Register qualified references, one after the other. -/
def addQualified (imports : List ImportModule) (qualified : List (String × String)) :
    List ImportModule :=
  qualified.foldl (fun imports q => addPrivateImportElmt imports q.2 q.1) imports

/-- The module that the parser makes of a text. -/
def ModuleText.parse (text : ModuleText) : Module :=
  { modId := text.modId
    typeDefs := text.typeDefs
    valueDefs := text.valueDefs
    imports := addQualified (text.clauses.map (·.importModule)) text.qualified }

/-! ## Linking import lists -/

/-- Whether two object identifiers are known to be the same. -/
def compareOids (oid1 oid2 : List (Option Nat)) : Bool :=
  oid1 ≠ [] && oid1 = oid2 && oid1.all (·.isSome)

/-- The first module with an object identifier or a name. -/
def lookupModule (mods : List Module) (id : ModuleId) : Option Module :=
  mods.find? fun currMod => compareOids id.oid currMod.modId.oid || id.name = currMod.modId.name

/-- The first definition with a name. -/
def lookupDefinition (defs : List Definition) (name : String) : Option Definition :=
  defs.find? fun d => name = d.definedName

/-- What there are references to. -/
inductive RefKind where
  | type
  | value

/-- Whether a name is spelt as one of a type or of a value. -/
def RefKind.spells : RefKind → String → Bool
  | .type, name => name.toList.head?.any Char.isUpper
  | .value, name => name.toList.head?.any Char.isLower

/-- The definitions of a kind in a module. -/
def RefKind.defs : RefKind → Module → List Definition
  | .type, m => m.typeDefs
  | .value, m => m.valueDefs

/-- The choice of a kind. -/
def RefKind.choice : RefKind → Definition → ImportElmtChoice
  | .type => .type
  | .value => .value

/-- Link an imported name to its definition in a module, and say whether that is an error. -/
def linkImportElmt (kind : RefKind) (impRefMod : Module) (currImpElmt : ImportElmt) :
    ImportElmt × Bool :=
  if kind.spells currImpElmt.name = false then (currImpElmt, false)
  else
    match lookupDefinition (kind.defs impRefMod) currImpElmt.name with
    | none => (currImpElmt, true)
    | some d => ({ currImpElmt with resolvedRef := some (kind.choice d) }, !d.exported)

/-- Link the names of an import list; a module that is missing is an error of the type linker. -/
def linkImportModule (kind : RefKind) (mods : List Module) (currImpList : ImportModule) :
    ImportModule × Bool :=
  match lookupModule mods currImpList.modId with
  | none =>
    (currImpList,
      match kind with
      | .type => true
      | .value => false)
  | some impRefMod =>
    let linked := currImpList.importElmts.map (linkImportElmt kind impRefMod)
    ({ currImpList with importElmts := linked.map Prod.fst }, linked.any Prod.snd)

/-- Link the import lists of a module. -/
def linkImportLists (kind : RefKind) (mods : List Module) (currMod : Module) : Module :=
  let linked := currMod.imports.map (linkImportModule kind mods)
  { currMod with
    imports := linked.map Prod.fst
    modError := currMod.modError || linked.any Prod.snd }

/-- Link the imported types of a module. -/
def typeLinkImportLists : List Module → Module → Module :=
  linkImportLists .type

/-- Link the imported values of a module. -/
def valueLinkImportLists : List Module → Module → Module :=
  linkImportLists .value

/-! ## Linking references -/

/-- The errors of references. -/
inductive LinkError where
  | noImportList
  | noImportElmt
  | unresolvedImport
  | notDefinedOrImported
  | notTypeField
  | notClassField
  deriving DecidableEq

/-- Whether an error of a reference is noted for the module; unresolved imports were noted before. -/
def LinkError.setsStatus : LinkError → Bool
  | .unresolvedImport => false
  | _ => true

/-- What a reference is linked to: a definition, or an unknown type that is a field of a class. -/
inductive LinkTarget where
  | definition (d : Definition)
  | classField
  deriving DecidableEq

/-- The definition that an imported name was linked to. -/
def linkToImport (impElmt : ImportElmt) : Except LinkError LinkTarget :=
  match impElmt.resolvedRef with
  | some resolvedRef => .ok (.definition resolvedRef.definition)
  | none => .error .unresolvedImport

/-- Link a qualified reference. -/
def linkQualified (currMod : Module) (moduleName name : String) : Except LinkError LinkTarget :=
  match lookupImportModule currMod.imports moduleName with
  | none => .error .noImportList
  | some impMod =>
    match lookupImportElmtInImportElmtList impMod.importElmts name with
    | none => .error .noImportElmt
    | some impElmt => linkToImport impElmt

/-- Link an unqualified reference to an imported name. -/
def linkUnqualified (currMod : Module) (name : String) : Except LinkError LinkTarget :=
  match lookupImportElmtInModule currMod.imports name with
  | none => .error .notDefinedOrImported
  | some (_, impElmt) =>
    if impElmt.privateScope then .error .notDefinedOrImported else linkToImport impElmt

/-- Link a reference to a type, which may stand in the definition of a class with fields of known or
unknown type. -/
def typeLinkTypeRef (currMod : Module) (head : Option (List (String × Bool)))
    (moduleName : Option String) (typeName : String) : Except LinkError LinkTarget :=
  match moduleName with
  | some moduleName => linkQualified currMod moduleName typeName
  | none =>
    match lookupDefinition currMod.typeDefs typeName with
    | some tmpTypeDef => .ok (.definition tmpTypeDef)
    | none =>
      match head with
      | none => linkUnqualified currMod typeName
      | some classdef =>
        match classdef.find? fun namedType => typeName = namedType.1 with
        | none => .error .notClassField
        | some namedType => if namedType.2 then .ok .classField else .error .notTypeField

/-- Link a reference to a value of a type with named elements. -/
def valueLinkValueRef (currMod : Module) (namedElmtList : List Definition)
    (moduleName : Option String) (valueName : String) : Except LinkError LinkTarget :=
  match moduleName with
  | some moduleName => linkQualified currMod moduleName valueName
  | none =>
    match lookupDefinition namedElmtList valueName with
    | some n => .ok (.definition n)
    | none =>
      match lookupDefinition currMod.valueDefs valueName with
      | some tmpValueDef => .ok (.definition tmpValueDef)
      | none => linkUnqualified currMod valueName

end Esnacc.Compiler
