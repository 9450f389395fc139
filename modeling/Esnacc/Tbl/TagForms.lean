import Esnacc.Lib.GraphWalks
import Esnacc.Tbl.TagWriters

/-! The forms of the tags of a type table, which are set where a table is loaded. -/

namespace Esnacc

open Lib

/-! ## Source -/

/-- TblTagClassToBer, which shifts the number of the class. -/
def TBLTagClass.toBer : TBLTagClass → UInt32
  | UNIVERSAL => UNIV
  | APPLICATION => APPL
  | CONTEXT => CNTX
  | PRIVATE => PRIV

/-- The loop over references, from a number of tags on: the number then, and the real type. -/
def skipRefs (tbl : TBL) : Nat → TBLType → Int → Except Exit (Int × TBLType)
  | 0, _, _ => throw .outOfTurns
  | turns + 1, .typeRef _ tagList typeDef implicit, numTags =>
    match tblFindTypeDefByIndex tbl typeDef with
    | none => throw .fault
    | some tblTd =>
      skipRefs tbl turns tblTd.type (numTags + (tagList.length - if implicit then 1 else 0))
  | _ + 1, tmpTblT, numTags => return (numTags, tmpTblT)

/-- The form that a tag gets in front of a real type, and the one in its word. -/
def tagForm (tid : TBLType) (numTags : Int) : BerForm × UInt32 :=
  if 1 < numTags then (.CONS, CONS)
  else
    match tid with
    | .elmts _ _ _ _ => (.CONS, CONS)
    -- Either form is taken, and the encoder puts the primitive one.
    | .primType .OCTETSTRING _ _ | .primType .BITSTRING _ _ => (.ANY_FORM, PRIM)
    | _ => (.PRIM, PRIM)

/-- The loop over the tags of a type. -/
def setTagForms (tid : TBLType) : Int → List TBLTag → List TBLTag
  | _, [] => []
  | numTags, tblTag :: rest =>
    { tblTag with
      form := (tagForm tid numTags).1
      encTag := makeTagId tblTag.tclass.toBer (tagForm tid numTags).2 tblTag.code } ::
        setTagForms tid (numTags - 1) rest

/-- A type with other tags. -/
def TBLType.withTags : TBLType → List TBLTag → TBLType
  | primType typeId optional _, tagList => primType typeId optional tagList
  | elmts typeId optional _ es, tagList => elmts typeId optional tagList es
  | typeRef optional _ typeDef implicit, tagList => typeRef optional tagList typeDef implicit

/-- TblSetTagForms. -/
def tblSetTagForms (tbl : TBL) (turns : Nat) (tblT : TBLType) : Except Exit TBLType :=
  if tblT.tagList.isEmpty then return tblT
  else do
    let (numTags, tid) ← skipRefs tbl turns tblT tblT.tagList.length
    return tblT.withTags (setTagForms tid numTags tblT.tagList)

mutual

/-- TblFixTypeTags; the table is looked at for references and numbers of tags alone. -/
def tblFixTypeTags (tbl : TBL) (turns : Nat) : TBLType → Except Exit TBLType
  | .elmts typeId optional tagList es => do
    let tblT ← tblSetTagForms tbl turns (.elmts typeId optional tagList es)
    return .elmts typeId optional tblT.tagList (← tblFixElmtTags tbl turns es)
  | .primType typeId optional tagList =>
    tblSetTagForms tbl turns (.primType typeId optional tagList)
  | .typeRef optional tagList typeDef implicit =>
    tblSetTagForms tbl turns (.typeRef optional tagList typeDef implicit)

/-- The loop over the elements of a type. -/
def tblFixElmtTags (tbl : TBL) (turns : Nat) : List TBLType → Except Exit (List TBLType)
  | [] => return []
  | tblElmtT :: rest => do
    return (← tblFixTypeTags tbl turns tblElmtT) :: (← tblFixElmtTags tbl turns rest)

end

/-- TblFixTags. -/
def tblFixTags (tbl : TBL) (turns : Nat) : Except Exit TBL := do
  let modules ← tbl.modules.mapM fun tblMod => do
    let typeDefs ← tblMod.typeDefs.mapM fun tblTd => do
      return { tblTd with type := ← tblFixTypeTags tbl turns tblTd.type }
    return { tblMod with typeDefs }
  return { tbl with modules }

/-! ## The types of a table -/

mutual

/-- A type and the types within it. -/
def TBLType.all : TBLType → List TBLType
  | .elmts typeId optional tagList es =>
    .elmts typeId optional tagList es :: TBLType.allElmts es
  | .primType typeId optional tagList => [.primType typeId optional tagList]
  | .typeRef optional tagList typeDef implicit => [.typeRef optional tagList typeDef implicit]

/-- Elements and the types within them. -/
def TBLType.allElmts : List TBLType → List TBLType
  | [] => []
  | t :: rest => TBLType.all t ++ TBLType.allElmts rest

end

/-- The types of a table. -/
def TBL.types (tbl : TBL) : List TBLType :=
  tbl.modules.flatMap fun tblMod => tblMod.typeDefs.flatMap fun tblTd => tblTd.type.all

/-- The references of a table lead to type definitions. -/
def TBL.Linked (tbl : TBL) : Prop :=
  ∀ optional tagList typeDef implicit, .typeRef optional tagList typeDef implicit ∈ tbl.types →
    (tblFindTypeDefByIndex tbl typeDef).isSome

/-- A type definition is a reference to another one. -/
def RefersOn (tbl : TBL) (a b : TBLTypeDefId) : Prop :=
  ∃ tblTd, tblFindTypeDefByIndex tbl a = some tblTd ∧
    ∃ optional tagList implicit, tblTd.type = .typeRef optional tagList b implicit

/-! ## Effective tags -/

/-- The type is a reference. -/
def TBLType.isRef : TBLType → Bool
  | typeRef _ _ _ _ => true
  | _ => false

/-- The type has elements. -/
def TBLType.hasElmts : TBLType → Bool
  | elmts _ _ _ _ => true
  | _ => false

/-- What a type stands for: its effective tags, how many tags the references on the way have above the
number of those that are implicit, and the real type. -/
inductive Resolves (tbl : TBL) : TBLType → List TBLTag → Int → TBLType → Prop
  | real {t : TBLType} (notRef : t.isRef = false) : Resolves tbl t t.tagList 0 t
  | ref {typeDef : TBLTypeDefId} {tblTd : TBLTypeDef} {tags : List TBLTag} {excess : Int}
      {tid : TBLType} (found : tblFindTypeDefByIndex tbl typeDef = some tblTd)
      (resolves : Resolves tbl tblTd.type tags excess tid) (optional : Bool)
      (tagList : List TBLTag) (implicit : Bool) :
      -- An implicit reference removes the first tag of the type that it refers to.
      Resolves tbl (.typeRef optional tagList typeDef implicit)
        (tagList ++ if implicit then tags.tail else tags)
        (tagList.length - (if implicit then 1 else 0) + excess) tid

/-- TAG_ID_CLASS. -/
def tagIdClass (tid : AsnTag) : UInt32 :=
  (tid &&& (0xC0 : UInt32) <<< 24) >>> 24

/-- The number that the octets of a tag stand for. -/
def tagNumber (tid : AsnTag) : Nat :=
  let low := (tid >>> 24).toUInt8 &&& 0x1F
  if low ≠ 0x1F then low.toNat
  else
    let second := (tid >>> 16).toUInt8.toNat
    let third := (tid >>> 8).toUInt8.toNat
    if second < 128 then second
    else if third < 128 then second % 128 * 128 + third
    else second % 128 * 16384 + third % 128 * 128 + tid.toUInt8.toNat % 128

/-- The tags of a type have the forms that they should have. -/
structure TagsRight (effective : List TBLTag) (tid : TBLType) (own tags : List TBLTag) : Prop where
  kept : List.Forall₂ (fun tag tag' => tag'.tclass = tag.tclass ∧ tag'.code = tag.code) own tags
  /-- A tag is constructed where another effective tag follows or the real type has elements. -/
  form : ∀ (i : Nat) (tag : TBLTag), tags[i]? = some tag →
    (tag.form = .CONS ↔ i + 1 < effective.length ∨ tid.hasElmts = true)
  encTag : ∀ tag ∈ tags, tagIdClass tag.encTag = tag.tclass.toBer ∧
    (tagIsCons tag.encTag = true ↔ tag.form = .CONS) ∧ tagNumber tag.encTag = tag.code.toNat

/-- What makes the forms right: numbers that a word has room for, and for a reference with tags to a
type without elements, more tags than implicit references on the way exactly where an effective tag
follows its own, and no fewer where it has more than one. -/
structure FormsFit (t : TBLType) (effective : List TBLTag) (excess : Int) (tid : TBLType) :
    Prop where
  codes : ∀ tag ∈ t.tagList, tag.code.toNat < 2 ^ 21
  counts : t.isRef = true → t.tagList ≠ [] → tid.hasElmts = false →
    (0 < excess ↔ t.tagList.length < effective.length) ∧ (2 ≤ t.tagList.length → 0 ≤ excess)

/-! ## The words of tags -/

section

variable {cls form : UInt32} (classIn : cls ∈ [UNIV, APPL, CNTX, PRIV]) (formIn : form ∈ [PRIM, CONS])

theorem first_octet_parts (low : Fin 32) : ∀ cl ∈ [UNIV, APPL, CNTX, PRIV], ∀ fm ∈ [PRIM, CONS],
    ((cl ||| fm ||| UInt32.ofNat low).toUInt8 &&& 0xC0).toUInt32 = cl ∧
      ((cl ||| fm ||| UInt32.ofNat low).toUInt8 &&& 0x20 ≠ 0 ↔ fm = CONS) ∧
      ((cl ||| fm ||| UInt32.ofNat low).toUInt8 &&& 0x1F).toNat = low := by
  revert low
  simp only [List.forall_mem_cons, List.not_mem_nil, false_implies, implies_true, and_true]
  decide

/-- The class and the form stand in the first octet of a word. -/
theorem first_octet_reads (a b c d : UInt8) :
    tagIdClass (fourOctets a b c d) = (a &&& 0xC0).toUInt32 ∧
      (tagIsCons (fourOctets a b c d) = true ↔ a &&& 0x20 ≠ 0) := by
  constructor
  · unfold tagIdClass fourOctets
    apply UInt32.eq_of_toBitVec_eq
    apply BitVec.eq_of_getLsbD_eq
    intro i less
    interval_cases i <;> simp
  · have shifted : fourOctets a b c d &&& CONS <<< 24 = (a &&& 0x20).toUInt32 <<< 24 := by
      unfold fourOctets CONS
      apply UInt32.eq_of_toBitVec_eq
      apply BitVec.eq_of_getLsbD_eq
      intro i less
      interval_cases i <;> simp
    have back : ∀ x : UInt8, x.toUInt32 <<< 24 = 0 ↔ x = 0 := by
      intro x
      constructor
      · intro none
        have same : fourOctets x 0 0 0 = fourOctets 0 0 0 0 := by
          simpa [fourOctets] using none
        exact (fourOctets_inj same).1
      · rintro rfl
        rfl
    rw [tagIsCons, shifted, bne_iff_ne, ne_eq, back]

/-- A number below 31 stands in the first octet, and another one in those behind it. -/
theorem makeTagId_eq (cls form code : UInt32) :
    makeTagId cls form code =
      if code < 31 then fourOctets (cls ||| form ||| code).toUInt8 0 0 0
      else if code < 128 then fourOctets (cls ||| form ||| 31).toUInt8 code.toUInt8 0 0
      else if code < 16384 then
        fourOctets (cls ||| form ||| 31).toUInt8 ((0x80 : UInt32) ||| code >>> 7).toUInt8
          (code &&& (0x7F : UInt32)).toUInt8 0
      else
        fourOctets (cls ||| form ||| 31).toUInt8 ((0x80 : UInt32) ||| code >>> 14).toUInt8
          ((0x80 : UInt32) ||| code >>> 7).toUInt8 (code &&& (0x7F : UInt32)).toUInt8 := by
  have firstWord : ∀ x : UInt32, x.toUInt8.toUInt32 <<< 24 = x <<< 24 := by
    intro x
    rw [toUInt32_toUInt8, and_shiftLeft_24]
  have moreWord : ∀ x : UInt32,
      ((0x80 : UInt32) ||| x).toUInt8.toUInt32 = (0x80 : UInt32) ||| (x &&& 0xFF) := by
    intro x
    rw [UInt32.toUInt8_or, UInt8.toUInt32_or, toUInt32_toUInt8 x]
    rfl
  unfold makeTagId makeTagIdCode fourOctets
  rw [firstWord, firstWord]
  simp only [moreWord, toUInt32_toUInt8]
  -- The cases are those of the number of octets.
  split_ifs with one two three
  · simp [UInt32.shiftLeft_or]
  · rw [← word_two cls form (UInt32.lt_iff_toNat_lt.mp two)]
    simp
  · rw [← word_three cls form code]
    simp
  · exact (word_four cls form code).symm

/-- An octet that announces more has seven bits of the number. -/
theorem toNat_more (x : UInt32) :
    ((0x80 : UInt32) ||| x).toUInt8.toNat = 128 + x.toNat % 128 := by
  have every : ∀ y : Fin 256, ((0x80 : UInt8) ||| UInt8.ofNat y).toNat = 128 + y % 128 := by
    decide +kernel
  have octet : UInt8.ofNat (x.toNat % 256) = x.toUInt8 := by
    rw [← UInt8.toNat_inj, UInt8.toNat_ofNat', UInt32.toNat_toUInt8]
    omega
  have here := every ⟨x.toNat % 256, Nat.mod_lt _ (by decide)⟩
  rw [octet] at here
  rw [UInt32.toUInt8_or]
  change ((0x80 : UInt8) ||| x.toUInt8).toNat = _
  rw [here]
  change 128 + x.toNat % 256 % 128 = _
  omega

theorem toNat_last (x : UInt32) : (x &&& 0x7F).toUInt8.toNat = x.toNat % 128 := by
  have mask : (0x7F : UInt32).toNat = 2 ^ 7 - 1 := rfl
  rw [UInt32.toNat_toUInt8, UInt32.toNat_and, mask, Nat.and_two_pow_sub_one_eq_mod]
  omega

theorem tagNumber_fourOctets (a b c d : UInt8) :
    tagNumber (fourOctets a b c d) =
      if a &&& 0x1F ≠ 0x1F then (a &&& 0x1F).toNat
      else if b.toNat < 128 then b.toNat
      else if c.toNat < 128 then b.toNat % 128 * 128 + c.toNat
      else b.toNat % 128 * 16384 + c.toNat % 128 * 128 + d.toNat % 128 := by
  obtain ⟨fourth, third, second, first⟩ := fourOctets_octets a b c d
  rw [tagNumber]
  simp only [fourth, third, second, first]

include classIn formIn

/-- The word of a tag tells its class and its form, and its number if that has at most 21 bits. -/
theorem makeTagId_reads (code : UInt32) :
    tagIdClass (makeTagId cls form code) = cls ∧
      (tagIsCons (makeTagId cls form code) = true ↔ form = CONS) ∧
      (tagNumber (makeTagId cls form code) = code.toNat ↔ code.toNat < 2 ^ 21) := by
  obtain ⟨isClass, isForm, isLong⟩ := first_octet_parts 31 cls classIn form formIn
  have long : (cls ||| form ||| 31).toUInt8 &&& 0x1F = 0x1F := UInt8.toNat_inj.mp isLong
  have shift : ∀ k : Nat, k < 32 → (code >>> UInt32.ofNat k).toNat = code.toNat / 2 ^ k := by
    intro k less
    rw [UInt32.toNat_shiftRight, UInt32.toNat_ofNat_of_lt' (by rw [UInt32.size]; omega),
      Nat.mod_eq_of_lt less, Nat.shiftRight_eq_div_pow]
  have seven : (code >>> 7).toNat = code.toNat / 2 ^ 7 := shift 7 (by decide)
  have fourteen : (code >>> 14).toNat = code.toNat / 2 ^ 14 := shift 14 (by decide)
  rw [makeTagId_eq]
  -- The cases are those of the number of octets.
  split_ifs with one two three
  · have less : code.toNat < 31 := UInt32.lt_iff_toNat_lt.mp one
    obtain ⟨isClass, isForm, isNumber⟩ :=
      first_octet_parts ⟨code.toNat, Nat.lt_succ_of_lt less⟩ cls classIn form formIn
    simp only [UInt32.ofNat_toNat] at isClass isForm isNumber
    obtain ⟨readClass, readForm⟩ := first_octet_reads (cls ||| form ||| code).toUInt8 0 0 0
    refine ⟨readClass.trans isClass, readForm.trans isForm, ?_⟩
    have short : (cls ||| form ||| code).toUInt8 &&& 0x1F ≠ 0x1F := by
      intro all
      rw [all] at isNumber
      have top : (0x1F : UInt8).toNat = 31 := rfl
      omega
    rw [tagNumber_fourOctets, if_pos short, isNumber]
    exact iff_of_true rfl (by omega)
  · have less : code.toNat < 128 := UInt32.lt_iff_toNat_lt.mp two
    obtain ⟨readClass, readForm⟩ :=
      first_octet_reads (cls ||| form ||| 31).toUInt8 code.toUInt8 0 0
    refine ⟨readClass.trans isClass, readForm.trans isForm, ?_⟩
    have same : code.toUInt8.toNat = code.toNat := by
      rw [UInt32.toNat_toUInt8]
      omega
    rw [tagNumber_fourOctets, if_neg (not_not.mpr long), same, if_pos less]
    exact iff_of_true rfl (by omega)
  · have less : code.toNat < 16384 := UInt32.lt_iff_toNat_lt.mp three
    obtain ⟨readClass, readForm⟩ := first_octet_reads (cls ||| form ||| 31).toUInt8
      ((0x80 : UInt32) ||| code >>> 7).toUInt8 (code &&& (0x7F : UInt32)).toUInt8 0
    refine ⟨readClass.trans isClass, readForm.trans isForm, ?_⟩
    rw [tagNumber_fourOctets, if_neg (not_not.mpr long), toNat_more, toNat_last, seven,
      if_neg (by omega), if_pos (by omega)]
    exact iff_of_true (by omega) (by omega)
  · obtain ⟨readClass, readForm⟩ := first_octet_reads (cls ||| form ||| 31).toUInt8
      ((0x80 : UInt32) ||| code >>> 14).toUInt8 ((0x80 : UInt32) ||| code >>> 7).toUInt8
      (code &&& (0x7F : UInt32)).toUInt8
    refine ⟨readClass.trans isClass, readForm.trans isForm, ?_⟩
    rw [tagNumber_fourOctets, if_neg (not_not.mpr long), toNat_more, toNat_more, toNat_last, seven,
      fourteen, if_neg (by omega), if_neg (by omega)]
    omega

end

/-! ## References -/

/-- A type stands for one thing. -/
theorem Resolves.unique {tbl : TBL} {t : TBLType} {tags tags' : List TBLTag} {n n' : Int}
    {tid tid' : TBLType} (resolves : Resolves tbl t tags n tid)
    (resolves' : Resolves tbl t tags' n' tid') : tags = tags' ∧ n = n' ∧ tid = tid' := by
  induction resolves generalizing tags' n' tid' with
  | real notRef =>
    cases resolves' with
    | real _ => exact ⟨rfl, rfl, rfl⟩
    | ref _ _ _ _ _ => cases notRef
  | ref found _ optional tagList implicit ih =>
    cases resolves' with
    | real notRef => cases notRef
    | ref found' resolves' _ _ _ =>
      cases Option.some.inj (found.symm.trans found')
      obtain ⟨rfl, rfl, rfl⟩ := ih resolves'
      exact ⟨rfl, rfl, rfl⟩

/-- The loop over references ends at the real type, with the tags on the way counted. -/
theorem skipRefs_of_resolves {tbl : TBL} {t : TBLType} {tags : List TBLTag} {excess : Int}
    {tid : TBLType} (resolves : Resolves tbl t tags excess tid) :
    ∃ enough, ∀ turns, enough ≤ turns → ∀ numTags,
      skipRefs tbl turns t numTags = .ok (numTags + excess, tid) := by
  induction resolves with
  | @real t notRef =>
    refine ⟨1, fun turns most numTags => ?_⟩
    obtain ⟨turns, rfl⟩ := Nat.exists_eq_add_of_le' most
    rw [Int.add_zero]
    cases t with
    | primType typeId optional tagList => rfl
    | elmts typeId optional tagList es => rfl
    | typeRef optional tagList typeDef implicit => cases notRef
  | ref found _ optional tagList implicit ih =>
    obtain ⟨enough, ends⟩ := ih
    refine ⟨enough + 1, fun turns most numTags => ?_⟩
    obtain ⟨turns, rfl⟩ : ∃ k, turns = k + 1 := ⟨turns - 1, by omega⟩
    rw [skipRefs, found]
    dsimp only
    rw [ends turns (by omega), Int.add_assoc]

theorem mem_types_of_found {tbl : TBL} {id : TBLTypeDefId} {tblTd : TBLTypeDef}
    (found : tblFindTypeDefByIndex tbl id = some tblTd) : tblTd.type ∈ tbl.types := by
  obtain ⟨tblMod, isModule, inModule⟩ := List.exists_of_findSome?_eq_some found
  have here : tblTd.type ∈ tblTd.type.all := by
    cases tblTd.type with
    | primType typeId optional tagList => exact List.mem_cons_self
    | elmts typeId optional tagList es => exact List.mem_cons_self
    | typeRef optional tagList typeDef implicit => exact List.mem_cons_self
  exact List.mem_flatMap.mpr ⟨tblMod, isModule,
    List.mem_flatMap.mpr ⟨tblTd, List.mem_of_find?_eq_some inModule, here⟩⟩

/-- Where references lead to definitions and not around, each type stands for something. -/
theorem exists_resolves {tbl : TBL} (linked : tbl.Linked)
    (acyclic : ∀ id, ¬Relation.TransGen (RefersOn tbl) id id) {t : TBLType} (isType : t ∈ tbl.types) :
    ∃ tags excess tid, Resolves tbl t tags excess tid := by
  -- From a definition, the references on the way are fewer.
  have defined : ∀ id tblTd, tblFindTypeDefByIndex tbl id = some tblTd →
      ∃ tags excess tid, Resolves tbl tblTd.type tags excess tid := by
    intro id tblTd found
    let nodes : Finset TBLTypeDefId :=
      (tbl.modules.flatMap fun tblMod => tblMod.typeDefs.map TBLTypeDef.typeDefId).toFinset
    have isNode : ∀ {id : TBLTypeDefId} {tblTd : TBLTypeDef},
        tblFindTypeDefByIndex tbl id = some tblTd → id ∈ nodes := by
      intro id tblTd found
      obtain ⟨tblMod, isModule, inModule⟩ := List.exists_of_findSome?_eq_some found
      refine List.mem_toFinset.mpr (List.mem_flatMap.mpr ⟨tblMod, isModule, ?_⟩)
      refine List.mem_map.mpr ⟨tblTd, List.mem_of_find?_eq_some inModule, ?_⟩
      have same := List.find?_some inModule
      exact of_decide_eq_true same
    have closed : ∀ a ∈ nodes, ∀ b, RefersOn tbl a b → b ∈ nodes := by
      rintro a - b ⟨tblTd, foundA, optional, tagList, implicit, isRef⟩
      have there := mem_types_of_found foundA
      rw [isRef] at there
      obtain ⟨_, foundB⟩ := Option.isSome_iff_exists.mp (linked _ _ _ _ there)
      exact isNode foundB
    have acc := acc_of_acyclic nodes closed (isNode found) fun y _ => acyclic y
    induction acc generalizing tblTd with
    | intro id _ ih =>
      cases isRef : tblTd.type with
      | primType typeId optional tagList => exact ⟨_, _, _, .real rfl⟩
      | elmts typeId optional tagList es => exact ⟨_, _, _, .real rfl⟩
      | typeRef optional tagList typeDef implicit =>
        have there := mem_types_of_found found
        rw [isRef] at there
        obtain ⟨next, foundNext⟩ := Option.isSome_iff_exists.mp (linked _ _ _ _ there)
        obtain ⟨tags, excess, tid, resolves⟩ :=
          ih typeDef ⟨tblTd, found, optional, tagList, implicit, isRef⟩ next foundNext
        exact ⟨_, _, _, .ref foundNext resolves optional tagList implicit⟩
  cases t with
  | primType typeId optional tagList => exact ⟨_, _, _, .real rfl⟩
  | elmts typeId optional tagList es => exact ⟨_, _, _, .real rfl⟩
  | typeRef optional tagList typeDef implicit =>
    obtain ⟨next, found⟩ := Option.isSome_iff_exists.mp (linked _ _ _ _ isType)
    obtain ⟨tags, excess, tid, resolves⟩ := defined typeDef next found
    exact ⟨_, _, _, .ref found resolves optional tagList implicit⟩

/-! ## Forms -/

theorem tagForm_eq_cons_iff (tid : TBLType) (numTags : Int) :
    (tagForm tid numTags).1 = .CONS ↔ 1 < numTags ∨ tid.hasElmts = true := by
  unfold tagForm
  by_cases more : 1 < numTags
  · rw [if_pos more]
    exact iff_of_true rfl (.inl more)
  · rw [if_neg more]
    cases tid with
    | primType typeId optional tagList => cases typeId <;> simp [more, TBLType.hasElmts]
    | elmts typeId optional tagList es => exact iff_of_true rfl (.inr rfl)
    | typeRef optional tagList typeDef implicit => simp [more, TBLType.hasElmts]

/-- The word has the form of the tag, the primitive one where either is taken. -/
theorem tagForm_word (tid : TBLType) (numTags : Int) :
    (tagForm tid numTags).2 ∈ [PRIM, CONS] ∧
      ((tagForm tid numTags).2 = CONS ↔ (tagForm tid numTags).1 = .CONS) := by
  have pairs : tagForm tid numTags = (.CONS, CONS) ∨ tagForm tid numTags = (.ANY_FORM, PRIM) ∨
      tagForm tid numTags = (.PRIM, PRIM) := by
    unfold tagForm
    split_ifs with more
    · exact .inl rfl
    · cases tid with
      | primType typeId optional tagList =>
        cases typeId <;> first | exact .inr (.inl rfl) | exact .inr (.inr rfl)
      | elmts typeId optional tagList es => exact .inl rfl
      | typeRef optional tagList typeDef implicit => exact .inr (.inr rfl)
  rcases pairs with same | same | same <;> rw [same] <;> decide

theorem TBLTagClass.toBer_mem (tclass : TBLTagClass) :
    tclass.toBer ∈ [UNIV, APPL, CNTX, PRIV] := by
  cases tclass <;> decide

/-- The tags are counted down along the list. -/
theorem getElem?_setTagForms (tid : TBLType) (numTags : Int) (tags : List TBLTag) (i : Nat) :
    (setTagForms tid numTags tags)[i]? = tags[i]?.map fun tblTag =>
      { tblTag with
        form := (tagForm tid (numTags - i)).1
        encTag := makeTagId tblTag.tclass.toBer (tagForm tid (numTags - i)).2 tblTag.code } := by
  induction tags generalizing numTags i with
  | nil => rfl
  | cons tblTag rest ih =>
    cases i with
    | zero =>
      rw [setTagForms, List.getElem?_cons_zero, List.getElem?_cons_zero, Int.natCast_zero,
        Int.sub_zero]
      rfl
    | succ i =>
      have next : numTags - 1 - (i : Int) = numTags - ((i + 1 : Nat) : Int) := by omega
      rw [setTagForms, List.getElem?_cons_succ, List.getElem?_cons_succ, ih, next]

theorem setTagForms_keeps (tid : TBLType) (numTags : Int) (tags : List TBLTag) :
    List.Forall₂ (fun tag tag' => tag'.tclass = tag.tclass ∧ tag'.code = tag.code) tags
      (setTagForms tid numTags tags) := by
  induction tags generalizing numTags with
  | nil => exact .nil
  | cons tblTag rest ih => exact .cons ⟨rfl, rfl⟩ (ih _)

/-- The words are right exactly if they have room for the numbers. -/
theorem encTags_right_iff (tid : TBLType) (numTags : Int) (tags : List TBLTag) :
    (∀ tag ∈ setTagForms tid numTags tags, tagIdClass tag.encTag = tag.tclass.toBer ∧
        (tagIsCons tag.encTag = true ↔ tag.form = .CONS) ∧
        tagNumber tag.encTag = tag.code.toNat) ↔
      ∀ tag ∈ tags, tag.code.toNat < 2 ^ 21 := by
  induction tags generalizing numTags with
  | nil =>
    exact iff_of_true (fun _ there => absurd there List.not_mem_nil)
      (fun _ there => absurd there List.not_mem_nil)
  | cons tblTag rest ih =>
    obtain ⟨formIn, sameForm⟩ := tagForm_word tid numTags
    obtain ⟨isClass, isForm, isNumber⟩ :=
      makeTagId_reads tblTag.tclass.toBer_mem formIn tblTag.code
    rw [setTagForms, List.forall_mem_cons, List.forall_mem_cons, ih]
    refine and_congr_left fun _ => ?_
    dsimp only
    rw [isNumber]
    exact and_iff_right isClass |>.trans (and_iff_right (isForm.trans sameForm))

/-- The forms are right exactly if one more tag is counted where one follows. -/
theorem forms_right_iff (tid : TBLType) (numTags : Int) (own effective : List TBLTag) :
    (∀ (i : Nat) (tag : TBLTag), (setTagForms tid numTags own)[i]? = some tag →
        (tag.form = .CONS ↔ i + 1 < effective.length ∨ tid.hasElmts = true)) ↔
      ∀ i, i < own.length →
        (1 < numTags - i ∨ tid.hasElmts = true ↔ i + 1 < effective.length ∨ tid.hasElmts = true) := by
  constructor
  · intro right i inside
    have here := right i _ (by rw [getElem?_setTagForms, List.getElem?_eq_getElem inside]; rfl)
    rwa [tagForm_eq_cons_iff] at here
  · intro counts i tag found
    rw [getElem?_setTagForms] at found
    obtain ⟨tblTag, isOwn, rfl⟩ := Option.map_eq_some_iff.mp found
    rw [tagForm_eq_cons_iff]
    exact counts i (List.getElem?_eq_some_iff.mp isOwn).1

theorem Resolves.length_le {tbl : TBL} {t : TBLType} {effective : List TBLTag} {excess : Int}
    {tid : TBLType} (resolves : Resolves tbl t effective excess tid) :
    t.tagList.length ≤ effective.length ∧
      (t.isRef = false → effective.length = t.tagList.length ∧ excess = 0) := by
  cases resolves with
  | real notRef => exact ⟨le_refl _, fun _ => ⟨rfl, rfl⟩⟩
  | ref found resolves optional tagList implicit =>
    refine ⟨?_, fun notRef => Bool.noConfusion notRef⟩
    rw [List.length_append]
    exact Nat.le_add_right _ _

/-- The tags that are set for a type are right exactly if its references fit. -/
theorem tagsRight_iff {tbl : TBL} {t : TBLType} {effective : List TBLTag} {excess : Int}
    {tid : TBLType} (resolves : Resolves tbl t effective excess tid) :
    TagsRight effective tid t.tagList
        (setTagForms tid (t.tagList.length + excess) t.tagList) ↔
      FormsFit t effective excess tid := by
  obtain ⟨within, notRef⟩ := resolves.length_le
  -- Only the last two own tags can have the wrong form.
  have counts : (∀ i : Nat, i < t.tagList.length →
      (1 < (t.tagList.length : Int) + excess - i ∨ tid.hasElmts = true ↔
        i + 1 < effective.length ∨ tid.hasElmts = true)) ↔
      (t.isRef = true → t.tagList ≠ [] → tid.hasElmts = false →
        (0 < excess ↔ t.tagList.length < effective.length) ∧
          (2 ≤ t.tagList.length → 0 ≤ excess)) := by
    cases isElmts : tid.hasElmts with
    | true => simp
    | false =>
      simp only [Bool.false_eq_true, or_false, forall_const]
      cases isRef : t.isRef with
      | false =>
        obtain ⟨same, none⟩ := notRef isRef
        rw [same, none]
        refine iff_of_true (fun i inside => ?_) fun impossible => absurd impossible (by decide)
        omega
      | true =>
        constructor
        · intro each _ some
          have length := List.length_pos_iff.mpr some
          constructor
          · have last := each (t.tagList.length - 1) (by omega)
            omega
          · intro two
            have before := each (t.tagList.length - 2) (by omega)
            omega
        · intro fits i inside
          obtain ⟨follows, enough⟩ := fits rfl (List.length_pos_iff.mp (by omega))
          by_cases last : i + 1 = t.tagList.length
          · omega
          · have := enough (by omega)
            omega
  constructor
  · rintro ⟨-, forms, encTags⟩
    exact ⟨(encTags_right_iff tid _ _).mp encTags,
      counts.mp ((forms_right_iff tid _ _ _).mp forms)⟩
  · rintro ⟨codes, fits⟩
    exact ⟨setTagForms_keeps tid _ _, (forms_right_iff tid _ _ _).mpr (counts.mpr fits),
      (encTags_right_iff tid _ _).mpr codes⟩

/-! ## Tables -/

/-- What the loops over a table do to the tags of one type. -/
def Fixed (tbl : TBL) (turns : Nat) (t t' : TBLType) : Prop :=
  ∃ u, tblSetTagForms tbl turns t = .ok u ∧ t'.tagList = u.tagList

theorem withTags_tagList (t : TBLType) (tags : List TBLTag) : (t.withTags tags).tagList = tags := by
  cases t <;> rfl

/-- Only the tags of a type are set. -/
theorem eq_withTags_of_set {tbl : TBL} {turns : Nat} {t v : TBLType}
    (set : tblSetTagForms tbl turns t = .ok v) : v = t.withTags v.tagList := by
  unfold tblSetTagForms at set
  split_ifs at set with none
  · cases set
    cases t <;> rfl
  · cases skipped : skipRefs tbl turns t t.tagList.length with
    | error e =>
      rw [skipped] at set
      cases set
    | ok r =>
      rw [skipped] at set
      cases set
      rw [withTags_tagList]

mutual

/-- Where the tags of all types within a type can be set, they are. -/
theorem tblFixTypeTags_fixes (tbl : TBL) (turns : Nat) : (t : TBLType) →
    (∀ u ∈ t.all, ∃ v, tblSetTagForms tbl turns u = .ok v) →
    ∃ t', tblFixTypeTags tbl turns t = .ok t' ∧ List.Forall₂ (Fixed tbl turns) t.all t'.all
  | .primType typeId optional tagList, sets => by
    obtain ⟨v, set⟩ := sets _ List.mem_cons_self
    refine ⟨v, set, ?_⟩
    rw [eq_withTags_of_set set]
    exact .cons ⟨v, set, rfl⟩ .nil
  | .typeRef optional tagList typeDef implicit, sets => by
    obtain ⟨v, set⟩ := sets _ List.mem_cons_self
    refine ⟨v, set, ?_⟩
    rw [eq_withTags_of_set set]
    exact .cons ⟨v, set, rfl⟩ .nil
  | .elmts typeId optional tagList es, sets => by
    obtain ⟨v, set⟩ := sets _ List.mem_cons_self
    obtain ⟨es', fixed, each⟩ := tblFixElmtTags_fixes tbl turns es
      fun u there => sets u (List.mem_cons_of_mem _ there)
    refine ⟨.elmts typeId optional v.tagList es', ?_, .cons ⟨v, set, rfl⟩ each⟩
    rw [tblFixTypeTags, set, fixed]
    rfl

theorem tblFixElmtTags_fixes (tbl : TBL) (turns : Nat) : (es : List TBLType) →
    (∀ u ∈ TBLType.allElmts es, ∃ v, tblSetTagForms tbl turns u = .ok v) →
    ∃ es', tblFixElmtTags tbl turns es = .ok es' ∧
      List.Forall₂ (Fixed tbl turns) (TBLType.allElmts es) (TBLType.allElmts es')
  | [], _ => ⟨[], rfl, .nil⟩
  | t :: rest, sets => by
    obtain ⟨t', fixed, each⟩ := tblFixTypeTags_fixes tbl turns t
      fun u there => sets u (List.mem_append_left _ there)
    obtain ⟨rest', fixedRest, eachRest⟩ := tblFixElmtTags_fixes tbl turns rest
      fun u there => sets u (List.mem_append_right _ there)
    refine ⟨t' :: rest', ?_, List.rel_append each eachRest⟩
    rw [tblFixElmtTags, fixed, fixedRest]
    rfl

end

theorem exists_mapM {α α' : Type} {f : α → Except Exit α'} {P : α → α' → Prop} {l : List α}
    (each : ∀ x ∈ l, ∃ y, f x = .ok y ∧ P x y) : ∃ l', l.mapM f = .ok l' ∧ List.Forall₂ P l l' := by
  induction l with
  | nil => exact ⟨[], rfl, .nil⟩
  | cons x rest ih =>
    obtain ⟨y, here, holds⟩ := each x List.mem_cons_self
    obtain ⟨rest', there, all⟩ := ih fun z isIn => each z (List.mem_cons_of_mem x isIn)
    refine ⟨y :: rest', ?_, .cons holds all⟩
    rw [List.mapM_cons, here, there]
    rfl

/-- Where the tags of all types of a table can be set, they are. -/
theorem tblFixTags_fixes {tbl : TBL} {turns : Nat}
    (sets : ∀ u ∈ tbl.types, ∃ v, tblSetTagForms tbl turns u = .ok v) :
    ∃ fixed, tblFixTags tbl turns = .ok fixed ∧
      List.Forall₂ (Fixed tbl turns) tbl.types fixed.types := by
  have eachTd : ∀ tblMod ∈ tbl.modules, ∀ tblTd ∈ tblMod.typeDefs, ∃ tblTd' : TBLTypeDef,
      (do return { tblTd with type := ← tblFixTypeTags tbl turns tblTd.type }) = Except.ok tblTd' ∧
        List.Forall₂ (Fixed tbl turns) tblTd.type.all tblTd'.type.all := by
    intro tblMod isModule tblTd inModule
    obtain ⟨t', fixed, each⟩ := tblFixTypeTags_fixes tbl turns tblTd.type fun u there =>
      sets u (List.mem_flatMap.mpr
        ⟨tblMod, isModule, List.mem_flatMap.mpr ⟨tblTd, inModule, there⟩⟩)
    exact ⟨{ tblTd with type := t' }, by rw [fixed]; rfl, each⟩
  have eachMod : ∀ tblMod ∈ tbl.modules, ∃ tblMod' : TBLModule,
      (do
        let typeDefs ← tblMod.typeDefs.mapM fun tblTd => do
          return { tblTd with type := ← tblFixTypeTags tbl turns tblTd.type }
        return { tblMod with typeDefs }) = Except.ok tblMod' ∧
        List.Forall₂ (Fixed tbl turns) (tblMod.typeDefs.flatMap fun tblTd => tblTd.type.all)
          (tblMod'.typeDefs.flatMap fun tblTd => tblTd.type.all) := by
    intro tblMod isModule
    obtain ⟨typeDefs, fixed, each⟩ := exists_mapM (eachTd tblMod isModule)
    refine ⟨{ tblMod with typeDefs }, by rw [fixed]; rfl, ?_⟩
    exact List.rel_flatMap each fun _ _ related => related
  obtain ⟨modules, fixed, each⟩ := exists_mapM eachMod
  refine ⟨{ tbl with modules }, ?_, List.rel_flatMap each fun _ _ related => related⟩
  rw [tblFixTags, fixed]
  rfl

/-- With enough turns, the tags of a type are set by what it stands for. -/
theorem tblSetTagForms_sets {tbl : TBL} {t : TBLType} {effective : List TBLTag} {excess : Int}
    {tid : TBLType} (resolves : Resolves tbl t effective excess tid) :
    ∃ enough, ∀ turns, enough ≤ turns → ∃ v, tblSetTagForms tbl turns t = .ok v ∧
      v.tagList = setTagForms tid (t.tagList.length + excess) t.tagList := by
  obtain ⟨enough, skips⟩ := skipRefs_of_resolves resolves
  refine ⟨enough, fun turns most => ?_⟩
  unfold tblSetTagForms
  by_cases none : t.tagList.isEmpty
  · rw [if_pos none]
    refine ⟨t, rfl, ?_⟩
    rw [List.isEmpty_iff.mp none]
    rfl
  · rw [if_neg none, skips turns most]
    exact ⟨_, rfl, withTags_tagList _ _⟩

/-- In every linked table without cycles of references, the tags of every type are given the right
forms exactly if its references fit. -/
theorem tag_forms_right_iff (tbl : TBL) (linked : tbl.Linked)
    (acyclic : ∀ id, ¬Relation.TransGen (RefersOn tbl) id id) :
    ∃ enough, ∀ turns, enough ≤ turns → ∃ fixed, tblFixTags tbl turns = .ok fixed ∧
      List.Forall₂ (fun t t' => (∃ effective excess tid, Resolves tbl t effective excess tid) ∧
          ∀ effective excess tid, Resolves tbl t effective excess tid →
            (TagsRight effective tid t.tagList t'.tagList ↔ FormsFit t effective excess tid))
        tbl.types fixed.types := by
  have each : ∀ t ∈ tbl.types, ∃ enough, ∀ turns, enough ≤ turns →
      ∃ v effective excess tid, Resolves tbl t effective excess tid ∧
        tblSetTagForms tbl turns t = .ok v ∧
        v.tagList = setTagForms tid (t.tagList.length + excess) t.tagList := by
    intro t isType
    obtain ⟨effective, excess, tid, resolves⟩ := exists_resolves linked acyclic isType
    obtain ⟨enough, sets⟩ := tblSetTagForms_sets resolves
    refine ⟨enough, fun turns most => ?_⟩
    obtain ⟨v, set, tags⟩ := sets turns most
    exact ⟨v, effective, excess, tid, resolves, set, tags⟩
  obtain ⟨enough, all⟩ := exists_enough each
  refine ⟨enough, fun turns most => ?_⟩
  obtain ⟨fixed, ran, related⟩ := tblFixTags_fixes fun u isType => by
    obtain ⟨v, -, -, -, -, set, -⟩ := all turns most u isType
    exact ⟨v, set⟩
  refine ⟨fixed, ran, ?_⟩
  have withTypes := (List.forall₂_and_left _ _).mpr ⟨fun u isType => isType, related⟩
  refine withTypes.imp ?_
  rintro t t' ⟨isType, u, set, tagList⟩
  obtain ⟨v, effective, excess, tid, resolves, set', tags⟩ := all turns most t isType
  cases Except.ok.inj (set.symm.trans set')
  refine ⟨⟨effective, excess, tid, resolves⟩, fun effective' excess' tid' resolves' => ?_⟩
  obtain ⟨rfl, rfl, rfl⟩ := resolves.unique resolves'
  rw [tagList, tags]
  exact tagsRight_iff resolves

/-- A reference with the tags [1] and [2], implicit to the INTEGER of another definition. -/
def implicitTbl : TBL where
  modules := [⟨"M", [
    ⟨0, "A", .typeRef false [⟨.CONTEXT, 1, .PRIM, 0⟩, ⟨.CONTEXT, 2, .PRIM, 0⟩] 1 true⟩,
    ⟨1, "B", .primType .INTEGER false [⟨.UNIVERSAL, 2, .PRIM, 0⟩]⟩]⟩]

/-- Its references lead to the second definition, and not around. -/
theorem implicitTbl_linked :
    implicitTbl.Linked ∧ ∀ id, ¬Relation.TransGen (RefersOn implicitTbl) id id := by
  have leads : ∀ a b, RefersOn implicitTbl a b → a = 0 ∧ b = 1 := by
    rintro a b ⟨tblTd, found, optional, tagList, implicit, isRef⟩
    by_cases first : a = 0
    · subst first
      cases found
      cases isRef
      exact ⟨rfl, rfl⟩
    · by_cases second : a = 1
      · subst second
        cases found
        cases isRef
      · simp [tblFindTypeDefByIndex, implicitTbl, Ne.symm first, Ne.symm second] at found
  constructor
  · intro optional tagList typeDef implicit isType
    simp [TBL.types, implicitTbl, TBLType.all] at isType
    rw [isType.2.2.1]
    rfl
  · intro id cycle
    obtain ⟨b, out, -⟩ := Relation.TransGen.head'_iff.mp cycle
    obtain ⟨a, -, back⟩ := Relation.TransGen.tail'_iff.mp cycle
    have both := (leads _ _ out).1.symm.trans (leads _ _ back).2
    exact absurd both (by decide)

theorem tag_forms_right_iff_implicit :
    ∃ enough, ∀ turns, enough ≤ turns → ∃ fixed, tblFixTags implicitTbl turns = .ok fixed ∧
      List.Forall₂ (fun t t' =>
          (∃ effective excess tid, Resolves implicitTbl t effective excess tid) ∧
          ∀ effective excess tid, Resolves implicitTbl t effective excess tid →
            (TagsRight effective tid t.tagList t'.tagList ↔ FormsFit t effective excess tid))
        implicitTbl.types fixed.types :=
  tag_forms_right_iff implicitTbl implicitTbl_linked.1 implicitTbl_linked.2

/-- The tag [2] is made constructed although the INTEGER follows it without a tag. -/
theorem not_tag_forms_right :
    ¬ ∀ tbl : TBL, tbl.Linked → (∀ id, ¬Relation.TransGen (RefersOn tbl) id id) →
      ∃ enough, ∀ turns, enough ≤ turns → ∃ fixed, tblFixTags tbl turns = .ok fixed ∧
        List.Forall₂ (fun t t' => ∀ effective excess tid, Resolves tbl t effective excess tid →
          TagsRight effective tid t.tagList t'.tagList) tbl.types fixed.types := by
  intro right
  obtain ⟨enough, sets⟩ := right implicitTbl implicitTbl_linked.1 implicitTbl_linked.2
  obtain ⟨fixed, ran, all⟩ := sets (enough + 2) (Nat.le_add_right _ _)
  cases ran
  have found : tblFindTypeDefByIndex implicitTbl 1 =
      some ⟨1, "B", .primType .INTEGER false [⟨.UNIVERSAL, 2, .PRIM, 0⟩]⟩ := rfl
  have resolves : Resolves implicitTbl
      (.typeRef false [⟨.CONTEXT, 1, .PRIM, 0⟩, ⟨.CONTEXT, 2, .PRIM, 0⟩] 1 true)
      [⟨.CONTEXT, 1, .PRIM, 0⟩, ⟨.CONTEXT, 2, .PRIM, 0⟩] 1
      (.primType .INTEGER false [⟨.UNIVERSAL, 2, .PRIM, 0⟩]) :=
    .ref found (.real rfl) false _ true
  have forms := ((List.forall₂_cons.mp all).1 _ _ _ resolves).form 1 _ rfl
  exact absurd forms (by decide)

end Esnacc
