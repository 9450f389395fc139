import Esnacc.Compiler.TagUtil
import Esnacc.Lib.FirstFree

/-! The tags that components get in modules with automatic tagging. -/

namespace Esnacc.Compiler

open Lib

/-- Whether one of some tags has a code. -/
def tagCodeFound (tags : List Tag) (startingTag : Int) : Bool :=
  tags.any fun tag => tag.code = startingTag

/-- The first pass: the first context-specific tag of each component that has one. -/
def usedTags (l : List (Option (List Tag))) : List Tag :=
  l.filterMap fun tags => tags.bind fun tags => tags.find? fun t => t.tclass = .cntx

/-- The loop that steps over the codes found. -/
def unusedCode (usedTag : List Tag) (startingTag : Nat) : Nat :=
  nextFree (usedTag.map Tag.code) startingTag

/-- The tag that a component gets. -/
def newTag (code : Nat) : Tag where
  tclass := .cntx
  form := .prim
  code := code
  explicit := false

/-- The second pass: the tags of each component afterwards, and the messages printed. -/
def tagComponents (usedTag : List Tag) :
    List (Option (List Tag)) → Nat → Option (List (List Tag) × List String)
  | [], _ => some ([], [])
  | tags :: l, startingTag =>
    let found := (tags.getD []).filter fun t => t.tclass = .cntx
    if found.isEmpty then
      match tags with
      -- A list that is NULL is freed through its first node.
      | none => none
      | some _ =>
        let code := unusedCode usedTag startingTag
        (tagComponents usedTag l (code + 1)).map fun rest => ([newTag code] :: rest.1, rest.2)
    else
      (tagComponents usedTag l startingTag).map fun rest =>
        (tags.getD [] :: rest.1, (found.map fun _ => "CNTX tag exists\n") ++ rest.2)

/-- Give a tag to every component that has no context-specific one. -/
def automaticTagNamed : Option (List (Option (List Tag))) →
    Option (Option (List (List Tag)) × List String)
  | none => some (none, ["AutomaticTagNamed - NULL tag list.\n"])
  | some l => (tagComponents (usedTags l) l 0).map fun r => (some r.1, r.2)

/-! ## What the two passes do -/

/-- Whether some tags have a context-specific one. -/
def hasContextTag (tags : List Tag) : Prop :=
  ∃ tag ∈ tags, tag.tclass = .cntx

instance (tags : List Tag) : Decidable (hasContextTag tags) :=
  inferInstanceAs (Decidable (∃ tag ∈ tags, tag.tclass = .cntx))

/-- The tags of components before and after the second pass. -/
inductive Tagged (codes : List Int) : Nat → List (List Tag) → List (List Tag) → Prop
  | nil {startingTag : Nat} : Tagged codes startingTag [] []
  | kept {startingTag : Nat} {tags : List Tag} {l tagged : List (List Tag)} : hasContextTag tags →
      Tagged codes startingTag l tagged → Tagged codes startingTag (tags :: l) (tags :: tagged)
  | given {startingTag : Nat} {tags : List Tag} {l tagged : List (List Tag)} :
      ¬hasContextTag tags → Tagged codes (nextFree codes startingTag + 1) l tagged →
      Tagged codes startingTag (tags :: l) ([newTag (nextFree codes startingTag)] :: tagged)

theorem isEmpty_filter_iff (tags : List Tag) :
    (tags.filter fun t => t.tclass = .cntx).isEmpty = true ↔ ¬hasContextTag tags := by
  rw [List.isEmpty_iff, List.filter_eq_nil_iff]
  unfold hasContextTag
  simp

/-- The second pass over components that all have lists of tags. -/
theorem tagComponents_some (usedTag : List Tag) (l : List (List Tag)) (startingTag : Nat) :
    ∃ tagged printed, tagComponents usedTag (l.map some) startingTag = some (tagged, printed) ∧
      Tagged (usedTag.map Tag.code) startingTag l tagged := by
  induction l generalizing startingTag with
  | nil => exact ⟨[], [], rfl, .nil⟩
  | cons tags l ih =>
    rw [List.map_cons, tagComponents]
    simp only [Option.getD_some]
    by_cases has : hasContextTag tags
    · obtain ⟨tagged, printed, rest, relation⟩ := ih startingTag
      have found : ¬(tags.filter fun t => t.tclass = .cntx).isEmpty = true :=
        fun none => (isEmpty_filter_iff tags).mp none has
      rw [if_neg found, rest]
      exact ⟨_, _, rfl, .kept has relation⟩
    · obtain ⟨tagged, printed, rest, relation⟩ := ih (unusedCode usedTag startingTag + 1)
      rw [if_pos ((isEmpty_filter_iff tags).mpr has), rest]
      exact ⟨_, _, rfl, .given has relation⟩

/-- The second pass fails on a component whose list of tags is NULL. -/
theorem forall_ne_none_of_tagComponents {usedTag : List Tag} {l : List (Option (List Tag))}
    {startingTag : Nat} {result : List (List Tag) × List String}
    (ran : tagComponents usedTag l startingTag = some result) : ∀ tags ∈ l, tags ≠ none := by
  induction l generalizing startingTag result with
  | nil => simp
  | cons tags l ih =>
    have both : tags ≠ none ∧ ∃ next rest, tagComponents usedTag l next = some rest := by
      cases tags with
      | none => exact absurd ran (by simp [tagComponents])
      | some tags =>
        refine ⟨by simp, ?_⟩
        rw [tagComponents] at ran
        split at ran
        · obtain ⟨rest, inner, -⟩ := Option.map_eq_some_iff.mp ran
          exact ⟨_, rest, inner⟩
        · obtain ⟨rest, inner, -⟩ := Option.map_eq_some_iff.mp ran
          exact ⟨_, rest, inner⟩
    obtain ⟨here, _, rest, later⟩ := both
    intro tags' isIn
    rcases List.mem_cons.mp isIn with rfl | isLater
    · exact here
    · exact ih later tags' isLater

/-! ## Numbers and order -/

/-- The number of a tag, which a value may give. -/
def numberOf (valueOf : Nat → Int) (tag : Tag) : Int :=
  match tag.valueRef with
  | none => tag.code
  | some v => valueOf v

/-- The numbers of the outermost tags of components. -/
def outermostNumbers (valueOf : Nat → Int) (tagged : List (List Tag)) : List Int :=
  tagged.filterMap fun tags => tags.head?.map (numberOf valueOf)

/-- The codes of the tags of the components without a context-specific one before. -/
def givenCodes (l : List (Option (List Tag))) (tagged : List (List Tag)) : List Int :=
  (l.zip tagged).filterMap fun p =>
    if hasContextTag (p.1.getD []) then none else p.2.head?.map Tag.code

/-- How many components have no context-specific tag. -/
def untagged (l : List (Option (List Tag))) : Nat :=
  l.countP fun tags => ¬hasContextTag (tags.getD [])

/-- That the outermost tag is context-specific. -/
def ContextOutermost (tags : List Tag) : Prop :=
  ∃ tag ∈ tags.head?, tag.tclass = .cntx

variable {codes : List Int} {startingTag : Nat} {l tagged : List (List Tag)}

theorem find?_of_contextOutermost {tags : List Tag} (outermost : ContextOutermost tags) :
    tags.find? (fun t => t.tclass = .cntx) = tags.head? := by
  obtain ⟨tag, isHead, isContext⟩ := outermost
  cases tags with
  | nil => exact absurd isHead (by simp)
  | cons first rest =>
    obtain rfl : first = tag := by simpa using isHead
    rw [List.find?_cons_of_pos (by simpa using isContext), List.head?_cons]

theorem usedTags_cons (tags : List Tag) (l : List (Option (List Tag))) :
    usedTags (some tags :: l) =
      (tags.find? fun t => t.tclass = .cntx).toList ++ usedTags l := by
  unfold usedTags
  rw [List.filterMap_cons]
  simp only [Option.bind_some]
  cases tags.find? fun t => t.tclass = .cntx <;> rfl

theorem untagged_cons_of_not {tags : List Tag} (none : ¬hasContextTag tags)
    (l : List (Option (List Tag))) : untagged (some tags :: l) = untagged l + 1 := by
  unfold untagged
  rw [List.countP_cons_of_pos (by simpa using none)]

theorem untagged_cons_of_has {tags : List Tag} (has : hasContextTag tags)
    (l : List (Option (List Tag))) : untagged (some tags :: l) = untagged l := by
  unfold untagged
  rw [List.countP_cons_of_neg (by simpa using has)]

theorem find?_of_not_hasContextTag {tags : List Tag} (none : ¬hasContextTag tags) :
    tags.find? (fun t => t.tclass = .cntx) = Option.none := by
  rw [List.find?_eq_none]
  intro tag isIn isContext
  exact none ⟨tag, isIn, of_decide_eq_true isContext⟩

/-- The outermost numbers afterwards are those present before and the lowest unused ones. -/
theorem Tagged.outermostNumbers_perm (relation : Tagged codes startingTag l tagged)
    (valueOf : Nat → Int) (outermost : ∀ tags ∈ l, hasContextTag tags → ContextOutermost tags) :
    (outermostNumbers valueOf tagged).Perm
      ((usedTags (l.map some)).map (numberOf valueOf) ++
        (takeFree codes (untagged (l.map some)) startingTag).map (fun n : Nat => (n : Int))) := by
  induction relation with
  | nil => exact List.Perm.refl []
  | @kept _ tags l tagged has _ ih =>
    have here := outermost tags List.mem_cons_self has
    have rest := ih fun tags isIn => outermost tags (List.mem_cons_of_mem _ isIn)
    obtain ⟨tag, isHead, -⟩ := id here
    rw [Option.mem_def] at isHead
    have numbers : outermostNumbers valueOf (tags :: tagged) =
        numberOf valueOf tag :: outermostNumbers valueOf tagged := by
      simp [outermostNumbers, isHead]
    rw [numbers, List.map_cons, usedTags_cons, untagged_cons_of_has has,
      find?_of_contextOutermost here, isHead]
    exact rest.cons _
  | @given start tags l tagged none _ ih =>
    have rest := ih fun tags isIn => outermost tags (List.mem_cons_of_mem _ isIn)
    have numbers : outermostNumbers valueOf ([newTag (nextFree codes start)] :: tagged) =
        (nextFree codes start : Int) :: outermostNumbers valueOf tagged := rfl
    rw [numbers, List.map_cons, usedTags_cons, untagged_cons_of_not none,
      find?_of_not_hasContextTag none, takeFree, List.map_cons]
    exact (rest.cons _).trans List.perm_middle.symm

theorem Tagged.givenCodes_eq (relation : Tagged codes startingTag l tagged) :
    givenCodes (l.map some) tagged =
      (takeFree codes (untagged (l.map some)) startingTag).map fun n : Nat => (n : Int) := by
  induction relation with
  | nil => rfl
  | @kept _ tags l tagged has _ ih =>
    rw [List.map_cons, untagged_cons_of_has has, ← ih]
    simp [givenCodes, has]
  | @given start tags l tagged none _ ih =>
    rw [List.map_cons, untagged_cons_of_not none, takeFree, List.map_cons, ← ih]
    simp [givenCodes, none, newTag]

theorem Tagged.kept_forall (relation : Tagged codes startingTag l tagged) :
    List.Forall₂ (fun tags new => hasContextTag tags ∧ new = tags ∨
      ¬hasContextTag tags ∧ ∃ code, new = [newTag code]) l tagged := by
  induction relation with
  | nil => exact .nil
  | kept has _ ih => exact .cons (.inl ⟨has, rfl⟩) ih
  | given none _ ih => exact .cons (.inr ⟨none, _, rfl⟩) ih

/-! ## What is promised of automatic tags -/

/-- The tags of components after automatic tagging: a context-specific one outermost, with different
numbers if those present before were different, the lists that had one as they were, ascending codes
for the others, and every other tag written on a component still among its tags. -/
structure AutomaticallyTagged (valueOf : Nat → Int) (l : List (Option (List Tag)))
    (tagged : List (List Tag)) : Prop where
  outermost : ∀ tags ∈ tagged, ContextOutermost tags
  distinct : ((usedTags l).map (numberOf valueOf)).Nodup → (outermostNumbers valueOf tagged).Nodup
  kept : List.Forall₂ (fun tags new => hasContextTag (tags.getD []) → new = tags.getD []) l tagged
  ascending : (givenCodes l tagged).Pairwise (· < ·)
  tookPart : List.Forall₂ (fun tags new => ∀ tag ∈ tags.getD [],
    tag.tclass = .appl ∨ tag.tclass = .priv → tag ∈ new) l tagged

/-- That the components of a list are tagged as promised. -/
def TagsAutomatically (valueOf : Nat → Int) (l : List (Option (List Tag))) : Prop :=
  ∃ tagged printed, automaticTagNamed (some l) = some (some tagged, printed) ∧
    AutomaticallyTagged valueOf l tagged

/-- That a component has a context-specific tag outermost, or no tag but universal ones. -/
def KeepsItsTags (tags : Option (List Tag)) : Prop :=
  ∃ own, tags = some own ∧ (ContextOutermost own ∨
    ∀ tag ∈ own, tag.tclass ≠ .cntx ∧ tag.tclass ≠ .appl ∧ tag.tclass ≠ .priv)

/-- That no tag whose number a value gives has one of the numbers handed out, which are the lowest
ones that are not the code of a tag present. -/
def ValuesApart (valueOf : Nat → Int) (l : List (Option (List Tag))) : Prop :=
  ∀ tag ∈ usedTags l, tag.valueRef ≠ none →
    ∀ n ∈ takeFree ((usedTags l).map Tag.code) (untagged l) 0, numberOf valueOf tag ≠ (n : Int)

theorem ContextOutermost.hasContextTag {tags : List Tag} (outermost : ContextOutermost tags) :
    hasContextTag tags := by
  obtain ⟨tag, isHead, isContext⟩ := outermost
  exact ⟨tag, List.mem_of_mem_head? isHead, isContext⟩

/-- The numbers present are not handed out exactly where those given by values are apart. -/
theorem disjoint_iff_valuesApart (valueOf : Nat → Int) (l : List (Option (List Tag))) :
    ((usedTags l).map (numberOf valueOf)).Disjoint
        ((takeFree ((usedTags l).map Tag.code) (untagged l) 0).map fun n : Nat => (n : Int)) ↔
      ValuesApart valueOf l := by
  constructor
  · intro disjoint tag isUsed _ n isGiven same
    exact disjoint (List.mem_map_of_mem isUsed) (same ▸ List.mem_map_of_mem isGiven)
  · intro apart n isPresent isGiven
    obtain ⟨tag, isUsed, rfl⟩ := List.mem_map.mp isPresent
    obtain ⟨n, isTaken, same⟩ := List.mem_map.mp isGiven
    by_cases literal : tag.valueRef = none
    · -- The code of a tag is not handed out.
      have free := (mem_takeFree_iff.mp isTaken).1
      apply free
      rw [same, numberOf, literal]
      exact List.mem_map_of_mem isUsed
    · exact apart tag isUsed literal n isTaken same.symm

/-- Lists related in two ways have related elements in both ways. -/
theorem exists_of_forall₂ {α β : Type} {R S : α → β → Prop} {xs : List α} {ys : List β}
    (first : List.Forall₂ R xs ys) (second : List.Forall₂ S xs ys) {x : α} (isIn : x ∈ xs) :
    ∃ y ∈ ys, R x y ∧ S x y := by
  induction first with
  | nil => exact absurd isIn List.not_mem_nil
  | @cons a b xs ys here _ ih =>
    cases second with
    | cons here' later =>
      rcases List.mem_cons.mp isIn with rfl | isLater
      · exact ⟨b, List.mem_cons_self, here, here'⟩
      · obtain ⟨y, yIn, both⟩ := ih later isLater
        exact ⟨y, List.mem_cons_of_mem b yIn, both⟩

theorem exists_map_some {l : List (Option (List Tag))} (all : ∀ tags ∈ l, tags ≠ none) :
    ∃ lists : List (List Tag), l = lists.map some := by
  refine ⟨l.map fun tags => tags.getD [], ?_⟩
  rw [List.map_map]
  conv_lhs => rw [← List.map_id l]
  refine List.map_congr_left fun tags isIn => ?_
  obtain ⟨own, rfl⟩ := Option.ne_none_iff_exists'.mp (all tags isIn)
  rfl

/-- Where the promise is kept, every component keeps its tags. -/
theorem AutomaticallyTagged.keepsItsTags {valueOf : Nat → Int}
    (promise : AutomaticallyTagged valueOf (l.map some) tagged)
    (relation : Tagged codes startingTag l tagged) {tags : List Tag} (isIn : tags ∈ l) :
    KeepsItsTags (some tags) := by
  refine ⟨tags, rfl, ?_⟩
  have part : List.Forall₂ (fun (tags new : List Tag) => ∀ tag ∈ tags,
      tag.tclass = .appl ∨ tag.tclass = .priv → tag ∈ new) l tagged :=
    List.forall₂_map_left_iff.mp promise.tookPart
  obtain ⟨new, isNew, ⟨has, rfl⟩ | ⟨none, code, rfl⟩, took⟩ :=
    exists_of_forall₂ relation.kept_forall part isIn
  · exact .inl (promise.outermost new isNew)
  · -- What is not context-specific would have to be among the one new tag.
    refine .inr fun tag own => ⟨fun isContext => none ⟨tag, own, isContext⟩, ?_, ?_⟩
    · intro isAppl
      have kept := List.mem_singleton.mp (took tag own (.inl isAppl))
      rw [kept] at isAppl
      exact absurd isAppl (by simp [newTag])
    · intro isPriv
      have kept := List.mem_singleton.mp (took tag own (.inr isPriv))
      rw [kept] at isPriv
      exact absurd isPriv (by simp [newTag])

theorem KeepsItsTags.contextOutermost {tags : List Tag} (keeps : KeepsItsTags (some tags))
    (has : hasContextTag tags) : ContextOutermost tags := by
  obtain ⟨own, same, outermost | universal⟩ := keeps
  · exact Option.some.inj same ▸ outermost
  · obtain ⟨tag, isIn, isContext⟩ := has
    exact absurd isContext (universal tag (Option.some.inj same ▸ isIn)).1

/-- Where every component keeps its tags, the outermost numbers differ exactly when those present do
and those given by values are apart from the ones handed out. -/
theorem Tagged.outermostNumbers_nodup_iff {valueOf : Nat → Int}
    (relation : Tagged ((usedTags (l.map some)).map Tag.code) 0 l tagged)
    (keeps : ∀ tags ∈ l, KeepsItsTags (some tags)) :
    (outermostNumbers valueOf tagged).Nodup ↔
      ((usedTags (l.map some)).map (numberOf valueOf)).Nodup ∧
        ValuesApart valueOf (l.map some) := by
  have perm := relation.outermostNumbers_perm valueOf
    fun tags isIn has => (keeps tags isIn).contextOutermost has
  have given : ((takeFree ((usedTags (l.map some)).map Tag.code) (untagged (l.map some)) 0).map
      fun n : Nat => (n : Int)).Nodup := by
    refine List.Nodup.map (fun _ _ same => Int.ofNat.inj same) ?_
    exact (takeFree_pairwise _ _).imp fun less => Nat.ne_of_lt less
  rw [perm.nodup_iff, List.nodup_append', disjoint_iff_valuesApart]
  tauto

/-- Where every component keeps its tags and the numbers given by values are apart, the promise is
kept. -/
theorem Tagged.automaticallyTagged {valueOf : Nat → Int}
    (relation : Tagged ((usedTags (l.map some)).map Tag.code) 0 l tagged)
    (keeps : ∀ tags ∈ l, KeepsItsTags (some tags))
    (apart : ((usedTags (l.map some)).map (numberOf valueOf)).Nodup →
      ValuesApart valueOf (l.map some)) :
    AutomaticallyTagged valueOf (l.map some) tagged where
  outermost := by
    intro new isNew
    obtain ⟨tags, isIn, ⟨has, same⟩ | ⟨-, code, same⟩, -⟩ :=
      exists_of_forall₂ relation.kept_forall.flip relation.kept_forall.flip isNew
    · exact same ▸ (keeps tags isIn).contextOutermost has
    · rw [same]
      exact ⟨newTag code, rfl, rfl⟩
  distinct := fun present =>
    (relation.outermostNumbers_nodup_iff keeps).mpr ⟨present, apart present⟩
  kept := by
    refine List.forall₂_map_left_iff.mpr (relation.kept_forall.imp ?_)
    rintro tags new (⟨-, same⟩ | ⟨none, -⟩) has
    · exact same
    · exact absurd has none
  ascending := by
    rw [relation.givenCodes_eq, List.pairwise_map]
    exact (takeFree_pairwise _ _).imp fun less => Int.ofNat_lt.mpr less
  tookPart := by
    rw [List.forall₂_map_left_iff, List.forall₂_iff_zip]
    obtain ⟨lengths, each⟩ := List.forall₂_iff_zip.mp relation.kept_forall
    refine ⟨lengths, fun {tags new} isPair tag own written => ?_⟩
    rcases each isPair with ⟨-, same⟩ | ⟨none, -⟩
    · exact same ▸ own
    · obtain ⟨own', same, outermost | universal⟩ := keeps tags (List.of_mem_zip isPair).1
      · exact absurd (Option.some.inj same ▸ outermost.hasContextTag) none
      · have plain := universal tag (Option.some.inj same ▸ own)
        rcases written with isAppl | isPriv
        · exact absurd isAppl plain.2.1
        · exact absurd isPriv plain.2.2

/-- Automatic tagging keeps what is promised of it exactly when every component has a
context-specific tag outermost or none but universal tags, and, if the numbers present are different,
no number given by a value is handed out. -/
theorem tagsAutomatically_iff (valueOf : Nat → Int) (l : List (Option (List Tag))) :
    TagsAutomatically valueOf l ↔
      (∀ tags ∈ l, KeepsItsTags tags) ∧
        (((usedTags l).map (numberOf valueOf)).Nodup → ValuesApart valueOf l) := by
  have run (lists : List (List Tag)) : ∃ tagged printed,
      automaticTagNamed (some (lists.map some)) = some (some tagged, printed) ∧
        Tagged ((usedTags (lists.map some)).map Tag.code) 0 lists tagged := by
    obtain ⟨tagged, printed, ran, relation⟩ :=
      tagComponents_some (usedTags (lists.map some)) lists 0
    exact ⟨tagged, printed, by rw [automaticTagNamed, ran, Option.map_some], relation⟩
  constructor
  · rintro ⟨tagged, printed, ran, promise⟩
    obtain ⟨result, inner, -⟩ := Option.map_eq_some_iff.mp ran
    obtain ⟨lists, rfl⟩ := exists_map_some (forall_ne_none_of_tagComponents inner)
    obtain ⟨tagged', printed', ran', relation⟩ := run lists
    obtain ⟨rfl, -⟩ : tagged' = tagged ∧ printed' = printed := by
      simpa using ran'.symm.trans ran
    have keeps : ∀ tags ∈ lists, KeepsItsTags (some tags) :=
      fun tags isIn => promise.keepsItsTags relation isIn
    refine ⟨?_, fun present => ?_⟩
    · intro tags isIn
      obtain ⟨own, isOwn, rfl⟩ := List.mem_map.mp isIn
      exact keeps own isOwn
    · exact ((relation.outermostNumbers_nodup_iff keeps).mp (promise.distinct present)).2
  · rintro ⟨keeps, apart⟩
    obtain ⟨lists, rfl⟩ := exists_map_some fun tags isIn => by
      obtain ⟨own, rfl, -⟩ := keeps tags isIn
      simp
    obtain ⟨tagged, printed, ran, relation⟩ := run lists
    exact ⟨tagged, printed, ran, relation.automaticallyTagged
      (fun tags isIn => keeps (some tags) (List.mem_map_of_mem isIn)) apart⟩

/-- The tags of the component a [APPLICATION 1] INTEGER. -/
def applicationInteger : List Tag :=
  [{ tclass := .appl, form := .prim, code := 1, explicit := false },
    { tclass := .univ, form := .prim, code := 2, explicit := false }]

/-- The component loses the tag written on it. -/
theorem not_tagsAutomatically :
    ¬ ∀ (valueOf : Nat → Int) (l : List (Option (List Tag))), TagsAutomatically valueOf l := by
  intro claim
  obtain ⟨tagged, printed, ran, promise⟩ := claim (fun _ => 0) ([applicationInteger].map some)
  obtain ⟨tagged', printed', ran', relation⟩ :=
    tagComponents_some (usedTags ([applicationInteger].map some)) [applicationInteger] 0
  obtain ⟨rfl, -⟩ : tagged' = tagged ∧ printed' = printed := by
    rw [automaticTagNamed, ran', Option.map_some] at ran
    simpa using ran
  obtain ⟨own, same, ⟨tag, isHead, isContext⟩ | universal⟩ :=
    promise.keepsItsTags relation (List.mem_singleton_self applicationInteger)
  · obtain rfl := Option.some.inj same
    obtain rfl : { tclass := .appl, form := .prim, code := 1, explicit := false } = tag :=
      Option.some.inj isHead
    exact absurd isContext (by decide)
  · obtain rfl := Option.some.inj same
    exact (universal _ List.mem_cons_self).2.1 rfl

end Esnacc.Compiler
