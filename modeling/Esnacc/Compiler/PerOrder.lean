import Esnacc.Compiler.PerSort

/-! When the order of components in PER is the canonical order of their tags. -/

namespace Esnacc.Compiler

open Lib

variable {m : Parsed} {libTypesG : BasicTypeChoiceId → BerForm} {elmts : Nat}
  {tagsOf : Nat → List Tag} {stoleOf : Nat → Bool}

/-- The numbers of which the lowest sorts an element: none above 9999 counts for a CHOICE. -/
def numbers (tags : List Tag) (stoleChoiceTags : Bool) : List Int :=
  if stoleChoiceTags then 9999 :: tags.map Tag.code else (tags.take 1).map Tag.code

/-- An element has a number that is below all those of another one. -/
def NumberedBefore (tagsOf : Nat → List Tag) (stoleOf : Nat → Bool) (a b : Nat) : Prop :=
  ∃ x ∈ numbers (tagsOf a) (stoleOf a), ∀ y ∈ numbers (tagsOf b) (stoleOf b), x < y

/-! ## Numbers -/

/-- The walk over the tags of a CHOICE finds the lowest number. -/
theorem lowest_spec (tags : List Tag) (start : Int) :
    tags.foldl (fun lowest tag => if tag.code < lowest then tag.code else lowest) start ∈
        start :: tags.map Tag.code ∧
      ∀ y ∈ start :: tags.map Tag.code,
        tags.foldl (fun lowest tag => if tag.code < lowest then tag.code else lowest) start ≤ y := by
  -- The induction is on the tags to come; the start is the lowest so far.
  induction tags generalizing start with
  | nil =>
    refine ⟨List.mem_singleton.mpr rfl, fun y member => ?_⟩
    rw [List.mem_singleton.mp member]
    exact Int.le_refl _
  | cons tag rest ih =>
    rw [List.foldl_cons]
    by_cases lower : tag.code < start
    · rw [if_pos lower]
      obtain ⟨member, least⟩ := ih tag.code
      refine ⟨List.mem_cons_of_mem _ member, fun y inside => ?_⟩
      rcases List.mem_cons.mp inside with rfl | inside
      · exact Int.le_trans (least _ List.mem_cons_self) (Int.le_of_lt lower)
      · exact least y inside
    · rw [if_neg lower]
      obtain ⟨member, least⟩ := ih start
      constructor
      · rcases List.mem_cons.mp member with first | behind
        · rw [first]
          exact List.mem_cons_self
        · exact List.mem_cons_of_mem _ (List.mem_cons_of_mem _ behind)
      · intro y inside
        rcases List.mem_cons.mp inside with rfl | inside
        · exact least _ List.mem_cons_self
        · rcases List.mem_cons.mp inside with rfl | inside
          · exact Int.le_trans (least _ List.mem_cons_self) (Int.not_lt.mp lower)
          · exact least y (List.mem_cons_of_mem _ inside)

/-- An element with tags is sorted by the lowest of its numbers. -/
theorem elementTag_spec {tags : List Tag} (tagged : tags ≠ []) (stoleChoiceTags : Bool) :
    elementTag tags stoleChoiceTags ∈ numbers tags stoleChoiceTags ∧
      ∀ y ∈ numbers tags stoleChoiceTags, elementTag tags stoleChoiceTags ≤ y := by
  cases tags with
  | nil => exact absurd rfl tagged
  | cons tag rest =>
    cases stoleChoiceTags with
    | true => exact lowest_spec (tag :: rest) 9999
    | false =>
      refine ⟨List.mem_singleton.mpr rfl, fun y member => ?_⟩
      rw [List.mem_singleton.mp member]
      exact Int.le_refl _

theorem elementTag_lt_iff {a b : Nat} (taggedA : tagsOf a ≠ []) (taggedB : tagsOf b ≠ []) :
    elementTag (tagsOf a) (stoleOf a) < elementTag (tagsOf b) (stoleOf b) ↔
      NumberedBefore tagsOf stoleOf a b := by
  obtain ⟨memberA, leastA⟩ := elementTag_spec taggedA (stoleOf a)
  obtain ⟨memberB, leastB⟩ := elementTag_spec taggedB (stoleOf b)
  constructor
  · intro less
    exact ⟨_, memberA, fun y inside => Int.lt_of_lt_of_le less (leastB y inside)⟩
  · rintro ⟨x, inside, below⟩
    exact Int.lt_of_le_of_lt (leastA x inside) (below _ memberB)

theorem tagged_of_canonicalTag {tags : List Tag} {stole : Bool} {c : Nat ×ₗ Int}
    (smallest : canonicalTag tags stole = some c) : tags ≠ [] := by
  rintro rfl
  cases stole <;> cases smallest

/-! ## The canonical order -/

/-- An element with its number. -/
def numbered (tagsOf : Nat → List Tag) (stoleOf : Nat → Bool) (e : Nat) : Int × Nat :=
  (elementTag (tagsOf e) (stoleOf e), e)

/-- The elements in the order of their numbers. -/
def byNumber (tagsOf : Nat → List Tag) (stoleOf : Nat → Bool) (es : List Nat) : List Nat :=
  (exchangeSort Prod.fst (es.map (numbered tagsOf stoleOf))).map Prod.snd

theorem map_snd_numbered (es : List Nat) : (es.map (numbered tagsOf stoleOf)).map Prod.snd = es := by
  rw [List.map_map]
  exact List.map_id es

theorem byNumber_perm (es : List Nat) : (byNumber tagsOf stoleOf es).Perm es := by
  have sorted : (exchangeSort Prod.fst (es.map (numbered tagsOf stoleOf))).Perm
      (es.map (numbered tagsOf stoleOf)) := exchangeSort_perm _
  have back := sorted.map Prod.snd
  rwa [map_snd_numbered] at back

/-- The order by numbers is canonical, from whatever order, exactly where the numbers follow it. -/
theorem byNumber_canonical_iff {canon : Nat → Nat ×ₗ Int} {es : List Nat}
    (distinct : (es.map canon).Nodup) :
    (∀ es', es'.Perm es → (byNumber tagsOf stoleOf es').Pairwise fun a b => canon a < canon b) ↔
      ∀ a ∈ es, ∀ b ∈ es, canon a < canon b →
        elementTag (tagsOf a) (stoleOf a) < elementTag (tagsOf b) (stoleOf b) := by
  let pairs := es.map (numbered tagsOf stoleOf)
  let rank (p : Int × Nat) : Nat ×ₗ Int := canon p.2
  have ranked : (pairs.map rank).Nodup := by
    rw [List.map_map]
    exact distinct
  have general : (∀ ys, ys.Perm pairs →
        (exchangeSort Prod.fst ys).Pairwise fun p q => rank p < rank q) ↔
      ∀ p ∈ pairs, ∀ q ∈ pairs, rank p < rank q → p.1 < q.1 := exchangeSort_ranked_iff ranked
  constructor
  · intro canonical a insideA b insideB
    have each : ∀ ys, ys.Perm pairs →
        (exchangeSort Prod.fst ys).Pairwise fun p q => rank p < rank q := by
      intro ys perm
      -- Elements with their numbers are known by their elements.
      have paired : ys = (ys.map Prod.snd).map (numbered tagsOf stoleOf) := by
        rw [List.map_map, eq_comm]
        refine (List.map_congr_left fun p inside => ?_).trans (List.map_id ys)
        obtain ⟨e, -, rfl⟩ := List.mem_map.mp (perm.mem_iff.mp inside)
        rfl
      have perm' : (ys.map Prod.snd).Perm es := by
        have back := perm.map Prod.snd
        rwa [map_snd_numbered] at back
      have sorted := List.pairwise_map.mp (canonical _ perm')
      rwa [← paired] at sorted
    exact general.mp each _ (List.mem_map_of_mem insideA) _ (List.mem_map_of_mem insideB)
  · intro follows es' perm
    refine List.pairwise_map.mpr (general.mpr ?_ _ (perm.map _))
    intro p insideP q insideQ
    obtain ⟨a, insideA, rfl⟩ := List.mem_map.mp insideP
    obtain ⟨b, insideB, rfl⟩ := List.mem_map.mp insideQ
    exact follows a insideA b insideB

/--
The routine puts the components of every list into one order, whatever order they are written in,
and that is the canonical order of their smallest tags exactly where their numbers follow it.
-/
theorem perSort_canonical_iff {canon : Nat → Nat ×ₗ Int}
    (sortable : Sortable m libTypesG elmts tagsOf stoleOf)
    (smallest : ∀ e ∈ m.namedTypeLists elmts,
      canonicalTag (tagsOf e) (stoleOf e) = some (canon e))
    (distinct : ((m.namedTypeLists elmts).map canon).Nodup) :
    (∀ es, es.Perm (m.namedTypeLists elmts) →
      ∃ sorted, PERSorts m libTypesG elmts es sorted ∧ sorted.Perm (m.namedTypeLists elmts)) ∧
    ((∃ sorted, sorted.Perm (m.namedTypeLists elmts) ∧
        sorted.Pairwise (fun a b => canon a < canon b) ∧
        ∀ es, es.Perm (m.namedTypeLists elmts) → PERSorts m libTypesG elmts es sorted) ↔
      ∀ a ∈ m.namedTypeLists elmts, ∀ b ∈ m.namedTypeLists elmts, canon a < canon b →
        NumberedBefore tagsOf stoleOf a b) := by
  have tagged : ∀ e ∈ m.namedTypeLists elmts, tagsOf e ≠ [] := fun e inside =>
    tagged_of_canonicalTag (smallest e inside)
  have numbersFollow : (∀ a ∈ m.namedTypeLists elmts, ∀ b ∈ m.namedTypeLists elmts,
      canon a < canon b → NumberedBefore tagsOf stoleOf a b) ↔
      ∀ a ∈ m.namedTypeLists elmts, ∀ b ∈ m.namedTypeLists elmts, canon a < canon b →
        elementTag (tagsOf a) (stoleOf a) < elementTag (tagsOf b) (stoleOf b) := by
    refine forall₂_congr fun a insideA => forall₂_congr fun b insideB => ?_
    rw [elementTag_lt_iff (tagged a insideA) (tagged b insideB)]
  rw [numbersFollow, ← byNumber_canonical_iff distinct]
  refine ⟨fun es perm => ?_, ?_, ?_⟩
  · exact ⟨_, (perSorts_iff sortable perm).mpr rfl, (byNumber_perm es).trans perm⟩
  · -- The one order is what the sort gives.
    rintro ⟨sorted, -, canonical, each⟩ es perm
    have same : byNumber tagsOf stoleOf es = sorted :=
      (perSorts_iff sortable perm).mp (each es perm)
    rwa [same]
  · intro canonical
    have perm (es : List Nat) (perm : es.Perm (m.namedTypeLists elmts)) :
        (byNumber tagsOf stoleOf es).Perm (m.namedTypeLists elmts) := (byNumber_perm es).trans perm
    refine ⟨byNumber tagsOf stoleOf (m.namedTypeLists elmts), byNumber_perm _,
      canonical _ (List.Perm.refl _), fun es written => ?_⟩
    rw [perSorts_iff sortable written]
    -- Two canonical orders of the same elements are one.
    refine List.Perm.eq_of_pairwise ?_ (canonical es written) (canonical _ (List.Perm.refl _))
      ((perm es written).trans (byNumber_perm _).symm)
    intro a b _ _ less greater
    exact absurd less (lt_asymm greater)

/-! ## Two elements -/

/-- A list of two elements with a tag each. -/
def twoElements (a b : Tag) : Parsed where
  types e := ⟨some e, false, { choiceId := .null }, false, false⟩
  tagLists tl := [if tl = 0 then a else b]
  namedTypeLists _ := [0, 1]

/-- The tags of such elements. -/
def twoTags (a b : Tag) (e : Nat) : List Tag :=
  [{ (if e = 0 then a else b) with form := .prim }]

theorem sortable_twoElements (a b : Tag) :
    Sortable (twoElements a b) (fun _ => .prim) 0 (twoTags a b) (fun _ => false) := by
  have chain (e : Nat) : Chain (twoElements a b) e [if e = 0 then a else b] e :=
    ⟨[e], .last rfl, rfl⟩
  constructor
  · intro e _
    exact .chain (chain e) (.inl (List.cons_ne_nil _ _))
  · intro e _ x reaches
    -- A tagged type offers no alternatives.
    obtain ⟨y, offers, -⟩ := Relation.TransGen.head'_iff.mp reaches
    exact absurd offers (not_offers_of_tagged (chain e) (.inl (List.cons_ne_nil _ _)) y)

/-- A tag of a class, with a number. -/
def classTag (tclass : BerClass) (code : Int) : Tag where
  tclass := tclass
  form := .prim
  code := code
  explicit := false

/-- The smallest tags of two elements. -/
def twoCanon (a b : Tag) (e : Nat) : Nat ×ₗ Int :=
  (if e = 0 then a else b).canonical

theorem canonicalTag_twoElements (a b : Tag) : ∀ e ∈ (twoElements a b).namedTypeLists 0,
    canonicalTag (twoTags a b e) false = some (twoCanon a b e) := by
  intro e inside
  rcases List.mem_cons.mp inside with rfl | inside
  · rfl
  · rw [List.mem_singleton.mp inside]
    rfl

/-- Two context-specific tags are put into the order of their numbers, however they are written. -/
theorem perSort_canonical_iff_context :
    ∃ sorted, sorted.Perm [0, 1] ∧
      sorted.Pairwise (fun a b => twoCanon (classTag .cntx 4) (classTag .cntx 2) a <
        twoCanon (classTag .cntx 4) (classTag .cntx 2) b) ∧
      ∀ es, es.Perm [0, 1] → PERSorts (twoElements (classTag .cntx 4) (classTag .cntx 2))
        (fun _ => .prim) 0 es sorted := by
  obtain ⟨-, canonical⟩ := perSort_canonical_iff
    (sortable_twoElements (classTag .cntx 4) (classTag .cntx 2))
    (canonicalTag_twoElements (classTag .cntx 4) (classTag .cntx 2)) (by decide)
  refine canonical.mpr ?_
  intro a insideA b insideB less
  -- Only the second element is before the other one.
  rcases List.mem_cons.mp insideA with rfl | insideA
  · rcases List.mem_cons.mp insideB with rfl | insideB
    · exact absurd less (lt_irrefl _)
    · rw [List.mem_singleton.mp insideB] at less
      exact absurd less (by decide)
  · rw [List.mem_singleton.mp insideA] at less ⊢
    rcases List.mem_cons.mp insideB with rfl | insideB
    · exact ⟨2, List.mem_singleton.mpr rfl, by decide⟩
    · rw [List.mem_singleton.mp insideB] at less
      exact absurd less (lt_irrefl _)

/-- An APPLICATION tag goes behind a context-specific one with a lower number. -/
theorem application_behind_context :
    ¬ ∀ (m : Parsed) (libTypesG : BasicTypeChoiceId → BerForm) (elmts : Nat)
      (tagsOf : Nat → List Tag) (stoleOf : Nat → Bool) (canon : Nat → Nat ×ₗ Int),
      Sortable m libTypesG elmts tagsOf stoleOf →
      (∀ e ∈ m.namedTypeLists elmts, canonicalTag (tagsOf e) (stoleOf e) = some (canon e)) →
      ((m.namedTypeLists elmts).map canon).Nodup →
      ∀ sorted, PERSorts m libTypesG elmts (m.namedTypeLists elmts) sorted →
        sorted.Pairwise fun a b => canon a < canon b := by
  intro canonical
  let appl := classTag .appl 5
  let cntx := classTag .cntx 0
  have sortable := sortable_twoElements appl cntx
  have sorts : PERSorts (twoElements appl cntx) (fun _ => .prim) 0 [0, 1] [1, 0] :=
    (perSorts_iff sortable (List.Perm.refl _)).mpr rfl
  have ordered := canonical _ _ 0 _ _ (twoCanon appl cntx) sortable
    (canonicalTag_twoElements appl cntx) (by decide) _ sorts
  exact absurd ordered (by decide)

end Esnacc.Compiler
