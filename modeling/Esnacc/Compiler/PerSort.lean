import Esnacc.Compiler.GetTags
import Esnacc.Lib.ExchangeSort

/-! The order in which the components of a SET and the alternatives of a CHOICE go into PER. -/

namespace Esnacc.Compiler

open Lib

section

variable (m : Parsed)

/-! ## The sort -/

/-- The number that an element is sorted by. -/
def elementTag (tags : List Tag) (stoleChoiceTags : Bool) : Int :=
  match tags with
  | [] => 0
  | tag :: _ =>
    -- Of an untagged CHOICE the lowest number is taken.
    if stoleChoiceTags then
      tags.foldl (fun lowest tag => if tag.code < lowest then tag.code else lowest) 9999
    else tag.code

/-- The elements of a list from the current one on, each with its number. -/
def elementTagsFrom (getTags : Nat → CursorM (List Tag × Bool)) (elmts : Nat) :
    Nat → List (Int × Nat) → CursorM (List (Int × Nat))
  | 0, _ => failure
  | turns + 1, elements => do
    let curr ← get
    match (m.namedTypeLists elmts)[curr.namedTypeLists elmts]? with
    | none => return elements
    | some e => do
      let (tags, stoleChoiceTags) ← getTags e
      modify fun curr => curr.setNamedTypes elmts (curr.namedTypeLists elmts + 1)
      elementTagsFrom getTags elmts turns (elements ++ [(elementTag tags stoleChoiceTags, e)])

/-- PrintCxxDefCode_PERSort: the elements and the numbers they are sorted by. -/
def printCxxDefCodePERSort (libTypesG : BasicTypeChoiceId → BerForm) (fuel elmts : Nat) :
    CursorM (List (Int × Nat)) := do
  modify fun curr => curr.setNamedTypes elmts 0
  let elements ← elementTagsFrom m (getTags m libTypesG fuel) elmts fuel []
  return exchangeSort Prod.fst elements

/-! ## The order that is asked for -/

/-- The place of a class in the canonical order; the last two are no classes of tags. -/
def BerClass.rank : BerClass → Nat
  | .univ => 0
  | .appl => 1
  | .cntx => 2
  | .priv => 3
  | .anyClass => 4
  | .nullClass => 5

/-- A tag in the canonical order: its class, then its number. -/
def Tag.canonical (tag : Tag) : Nat ×ₗ Int :=
  toLex (tag.tclass.rank, tag.code)

/-- The smallest outermost tag of an element, in the canonical order. -/
def canonicalTag (tags : List Tag) (stoleChoiceTags : Bool) : Option (Nat ×ₗ Int) :=
  (if stoleChoiceTags then tags else tags.take 1).map Tag.canonical |>.min?

/-- The same definitions with the elements of a list in another order. -/
def Parsed.reordered (elmts : Nat) (es : List Nat) : Parsed :=
  { m with namedTypeLists := Function.update m.namedTypeLists elmts es }

/-- The order that elements get when they stand in the list in a given order. -/
def PERSorts (libTypesG : BasicTypeChoiceId → BerForm) (elmts : Nat) (es sorted : List Nat) :
    Prop :=
  ∃ n, ∀ fuel ≥ n, ∀ curr, ∃ elements curr',
    printCxxDefCodePERSort (m.reordered elmts es) libTypesG fuel elmts curr =
      some (elements, curr') ∧ elements.map Prod.snd = sorted

end

variable {m : Parsed} {libTypesG : BasicTypeChoiceId → BerForm} {elmts : Nat} {es : List Nat}

/-! ## Definitions with another order -/

theorem reordered_namedTypeLists : (m.reordered elmts es).namedTypeLists elmts = es :=
  Function.update_self ..

theorem RefChain.reordered {t last : Nat} {ts : List Nat} (chain : RefChain m t ts last) :
    RefChain (m.reordered elmts es) t ts last := by
  induction chain with
  | last ends => exact .last ends
  | ref refers _ ih => exact .ref refers ih

theorem replaced_reordered (above : List Nat) :
    replaced (m.reordered elmts es) above = replaced m above := by
  induction above with
  | nil => rfl
  | cons t above ih =>
    rw [replaced, replaced, ih]
    rfl

theorem chainTags_reordered (above ts : List Nat) :
    chainTags (m.reordered elmts es) above ts = chainTags m above ts := by
  induction ts generalizing above with
  | nil => rfl
  | cons t ts ih =>
    rw [chainTags, chainTags, ih, replaced_reordered]
    rfl

theorem Chain.reordered {t last : Nat} {tags : List Tag} (chain : Chain m t tags last) :
    Chain (m.reordered elmts es) t tags last := by
  obtain ⟨ts, refs, rfl⟩ := chain
  exact ⟨ts, refs.reordered, chainTags_reordered [] ts⟩

theorem chain_reordered_iff {t last : Nat} {tags : List Tag} :
    Chain (m.reordered elmts es) t tags last ↔ Chain m t tags last := by
  constructor
  · intro chain
    -- The first order is one of the others.
    have back : (m.reordered elmts es).reordered elmts (m.namedTypeLists elmts) = m := by
      rw [Parsed.reordered, Parsed.reordered, Function.update_idem, Function.update_eq_self]
    have chain' : Chain ((m.reordered elmts es).reordered elmts (m.namedTypeLists elmts)) t tags
        last := chain.reordered
    rwa [back] at chain'
  · exact Chain.reordered

/-- A CHOICE with another list of alternatives has the same ones. -/
theorem alternatives_reordered {last : Nat}
    (other : (m.types last).basicType.elmts ≠ some elmts) :
    alternatives (m.reordered elmts es) last = alternatives m last := by
  rw [alternatives, alternatives]
  cases list : (m.types last).basicType.elmts with
  | none =>
    have list' : ((m.reordered elmts es).types last).basicType.elmts = none := list
    rw [list']
  | some l =>
    have list' : ((m.reordered elmts es).types last).basicType.elmts = some l := list
    rw [list']
    refine Function.update_of_ne ?_ _ _
    rintro rfl
    exact other list

/-- What a type that does not go through the list offers does not depend on its order. -/
theorem offers_reordered_iff {t e : Nat} (apart : ¬GoesThrough m t elmts) :
    Offers (m.reordered elmts es) t e ↔ Offers m t e := by
  have same {last : Nat} (chain : Chain m t [] last) (choice : isChoice m last) :
      alternatives (m.reordered elmts es) last = alternatives m last :=
    alternatives_reordered fun list => apart ⟨t, last, .refl, chain, choice, list⟩
  constructor
  · rintro ⟨last, chain, choice, inside⟩
    rw [chain_reordered_iff] at chain
    rw [same chain choice] at inside
    exact ⟨last, chain, choice, inside⟩
  · rintro ⟨last, chain, choice, inside⟩
    refine ⟨last, chain.reordered, choice, ?_⟩
    rwa [same chain choice]

theorem not_goesThrough_of_offers {t e : Nat} (apart : ¬GoesThrough m t elmts)
    (offers : Offers m t e) : ¬GoesThrough m e elmts := by
  rintro ⟨x, last, reaches, rest⟩
  exact apart ⟨x, last, .head offers reaches, rest⟩

theorem reaches_of_reordered {t e : Nat} (apart : ¬GoesThrough m t elmts)
    (reaches : Reaches (m.reordered elmts es) t e) : Reaches m t e := by
  induction reaches using Relation.TransGen.head_induction_on with
  | single offers => exact .single ((offers_reordered_iff apart).mp offers)
  | head offers _ ih =>
    have first := (offers_reordered_iff apart).mp offers
    exact .head first (ih (not_goesThrough_of_offers apart first))

/-- The tags of a type that does not go through the list do not depend on its order. -/
theorem Effective.reordered {t : Nat} {tags : List Tag} {stole : Bool}
    (effective : Effective m libTypesG t tags stole) (apart : ¬GoesThrough m t elmts) :
    Effective (m.reordered elmts es) libTypesG t tags stole := by
  induction effective with
  | chain chain tagged => exact .chain chain.reordered tagged
  | @choice t last tagsOf stoleOf chain choice _ ih =>
    have same : alternatives (m.reordered elmts es) last = alternatives m last :=
      alternatives_reordered fun list => apart ⟨t, last, .refl, chain, choice, list⟩
    have each : ∀ e ∈ alternatives (m.reordered elmts es) last,
        Effective (m.reordered elmts es) libTypesG e (tagsOf e) (stoleOf e) := by
      intro e inside
      rw [same] at inside
      have offers : Offers m t e := ⟨last, chain, choice, inside⟩
      exact ih e inside (not_goesThrough_of_offers apart offers)
    have whole := Effective.choice chain.reordered choice each
    rwa [same] at whole

theorem Delivers.reordered {e : Nat} (delivers : Delivers m e) :
    Delivers (m.reordered elmts es) e := by
  rcases delivers with extension | choice
  · exact .inl extension
  · exact .inr fun last chain => choice last (chain_reordered_iff.mp chain)

/-! ## The elements of a list -/

/-- What is known of the elements of a list, which have tags to be sorted by. -/
structure Sortable (m : Parsed) (libTypesG : BasicTypeChoiceId → BerForm) (elmts : Nat)
    (tagsOf : Nat → List Tag) (stoleOf : Nat → Bool) : Prop where
  effective : ∀ e ∈ m.namedTypeLists elmts, Effective m libTypesG e (tagsOf e) (stoleOf e)
  delivers : ∀ e ∈ m.namedTypeLists elmts, ∀ x, Reaches m e x → Delivers m x

variable {tagsOf : Nat → List Tag} {stoleOf : Nat → Bool}

/-- The elements can be sorted in every order of the list. -/
theorem Sortable.reordered (sortable : Sortable m libTypesG elmts tagsOf stoleOf)
    (perm : es.Perm (m.namedTypeLists elmts)) :
    Sortable (m.reordered elmts es) libTypesG elmts tagsOf stoleOf := by
  have inside {e : Nat} (member : e ∈ (m.reordered elmts es).namedTypeLists elmts) :
      e ∈ m.namedTypeLists elmts := by
    rw [reordered_namedTypeLists] at member
    exact perm.mem_iff.mp member
  have apart {e : Nat} (member : e ∈ m.namedTypeLists elmts) : ¬GoesThrough m e elmts :=
    not_goesThrough (sortable.effective e member).finite member
  constructor
  · intro e member
    exact (sortable.effective e (inside member)).reordered (apart (inside member))
  · intro e member x reaches
    have reaches' := reaches_of_reordered (apart (inside member)) reaches
    exact (sortable.delivers e (inside member) x reaches').reordered

theorem elementTagsFrom_none {getTags : Nat → CursorM (List Tag × Bool)} {curr : ListCursors}
    (last : (m.namedTypeLists elmts)[curr.namedTypeLists elmts]? = none) (turns : Nat)
    (elements : List (Int × Nat)) :
    elementTagsFrom m getTags elmts (turns + 1) elements curr = some (elements, curr) := by
  rw [elementTagsFrom]
  change StateT.run (match (m.namedTypeLists elmts)[curr.namedTypeLists elmts]? with
    | none => (pure elements : CursorM (List (Int × Nat)))
    | some e => _) curr = _
  rw [last]
  rfl

/-- At an element its number is taken, and the walk goes on behind it. -/
theorem elementTagsFrom_some {getTags : Nat → CursorM (List Tag × Bool)} {curr : ListCursors}
    {e : Nat} (here : (m.namedTypeLists elmts)[curr.namedTypeLists elmts]? = some e) (turns : Nat)
    (elements : List (Int × Nat)) :
    elementTagsFrom m getTags elmts (turns + 1) elements curr =
      (getTags e curr).bind fun got =>
        elementTagsFrom m getTags elmts turns (elements ++ [(elementTag got.1.1 got.1.2, e)])
          (got.2.setNamedTypes elmts (got.2.namedTypeLists elmts + 1)) := by
  rw [elementTagsFrom]
  change StateT.run (match (m.namedTypeLists elmts)[curr.namedTypeLists elmts]? with
    | none => (pure elements : CursorM (List (Int × Nat)))
    | some e => _) curr = _
  rw [here]
  change (getTags e curr >>= _) = _
  cases getTags e curr <;> rfl

/-- Each element from the cursor on gets its number. -/
theorem elementTagsFrom_spec {getTags : Nat → CursorM (List Tag × Bool)} {front es : List Nat}
    (split : m.namedTypeLists elmts = front ++ es)
    (each : ∀ e ∈ es, ∀ curr, ∃ curr', getTags e curr = some ((tagsOf e, stoleOf e), curr') ∧
      curr'.namedTypeLists elmts = curr.namedTypeLists elmts)
    {turns : Nat} (enough : es.length < turns) (elements : List (Int × Nat)) {curr : ListCursors}
    (place : curr.namedTypeLists elmts = front.length) :
    ∃ curr', elementTagsFrom m getTags elmts turns elements curr =
      some (elements ++ es.map fun e => (elementTag (tagsOf e) (stoleOf e), e), curr') := by
  -- The induction is on the elements behind the cursor.
  induction es generalizing front turns elements curr with
  | nil =>
    obtain ⟨more, rfl⟩ := Nat.exists_eq_add_of_lt enough
    have last : (m.namedTypeLists elmts)[curr.namedTypeLists elmts]? = none := by
      rw [split, place, List.append_nil]
      exact List.getElem?_eq_none (Nat.le_refl _)
    refine ⟨curr, ?_⟩
    rw [elementTagsFrom_none last, List.map_nil, List.append_nil]
  | cons e rest ih =>
    obtain ⟨more, rfl⟩ := Nat.exists_eq_add_of_lt enough
    have here : (m.namedTypeLists elmts)[curr.namedTypeLists elmts]? = some e := by
      rw [split, place, List.getElem?_append_right (Nat.le_refl _), Nat.sub_self]
      rfl
    obtain ⟨curr₁, got, same⟩ := each e List.mem_cons_self curr
    have next : (curr₁.setNamedTypes elmts (curr₁.namedTypeLists elmts + 1)).namedTypeLists
        elmts = (front ++ [e]).length := by
      rw [ListCursors.setNamedTypes_namedTypeLists, same, place, List.length_append]
      rfl
    obtain ⟨curr', later⟩ := ih (by rw [split, List.append_assoc]; rfl)
      (fun x inside => each x (List.mem_cons_of_mem e inside))
      (Nat.lt_of_lt_of_le (Nat.lt_succ_self rest.length)
        (Nat.le_add_right (rest.length + 1) more))
      (elements ++ [(elementTag (tagsOf e) (stoleOf e), e)]) next
    refine ⟨curr', ?_⟩
    rw [elementTagsFrom_some here, got, Option.bind_some, List.map_cons]
    rw [List.append_assoc, List.singleton_append] at later
    exact later

/-- The routine sorts the elements by their numbers. -/
theorem printCxxDefCodePERSort_spec (sortable : Sortable m libTypesG elmts tagsOf stoleOf) :
    ∃ n, ∀ fuel ≥ n, ∀ curr, ∃ curr', printCxxDefCodePERSort m libTypesG fuel elmts curr =
      some (exchangeSort Prod.fst ((m.namedTypeLists elmts).map fun e =>
        (elementTag (tagsOf e) (stoleOf e), e)), curr') := by
  have apart {e : Nat} (member : e ∈ m.namedTypeLists elmts) : ¬GoesThrough m e elmts :=
    not_goesThrough (sortable.effective e member).finite member
  -- One amount of fuel is enough for the tags of every element.
  obtain ⟨n, spec⟩ := @exists_fuel (fun e fuel => ∀ curr, ∃ curr',
      getTags m libTypesG fuel e curr = some ((tagsOf e, stoleOf e), curr') ∧
      ∀ l, ¬GoesThrough m e l → curr'.namedTypeLists l = curr.namedTypeLists l)
    (m.namedTypeLists elmts) fun e member =>
      (getTags_of_effective (sortable.effective e member)).1 (sortable.delivers e member)
  refine ⟨max n ((m.namedTypeLists elmts).length + 1), fun fuel enough curr => ?_⟩
  have long : n ≤ fuel ∧ (m.namedTypeLists elmts).length < fuel := by omega
  obtain ⟨curr', ran⟩ := @elementTagsFrom_spec m elmts tagsOf stoleOf (getTags m libTypesG fuel)
    [] (m.namedTypeLists elmts) rfl
    (fun e member curr => by
      obtain ⟨curr', got, kept⟩ := spec fuel long.1 e member curr
      exact ⟨curr', got, kept elmts (apart member)⟩)
    fuel long.2 [] (curr.setNamedTypes elmts 0)
    (by rw [ListCursors.setNamedTypes_namedTypeLists]; rfl)
  refine ⟨curr', ?_⟩
  change (elementTagsFrom m (getTags m libTypesG fuel) elmts fuel []
    (curr.setNamedTypes elmts 0) >>= _) = _
  rw [ran]
  rfl

/-- The order that elements get. -/
theorem perSorts_iff (sortable : Sortable m libTypesG elmts tagsOf stoleOf)
    (perm : es.Perm (m.namedTypeLists elmts)) {sorted : List Nat} :
    PERSorts m libTypesG elmts es sorted ↔
      (exchangeSort Prod.fst (es.map fun e => (elementTag (tagsOf e) (stoleOf e), e))).map Prod.snd =
        sorted := by
  obtain ⟨n, spec⟩ := printCxxDefCodePERSort_spec (sortable.reordered perm)
  rw [reordered_namedTypeLists] at spec
  constructor
  · rintro ⟨k, ran⟩
    obtain ⟨curr', got⟩ := spec (max n k) (Nat.le_max_left n k) ⟨fun _ => 0, fun _ => 0⟩
    obtain ⟨elements, curr'', got', rfl⟩ :=
      ran (max n k) (Nat.le_max_right n k) ⟨fun _ => 0, fun _ => 0⟩
    rw [got] at got'
    cases got'
    rfl
  · rintro rfl
    refine ⟨n, fun fuel enough curr => ?_⟩
    obtain ⟨curr', got⟩ := spec fuel enough curr
    exact ⟨_, curr', got, rfl⟩

end Esnacc.Compiler
