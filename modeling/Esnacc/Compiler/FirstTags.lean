import Esnacc.Compiler.ErrChk
import Esnacc.Compiler.GetTags

/-! What the error checker collects of each component: its outermost tags, one after the other. -/

namespace Esnacc.Compiler

section

variable (m : Parsed)

/-- The outermost tags of a type, those of all its alternatives for an untagged CHOICE. -/
inductive FirstTags : Nat → List Tag → Prop
  | tag {t last : Nat} {tag : Tag} {rest : List Tag} : Chain m t (tag :: rest) last →
      FirstTags t [tag]
  | none {t last : Nat} : Chain m t [] last → ¬isChoice m last → FirstTags t []
  | choice {t last : Nat} {tagsOf : Nat → List Tag} : Chain m t [] last → isChoice m last →
      (∀ e ∈ alternatives m last, FirstTags e (tagsOf e)) →
      FirstTags t ((alternatives m last).flatMap tagsOf)

/-- An outermost tag of a type. -/
inductive OutermostTag : Nat → Tag → Prop
  | tag {t last : Nat} {tag : Tag} {rest : List Tag} : Chain m t (tag :: rest) last →
      OutermostTag t tag
  | alternative {t e : Nat} {tag : Tag} : Offers m t e → OutermostTag e tag → OutermostTag t tag

/-- Add tags to those defined, up to the first one that is defined already. -/
def addTags (definedTags : List Tag) : List Tag → Option (Bool × List Tag)
  | [] => some (true, definedTags)
  | tag :: tags => do
    let (distinct, definedTags) ← addTag m definedTags tag
    if distinct then addTags definedTags tags else return (false, definedTags)

end

variable {m : Parsed}

/-! ## Outermost tags -/

/-- A type has one list of outermost tags. -/
theorem FirstTags.unique {t : Nat} {tags tags' : List Tag} (first : FirstTags m t tags)
    (other : FirstTags m t tags') : tags = tags' := by
  induction first generalizing tags' with
  | tag chain =>
    cases other with
    | tag chain' =>
      cases (chain.unique chain').1
      rfl
    | none chain' => cases (chain.unique chain').1
    | choice chain' => cases (chain.unique chain').1
  | none chain noChoice =>
    cases other with
    | tag chain' => cases (chain.unique chain').1
    | none => rfl
    | choice chain' choice =>
      obtain ⟨-, rfl⟩ := chain.unique chain'
      exact absurd choice noChoice
  | choice chain choice each ih =>
    cases other with
    | tag chain' => cases (chain.unique chain').1
    | none chain' noChoice =>
      obtain ⟨-, rfl⟩ := chain.unique chain'
      exact absurd choice noChoice
    | choice chain' choice' each' =>
      obtain ⟨-, rfl⟩ := chain.unique chain'
      exact List.flatMap_congr fun e inside => ih e inside (each' e inside)

/-- A type whose chains end has outermost tags. -/
theorem Finite.firstTags {t : Nat} (finite : Finite m t) : ∃ tags, FirstTags m t tags := by
  classical
  induction finite with
  | @intro t last ts refs _ ih =>
    cases chain : chainTags m [] ts with
    | cons tag rest => exact ⟨_, .tag ⟨ts, refs, chain⟩⟩
    | nil =>
      by_cases choice : isChoice m last
      · have each : ∀ e, ∃ tags, e ∈ alternatives m last → FirstTags m e tags := by
          intro e
          by_cases inside : e ∈ alternatives m last
          · obtain ⟨tags, first⟩ := ih e ⟨last, ⟨ts, refs, chain⟩, choice, inside⟩
            exact ⟨tags, fun _ => first⟩
          · exact ⟨[], fun member => absurd member inside⟩
        choose tagsOf first using each
        exact ⟨_, .choice ⟨ts, refs, chain⟩ choice first⟩
      · exact ⟨_, .none ⟨ts, refs, chain⟩ choice⟩

theorem FirstTags.mem_iff {t : Nat} {tags : List Tag} (first : FirstTags m t tags) (tag : Tag) :
    tag ∈ tags ↔ OutermostTag m t tag := by
  induction first with
  | @tag t last own rest chain =>
    rw [List.mem_singleton]
    constructor
    · rintro rfl
      exact .tag chain
    · intro outermost
      cases outermost with
      | tag chain' =>
        cases (chain.unique chain').1
        rfl
      | alternative offers =>
        exact absurd offers (not_offers_of_tagged chain (.inl (List.cons_ne_nil own rest)) _)
  | none chain noChoice =>
    refine iff_of_false List.not_mem_nil fun outermost => ?_
    cases outermost with
    | tag chain' => cases (chain.unique chain').1
    | alternative offers => exact not_offers_of_tagged chain (.inr noChoice) _ offers
  | choice chain choice each ih =>
    rw [List.mem_flatMap]
    constructor
    · rintro ⟨e, inside, member⟩
      exact .alternative ((chain.offers_iff choice).mpr inside) ((ih e inside).mp member)
    · intro outermost
      cases outermost with
      | tag chain' => cases (chain.unique chain').1
      | alternative offers outermost =>
        have inside := (chain.offers_iff choice).mp offers
        exact ⟨_, inside, (ih _ inside).mpr outermost⟩

/-! ## Adding tags -/

theorem addTags_append (definedTags tags more : List Tag) :
    addTags m definedTags (tags ++ more) = (addTags m definedTags tags).bind fun added =>
      if added.1 then addTags m added.2 more else some (false, added.2) := by
  induction tags generalizing definedTags with
  | nil => rfl
  | cons tag rest ih =>
    rw [List.cons_append, addTags, addTags]
    change (addTag m definedTags tag).bind _ = ((addTag m definedTags tag).bind _).bind _
    cases addTag m definedTags tag with
    | none => rfl
    | some added =>
      obtain ⟨distinct, defined⟩ := added
      cases distinct with
      | false => rfl
      | true => exact ih defined

/-- Where the cursor stands at the first of some tags, the current tag is the first of them. -/
theorem currTag_of_stands {curr : ListCursors} {t : Nat} {tags : List Tag}
    (stands : Stands m curr t tags) : currTag m (m.types t).tags curr = some (tags.head?, curr) := by
  obtain ⟨curr', read, -⟩ := stands
  cases has : (m.types t).tags with
  | none =>
    rw [has] at read
    obtain ⟨rfl, -⟩ := Prod.mk.inj (Option.some.inj read)
    rfl
  | some tl =>
    rw [has] at read
    obtain ⟨rfl, -⟩ := Prod.mk.inj (Option.some.inj read)
    rw [List.head?_drop]
    rfl

/-- What the walk does when it has come to the last type. -/
def firstEnd (m : Parsed) (fuel last : Nat) (definedTags : List Tag) :
    List Tag → CursorM (Bool × List Tag)
  | tag :: _ => addTag m definedTags tag
  | [] =>
    if (m.types last).basicType.choiceId = .choice then
      addFirstTags m (addFirstTag m fuel) fuel definedTags (m.types last).basicType.elmts
    else return (true, definedTags)

/-- The walk ends at the first tag along the references, or at the last type. -/
theorem addFirstTagLoop_chain {t last : Nat} {ts : List Nat} (chain : RefChain m t ts last)
    (above : List Nat) (fuel : Nat) (definedTags : List Tag) {curr : ListCursors}
    (stands : Stands m curr t
      (if replaced m above then (ownTags m t).tail else ownTags m t)) :
    ∃ curr', addFirstTagLoop m (fuel + ts.length) t (m.types t).tags
        ((ownTags m t).isEmpty && replaced m above) definedTags curr =
      firstEnd m fuel last definedTags (chainTags m above ts) curr' ∧
      curr'.namedTypeLists = curr.namedTypeLists := by
  induction chain generalizing above curr with
  | @last t ends =>
    have read := currTag_of_stands stands
    refine ⟨curr, ?_, rfl⟩
    rw [List.length_singleton, addFirstTagLoop, chainTags, chainTags, List.append_nil]
    change (currTag m _ curr >>= _) = _
    rw [read]
    cases (if replaced m above = true then (ownTags m t).tail else ownTags m t) with
    | cons tag rest => rfl
    | nil =>
      unfold refersTo at ends
      split at ends
      next isRef =>
        have other : ¬(m.types t).basicType.choiceId = .choice := by
          intro choice
          rw [BasicType.isTypeRef, choice] at isRef
          revert isRef
          decide
        simp only [List.head?_nil, isRef, if_true, ends, firstEnd, if_neg other]
        rfl
      next isNoRef =>
        simp only [List.head?_nil, isNoRef, firstEnd]
        rfl
  | @ref t u last ts refers rest ih =>
    have read := currTag_of_stands stands
    obtain ⟨curr₁, started, stands₁, same₁⟩ := startOnReferenced_spec curr u
      (replaced m (t :: above))
    obtain ⟨curr₂, walked, same₂⟩ := ih (t :: above) stands₁
    have flag : (if (!((ownTags m t).isEmpty && replaced m above)) = true then
        (m.types t).implicit else (ownTags m t).isEmpty && replaced m above) =
          replaced m (t :: above) := by
      rw [replaced]
      cases (ownTags m t).isEmpty && replaced m above <;> simp
    cases here : (if replaced m above = true then (ownTags m t).tail else ownTags m t) with
    | cons tag others =>
      -- The tag is found, so that the references are not followed.
      refine ⟨curr, ?_, rfl⟩
      rw [List.length_cons, ← Nat.add_assoc, addFirstTagLoop, chainTags, here]
      change (currTag m _ curr >>= _) = _
      rw [read, here]
      rfl
    | nil =>
      refine ⟨curr₂, ?_, same₂.trans same₁⟩
      rw [List.length_cons, ← Nat.add_assoc, addFirstTagLoop, chainTags, here, List.nil_append,
        ← walked]
      change (currTag m _ curr >>= _) = _
      rw [read, here]
      unfold refersTo at refers
      split at refers
      next isRef =>
        simp only [List.head?_nil, isRef, if_true, refers, flag]
        change (startOnReferenced m _ _ curr >>= _) = _
        rw [started]
        rfl
      next => cases refers

/-! ## The tags of one component -/

section

variable {elmts : Nat} {add : List Tag → Nat → CursorM (Bool × List Tag)}
  {tagsOf : Nat → List Tag}

theorem addFirstTagsFrom_none {curr : ListCursors}
    (last : (m.namedTypeLists elmts)[curr.namedTypeLists elmts]? = none) (turns : Nat)
    (definedTags : List Tag) :
    addFirstTagsFrom m add elmts (turns + 1) definedTags curr =
      some ((true, definedTags), curr) := by
  rw [addFirstTagsFrom]
  dsimp only [bind, StateT.bind, get, getThe, MonadStateOf.get, StateT.get, pure, Option.bind_some]
  rw [last]
  rfl

/-- At an element the collecting adds its tags, and goes on behind it if they are new. -/
theorem addFirstTagsFrom_some {curr : ListCursors} {e : Nat}
    (here : (m.namedTypeLists elmts)[curr.namedTypeLists elmts]? = some e) (turns : Nat)
    (definedTags : List Tag) :
    addFirstTagsFrom m add elmts (turns + 1) definedTags curr =
      (add definedTags e curr).bind fun got =>
        if got.1.1 then
          addFirstTagsFrom m add elmts turns got.1.2
            (got.2.setNamedTypes elmts (got.2.namedTypeLists elmts + 1))
        else some ((false, got.1.2), got.2) := by
  rw [addFirstTagsFrom]
  dsimp only [bind, StateT.bind, get, getThe, MonadStateOf.get, StateT.get, pure, Option.bind_some]
  rw [here]
  change (add definedTags e curr >>= _) = _
  cases add definedTags e curr with
  | none => rfl
  | some got =>
    obtain ⟨⟨distinct, defined⟩, curr'⟩ := got
    cases distinct <;> rfl

/-- Collecting from elements adds the tags of all of them, up to one that is defined already. -/
theorem addFirstTagsFrom_spec {kept : Nat → Prop} {front es : List Nat}
    (split : m.namedTypeLists elmts = front ++ es)
    (each : ∀ e ∈ es, ∀ definedTags curr, ∃ curr',
      add definedTags e curr = (addTags m definedTags (tagsOf e)).map (·, curr') ∧
      ∀ l, l = elmts ∨ kept l → curr'.namedTypeLists l = curr.namedTypeLists l)
    {turns : Nat} (enough : es.length < turns) (definedTags : List Tag) {curr : ListCursors}
    (place : curr.namedTypeLists elmts = front.length) :
    ∃ curr', addFirstTagsFrom m add elmts turns definedTags curr =
        (addTags m definedTags (es.flatMap tagsOf)).map (·, curr') ∧
      ∀ l, l ≠ elmts → kept l → curr'.namedTypeLists l = curr.namedTypeLists l := by
  -- The induction is on the elements behind the cursor.
  induction es generalizing front turns definedTags curr with
  | nil =>
    obtain ⟨more, rfl⟩ := Nat.exists_eq_add_of_lt enough
    have last : (m.namedTypeLists elmts)[curr.namedTypeLists elmts]? = none := by
      rw [split, place, List.append_nil]
      exact List.getElem?_eq_none (Nat.le_refl _)
    refine ⟨curr, ?_, fun _ _ _ => rfl⟩
    rw [addFirstTagsFrom_none last]
    rfl
  | cons e rest ih =>
    obtain ⟨more, rfl⟩ := Nat.exists_eq_add_of_lt enough
    have here : (m.namedTypeLists elmts)[curr.namedTypeLists elmts]? = some e := by
      rw [split, place, List.getElem?_append_right (Nat.le_refl _), Nat.sub_self]
      rfl
    obtain ⟨curr₁, got, same₁⟩ := each e List.mem_cons_self definedTags curr
    rw [addFirstTagsFrom_some here, got, List.flatMap_cons, addTags_append]
    cases addTags m definedTags (tagsOf e) with
    | none => exact ⟨curr₁, rfl, fun l _ keeps => same₁ l (.inr keeps)⟩
    | some added =>
      obtain ⟨distinct, defined⟩ := added
      cases distinct with
      | false => exact ⟨curr₁, rfl, fun l _ keeps => same₁ l (.inr keeps)⟩
      | true =>
        have next : (curr₁.setNamedTypes elmts (curr₁.namedTypeLists elmts + 1)).namedTypeLists
            elmts = (front ++ [e]).length := by
          rw [ListCursors.setNamedTypes_namedTypeLists, same₁ elmts (.inl rfl), place,
            List.length_append]
          rfl
        obtain ⟨curr', later, same'⟩ := ih
          (by rw [split, List.append_assoc]; rfl)
          (fun x inside => each x (List.mem_cons_of_mem e inside))
          (Nat.lt_of_lt_of_le (Nat.lt_succ_self rest.length)
            (Nat.le_add_right (rest.length + 1) more)) defined next
        refine ⟨curr', later, fun l other keeps => ?_⟩
        rw [same' l other keeps]
        change Function.update curr₁.namedTypeLists elmts _ l = _
        rw [Function.update_of_ne other, same₁ l (.inr keeps)]

end

/-- What the outermost tags of a component are added to the tags defined so far. -/
theorem addFirstTag_spec {t : Nat} {tags : List Tag} (first : FirstTags m t tags)
    (finite : Finite m t) :
    ∃ n, ∀ fuel ≥ n, ∀ definedTags curr, ∃ curr',
      addFirstTag m fuel definedTags t curr = (addTags m definedTags tags).map (·, curr') ∧
      ∀ l, ¬GoesThrough m t l → curr'.namedTypeLists l = curr.namedTypeLists l := by
  -- The walk along the references is the same for all types.
  have walk : ∀ {t last : Nat} {ts : List Nat}, RefChain m t ts last → ∀ fuel definedTags curr,
      ∃ curr', addFirstTag m (fuel + ts.length) definedTags t curr =
        firstEnd m fuel last definedTags (chainTags m [] ts) curr' ∧
        curr'.namedTypeLists = curr.namedTypeLists := by
    intro t last ts refs fuel definedTags curr
    obtain ⟨curr₁, started, stands, same₁⟩ := @startOnTags_spec m curr t
    obtain ⟨curr₂, walked, same₂⟩ := addFirstTagLoop_chain refs [] fuel definedTags stands
    refine ⟨curr₂, ?_, same₂.trans same₁⟩
    rw [replaced, Bool.and_false] at walked
    change (startOnTags m t curr >>= _) = _
    rw [started]
    exact walked
  induction first with
  | @tag t last tag rest chain =>
    obtain ⟨ts, refs, eq⟩ := chain
    refine ⟨ts.length, fun fuel enough definedTags curr => ?_⟩
    obtain ⟨more, rfl⟩ := Nat.exists_eq_add_of_le' enough
    obtain ⟨curr', walked, same⟩ := walk refs more definedTags curr
    refine ⟨curr', ?_, fun l _ => by rw [same]⟩
    rw [walked, eq, firstEnd, addTags]
    change StateT.run (liftM (addTag m definedTags tag)) curr' = _
    cases added : addTag m definedTags tag with
    | none => rfl
    | some result =>
      obtain ⟨distinct, defined⟩ := result
      cases distinct <;> rfl
  | @none t last chain noChoice =>
    obtain ⟨ts, refs, eq⟩ := chain
    refine ⟨ts.length, fun fuel enough definedTags curr => ?_⟩
    obtain ⟨more, rfl⟩ := Nat.exists_eq_add_of_le' enough
    obtain ⟨curr', walked, same⟩ := walk refs more definedTags curr
    refine ⟨curr', ?_, fun l _ => by rw [same]⟩
    have other : ¬(m.types last).basicType.choiceId = .choice := noChoice
    rw [walked, eq, firstEnd, if_neg other]
    rfl
  | @choice t last tagsOf chain choice each ih =>
    obtain ⟨ts, refs, eq⟩ := id chain
    have yes : (m.types last).basicType.choiceId = .choice := choice
    have finiteOf : ∀ e ∈ alternatives m last, Finite m e := by
      intro e inside
      cases finite with
      | intro _ each => exact each e ((chain.offers_iff choice).mpr inside)
    cases list : (m.types last).basicType.elmts with
    | none =>
      have noAlternatives : alternatives m last = [] := by rw [alternatives, list]
      refine ⟨ts.length, fun fuel enough definedTags curr => ?_⟩
      obtain ⟨more, rfl⟩ := Nat.exists_eq_add_of_le' enough
      obtain ⟨curr', walked, same⟩ := walk refs more definedTags curr
      refine ⟨curr', ?_, fun l _ => by rw [same]⟩
      rw [walked, eq, firstEnd, if_pos yes, list, noAlternatives]
      rfl
    | some l =>
      have alts : alternatives m last = m.namedTypeLists l := by rw [alternatives, list]
      have through : GoesThrough m t l := ⟨t, last, .refl, chain, choice, list⟩
      obtain ⟨n, spec⟩ := exists_fuel fun e inside => ih e inside (finiteOf e inside)
      refine ⟨max n ((alternatives m last).length + 1) + ts.length,
        fun fuel enough definedTags curr => ?_⟩
      obtain ⟨more, rfl⟩ := Nat.exists_eq_add_of_le' (Nat.le_trans (Nat.le_add_left _ _) enough)
      have long : n ≤ more ∧ (alternatives m last).length < more := by omega
      obtain ⟨curr₁, walked, same⟩ := walk refs more definedTags curr
      obtain ⟨curr', added, kept⟩ := @addFirstTagsFrom_spec m l (addFirstTag m more) tagsOf
        (fun k => ¬GoesThrough m t k) [] (alternatives m last) (by rw [← alts]; rfl)
        (by
          intro e inside definedTags curr
          have offers := (chain.offers_iff choice).mpr inside
          obtain ⟨curr', got, frame⟩ := spec more long.1 e inside definedTags curr
          refine ⟨curr', got, fun k which => frame k ?_⟩
          rcases which with rfl | outside
          · exact not_goesThrough (finiteOf e inside) (alts ▸ inside)
          · rintro ⟨x, last', reaches, others⟩
            exact outside ⟨x, last', .head offers reaches, others⟩)
        more long.2 definedTags (curr₁.setNamedTypes l 0)
        (by rw [ListCursors.setNamedTypes_namedTypeLists]; rfl)
      refine ⟨curr', ?_, fun k outside => ?_⟩
      · rw [walked, eq, firstEnd, if_pos yes, list]
        exact added
      · have other : k ≠ l := by
          rintro rfl
          exact outside through
        rw [kept k other outside, ← same]
        exact Function.update_of_ne other _ _

end Esnacc.Compiler
