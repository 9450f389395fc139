import Esnacc.Compiler.TagChains

/-! For which types the tags are gathered and counted as their definitions give them. -/

namespace Esnacc.Compiler

variable {m : Parsed} {libTypesG : BasicTypeChoiceId → BerForm}

/-! ## Alternatives reached -/

/-- An alternative that has a first tag, is asked for those of its own alternatives, or is skipped. -/
def Delivers (m : Parsed) (e : Nat) : Prop :=
  isExtension m e ∨ ∀ last, Chain m e [] last → isChoice m last

/-- An alternative that contributes no tags: it is skipped, or has no tags itself. -/
def Bare (m : Parsed) (e : Nat) : Prop :=
  isExtension m e ∨ ∃ last, Chain m e [] last

/-- The alternatives reached from a type that is a CHOICE without tags, through others like it. -/
abbrev Reaches (m : Parsed) : Nat → Nat → Prop :=
  Relation.TransGen (Offers m)

/-- A list of alternatives that is gone through for the tags of a type. -/
def GoesThrough (m : Parsed) (t choice : Nat) : Prop :=
  ∃ e last, Relation.ReflTransGen (Offers m) t e ∧ Chain m e [] last ∧ isChoice m last ∧
    (m.types last).basicType.elmts = some choice

theorem Chain.offers_iff {t last e : Nat} (chain : Chain m t [] last) (choice : isChoice m last) :
    Offers m t e ↔ e ∈ alternatives m last := by
  constructor
  · rintro ⟨last', chain', -, inside⟩
    obtain ⟨-, rfl⟩ := chain'.unique chain
    exact inside
  · intro inside
    exact ⟨last, chain, choice, inside⟩

theorem Effective.finite {t : Nat} {tags : List Tag} {stole : Bool}
    (effective : Effective m libTypesG t tags stole) : Finite m t := by
  induction effective with
  | chain chain tagged =>
    obtain ⟨ts, refs, eq⟩ := chain
    refine .intro refs fun e offers => ?_
    obtain ⟨last', chain', choice, -⟩ := offers
    obtain ⟨rfl, rfl⟩ := chain'.unique ⟨ts, refs, eq⟩
    rcases tagged with some | other
    · exact absurd rfl some
    · exact absurd choice other
  | choice chain choice _ ih =>
    obtain ⟨ts, refs, eq⟩ := id chain
    exact .intro refs fun e offers => ih e ((chain.offers_iff choice).mp offers)

/-- Where every object of a list needs some fuel, one amount is enough for all of them. -/
theorem exists_fuel {p : Nat → Nat → Prop} {es : List Nat}
    (each : ∀ e ∈ es, ∃ n, ∀ fuel ≥ n, p e fuel) :
    ∃ n, ∀ fuel ≥ n, ∀ e ∈ es, p e fuel := by
  induction es with
  | nil => exact ⟨0, by simp⟩
  | cons e rest ih =>
    obtain ⟨n, here⟩ := each e List.mem_cons_self
    obtain ⟨k, later⟩ := ih fun x inside => each x (List.mem_cons_of_mem e inside)
    refine ⟨max n k, fun fuel enough x inside => ?_⟩
    rcases List.mem_cons.mp inside with rfl | other
    · exact here fuel (Nat.le_trans (Nat.le_max_left n k) enough)
    · exact later fuel (Nat.le_trans (Nat.le_max_right n k) enough) x other

/-! ## Going through alternatives -/

section

variable {choice : Nat} {getTags : Nat → CursorM (List Tag × Bool)} {tagsOf : Nat → List Tag}
  {stoleOf : Nat → Bool}

theorem stealChoiceTags_none {curr : ListCursors}
    (last : (m.namedTypeLists choice)[curr.namedTypeLists choice]? = none) (turns : Nat)
    (retVal : List Tag) :
    stealChoiceTags m getTags choice (turns + 1) retVal curr = some (retVal, curr) := by
  rw [stealChoiceTags]
  dsimp only [bind, StateT.bind, get, getThe, MonadStateOf.get, StateT.get, pure, Option.bind_some]
  rw [last]
  rfl

/-- At an alternative the gathering asks for its tags, and goes on behind it. -/
theorem stealChoiceTags_some {curr : ListCursors} {e : Nat}
    (here : (m.namedTypeLists choice)[curr.namedTypeLists choice]? = some e) (turns : Nat)
    (retVal : List Tag) :
    stealChoiceTags m getTags choice (turns + 1) retVal curr =
      (getTags e curr).bind fun got =>
        (stealTags m e got.1.1 got.1.2 retVal).bind fun retVal =>
          stealChoiceTags m getTags choice turns retVal
            (got.2.setNamedTypes choice (got.2.namedTypeLists choice + 1)) := by
  rw [stealChoiceTags]
  dsimp only [bind, StateT.bind, get, getThe, MonadStateOf.get, StateT.get, pure, Option.bind_some]
  rw [here]
  change (getTags e curr >>= _) = _
  cases getTags e curr with
  | none => rfl
  | some got =>
    change (do let retVal ← (stealTags m e got.1.1 got.1.2 retVal : CursorM (List Tag))
               modify fun curr => curr.setNamedTypes choice (curr.namedTypeLists choice + 1)
               stealChoiceTags m getTags choice turns retVal : CursorM (List Tag)) got.2 = _
    rw [Option.bind_some]
    cases stealTags m e got.1.1 got.1.2 retVal <;> rfl

/-- The tags of an alternative that delivers are its outermost ones. -/
theorem stealTags_of_delivers {e : Nat} {tags : List Tag} {stole : Bool}
    (delivers : isExtension m e ∨ stole = true ∨ tags ≠ []) (retVal : List Tag) :
    stealTags m e tags stole retVal = some (retVal ++ outermost m e tags stole) := by
  by_cases extension : isExtension m e
  · have out : outermost m e tags stole = [] := if_pos extension
    rw [out, List.append_nil]
    exact if_pos extension
  · have out : outermost m e tags stole = if stole then tags else tags.take 1 := if_neg extension
    rw [out]
    cases stole with
    | true => exact if_neg extension
    | false =>
      cases tags with
      | nil => simp [extension] at delivers
      | cons tag rest => exact if_neg extension

/-- Where all alternatives deliver, their outermost tags are gathered one after the other. -/
theorem stealChoiceTags_of_delivers {kept : Nat → Prop} {front es : List Nat}
    (split : m.namedTypeLists choice = front ++ es)
    (each : ∀ e ∈ es, ∀ curr, ∃ curr', getTags e curr = some ((tagsOf e, stoleOf e), curr') ∧
      ∀ l, l = choice ∨ kept l → curr'.namedTypeLists l = curr.namedTypeLists l)
    (delivers : ∀ e ∈ es, isExtension m e ∨ stoleOf e = true ∨ tagsOf e ≠ [])
    {turns : Nat} (enough : es.length < turns) (retVal : List Tag) {curr : ListCursors}
    (place : curr.namedTypeLists choice = front.length) :
    ∃ curr', stealChoiceTags m getTags choice turns retVal curr =
        some (retVal ++ es.flatMap fun e => outermost m e (tagsOf e) (stoleOf e), curr') ∧
      ∀ l, l ≠ choice → kept l → curr'.namedTypeLists l = curr.namedTypeLists l := by
  -- The induction is on the alternatives behind the cursor.
  induction es generalizing front turns retVal curr with
  | nil =>
    obtain ⟨more, rfl⟩ := Nat.exists_eq_add_of_lt enough
    have last : (m.namedTypeLists choice)[curr.namedTypeLists choice]? = none := by
      rw [split, place, List.append_nil]
      exact List.getElem?_eq_none (Nat.le_refl _)
    refine ⟨curr, ?_, fun _ _ _ => rfl⟩
    rw [stealChoiceTags_none last, List.flatMap_nil, List.append_nil]
  | cons e rest ih =>
    obtain ⟨more, rfl⟩ := Nat.exists_eq_add_of_lt enough
    have here : (m.namedTypeLists choice)[curr.namedTypeLists choice]? = some e := by
      rw [split, place, List.getElem?_append_right (Nat.le_refl _), Nat.sub_self]
      rfl
    obtain ⟨curr₁, got, same₁⟩ := each e List.mem_cons_self curr
    have next : (curr₁.setNamedTypes choice (curr₁.namedTypeLists choice + 1)).namedTypeLists
        choice = (front ++ [e]).length := by
      rw [ListCursors.setNamedTypes_namedTypeLists, same₁ choice (.inl rfl), place,
        List.length_append]
      rfl
    obtain ⟨curr', later, same'⟩ := ih
      (by rw [split, List.append_assoc]; rfl)
      (fun x inside => each x (List.mem_cons_of_mem e inside))
      (fun x inside => delivers x (List.mem_cons_of_mem e inside))
      (Nat.lt_of_lt_of_le (Nat.lt_succ_self rest.length)
        (Nat.le_add_right (rest.length + 1) more))
      (retVal ++ outermost m e (tagsOf e) (stoleOf e)) next
    refine ⟨curr', ?_, ?_⟩
    · rw [stealChoiceTags_some here, got, Option.bind_some,
        stealTags_of_delivers (delivers e List.mem_cons_self), Option.bind_some,
        List.flatMap_cons, ← List.append_assoc]
      exact later
    · intro l other keeps
      rw [same' l other keeps]
      change Function.update curr₁.namedTypeLists choice _ l = _
      rw [Function.update_of_ne other, same₁ l (.inr keeps)]

/-- Where the tags of an alternative cannot be had, or it has none, nothing is gathered. -/
theorem stealChoiceTags_of_bad {front es : List Nat}
    (split : m.namedTypeLists choice = front ++ es)
    (each : ∀ e ∈ es, (∀ curr, getTags e curr = none) ∨
      ∀ curr, ∃ curr', getTags e curr = some ((tagsOf e, stoleOf e), curr') ∧
        curr'.namedTypeLists choice = curr.namedTypeLists choice)
    (bad : ∃ e ∈ es, (∀ curr, getTags e curr = none) ∨
      ¬isExtension m e ∧ stoleOf e = false ∧ tagsOf e = [])
    (turns : Nat) (retVal : List Tag) {curr : ListCursors}
    (place : curr.namedTypeLists choice = front.length) :
    stealChoiceTags m getTags choice turns retVal curr = none := by
  induction es generalizing front turns retVal curr with
  | nil =>
    obtain ⟨e, inside, -⟩ := bad
    cases inside
  | cons e rest ih =>
    cases turns with
    | zero => rfl
    | succ turns =>
      have here : (m.namedTypeLists choice)[curr.namedTypeLists choice]? = some e := by
        rw [split, place, List.getElem?_append_right (Nat.le_refl _), Nat.sub_self]
        rfl
      rw [stealChoiceTags_some here]
      rcases each e List.mem_cons_self with fails | gets
      · rw [fails curr]
        rfl
      · obtain ⟨curr₁, got, same₁⟩ := gets curr
        rw [got, Option.bind_some]
        cases stolen : stealTags m e (tagsOf e) (stoleOf e) retVal with
        | none => rfl
        | some retVal' =>
          -- The alternative at fault comes later.
          obtain ⟨x, inside, fault⟩ := bad
          have later : x ∈ rest := by
            rcases List.mem_cons.mp inside with rfl | other
            · rcases fault with fails | ⟨other, no, bare⟩
              · rw [fails curr] at got
                cases got
              · have steals : stealTags m x (tagsOf x) (stoleOf x) retVal = none := by
                  rw [no, bare]
                  exact if_neg other
                rw [steals] at stolen
                cases stolen
            · exact other
          have next : (curr₁.setNamedTypes choice
              (curr₁.namedTypeLists choice + 1)).namedTypeLists choice =
                (front ++ [e]).length := by
            rw [ListCursors.setNamedTypes_namedTypeLists, same₁, place, List.length_append]
            rfl
          exact ih (by rw [split, List.append_assoc]; rfl)
            (fun y member => each y (List.mem_cons_of_mem e member))
            ⟨x, later, fault⟩ turns retVal' next

end

/-! ## The tags of a type -/

theorem length_withForms (form : BerForm) (tags : List Tag) :
    (withForms form tags).length = tags.length := by
  rw [← setForms_eq]
  induction tags with
  | nil => rfl
  | cons tag rest ih =>
    cases rest with
    | nil => rfl
    | cons next more => exact congrArg Nat.succ ih

theorem withForms_eq_nil_iff {form : BerForm} {tags : List Tag} :
    withForms form tags = [] ↔ tags = [] := by
  rw [← List.length_eq_zero_iff, length_withForms, List.length_eq_zero_iff]

/-- An alternative delivers unless its effective tags are none, and not those of a CHOICE. -/
theorem Effective.delivers_iff {e : Nat} {tags : List Tag} {stole : Bool}
    (effective : Effective m libTypesG e tags stole) :
    Delivers m e ↔ isExtension m e ∨ stole = true ∨ tags ≠ [] := by
  unfold Delivers
  cases effective with
  | chain chain tagged =>
    constructor
    · rintro (extension | choice)
      · exact .inl extension
      · refine .inr (.inr fun bare => ?_)
        rw [withForms_eq_nil_iff] at bare
        subst bare
        exact (tagged.resolve_left (fun no => no rfl)) (choice _ chain)
    · rintro (extension | no | some)
      · exact .inl extension
      · cases no
      · refine .inr fun last chain' => ?_
        obtain ⟨rfl, rfl⟩ := chain.unique chain'
        exact absurd rfl some
  | choice chain choice =>
    constructor
    · exact fun _ => .inr (.inl rfl)
    · refine fun _ => .inr fun last chain' => ?_
      obtain ⟨-, rfl⟩ := chain.unique chain'
      exact choice

theorem asks_alternatives {last : Nat} (choice : isChoice m last) :
    ((m.types last).basicType.choiceId = .choice && ([] : List Tag).isEmpty) = true := by
  have yes : (m.types last).basicType.choiceId = .choice := choice
  rw [yes]
  rfl

/-- The walk along the references comes to the alternatives of an untagged CHOICE. -/
theorem getTags_choice {t last l : Nat} {ts : List Nat} (refs : RefChain m t ts last)
    (bare : chainTags m [] ts = []) (choice : isChoice m last)
    (list : (m.types last).basicType.elmts = some l) (fuel : Nat) (curr : ListCursors) :
    ∃ curr₁ : ListCursors, curr₁.namedTypeLists = curr.namedTypeLists ∧
      getTags m libTypesG (fuel + ts.length) t curr =
        (stealChoiceTags m (getTags m libTypesG fuel) l fuel []
          (curr₁.setNamedTypes l 0)).map fun got => ((got.1, true), got.2) := by
  obtain ⟨curr₁, walked, same⟩ := @getTags_chain m libTypesG t last ts refs fuel curr
  refine ⟨curr₁, same, ?_⟩
  rw [walked, bare, walkEnd, asks_alternatives choice, list]
  change (stealChoiceTags m (getTags m libTypesG fuel) l fuel []
    (curr₁.setNamedTypes l 0)).bind _ >>= _ = _
  cases stealChoiceTags m (getTags m libTypesG fuel) l fuel [] (curr₁.setNamedTypes l 0) <;> rfl

theorem not_goesThrough {e l : Nat} (finite : Finite m e) (inside : e ∈ m.namedTypeLists l) :
    ¬GoesThrough m e l := by
  rintro ⟨x, last, reaches, chain, choice, list⟩
  have offers : Offers m x e := by
    refine ⟨last, chain, choice, ?_⟩
    unfold alternatives
    rwa [list]
  exact finite.not_reaches_self (Relation.TransGen.tail' reaches offers)

/-- Where all the alternatives reached deliver, the effective tags are found; else nothing is. -/
theorem getTags_of_effective {t : Nat} {tags : List Tag} {stole : Bool}
    (effective : Effective m libTypesG t tags stole) :
    ((∀ e, Reaches m t e → Delivers m e) →
      ∃ n, ∀ fuel ≥ n, ∀ curr, ∃ curr',
        getTags m libTypesG fuel t curr = some ((tags, stole), curr') ∧
        ∀ l, ¬GoesThrough m t l → curr'.namedTypeLists l = curr.namedTypeLists l) ∧
    (¬(∀ e, Reaches m t e → Delivers m e) →
      ∃ n, ∀ fuel ≥ n, ∀ curr, getTags m libTypesG fuel t curr = none) := by
  have finite := effective.finite
  induction effective with
  | @chain t last _ chain tagged =>
    obtain ⟨ts, refs, rfl⟩ := chain
    constructor
    · refine fun _ => ⟨ts.length, fun fuel enough curr => ?_⟩
      obtain ⟨more, rfl⟩ := Nat.exists_eq_add_of_le' enough
      obtain ⟨curr', got, same⟩ := @getTags_tagged m libTypesG t last ts refs tagged more curr
      exact ⟨curr', got, fun l _ => by rw [same]⟩
    · -- No alternative is reached.
      intro bad
      refine absurd (fun e reaches => ?_) bad
      obtain ⟨first, ⟨last', chain', choice, -⟩, -⟩ := Relation.TransGen.head'_iff.mp reaches
      obtain ⟨none, rfl⟩ := chain'.unique ⟨ts, refs, rfl⟩
      rcases tagged with some | other
      · exact absurd none.symm some
      · exact absurd choice other
  | @choice t last tagsOf stoleOf chain choice each ih =>
    obtain ⟨ts, refs, bare⟩ := id chain
    cases list : (m.types last).basicType.elmts with
    | none =>
      have noAlternatives : alternatives m last = [] := by rw [alternatives, list]
      constructor
      · refine fun _ => ⟨ts.length, fun fuel enough curr => ?_⟩
        obtain ⟨more, rfl⟩ := Nat.exists_eq_add_of_le' enough
        obtain ⟨curr', walked, same⟩ := @getTags_chain m libTypesG t last ts refs more curr
        refine ⟨curr', ?_, fun l _ => by rw [same]⟩
        rw [walked, bare, walkEnd, asks_alternatives choice, list, noAlternatives]
        rfl
      · intro bad
        refine absurd (fun e reaches => ?_) bad
        obtain ⟨first, offers, -⟩ := Relation.TransGen.head'_iff.mp reaches
        have inside := (chain.offers_iff choice).mp offers
        rw [noAlternatives] at inside
        cases inside
    | some l =>
      have alts : alternatives m last = m.namedTypeLists l := by rw [alternatives, list]
      have through : GoesThrough m t l := ⟨t, last, .refl, chain, choice, list⟩
      have apart : ∀ e ∈ alternatives m last, ¬GoesThrough m e l := fun e inside =>
        not_goesThrough (each e inside).finite (alts ▸ inside)
      obtain ⟨n, spec⟩ := @exists_fuel (fun e fuel =>
        ((∀ x, Reaches m e x → Delivers m x) → ∀ curr, ∃ curr',
            getTags m libTypesG fuel e curr = some ((tagsOf e, stoleOf e), curr') ∧
            ∀ k, ¬GoesThrough m e k → curr'.namedTypeLists k = curr.namedTypeLists k) ∧
          (¬(∀ x, Reaches m e x → Delivers m x) →
            ∀ curr, getTags m libTypesG fuel e curr = none)) (alternatives m last) (by
        intro e inside
        obtain ⟨good, bad⟩ := ih e inside (each e inside).finite
        by_cases delivers : ∀ x, Reaches m e x → Delivers m x
        · obtain ⟨n, spec⟩ := good delivers
          exact ⟨n, fun fuel enough => ⟨fun _ => spec fuel enough, fun no => absurd delivers no⟩⟩
        · obtain ⟨n, spec⟩ := bad delivers
          exact ⟨n, fun fuel enough => ⟨fun yes => absurd yes delivers, fun _ => spec fuel enough⟩⟩)
      constructor
      · intro good
        refine ⟨max n ((alternatives m last).length + 1) + ts.length, fun fuel enough curr => ?_⟩
        obtain ⟨more, rfl⟩ := Nat.exists_eq_add_of_le' (Nat.le_trans (Nat.le_add_left _ _) enough)
        have long : n ≤ more ∧ (alternatives m last).length < more := by omega
        obtain ⟨curr₁, same, walked⟩ :=
          @getTags_choice m libTypesG t last l ts refs bare choice list more curr
        obtain ⟨curr', stolen, kept⟩ := @stealChoiceTags_of_delivers m l
          (getTags m libTypesG more) tagsOf stoleOf (fun k => ¬GoesThrough m t k) []
          (alternatives m last) (by rw [← alts]; rfl)
          (by
            intro e inside curr
            have offers := (chain.offers_iff choice).mpr inside
            obtain ⟨curr', got, frame⟩ := (spec more long.1 e inside).1
              (fun x reaches => good x (.head offers reaches)) curr
            refine ⟨curr', got, fun k which => frame k ?_⟩
            rcases which with rfl | outside
            · exact apart e inside
            · rintro ⟨x, last', reaches, rest⟩
              exact outside ⟨x, last', .head offers reaches, rest⟩)
          (by
            intro e inside
            have offers := (chain.offers_iff choice).mpr inside
            exact (each e inside).delivers_iff.mp (good e (.single offers)))
          more long.2 [] (curr₁.setNamedTypes l 0)
          (by rw [ListCursors.setNamedTypes_namedTypeLists]; rfl)
        refine ⟨curr', by rw [walked, stolen]; rfl, fun k outside => ?_⟩
        have other : k ≠ l := by
          rintro rfl
          exact outside through
        rw [kept k other outside, ← same]
        exact Function.update_of_ne other _ _
      · intro bad
        refine ⟨n + ts.length, fun fuel enough curr => ?_⟩
        obtain ⟨more, rfl⟩ := Nat.exists_eq_add_of_le' (Nat.le_trans (Nat.le_add_left _ _) enough)
        have long : n ≤ more := by omega
        obtain ⟨curr₁, -, walked⟩ :=
          @getTags_choice m libTypesG t last l ts refs bare choice list more curr
        rw [walked, @stealChoiceTags_of_bad m l (getTags m libTypesG more) tagsOf stoleOf []
          (alternatives m last) (by rw [← alts]; rfl) _ _ more [] (curr₁.setNamedTypes l 0)
          (by rw [ListCursors.setNamedTypes_namedTypeLists]; rfl)]
        · rfl
        · intro e inside
          by_cases delivers : ∀ x, Reaches m e x → Delivers m x
          · refine .inr fun curr => ?_
            obtain ⟨curr', got, frame⟩ := (spec more long e inside).1 delivers curr
            exact ⟨curr', got, frame l (apart e inside)⟩
          · exact .inl ((spec more long e inside).2 delivers)
        · -- The alternative at fault is one of this list, or reached from one.
          push Not at bad
          obtain ⟨x, reaches, fault⟩ := bad
          obtain ⟨e, offers, later⟩ := Relation.TransGen.head'_iff.mp reaches
          have inside := (chain.offers_iff choice).mp offers
          refine ⟨e, inside, ?_⟩
          by_cases delivers : ∀ y, Reaches m e y → Delivers m y
          · refine .inr ?_
            have same : x = e := by
              rcases Relation.reflTransGen_iff_eq_or_transGen.mp later with same | deeper
              · exact same
              · exact absurd (delivers x deeper) fault
            subst same
            rw [(each x inside).delivers_iff] at fault
            push Not at fault
            exact ⟨fault.1, Bool.eq_false_iff.mpr fault.2.1, fault.2.2⟩
          · exact .inl ((spec more long e inside).2 delivers)

/-! ## The number of tags -/

theorem not_offers_of_tagged {t last : Nat} {tags : List Tag} (chain : Chain m t tags last)
    (tagged : tags ≠ [] ∨ ¬isChoice m last) (e : Nat) : ¬Offers m t e := by
  rintro ⟨last', chain', choice, -⟩
  obtain ⟨rfl, rfl⟩ := chain'.unique chain
  rcases tagged with some | other
  · exact some rfl
  · exact other choice

/-- An extension marker offers nothing. -/
theorem not_offers_of_extension {t : Nat} (extension : isExtension m t) (e : Nat) :
    ¬Offers m t e := by
  unfold isExtension at extension
  rintro ⟨last, ⟨ts, refs, -⟩, choice, -⟩
  have ends : refersTo m t = none := by
    rw [refersTo, BasicType.isTypeRef, extension]
    rfl
  cases refs with
  | last =>
    unfold isChoice at choice
    rw [extension] at choice
    cases choice
  | ref refers =>
    rw [ends] at refers
    cases refers

theorem outermost_eq_nil_iff {e : Nat} {tags : List Tag} {stole : Bool} :
    outermost m e tags stole = [] ↔ isExtension m e ∨ tags = [] := by
  unfold outermost
  by_cases extension : isExtension m e
  · simp [extension]
  · cases stole <;> simp [extension]

theorem Effective.of_stole {t : Nat} {tags : List Tag}
    (effective : Effective m libTypesG t tags true) :
    ∃ last, Chain m t [] last ∧ isChoice m last := by
  cases effective with
  | choice chain choice => exact ⟨_, chain, choice⟩

theorem Effective.of_not_stole {t : Nat} {tags : List Tag}
    (effective : Effective m libTypesG t tags false) :
    ∃ last own form, Chain m t own last ∧ (own ≠ [] ∨ ¬isChoice m last) ∧
      tags = withForms form own := by
  cases effective with
  | chain chain tagged => exact ⟨_, _, _, chain, tagged, rfl⟩

/-- The effective tags of an untagged CHOICE are none exactly where all it reaches is bare. -/
theorem Effective.eq_nil_iff {t : Nat} {tags : List Tag} {stole : Bool}
    (effective : Effective m libTypesG t tags stole) (isStolen : stole = true) :
    tags = [] ↔ ∀ e, Reaches m t e → Bare m e := by
  induction effective with
  | chain => cases isStolen
  | @choice t last tagsOf stoleOf chain choice each ih =>
    rw [List.flatMap_eq_nil_iff]
    simp only [outermost_eq_nil_iff]
    constructor
    · intro none x reaches
      obtain ⟨e, offers, later⟩ := Relation.TransGen.head'_iff.mp reaches
      have inside := (chain.offers_iff choice).mp offers
      rcases Relation.reflTransGen_iff_eq_or_transGen.mp later with rfl | deeper
      · -- The alternative itself.
        rcases none x inside with extension | bare
        · exact .inl extension
        · refine .inr ?_
          have effective := each x inside
          cases stole : stoleOf x with
          | true =>
            rw [stole] at effective
            obtain ⟨last', chain', -⟩ := effective.of_stole
            exact ⟨last', chain'⟩
          | false =>
            rw [stole] at effective
            obtain ⟨last', own, form, chain', -, forms⟩ := effective.of_not_stole
            rw [withForms_eq_nil_iff.mp (forms.symm.trans bare)] at chain'
            exact ⟨last', chain'⟩
      · -- One that it reaches.
        obtain ⟨y, offersY, -⟩ := Relation.TransGen.head'_iff.mp deeper
        rcases none e inside with extension | bare
        · exact absurd offersY (not_offers_of_extension extension y)
        · cases stole : stoleOf e with
          | true => exact (ih e inside stole).mp bare x deeper
          | false =>
            have effective := each e inside
            rw [stole] at effective
            obtain ⟨last', own, form, chain', tagged, -⟩ := effective.of_not_stole
            exact absurd offersY (not_offers_of_tagged chain' tagged y)
    · intro bare e inside
      have offers := (chain.offers_iff choice).mpr inside
      rcases bare e (.single offers) with extension | ⟨last', chain'⟩
      · exact .inl extension
      · refine .inr ?_
        cases stole : stoleOf e with
        | true => exact (ih e inside stole).mpr fun x reaches => bare x (.head offers reaches)
        | false =>
          have effective := each e inside
          rw [stole] at effective
          obtain ⟨_, own, form, other, -, forms⟩ := effective.of_not_stole
          obtain ⟨rfl, -⟩ := other.unique chain'
          exact forms

/-! ## Both routines -/

/-- The tags that are gathered are the effective ones, whatever cursors there are at first. -/
def GetsTags (m : Parsed) (libTypesG : BasicTypeChoiceId → BerForm) (t : Nat) : Prop :=
  ∃ tags stole, Effective m libTypesG t tags stole ∧
    ∃ n, ∀ fuel ≥ n, ∀ curr, ∃ curr', getTags m libTypesG fuel t curr = some ((tags, stole), curr')

/-- The number that is counted is that of the effective tags. -/
def CountsTags (m : Parsed) (libTypesG : BasicTypeChoiceId → BerForm) (t : Nat) : Prop :=
  ∃ tags stole, Effective m libTypesG t tags stole ∧
    ∃ n, ∀ fuel ≥ n, ∀ curr, ∃ curr', countTags m fuel t curr = some (tags.length, curr')

/-- The tags are counted exactly where a CHOICE that is asked for its alternatives gets none. -/
theorem countsTags_iff {t : Nat} (finite : Finite m t) :
    CountsTags m libTypesG t ↔ ∀ e, Reaches m t e → Bare m e := by
  obtain ⟨tags, stole, effective⟩ := finite.effective libTypesG
  obtain ⟨ts, last, refs⟩ : ∃ ts last, RefChain m t ts last := by
    cases finite with
    | intro refs => exact ⟨_, _, refs⟩
  have count : ∀ fuel ≥ ts.length, ∀ curr, ∃ curr',
      countTags m fuel t curr = some ((chainTags m [] ts).length, curr') := by
    intro fuel enough curr
    obtain ⟨more, rfl⟩ := Nat.exists_eq_add_of_le' enough
    exact countTags_chain refs more curr
  -- The claim is about the number of tags along the references.
  have asked : CountsTags m libTypesG t ↔ tags.length = (chainTags m [] ts).length := by
    constructor
    · rintro ⟨tags', stole', effective', n, counts⟩
      obtain ⟨rfl, rfl⟩ := effective'.unique effective
      have start : ListCursors := ⟨fun _ => 0, fun _ => 0⟩
      obtain ⟨_, counted⟩ := counts (max n ts.length) (Nat.le_max_left ..) start
      obtain ⟨_, counted'⟩ := count (max n ts.length) (Nat.le_max_right ..) start
      exact (Prod.mk.inj (Option.some.inj (counted.symm.trans counted'))).1
    · intro same
      refine ⟨tags, stole, effective, ts.length, ?_⟩
      rwa [same]
  rw [asked]
  cases effective with
  | chain chain tagged =>
    obtain ⟨ts', refs', rfl⟩ := id chain
    obtain ⟨rfl, rfl⟩ := refs.unique refs'
    rw [length_withForms]
    refine iff_of_true rfl fun e reaches => ?_
    obtain ⟨first, offers, -⟩ := Relation.TransGen.head'_iff.mp reaches
    exact absurd offers (not_offers_of_tagged chain tagged first)
  | choice chain choice each =>
    have stolen := (Effective.choice chain choice each).eq_nil_iff rfl
    obtain ⟨ts', refs', bare⟩ := id chain
    obtain ⟨rfl, rfl⟩ := refs.unique refs'
    rw [bare, List.length_nil, List.length_eq_zero_iff]
    exact stolen

/--
The tags of a type are gathered as its definitions give them exactly where every alternative that
is asked for has a tag to give, and counted so exactly where none of them contributes any.
-/
theorem tags_iff (m : Parsed) (libTypesG : BasicTypeChoiceId → BerForm) (t : Nat)
    (finite : Finite m t) :
    (GetsTags m libTypesG t ↔ ∀ e, Reaches m t e → Delivers m e) ∧
      (CountsTags m libTypesG t ↔ ∀ e, Reaches m t e → Bare m e) := by
  refine ⟨?_, countsTags_iff finite⟩
  obtain ⟨tags, stole, effective⟩ := finite.effective libTypesG
  obtain ⟨good, bad⟩ := getTags_of_effective effective
  constructor
  · rintro ⟨tags', stole', -, n, gets⟩
    by_contra fault
    obtain ⟨k, fails⟩ := bad fault
    have start : ListCursors := ⟨fun _ => 0, fun _ => 0⟩
    obtain ⟨_, got⟩ := gets (max n k) (Nat.le_max_left ..) start
    rw [fails (max n k) (Nat.le_max_right ..) start] at got
    cases got
  · intro delivers
    obtain ⟨n, gets⟩ := good delivers
    refine ⟨tags, stole, effective, n, fun fuel enough curr => ?_⟩
    obtain ⟨curr', got, -⟩ := gets fuel enough curr
    exact ⟨curr', got⟩

/-- The type `[1] IMPLICIT Foo`, where `Foo ::= [2] INTEGER`. -/
def implicitFoo : Parsed where
  types
    | 0 => { tags := some 0, implicit := true,
             basicType := { choiceId := .localTypeRef, link := some 1 } }
    | _ => { tags := some 1, implicit := false, basicType := { choiceId := .integer } }
  tagLists
    | 0 => [⟨.cntx, .nullForm, 1, false, none⟩]
    | _ => [⟨.cntx, .nullForm, 2, true, none⟩, ⟨.univ, .nullForm, 2, false, none⟩]
  namedTypeLists _ := []

theorem tags_iff_implicitFoo :
    GetsTags implicitFoo (fun _ => .prim) 0 ∧ CountsTags implicitFoo (fun _ => .prim) 0 := by
  have refs : RefChain implicitFoo 0 [0, 1] 1 := .ref rfl (.last rfl)
  have offers : ∀ e, ¬Offers implicitFoo 0 e := fun e =>
    not_offers_of_tagged ⟨[0, 1], refs, rfl⟩ (.inr nofun) e
  have reaches : ∀ e, ¬Reaches implicitFoo 0 e := by
    intro e path
    obtain ⟨first, offersFirst, -⟩ := Relation.TransGen.head'_iff.mp path
    exact offers first offersFirst
  obtain ⟨gets, counts⟩ := tags_iff implicitFoo (fun _ => .prim) 0
    (.intro refs fun e offersE => absurd offersE (offers e))
  exact ⟨gets.mpr fun e path => absurd path (reaches e),
    counts.mpr fun e path => absurd path (reaches e)⟩

/-- The type `CHOICE { INTEGER }`. -/
def choiceOfInteger : Parsed where
  types
    | 0 => { tags := none, implicit := false,
             basicType := { choiceId := .choice, elmts := some 0 } }
    | _ => { tags := some 0, implicit := false, basicType := { choiceId := .integer } }
  tagLists _ := [⟨.univ, .nullForm, 2, false, none⟩]
  namedTypeLists _ := [1]

/-- Of an untagged CHOICE with one tagged alternative no tag is counted. -/
theorem choice_not_counted :
    ¬ ∀ (m : Parsed) (libTypesG : BasicTypeChoiceId → BerForm) (t : Nat), Finite m t →
      GetsTags m libTypesG t ∧ CountsTags m libTypesG t := by
  intro all
  have integer : RefChain choiceOfInteger 1 [1] 1 := .last rfl
  have choice : RefChain choiceOfInteger 0 [0] 0 := .last rfl
  have chain : Chain choiceOfInteger 0 [] 0 := ⟨[0], choice, rfl⟩
  have offers : ∀ e, Offers choiceOfInteger 0 e ↔ e ∈ [1] := fun e => chain.offers_iff rfl
  have finite : Finite choiceOfInteger 0 := by
    refine .intro choice fun e offersE => ?_
    rw [offers, List.mem_singleton] at offersE
    subst offersE
    refine .intro integer fun x offersX => ?_
    exact absurd offersX (not_offers_of_tagged ⟨[1], integer, rfl⟩ (.inr nofun) x)
  obtain ⟨-, counts⟩ := all choiceOfInteger (fun _ => .prim) 0 finite
  rcases (countsTags_iff finite).mp counts 1 (.single ((offers 1).mpr List.mem_cons_self)) with
    extension | ⟨last, other⟩
  · cases extension
  · obtain ⟨tags, -⟩ := other.unique ⟨[1], integer, rfl⟩
    cases tags

end Esnacc.Compiler
