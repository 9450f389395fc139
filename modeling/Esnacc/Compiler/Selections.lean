import Esnacc.Compiler.TagChains

/-! SELECTION types, which are replaced by the alternative of a CHOICE that they select. -/

namespace Esnacc.Compiler

/-! ## Source -/

/-- How the tags of a module are meant that are neither marked as implicit nor as explicit. -/
inductive TagDefault where
  | explicitTags
  | implicitTags
  | automaticTags
  deriving DecidableEq

/-- Go through the tags of an alternative; all but perhaps the first one are appended. -/
def appendAlternativeTags (tagDefault : TagDefault) :
    Bool → List Tag → List Tag → Bool → List Tag × Bool
  | _, [], tags, implicit => (tags, implicit)
  | isFirst, tag :: rest, tags, implicit =>
    let tags :=
      if !((tagDefault = .implicitTags || implicit) && isFirst) then tags ++ [tag] else tags
    -- The mark is taken from the type with the first tag already.
    appendAlternativeTags tagDefault false rest tags false

/-- Replace a SELECTION type by the type of its alternative, whose CHOICE is normalized already. -/
def normalizeSelection (tagDefault : TagDefault) (m : Parsed) (t : Nat) : Option Parsed := do
  let type := m.types t
  let link ← type.basicType.link
  let (appended, implicit) :=
    appendAlternativeTags tagDefault true (ownTags m link) [] type.implicit
  let tagLists ←
    match type.tags with
    | some tl => some (Function.update m.tagLists tl (m.tagLists tl ++ appended))
    -- There is no list to append to.
    | none => if appended.isEmpty then some m.tagLists else none
  let implicit := if (m.types link).implicit then true else implicit
  let replacement := { type with implicit, basicType := (m.types link).basicType }
  return { m with tagLists, types := Function.update m.types t replacement }

/-! ## The promise -/

/-- The tag of a type that stands right in front of what it refers to is an implicit one. -/
def hasImplicitTag (tagDefault : TagDefault) (m : Parsed) (t : Nat) : Bool :=
  (ownTags m t).getLast?.any fun tag =>
    (m.types t).implicit || (tagDefault = .implicitTags && !tag.explicit)

/-- A SELECTION type as it is parsed and linked, with the references of its alternative. -/
structure Selects (m : Parsed) (t a : Nat) (ts : List Nat) (last : Nat) : Prop where
  isSelection : (m.types t).basicType.choiceId = .selection
  link : (m.types t).basicType.link = some a
  references : RefChain m a ts last
  noCircle : t ∉ ts
  ownList : ∃ tl, (m.types t).tags = some tl ∧ ∀ u ∈ ts, (m.types u).tags ≠ some tl
  marked : (m.types t).implicit = true → ownTags m t ≠ []

/-- The type gets its own tags and those of the alternative, the first one if none replaces it. -/
def KeepsTags (tagDefault : TagDefault) (m : Parsed) (t a : Nat) : Prop :=
  ∃ m' tags last last', normalizeSelection tagDefault m t = some m' ∧ Chain m a tags last ∧
    Chain m' t
      (ownTags m t ++ if hasImplicitTag tagDefault m t then tags.tail else tags) last' ∧
    (m'.types last').basicType = (m.types last).basicType

/-- A type that is marked as implicit without tags of its own comes before the first tags. -/
def marksBare (m : Parsed) : List Nat → Bool
  | [] => false
  | t :: ts => (ownTags m t).isEmpty && ((m.types t).implicit || marksBare m ts)

/-! ## The tags that are appended -/

variable {m m' : Parsed} {tagDefault : TagDefault}

theorem appendAlternativeTags_rest (rest tags : List Tag) (implicit : Bool) :
    (appendAlternativeTags tagDefault false rest tags implicit).1 = tags ++ rest := by
  -- None of them is compared as the first one.
  induction rest generalizing tags implicit with
  | nil => simp [appendAlternativeTags]
  | cons tag rest ih => simp [appendAlternativeTags, ih]

theorem appendAlternativeTags_mark (isFirst : Bool) (own tags : List Tag) (implicit : Bool) :
    (appendAlternativeTags tagDefault isFirst own tags implicit).2 =
      (own.isEmpty && implicit) := by
  induction own generalizing isFirst tags implicit with
  | nil => simp [appendAlternativeTags]
  | cons tag rest ih => simp [appendAlternativeTags, ih]

theorem appendAlternativeTags_fst (own : List Tag) (implicit : Bool) :
    (appendAlternativeTags tagDefault true own [] implicit).1 =
      if tagDefault = .implicitTags || implicit then own.tail else own := by
  cases own with
  | nil => simp [appendAlternativeTags]
  | cons tag rest =>
    rw [appendAlternativeTags, appendAlternativeTags_rest]
    cases dropped : (decide (tagDefault = .implicitTags) || implicit) <;> simp

/-! ## Tags along the same references -/

/-- The tags along references are the same where each type and the flag above are. -/
theorem chainTags_congr {ts above above' : List Nat}
    (own : ∀ u ∈ ts, ownTags m' u = ownTags m u)
    (mark : ∀ u ∈ ts, (m'.types u).implicit = (m.types u).implicit)
    (flag : replaced m' above' = replaced m above) :
    chainTags m' above' ts = chainTags m above ts := by
  -- The types above are looked at for their flag only.
  induction ts generalizing above above' with
  | nil => rfl
  | cons u ts ih =>
    have ownHere := own u List.mem_cons_self
    have markHere := mark u List.mem_cons_self
    have rest : chainTags m' (u :: above') ts = chainTags m (u :: above) ts := by
      refine ih (fun v inside => own v (List.mem_cons_of_mem _ inside))
        (fun v inside => mark v (List.mem_cons_of_mem _ inside)) ?_
      rw [replaced, replaced, ownHere, markHere, flag]
    rw [chainTags, chainTags, ownHere, flag, rest]

/-- An implicit tag above replaces the first one, if no mark in front of the tags hides it. -/
theorem chainTags_replaced {ts above above' : List Nat} (on : replaced m above = true)
    (off : replaced m above' = false) :
    chainTags m above ts =
      if marksBare m ts then chainTags m above' ts else (chainTags m above' ts).tail := by
  -- The induction goes to the first type that has tags or a mark.
  induction ts generalizing above above' with
  | nil => simp [chainTags]
  | cons u ts ih =>
    cases own : ownTags m u with
    | nil =>
      cases mark : (m.types u).implicit with
      | false =>
        have stillOn : replaced m (u :: above) = true := by simp [replaced, own, on]
        have stillOff : replaced m (u :: above') = false := by simp [replaced, own, off, mark]
        simpa [chainTags, marksBare, own, mark, on, off] using ih stillOn stillOff
      | true =>
        have same : replaced m (u :: above) = replaced m (u :: above') := by
          rw [replaced, replaced, mark, Bool.true_or, Bool.true_or]
        have rest : chainTags m (u :: above) ts = chainTags m (u :: above') ts :=
          chainTags_congr (fun _ _ => rfl) (fun _ _ => rfl) same
        simp [chainTags, marksBare, own, mark, on, off, rest]
    | cons tag more =>
      have same : replaced m (u :: above) = replaced m (u :: above') := by
        rw [replaced, replaced, own, List.isEmpty_cons, Bool.false_and, Bool.false_and]
      have rest : chainTags m (u :: above) ts = chainTags m (u :: above') ts :=
        chainTags_congr (fun _ _ => rfl) (fun _ _ => rfl) same
      simp [chainTags, marksBare, own, on, off, rest]

theorem RefChain.congr {u last : Nat} {ts : List Nat} (chain : RefChain m u ts last)
    (same : ∀ v ∈ ts, refersTo m' v = refersTo m v) : RefChain m' u ts last := by
  induction chain with
  | last ends => exact .last ((same _ List.mem_cons_self).trans ends)
  | ref refers _ ih =>
    exact .ref ((same _ List.mem_cons_self).trans refers)
      (ih fun v inside => same v (List.mem_cons_of_mem _ inside))

theorem RefChain.last_mem {u last : Nat} {ts : List Nat} (chain : RefChain m u ts last) :
    last ∈ ts := by
  induction chain with
  | last _ => exact List.mem_cons_self
  | ref _ _ ih => exact List.mem_cons_of_mem _ ih

theorem RefChain.exists_cons {u last : Nat} {ts : List Nat} (chain : RefChain m u ts last) :
    ∃ rest, ts = u :: rest := by
  cases chain with
  | last _ => exact ⟨[], rfl⟩
  | ref _ _ => exact ⟨_, rfl⟩

/-! ## What is replaced -/

/-- The implicit tag of a type whose alternative is given by a reference drops the first tag. -/
def dropsFirst (tagDefault : TagDefault) (m : Parsed) (t a : Nat) (ts : List Nat) : Bool :=
  if (ownTags m a).isEmpty then (m.types t).implicit && !marksBare m ts
  else tagDefault = .implicitTags || (m.types t).implicit

/-- What is left of a SELECTION type, and of what its alternative refers to. -/
structure Replaces (tagDefault : TagDefault) (m m' : Parsed) (t a : Nat) : Prop where
  own : ownTags m' t = ownTags m t ++
    if tagDefault = .implicitTags || (m.types t).implicit then (ownTags m a).tail
    else ownTags m a
  implicit : (m'.types t).implicit =
    ((m.types a).implicit || ((ownTags m a).isEmpty && (m.types t).implicit))
  basicType : (m'.types t).basicType = (m.types a).basicType
  others : ∀ u, u ≠ t → m'.types u = m.types u
  otherTags : ∀ u, u ≠ t → (m.types u).tags ≠ (m.types t).tags → ownTags m' u = ownTags m u

/-- A SELECTION type is replaced, and nothing else is. -/
theorem normalizeSelection_spec {t a last : Nat} {ts : List Nat} (tagDefault : TagDefault)
    (selects : Selects m t a ts last) :
    ∃ m', normalizeSelection tagDefault m t = some m' ∧ Replaces tagDefault m m' t a := by
  obtain ⟨tl, list, -⟩ := selects.ownList
  refine ⟨_, by simp only [normalizeSelection, selects.link, list]; rfl, ?_⟩
  exact {
    own := by
      simp only [ownTags, Function.update_self, list, appendAlternativeTags_fst]
    implicit := by
      simp only [Function.update_self, appendAlternativeTags_mark]
      cases (m.types a).implicit <;> rfl
    basicType := by simp only [Function.update_self]
    others := fun u other => Function.update_of_ne other ..
    otherTags := by
      intro u other apart
      simp only [ownTags, Function.update_of_ne other]
      cases tags : (m.types u).tags with
      | none => rfl
      | some tl' =>
        have elsewhere : tl' ≠ tl := fun same => apart (by rw [tags, list, same])
        exact Function.update_of_ne elsewhere .. }

namespace Replaces

variable {t a last : Nat} {ts : List Nat}

theorem ownTags_eq (replaces : Replaces tagDefault m m' t a)
    (selects : Selects m t a ts last) {u : Nat} (inside : u ∈ ts) :
    ownTags m' u = ownTags m u := by
  obtain ⟨tl, list, apart⟩ := selects.ownList
  have other : u ≠ t := fun same => selects.noCircle (same ▸ inside)
  exact replaces.otherTags u other fun same => apart u inside (same.trans list)

theorem refersTo_eq (replaces : Replaces tagDefault m m' t a)
    (selects : Selects m t a ts last) {u : Nat} (inside : u ∈ ts) :
    refersTo m' u = refersTo m u := by
  have other : u ≠ t := fun same => selects.noCircle (same ▸ inside)
  rw [refersTo, refersTo, replaces.others u other]

/-- The replaced type refers to what its alternative refers to. -/
theorem references (replaces : Replaces tagDefault m m' t a)
    (selects : Selects m t a ts last) {rest : List Nat} (begins : ts = a :: rest) :
    ∃ last', RefChain m' t (t :: rest) last' ∧
      (m'.types last').basicType = (m.types last).basicType := by
  have asAlternative : refersTo m' t = refersTo m a := by
    rw [refersTo, refersTo, replaces.basicType]
  cases selects.references with
  | last ends =>
    obtain rfl : [] = rest := (List.cons.inj begins).2
    exact ⟨t, .last (asAlternative.trans ends), replaces.basicType⟩
  | @ref _ u _ us refers more =>
    obtain rfl : us = rest := (List.cons.inj begins).2
    have shared : RefChain m' u us last := more.congr fun v inside =>
      replaces.refersTo_eq selects (List.mem_cons_of_mem _ inside)
    refine ⟨last, .ref (asAlternative.trans refers) shared, ?_⟩
    have isLast : last ∈ us := more.last_mem
    have other : last ≠ t := fun same =>
      selects.noCircle (same ▸ List.mem_cons_of_mem _ isLast)
    rw [replaces.others last other]

/-- The tags of the replaced type are its own ones and those of the alternative. -/
theorem chainTags_eq (replaces : Replaces tagDefault m m' t a)
    (selects : Selects m t a ts last) {rest : List Nat} (begins : ts = a :: rest) :
    chainTags m' [] (t :: rest) = ownTags m t ++
      if dropsFirst tagDefault m t a ts then (chainTags m [] ts).tail else chainTags m [] ts := by
  subst begins
  have own : ∀ u ∈ rest, ownTags m' u = ownTags m u := fun u inside =>
    replaces.ownTags_eq selects (List.mem_cons_of_mem _ inside)
  have mark : ∀ u ∈ rest, (m'.types u).implicit = (m.types u).implicit := by
    intro u inside
    have other : u ≠ t := fun same => selects.noCircle (same ▸ List.mem_cons_of_mem _ inside)
    rw [replaces.others u other]
  have flagBelow : replaced m' [t] = (m'.types t).implicit := by
    simp [replaced]
  have flagAlternative : replaced m [a] = (m.types a).implicit := by
    simp [replaced]
  have flagReplaced := replaces.implicit
  have ownReplaced := replaces.own
  cases alternative : ownTags m a with
  | cons tag more =>
    -- The first tag is one of the alternative's own, whose mark goes over to the type.
    rw [alternative, List.isEmpty_cons, Bool.false_and, Bool.or_false] at flagReplaced
    have behind : chainTags m' [t] rest = chainTags m [a] rest :=
      chainTags_congr own mark (by rw [flagBelow, flagAlternative, flagReplaced])
    rw [chainTags, chainTags, ownReplaced, behind, dropsFirst, alternative]
    cases drops : (decide (tagDefault = .implicitTags) || (m.types t).implicit) <;>
      simp [replaced]
  | nil =>
    rw [alternative, List.isEmpty_nil, Bool.true_and] at flagReplaced
    rw [alternative, List.tail_nil, ite_self, List.append_nil] at ownReplaced
    have alternativeTags : chainTags m [] (a :: rest) = chainTags m [a] rest := by
      rw [chainTags, alternative, List.tail_nil, ite_self, List.nil_append]
    rw [chainTags, ownReplaced, alternativeTags, dropsFirst, marksBare, alternative]
    cases markedAlternative : (m.types a).implicit with
    | true =>
      have behind : chainTags m' [t] rest = chainTags m [a] rest :=
        chainTags_congr own mark
          (by rw [flagBelow, flagAlternative, flagReplaced, markedAlternative, Bool.true_or])
      simp [behind, replaced]
    | false =>
      rw [markedAlternative, Bool.false_or] at flagReplaced
      have behind : chainTags m' [t] rest = chainTags m [t] rest :=
        chainTags_congr own mark (by rw [flagBelow, flagReplaced]; simp [replaced])
      have off : replaced m [a] = false := flagAlternative.trans markedAlternative
      cases marked : (m.types t).implicit with
      | true =>
        have on : replaced m [t] = true := by simp [replaced, marked]
        rw [behind, chainTags_replaced on off]
        cases marksBare m rest <;> simp [replaced]
      | false =>
        have same : chainTags m [t] rest = chainTags m [a] rest :=
          chainTags_congr (fun _ _ => rfl) (fun _ _ => rfl)
            (by rw [off]; simp [replaced, marked])
        simp [behind, same, replaced]

end Replaces

/-! ## When the tags are kept -/

theorem normalizeSelection_chain {t a last : Nat} {ts : List Nat} (tagDefault : TagDefault)
    (selects : Selects m t a ts last) :
    ∃ m' last', normalizeSelection tagDefault m t = some m' ∧
      Chain m' t (ownTags m t ++ if dropsFirst tagDefault m t a ts then (chainTags m [] ts).tail
        else chainTags m [] ts) last' ∧
      (m'.types last').basicType = (m.types last).basicType := by
  obtain ⟨m', ran, replaces⟩ := normalizeSelection_spec tagDefault selects
  obtain ⟨rest, begins⟩ := selects.references.exists_cons
  obtain ⟨last', references, same⟩ := replaces.references selects begins
  exact ⟨m', last', ran, ⟨t :: rest, references, replaces.chainTags_eq selects begins⟩, same⟩

theorem Selects.hasImplicitTag_of_implicit {t a last : Nat} {ts : List Nat}
    (selects : Selects m t a ts last) (implicit : (m.types t).implicit = true) :
    hasImplicitTag tagDefault m t = true := by
  have some := selects.marked implicit
  rw [hasImplicitTag, List.getLast?_eq_some_getLast some]
  simp [implicit]

theorem implicit_or_of_hasImplicitTag {t : Nat} (has : hasImplicitTag tagDefault m t = true) :
    (tagDefault = .implicitTags || (m.types t).implicit) = true := by
  rw [hasImplicitTag, Option.any_eq_true] at has
  obtain ⟨tag, -, isImplicit⟩ := has
  cases marked : (m.types t).implicit with
  | true => exact Bool.or_true _
  | false =>
    rw [marked, Bool.false_or, Bool.and_eq_true] at isImplicit
    rw [isImplicit.1, Bool.true_or]

theorem tail_eq_self_iff {α : Type} {l : List α} : l.tail = l ↔ l = [] := by
  cases l with
  | nil => simp
  | cons x l => simp

/-- A SELECTION type keeps its tags exactly when the first tag that is left out is one it should. -/
theorem keepsTags_iff_dropsFirst {t a last : Nat} {ts : List Nat}
    (selects : Selects m t a ts last) :
    KeepsTags tagDefault m t a ↔
      chainTags m [] ts = [] ∨ dropsFirst tagDefault m t a ts = hasImplicitTag tagDefault m t := by
  obtain ⟨m', last', ran, chain, same⟩ := normalizeSelection_chain tagDefault selects
  constructor
  · rintro ⟨m'', tags, last₁, last₂, ran', alternative, promised, -⟩
    obtain rfl : m' = m'' := Option.some.inj (ran.symm.trans ran')
    obtain ⟨rfl, -⟩ := alternative.unique ⟨ts, selects.references, rfl⟩
    have equal := List.append_cancel_left (promised.unique chain).1
    cases drops : dropsFirst tagDefault m t a ts with
    | false =>
      cases asks : hasImplicitTag tagDefault m t with
      | false => exact .inr rfl
      | true => exact .inl (tail_eq_self_iff.mp (by simpa [drops, asks] using equal))
    | true =>
      cases asks : hasImplicitTag tagDefault m t with
      | false => exact .inl (tail_eq_self_iff.mp (by simpa [drops, asks] using equal.symm))
      | true => exact .inr rfl
  · intro condition
    refine ⟨m', _, last, last', ran, ⟨ts, selects.references, rfl⟩, ?_, same⟩
    rcases condition with none | agree
    · rw [none] at chain ⊢
      simpa using chain
    · rwa [agree] at chain

/-- A SELECTION type keeps its tags exactly when the default of the module makes no tag implicit
that the type does not have, and none whose place a reference takes. -/
theorem keepsTags_iff (tagDefault : TagDefault) (m : Parsed) {t a last : Nat} {ts : List Nat}
    (selects : Selects m t a ts last) :
    KeepsTags tagDefault m t a ↔
      (ownTags m a ≠ [] → tagDefault = .implicitTags → hasImplicitTag tagDefault m t = true) ∧
      (ownTags m a = [] → hasImplicitTag tagDefault m t = true →
        chainTags m [] ts = [] ∨ ((m.types t).implicit = true ∧ marksBare m ts = false)) := by
  rw [keepsTags_iff_dropsFirst selects]
  have byMark : (m.types t).implicit = true → hasImplicitTag tagDefault m t = true :=
    selects.hasImplicitTag_of_implicit
  cases alternative : ownTags m a with
  | nil =>
    -- The first tag is behind a reference, so that only the mark of the type can replace it.
    simp only [dropsFirst, alternative, List.isEmpty_nil, if_true, ne_eq, not_true_eq_false,
      false_imp_iff, true_and, true_imp_iff]
    cases asks : hasImplicitTag tagDefault m t with
    | false =>
      have unmarked : (m.types t).implicit = false := by
        rw [asks] at byMark
        simpa using byMark
      simp [unmarked]
    | true => simp
  | cons tag more =>
    obtain ⟨rest, rfl⟩ := selects.references.exists_cons
    have some : chainTags m [] (a :: rest) ≠ [] := by
      simp [chainTags, replaced, alternative]
    simp only [dropsFirst, alternative, List.isEmpty_cons, some, false_or, ne_eq,
      reduceCtorEq, not_false_eq_true, true_imp_iff, false_imp_iff, and_true]
    cases asks : hasImplicitTag tagDefault m t with
    | false =>
      have unmarked : (m.types t).implicit = false := by
        rw [asks] at byMark
        simpa using byMark
      simp [unmarked]
    | true =>
      have either := implicit_or_of_hasImplicitTag asks
      simp [either]

/-- The tags that are kept are those that the compiler finds for the type afterwards. -/
theorem KeepsTags.tags_found {t a : Nat} (keeps : KeepsTags tagDefault m t a)
    (libTypesG : BasicTypeChoiceId → BerForm) :
    ∃ m' tags last depth, normalizeSelection tagDefault m t = some m' ∧ Chain m a tags last ∧
      ∀ expected, expected =
          ownTags m t ++ (if hasImplicitTag tagDefault m t then tags.tail else tags) →
        expected ≠ [] ∨ ¬isChoice m last → ∀ fuel curr, ∃ curr',
          getTags m' libTypesG (fuel + depth) t curr =
            some ((withForms (libTypesG (m.types last).basicType.choiceId) expected, false),
              curr') := by
  obtain ⟨m', tags, last, last', ran, alternative, ⟨ts, references, promised⟩, same⟩ := keeps
  refine ⟨m', tags, last, ts.length, ran, alternative, ?_⟩
  rintro expected rfl tagged fuel curr
  have stops : chainTags m' [] ts ≠ [] ∨ ¬isChoice m' last' := by
    rw [promised, isChoice, same]
    exact tagged
  obtain ⟨curr', got, -⟩ := getTags_tagged references stops fuel curr
  exact ⟨curr', by rw [got, promised, same]⟩

/-- A [0] INTEGER in a CHOICE, and the SELECTION type that selects it without a tag of its own. -/
def selectedInteger : Parsed where
  types t :=
    if t = 0 then
      { tags := some 0, implicit := false,
        basicType := { choiceId := .selection, link := some 1 } }
    else { tags := some 1, implicit := true, basicType := { choiceId := .integer } }
  tagLists tl :=
    if tl = 0 then [] else [{ tclass := .cntx, form := .prim, code := 0, explicit := false }]
  namedTypeLists _ := []

theorem selects_selectedInteger : Selects selectedInteger 0 1 [1] 1 where
  isSelection := rfl
  link := rfl
  references := .last rfl
  noCircle := by decide
  ownList := ⟨0, rfl, by decide⟩
  marked := by decide

theorem tags_found_selectedInteger : ∃ m' tags last,
    normalizeSelection .explicitTags selectedInteger 0 = some m' ∧
      Chain selectedInteger 1 tags last := by
  have keeps : KeepsTags .explicitTags selectedInteger 0 1 :=
    (keepsTags_iff_dropsFirst selects_selectedInteger).mpr (by decide)
  obtain ⟨m', tags, last, -, ran, chain, -⟩ := keeps.tags_found fun _ => .prim
  exact ⟨m', tags, last, ran, chain⟩

/-- Under EXPLICIT TAGS the selected INTEGER keeps its tag. -/
theorem keepsTags_iff_selectedInteger : KeepsTags .explicitTags selectedInteger 0 1 :=
  (keepsTags_iff .explicitTags selectedInteger selects_selectedInteger).mpr
    ⟨(fun _ impossible => by cases impossible), by decide⟩

/-- Under IMPLICIT TAGS the tag of the selected INTEGER is lost, with no other one in its place. -/
theorem not_keepsTags :
    ¬ ∀ (tagDefault : TagDefault) (m : Parsed) (t a last : Nat) (ts : List Nat),
      Selects m t a ts last → KeepsTags tagDefault m t a := by
  intro claim
  have kept := claim .implicitTags selectedInteger 0 1 1 [1] selects_selectedInteger
  rw [keepsTags_iff_dropsFirst selects_selectedInteger] at kept
  revert kept
  decide

end Esnacc.Compiler
