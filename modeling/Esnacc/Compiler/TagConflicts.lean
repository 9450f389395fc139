import Esnacc.Compiler.DistinctTags

/-! For which types the error checker reports a conflict of tags. -/

namespace Esnacc.Compiler

variable {m : Parsed}

/-! ## Checking a SEQUENCE -/

section

variable {elmts fuel : Nat} {tagsOf : Nat → List Tag} {p : Tag → Prop}

theorem chkSeqTagsFrom_none {curr : ListCursors}
    (last : (m.namedTypeLists elmts)[curr.namedTypeLists elmts]? = none) (turns : Nat)
    (dO : List Tag) (errors : Nat) :
    chkSeqTagsFrom m fuel elmts (turns + 1) dO errors curr = some (errors, curr) := by
  rw [chkSeqTagsFrom]
  dsimp only [bind, StateT.bind, get, getThe, MonadStateOf.get, StateT.get, pure, Option.bind_some]
  rw [last]
  rfl

/-- An element is checked, and then those behind it. -/
theorem chkSeqTagsFrom_some {curr : ListCursors} {e : Nat}
    (here : (m.namedTypeLists elmts)[curr.namedTypeLists elmts]? = some e) (turns : Nat)
    (dO : List Tag) (errors : Nat) :
    chkSeqTagsFrom m fuel elmts (turns + 1) dO errors curr =
      (chkSeqElmt m fuel dO errors e curr).bind fun got =>
        chkSeqTagsFrom m fuel elmts turns got.1.2 got.1.1
          (got.2.setNamedTypes elmts (got.2.namedTypeLists elmts + 1)) := by
  rw [chkSeqTagsFrom]
  dsimp only [bind, StateT.bind, get, getThe, MonadStateOf.get, StateT.get, pure, Option.bind_some]
  rw [here]
  change (chkSeqElmt m fuel dO errors e curr >>= _) = _
  cases chkSeqElmt m fuel dO errors e curr <;> rfl

/-- What adding the outermost tags of an element does, and which cursor it leaves alone. -/
def Adds (m : Parsed) (fuel elmts : Nat) (tagsOf : Nat → List Tag) (e : Nat) : Prop :=
  ∀ definedTags curr, ∃ curr',
    addFirstTag m fuel definedTags e curr =
      (addTags m definedTags (tagsOf e)).map (·, curr') ∧
    curr'.namedTypeLists elmts = curr.namedTypeLists elmts

/-- An element is an error exactly where its tags do not fit the run that it is checked against. -/
theorem chkSeqElmt_spec {e : Nat} (adds : Adds m fuel elmts tagsOf e)
    (comparable : Comparable m p) {dO : List Tag} (all : ∀ a ∈ dO, p a)
    (new : ∀ b ∈ tagsOf e, p b) (errors : Nat) (curr : ListCursors) :
    ∃ errors' dO' curr', chkSeqElmt m fuel dO errors e curr = some ((errors', dO'), curr') ∧
      curr'.namedTypeLists elmts = curr.namedTypeLists elmts ∧ (∀ a ∈ dO', p a) ∧
      ((errors < errors' ∧ ¬Fits m dO (tagsOf e) ∧ (mayBeAbsent m e = true ∨ dO ≠ [])) ∨
        (errors' = errors ∧ (Fits m dO (tagsOf e) ∨ mayBeAbsent m e = false ∧ dO = []) ∧
          dO' = if mayBeAbsent m e then (tagsOf e).reverse ++ dO else [])) ∧
      (mayBeAbsent m e = false → dO' = []) := by
  obtain ⟨distinct, defined', added, fits, grows, still⟩ := addTags_spec comparable all new
  obtain ⟨curr', ran, same⟩ := adds dO curr
  rw [added, Option.map_some] at ran
  cases absent : mayBeAbsent m e with
  | true =>
    refine ⟨if distinct then errors else errors + 1, defined', curr', ?_, same, still, ?_, nofun⟩
    · rw [chkSeqElmt, if_pos absent]
      change (addFirstTag m fuel dO e curr >>= _) = _
      rw [ran]
      rfl
    · cases distinct with
      | true => exact .inr ⟨rfl, .inl (fits.mp rfl), grows rfl⟩
      | false =>
        exact .inl ⟨Nat.lt_succ_self errors, fun yes => Bool.false_ne_true (fits.mpr yes), .inl rfl⟩
  | false =>
    cases dO with
    | nil =>
      refine ⟨errors, [], curr, ?_, rfl, by simp, .inr ⟨rfl, .inr ⟨rfl, rfl⟩, rfl⟩, fun _ => rfl⟩
      rw [chkSeqElmt, absent]
      rfl
    | cons a dO =>
      refine ⟨if distinct then errors else errors + 1, [], curr', ?_, same, by simp, ?_,
        fun _ => rfl⟩
      · rw [chkSeqElmt, absent]
        change (addFirstTag m fuel (a :: dO) e curr >>= _) = _
        rw [ran]
        rfl
      · cases distinct with
        | true => exact .inr ⟨rfl, .inl (fits.mp rfl), rfl⟩
        | false =>
          exact .inl ⟨Nat.lt_succ_self errors, fun yes => Bool.false_ne_true (fits.mpr yes),
            .inr (List.cons_ne_nil a dO)⟩

/-- Errors are counted exactly where components clash with the run before them. -/
theorem chkSeqTagsFrom_spec {front es : List Nat} (split : m.namedTypeLists elmts = front ++ es)
    (adds : ∀ e ∈ es, Adds m fuel elmts tagsOf e) (comparable : Comparable m p)
    (tags : ∀ e ∈ es, ∀ b ∈ tagsOf e, p b) {turns : Nat} (enough : es.length < turns)
    {dO : List Tag} (all : ∀ a ∈ dO, p a) (errors : Nat) {curr : ListCursors}
    (place : curr.namedTypeLists elmts = front.length) :
    ∃ errors' curr', chkSeqTagsFrom m fuel elmts turns dO errors curr = some (errors', curr') ∧
      errors ≤ errors' ∧ (errors < errors' ↔ Clashes m (mayBeAbsent m) tagsOf dO es) := by
  induction es generalizing front turns dO errors curr with
  | nil =>
    obtain ⟨more, rfl⟩ := Nat.exists_eq_add_of_lt enough
    have last : (m.namedTypeLists elmts)[curr.namedTypeLists elmts]? = none := by
      rw [split, place, List.append_nil]
      exact List.getElem?_eq_none (Nat.le_refl _)
    exact ⟨errors, curr, chkSeqTagsFrom_none last .., Nat.le_refl _, by simp [Clashes]⟩
  | cons e rest ih =>
    obtain ⟨more, rfl⟩ := Nat.exists_eq_add_of_lt enough
    have here : (m.namedTypeLists elmts)[curr.namedTypeLists elmts]? = some e := by
      rw [split, place, List.getElem?_append_right (Nat.le_refl _), Nat.sub_self]
      rfl
    obtain ⟨errors₁, dO₁, curr₁, checked, same₁, all₁, outcome, none₁⟩ := chkSeqElmt_spec
      (adds e List.mem_cons_self) comparable all (tags e List.mem_cons_self) errors curr
    have next : (curr₁.setNamedTypes elmts (curr₁.namedTypeLists elmts + 1)).namedTypeLists
        elmts = (front ++ [e]).length := by
      rw [ListCursors.setNamedTypes_namedTypeLists, same₁, place, List.length_append]
      rfl
    obtain ⟨errors', curr', later, grows, found⟩ := ih
      (by rw [split, List.append_assoc]; rfl)
      (fun x inside => adds x (List.mem_cons_of_mem e inside))
      (fun x inside => tags x (List.mem_cons_of_mem e inside))
      (Nat.lt_of_lt_of_le (Nat.lt_succ_self rest.length)
        (Nat.le_add_right (rest.length + 1) more)) all₁ errors₁ next
    refine ⟨errors', curr', ?_, ?_⟩
    · rw [chkSeqTagsFrom_some here, checked]
      exact later
    · rw [Clashes]
      rcases outcome with ⟨more, misfit, checks⟩ | ⟨rfl, fits, grown⟩
      · -- The error is counted already.
        refine ⟨by omega, iff_of_true (by omega) ?_⟩
        by_cases absent : mayBeAbsent m e = true
        · rw [if_pos absent]
          exact .inl misfit
        · rw [if_neg absent]
          exact .inl ⟨checks.resolve_left absent, misfit⟩
      · refine ⟨grows, found.trans ?_⟩
        by_cases absent : mayBeAbsent m e = true
        · rw [if_pos absent] at grown ⊢
          have fit : Fits m dO (tagsOf e) := by
            rcases fits with fit | ⟨no, -⟩
            · exact fit
            · rw [absent] at no
              cases no
          have order : ∀ a, a ∈ dO₁ ↔ a ∈ dO ++ tagsOf e := by
            intro a
            rw [grown, List.mem_append, List.mem_append, List.mem_reverse, or_comm]
          rw [clashes_congr order]
          exact ⟨.inr, fun either => either.resolve_left (fun misfit => misfit fit)⟩
        · rw [if_neg absent] at grown ⊢
          rw [grown]
          refine ⟨.inr, fun either => either.resolve_left ?_⟩
          rintro ⟨some, misfit⟩
          rcases fits with fit | ⟨-, none⟩
          · exact misfit fit
          · exact some none

end

/-! ## Numbers that are found -/

/-- A tag that has a number has one that can be written out. -/
theorem exists_determineCode {tag : Tag} {n : Int} (number : TagNumber m tag n) :
    ∃ code, determineCode m tag = some code := by
  unfold TagNumber at number
  unfold determineCode
  cases ref : tag.valueRef with
  | none => exact ⟨_, rfl⟩
  | some v =>
    rw [ref] at number
    cases number with
    | integer value => simp only [value]; exact ⟨500, rfl⟩
    | localValueRef value more =>
      simp only [value]
      cases more with
      | integer value => simp only [value]; exact ⟨n, rfl⟩
      | localValueRef value last =>
        simp only [value]
        split <;> exact ⟨_, rfl⟩
      | importValueRef value last => simp only [value]; exact ⟨500, rfl⟩
    | importValueRef value more =>
      simp only [value]
      split <;> exact ⟨_, rfl⟩

/-- Tags that have numbers can be compared. -/
theorem comparable_of_numbers {p : Tag → Prop} (numbers : ∀ a, p a → ∃ n, TagNumber m a n) :
    Comparable m p := by
  intro a b isA isB
  obtain ⟨_, numberA⟩ := numbers a isA
  obtain ⟨_, numberB⟩ := numbers b isB
  obtain ⟨codeA, foundA⟩ := exists_determineCode numberA
  obtain ⟨codeB, foundB⟩ := exists_determineCode numberB
  unfold tagObjCmp
  split
  · exact ⟨_, rfl⟩
  · rw [foundA, foundB]
    exact ⟨_, rfl⟩

/-! ## One type -/

/-- The kinds of types whose components are told apart by their tags. -/
def hasComponents (m : Parsed) (t : Nat) : Prop :=
  (m.types t).basicType.choiceId = .choice ∨ (m.types t).basicType.choiceId = .set ∨
    (m.types t).basicType.choiceId = .sequence

/-- The kinds of types that the checker looks into. -/
def isStructured (m : Parsed) (t : Nat) : Prop :=
  hasComponents m t ∨ (m.types t).basicType.choiceId = .sequenceOf ∨
    (m.types t).basicType.choiceId = .setOf ∨ (m.types t).basicType.choiceId = .objectClass

/-- In terms of components, the conflicts found are those of tags the checker takes for the same. -/
theorem clashesAt_iff {t : Nat} {tagsOf : Nat → List Tag}
    (first : ∀ e ∈ alternatives m t, FirstTags m e (tagsOf e)) :
    ClashesAt m (joins m t) tagsOf (alternatives m t) ↔ FoundAlike m t := by
  constructor
  · rintro ⟨before, run, f, after, split, joined, some, misfit⟩
    refine ⟨before, run, f, after, split, joined, ?_⟩
    have inside : ∀ e ∈ run ++ f :: after, e ∈ alternatives m t := fun e member =>
      split ▸ List.mem_append_right before member
    have firstF := first f (inside f (List.mem_append_right run List.mem_cons_self))
    rcases not_and_or.mp misfit with repeats | shares
    · refine .inr ⟨⟨tagsOf f, firstF, repeats⟩, some.imp id fun tags => ?_⟩
      obtain ⟨a, member⟩ := List.exists_mem_of_ne_nil _ tags
      obtain ⟨e, inRun, isTag⟩ := List.mem_flatMap.mp member
      exact ⟨e, inRun, a, ((first e (inside e (List.mem_append_left _ inRun))).mem_iff a).mp isTag⟩
    · push Not at shares
      obtain ⟨a, member, b, isTagF, alike⟩ := shares
      obtain ⟨e, inRun, isTag⟩ := List.mem_flatMap.mp member
      exact .inl ⟨e, inRun, a, b,
        ((first e (inside e (List.mem_append_left _ inRun))).mem_iff a).mp isTag,
        (firstF.mem_iff b).mp isTagF, alike⟩
  · rintro ⟨before, run, f, after, split, joined, alike⟩
    refine ⟨before, run, f, after, split, joined, ?_⟩
    have inside : ∀ e ∈ run ++ f :: after, e ∈ alternatives m t := fun e member =>
      split ▸ List.mem_append_right before member
    have firstF := first f (inside f (List.mem_append_right run List.mem_cons_self))
    have ofRun : ∀ e ∈ run, ∀ a, OutermostTag m e a → a ∈ run.flatMap tagsOf :=
      fun e inRun a outermost => List.mem_flatMap.mpr ⟨e, inRun,
        ((first e (inside e (List.mem_append_left _ inRun))).mem_iff a).mpr outermost⟩
    rcases alike with ⟨e, inRun, a, b, outermost, outermostF, alike⟩ | ⟨repeats, compared⟩
    · have member := ofRun e inRun a outermost
      exact ⟨.inr (List.ne_nil_of_mem member), fun fits =>
        fits.2 a member b ((firstF.mem_iff b).mpr outermostF) alike⟩
    · refine ⟨compared.imp id ?_, fun fits => ?_⟩
      · rintro ⟨e, inRun, a, outermost⟩
        exact List.ne_nil_of_mem (ofRun e inRun a outermost)
      · obtain ⟨tags, firstF', repeats⟩ := repeats
        cases firstF.unique firstF'
        exact repeats fits.1

/-- Checking a type without components, or elements of its own, does nothing. -/
theorem errChkType_plain {e : Nat} (plain : ¬isStructured m e) (fuel : Nat) (curr : ListCursors) :
    errChkType m (fuel + 1) e curr = some ([], curr) := by
  unfold isStructured hasComponents at plain
  push Not at plain
  obtain ⟨⟨noChoice, noSet, noSequence⟩, noSequenceOf, noSetOf, noObjectClass⟩ := plain
  cases kind : (m.types e).basicType.choiceId
  case sequenceOf => exact absurd kind noSequenceOf
  case setOf => exact absurd kind noSetOf
  case sequence => exact absurd kind noSequence
  case objectClass => exact absurd kind noObjectClass
  case choice => exact absurd kind noChoice
  case set => exact absurd kind noSet
  all_goals
    rw [errChkType, kind]
    rfl

/-- Checking elements that are plain does nothing but go through their list. -/
theorem errChkElmtTypes_plain {t fuel turns : Nat}
    (plain : ∀ e ∈ alternatives m t, ¬isStructured m e)
    (enough : (alternatives m t).length < turns) (curr : ListCursors) :
    ∃ curr', errChkElmtTypes m (errChkType m (fuel + 1)) turns (m.types t).basicType.elmts curr =
      some ([], curr') := by
  cases list : (m.types t).basicType.elmts with
  | none => exact ⟨curr, rfl⟩
  | some l =>
    have alts : alternatives m t = m.namedTypeLists l := by rw [alternatives, list]
    -- The induction is on the elements behind the cursor.
    have loop : ∀ (es front : List Nat) (turns : Nat) (curr : ListCursors),
        m.namedTypeLists l = front ++ es → (∀ e ∈ es, ¬isStructured m e) → es.length < turns →
        curr.namedTypeLists l = front.length →
        ∃ curr', errChkElmtTypesFrom m (errChkType m (fuel + 1)) l turns curr =
          some ([], curr') := by
      intro es
      induction es with
      | nil =>
        intro front turns curr split _ enough place
        obtain ⟨more, rfl⟩ := Nat.exists_eq_add_of_lt enough
        have last : (m.namedTypeLists l)[curr.namedTypeLists l]? = none := by
          rw [split, place, List.append_nil]
          exact List.getElem?_eq_none (Nat.le_refl _)
        refine ⟨curr, ?_⟩
        rw [errChkElmtTypesFrom]
        dsimp only [bind, StateT.bind, get, getThe, MonadStateOf.get, StateT.get, pure,
          Option.bind_some]
        rw [last]
        rfl
      | cons e rest ih =>
        intro front turns curr split plain enough place
        obtain ⟨more, rfl⟩ := Nat.exists_eq_add_of_lt enough
        have here : (m.namedTypeLists l)[curr.namedTypeLists l]? = some e := by
          rw [split, place, List.getElem?_append_right (Nat.le_refl _), Nat.sub_self]
          rfl
        have next : (curr.setNamedTypes l (curr.namedTypeLists l + 1)).namedTypeLists l =
            (front ++ [e]).length := by
          rw [ListCursors.setNamedTypes_namedTypeLists, place, List.length_append]
          rfl
        obtain ⟨curr', later⟩ := ih (front ++ [e]) (rest.length + 1 + more) _
          (by rw [split, List.append_assoc]; rfl)
          (fun x inside => plain x (List.mem_cons_of_mem e inside))
          (by omega) next
        refine ⟨curr', ?_⟩
        rw [errChkElmtTypesFrom]
        dsimp only [bind, StateT.bind, get, getThe, MonadStateOf.get, StateT.get, pure,
          Option.bind_some]
        rw [here]
        change (errChkType m (fuel + 1) e curr >>= _) = _
        rw [errChkType_plain (plain e List.mem_cons_self)]
        change (errChkElmtTypesFrom m (errChkType m (fuel + 1)) l _
          (curr.setNamedTypes l (curr.namedTypeLists l + 1)) >>= _) = _
        simp only [List.length_cons] at *
        rw [later]
        rfl
    exact loop _ [] turns (curr.setNamedTypes l 0) (by rw [← alts]; rfl) plain enough
      (by rw [ListCursors.setNamedTypes_namedTypeLists]; rfl)

/-- A type definition of a normalized module whose tags and references have an end. -/
structure Checkable (m : Parsed) (t : Nat) : Prop where
  finite : ∀ e ∈ alternatives m t, Finite m e
  numbers : ∀ e ∈ alternatives m t, ∀ a, OutermostTag m e a → ∃ n, TagNumber m a n
  normalized : ∀ e ∈ alternatives m t, ¬isStructured m e
  elements : ∀ e, (m.types t).basicType.setOf = some e → ¬isStructured m e

/-- The outermost tags of the components, all of which can be compared. -/
theorem Checkable.collected {t : Nat} (checkable : Checkable m t) :
    ∃ tagsOf : Nat → List Tag, (∀ e ∈ alternatives m t, FirstTags m e (tagsOf e)) ∧
      ∃ p, Comparable m p ∧ ∀ e ∈ alternatives m t, ∀ b ∈ tagsOf e, p b := by
  classical
  have each : ∀ e, ∃ tags, e ∈ alternatives m t → FirstTags m e tags := by
    intro e
    by_cases inside : e ∈ alternatives m t
    · obtain ⟨tags, first⟩ := (checkable.finite e inside).firstTags
      exact ⟨tags, fun _ => first⟩
    · exact ⟨[], fun member => absurd member inside⟩
  choose tagsOf first using each
  refine ⟨tagsOf, first, fun a => ∃ e ∈ alternatives m t, OutermostTag m e a,
    comparable_of_numbers fun a ⟨e, inside, outermost⟩ =>
      checkable.numbers e inside a outermost, ?_⟩
  exact fun e inside b member => ⟨e, inside, ((first e inside).mem_iff b).mp member⟩

/-- Where all components are joined, their tags are found distinct unless some look the same. -/
theorem hasDistinctTags_spec {t : Nat} (checkable : Checkable m t)
    (noSequence : (m.types t).basicType.choiceId ≠ .sequence) :
    ∃ n, ∀ fuel ≥ n, ∀ curr, ∃ distinct curr',
      hasDistinctTags m fuel (m.types t).basicType.elmts curr = some (distinct, curr') ∧
      (distinct = false ↔ FoundAlike m t) := by
  obtain ⟨tagsOf, first, p, comparable, tags⟩ := checkable.collected
  have joined : ∀ e, joins m t e = true := by
    intro e
    rw [joins, bne_iff_ne.mpr noSequence, Bool.true_or]
  have found := clashesAt_iff first
  rw [← clashes_nil_iff, clashes_of_joined joined] at found
  obtain ⟨distinct, defined', added, fits, -, -⟩ := @addTags_spec m p comparable []
    ((alternatives m t).flatMap tagsOf) (by simp) (by
      intro b member
      obtain ⟨e, inside, isTag⟩ := List.mem_flatMap.mp member
      exact tags e inside b isTag)
  have outcome : distinct = false ↔ FoundAlike m t := by
    rw [← found, ← fits]
    exact (Bool.not_eq_true distinct).symm.to_iff
  obtain ⟨n, adds⟩ := exists_fuel fun e inside =>
    addFirstTag_spec (first e inside) (checkable.finite e inside)
  refine ⟨max n ((alternatives m t).length + 1), fun fuel enough curr => ?_⟩
  have long : n ≤ fuel ∧ (alternatives m t).length < fuel := by omega
  unfold hasDistinctTags
  cases list : (m.types t).basicType.elmts with
  | none =>
    have noElements : alternatives m t = [] := by rw [alternatives, list]
    rw [noElements] at added
    obtain ⟨rfl, -⟩ := Prod.mk.inj (Option.some.inj added)
    exact ⟨true, curr, rfl, outcome⟩
  | some l =>
    have alts : alternatives m t = m.namedTypeLists l := by rw [alternatives, list]
    obtain ⟨curr', walked, -⟩ := @addFirstTagsFrom_spec m l (addFirstTag m fuel) tagsOf
      (fun _ => False) [] (alternatives m t) (by rw [← alts]; rfl)
      (by
        intro e inside definedTags curr
        obtain ⟨curr', got, frame⟩ := adds fuel long.1 e inside definedTags curr
        refine ⟨curr', got, fun k which => frame k ?_⟩
        rcases which with rfl | no
        · exact not_goesThrough (checkable.finite e inside) (alts ▸ inside)
        · exact no.elim)
      fuel long.2 [] (curr.setNamedTypes l 0)
      (by rw [ListCursors.setNamedTypes_namedTypeLists]; rfl)
    refine ⟨distinct, curr', ?_, outcome⟩
    rw [added] at walked
    change (addFirstTagsFrom m (addFirstTag m fuel) l fuel [] (curr.setNamedTypes l 0) >>= _) = _
    rw [walked]
    rfl

/-- The elements of a SEQUENCE give an error exactly where tags of one of its runs look the same. -/
theorem chkSeqTags_spec {t : Nat} (checkable : Checkable m t)
    (sequence : (m.types t).basicType.choiceId = .sequence) :
    ∃ n, ∀ fuel ≥ n, ∀ curr, ∃ errors curr',
      chkSeqTags m fuel (m.types t).basicType.elmts curr = some (errors, curr') ∧
      (0 < errors ↔ FoundAlike m t) := by
  obtain ⟨tagsOf, first, p, comparable, tags⟩ := checkable.collected
  have joined : joins m t = mayBeAbsent m := by
    funext e
    rw [joins, sequence]
    rfl
  have found := clashesAt_iff first
  rw [← clashes_nil_iff, joined] at found
  obtain ⟨n, adds⟩ := exists_fuel fun e inside =>
    addFirstTag_spec (first e inside) (checkable.finite e inside)
  refine ⟨max n ((alternatives m t).length + 1), fun fuel enough curr => ?_⟩
  have long : n ≤ fuel ∧ (alternatives m t).length < fuel := by omega
  cases list : (m.types t).basicType.elmts with
  | none =>
    have noElements : alternatives m t = [] := by rw [alternatives, list]
    rw [noElements] at found
    exact ⟨0, curr, rfl, by rw [← found]; simp [Clashes]⟩
  | some l =>
    have alts : alternatives m t = m.namedTypeLists l := by rw [alternatives, list]
    obtain ⟨errors, curr', checked, -, some⟩ := @chkSeqTagsFrom_spec m l fuel tagsOf p []
      (alternatives m t) (by rw [← alts]; rfl)
      (by
        intro e inside definedTags curr
        obtain ⟨curr', got, frame⟩ := adds fuel long.1 e inside definedTags curr
        exact ⟨curr', got, frame l (not_goesThrough (checkable.finite e inside) (alts ▸ inside))⟩)
      comparable tags fuel long.2 [] (by simp) 0 (curr.setNamedTypes l 0)
      (by rw [ListCursors.setNamedTypes_namedTypeLists]; rfl)
    exact ⟨errors, curr', checked, some.trans found⟩

/-- A conflict of tags is reported for a type exactly where tags of its components look the same. -/
theorem errChkType_spec {t : Nat} (checkable : Checkable m t) :
    ∃ n, ∀ fuel ≥ n, ∀ curr, ∃ reports curr', errChkType m fuel t curr = some (reports, curr') ∧
      ∀ u, u ∈ reports ↔ u = t ∧ hasComponents m t ∧ FoundAlike m t := by
  have plainElements : ∀ fuel, (alternatives m t).length < fuel → ∀ curr, ∃ curr',
      errChkElmtTypes m (errChkType m fuel) fuel (m.types t).basicType.elmts curr =
        some ([], curr') := by
    intro fuel enough curr
    obtain ⟨more, rfl⟩ := Nat.exists_eq_add_of_lt (Nat.zero_lt_of_lt enough)
    rw [Nat.zero_add] at enough ⊢
    exact errChkElmtTypes_plain checkable.normalized enough curr
  by_cases hasOnes : hasComponents m t
  · by_cases sequence : (m.types t).basicType.choiceId = .sequence
    · obtain ⟨n, checks⟩ := chkSeqTags_spec checkable sequence
      refine ⟨max n ((alternatives m t).length + 1) + 1, fun fuel enough curr => ?_⟩
      obtain ⟨more, rfl⟩ := Nat.exists_eq_add_of_le' (Nat.le_trans (Nat.le_add_left 1 _) enough)
      have long : n ≤ more ∧ (alternatives m t).length < more := by omega
      obtain ⟨curr₁, elements⟩ := plainElements more long.2 curr
      obtain ⟨errors, curr₂, checked, some⟩ := checks more long.1 curr₁
      refine ⟨List.replicate errors t, curr₂, ?_, fun u => ?_⟩
      · rw [errChkType, sequence]
        change (errChkElmtTypes m (errChkType m more) more (m.types t).basicType.elmts curr >>= _)
          = _
        rw [elements]
        change (chkSeqTags m more (m.types t).basicType.elmts curr₁ >>= _) = _
        rw [checked]
        rfl
      · rw [List.mem_replicate, ← some, Nat.pos_iff_ne_zero, and_comm]
        exact and_congr_right fun _ => (and_iff_right hasOnes).symm
    · obtain ⟨n, checks⟩ := hasDistinctTags_spec checkable sequence
      refine ⟨max n ((alternatives m t).length + 1) + 1, fun fuel enough curr => ?_⟩
      obtain ⟨more, rfl⟩ := Nat.exists_eq_add_of_le' (Nat.le_trans (Nat.le_add_left 1 _) enough)
      have long : n ≤ more ∧ (alternatives m t).length < more := by omega
      obtain ⟨distinct, curr₁, checked, found⟩ := checks more long.1 curr
      obtain ⟨curr₂, elements⟩ := plainElements more long.2 curr₁
      refine ⟨(if distinct then [] else [t]) ++ [], curr₂, ?_, fun u => ?_⟩
      · have unfolds : errChkType m (more + 1) t = (do
            let distinct ← hasDistinctTags m more (m.types t).basicType.elmts
            let errors ← errChkElmtTypes m (errChkType m more) more (m.types t).basicType.elmts
            return (if distinct then [] else [t]) ++ errors) := by
          rw [errChkType]
          rcases hasOnes with choice | set | no
          · rw [choice]
          · rw [set]
          · exact absurd no sequence
        rw [unfolds]
        change (hasDistinctTags m more (m.types t).basicType.elmts curr >>= _) = _
        rw [checked]
        change (errChkElmtTypes m (errChkType m more) more (m.types t).basicType.elmts curr₁
          >>= _) = _
        rw [elements]
        rfl
      · rw [← found]
        cases distinct <;> simp [hasOnes]
  · -- Types without components of their own give no reports.
    refine ⟨(alternatives m t).length + 2, fun fuel enough curr => ?_⟩
    obtain ⟨more, rfl⟩ := Nat.exists_eq_add_of_le' (Nat.le_trans (Nat.le_add_left 2 _) enough)
    have none : ∀ u, u ∈ ([] : List Nat) ↔ u = t ∧ hasComponents m t ∧ FoundAlike m t :=
      fun u => iff_of_false List.not_mem_nil fun all => hasOnes all.2.1
    by_cases structured : isStructured m t
    · rcases structured with has | sequenceOf | setOf | objectClass
      · exact absurd has hasOnes
      · cases elmt : (m.types t).basicType.setOf with
        | none => exact ⟨[], curr, by rw [errChkType, sequenceOf]; simp only [elmt]; rfl, none⟩
        | some e =>
          refine ⟨[], curr, ?_, none⟩
          rw [errChkType, sequenceOf]
          simp only [elmt]
          exact errChkType_plain (checkable.elements e elmt) more curr
      · cases elmt : (m.types t).basicType.setOf with
        | none => exact ⟨[], curr, by rw [errChkType, setOf]; simp only [elmt]; rfl, none⟩
        | some e =>
          refine ⟨[], curr, ?_, none⟩
          rw [errChkType, setOf]
          simp only [elmt]
          exact errChkType_plain (checkable.elements e elmt) more curr
      · obtain ⟨curr', elements⟩ := plainElements (more + 1) (by omega) curr
        exact ⟨[], curr', by rw [errChkType, objectClass]; exact elements, none⟩
    · exact ⟨[], curr, errChkType_plain structured (more + 1) curr, none⟩

/-! ## Modules -/

/-- The types that are reported are those with components some tags of which look the same. -/
theorem errChkModule_spec {typeDefs : List Nat} (checkable : ∀ t ∈ typeDefs, Checkable m t) :
    ∃ n, ∀ fuel ≥ n, ∀ curr, ∃ reports curr',
      errChkModule m fuel typeDefs curr = some (reports, curr') ∧
      ∀ u, u ∈ reports ↔ u ∈ typeDefs ∧ hasComponents m u ∧ FoundAlike m u := by
  induction typeDefs with
  | nil => exact ⟨0, fun fuel _ curr => ⟨[], curr, rfl, by simp⟩⟩
  | cons t rest ih =>
    obtain ⟨n, here⟩ := errChkType_spec (checkable t List.mem_cons_self)
    obtain ⟨k, later⟩ := ih fun u inside => checkable u (List.mem_cons_of_mem t inside)
    refine ⟨max n k, fun fuel enough curr => ?_⟩
    obtain ⟨reports₁, curr₁, checked, found⟩ := here fuel (by omega) curr
    obtain ⟨reports₂, curr₂, rest', others⟩ := later fuel (by omega) curr₁
    refine ⟨reports₁ ++ reports₂, curr₂, ?_, fun u => ?_⟩
    · rw [errChkModule]
      change (errChkType m fuel t curr >>= _) = _
      rw [checked]
      change (errChkModule m fuel rest curr₁ >>= _) = _
      rw [rest']
      rfl
    · rw [List.mem_append, found, others, List.mem_cons, or_and_right]
      apply or_congr _ Iff.rfl
      constructor <;>
      · rintro ⟨rfl, facts⟩
        exact ⟨rfl, facts⟩

/-- The tags of components look the same exactly where they are, and none of them has one twice. -/
structure TagsTold (m : Parsed) (t : Nat) : Prop where
  alike : ∀ e ∈ alternatives m t, ∀ f ∈ alternatives m t, ∀ a b, OutermostTag m e a →
    OutermostTag m f b → (Alike m a b ↔ SameTag m a b)
  once : ∀ e ∈ alternatives m t, ¬Repeats m e

/-- Where tags look the same exactly where they are, the conflicts found are the ones there are. -/
theorem TagsTold.foundAlike_iff {t : Nat} (told : TagsTold m t) :
    FoundAlike m t ↔ Conflict m t := by
  constructor
  · rintro ⟨before, run, f, after, split, joined, alike⟩
    have insideF : f ∈ alternatives m t := by
      rw [split]
      exact List.mem_append_right _ (List.mem_append_right _ List.mem_cons_self)
    rcases alike with ⟨e, inRun, a, b, outermost, outermostF, alike⟩ | ⟨repeats, -⟩
    · have insideE : e ∈ alternatives m t := by
        rw [split]
        exact List.mem_append_right _ (List.mem_append_left _ inRun)
      obtain ⟨front, between, parts⟩ := List.append_of_mem inRun
      refine ⟨before ++ front, e, between, f, after, ?_, fun x inside => joined x ?_, a, b,
        outermost, outermostF, (told.alike e insideE f insideF a b outermost outermostF).mp alike⟩
      · rw [split, parts, List.append_assoc, List.append_assoc, List.cons_append]
      · rw [parts]
        exact List.mem_append_right front inside
    · exact absurd repeats (told.once f insideF)
  · rintro ⟨before, e, between, f, after, split, joined, a, b, outermost, outermostF, same⟩
    have insideE : e ∈ alternatives m t := by
      rw [split]
      exact List.mem_append_right _ List.mem_cons_self
    have insideF : f ∈ alternatives m t := by
      rw [split]
      exact List.mem_append_right _ (List.mem_cons_of_mem e
        (List.mem_append_right _ List.mem_cons_self))
    refine ⟨before, e :: between, f, after, split, joined, .inl ⟨e, List.mem_cons_self, a, b,
      outermost, outermostF, ?_⟩⟩
    exact (told.alike e insideE f insideF a b outermost outermostF).mpr same

/-- A conflict of tags is reported for a type exactly where two of its components have one. -/
def ReportsConflicts (m : Parsed) (typeDefs : List Nat) (t : Nat) : Prop :=
  ∃ n, ∀ fuel ≥ n, ∀ curr, ∃ reports curr',
    errChkModule m fuel typeDefs curr = some (reports, curr') ∧ (t ∈ reports ↔ Conflict m t)

/-- A SET with a component tagged `[APPLICATION 1]` and one tagged `[one]`, where `one` is 1. -/
def setWithValueRef (ref : Option Nat) (code : Int) : Parsed where
  types
    | 0 => { tags := none, implicit := false, basicType := { choiceId := .set, elmts := some 0 } }
    | 1 => { tags := some 0, implicit := false, basicType := { choiceId := .integer } }
    | _ => { tags := some 1, implicit := false, basicType := { choiceId := .boolean } }
  tagLists
    | 0 => [⟨.appl, .nullForm, 1, true, none⟩, ⟨.univ, .nullForm, 2, false, none⟩]
    | _ => [⟨.cntx, .nullForm, code, true, ref⟩, ⟨.univ, .nullForm, 1, false, none⟩]
  namedTypeLists _ := [1, 2]
  values
    | 0 => .localValueRef (some 1)
    | _ => .integer 1

/-- What the definitions give for the SET, whichever way its second tag is written. -/
theorem setWithValueRef_facts {ref : Option Nat} {code n : Int}
    (number : TagNumber (setWithValueRef ref code) ⟨.cntx, .nullForm, code, true, ref⟩ n) :
    Checkable (setWithValueRef ref code) 0 ∧ ¬Conflict (setWithValueRef ref code) 0 ∧
      FirstTags (setWithValueRef ref code) 1 [⟨.appl, .nullForm, 1, true, none⟩] ∧
      FirstTags (setWithValueRef ref code) 2 [⟨.cntx, .nullForm, code, true, ref⟩] := by
  have chain : Chain (setWithValueRef ref code) 1
      [⟨.appl, .nullForm, 1, true, none⟩, ⟨.univ, .nullForm, 2, false, none⟩] 1 :=
    ⟨[1], .last rfl, rfl⟩
  have chainRef : Chain (setWithValueRef ref code) 2
      [⟨.cntx, .nullForm, code, true, ref⟩, ⟨.univ, .nullForm, 1, false, none⟩] 2 :=
    ⟨[2], .last rfl, rfl⟩
  have only : ∀ a, OutermostTag (setWithValueRef ref code) 1 a →
      a = ⟨.appl, .nullForm, 1, true, none⟩ := fun a outermost =>
    List.mem_singleton.mp (((FirstTags.tag chain).mem_iff a).mpr outermost)
  have onlyRef : ∀ a, OutermostTag (setWithValueRef ref code) 2 a →
      a = ⟨.cntx, .nullForm, code, true, ref⟩ := fun a outermost =>
    List.mem_singleton.mp (((FirstTags.tag chainRef).mem_iff a).mpr outermost)
  have members : ∀ {p : Nat → Prop}, p 1 → p 2 →
      ∀ e ∈ alternatives (setWithValueRef ref code) 0, p e := by
    intro p one two e inside
    change e ∈ [1, 2] at inside
    rcases List.mem_cons.mp inside with rfl | other
    · exact one
    · rwa [List.mem_singleton.mp other]
  refine ⟨⟨?_, ?_, ?_, nofun⟩, ?_, .tag chain, .tag chainRef⟩
  · apply members
    · exact .intro (.last rfl) fun e offers =>
        absurd offers (not_offers_of_tagged chain (.inl (List.cons_ne_nil _ _)) e)
    · exact .intro (.last rfl) fun e offers =>
        absurd offers (not_offers_of_tagged chainRef (.inl (List.cons_ne_nil _ _)) e)
  · apply members
    · intro a outermost
      rw [only a outermost]
      exact ⟨1, rfl⟩
    · intro a outermost
      rw [onlyRef a outermost]
      exact ⟨n, number⟩
  · apply members <;>
    · rintro ((no | no | no) | no | no | no) <;> cases no
  · rintro ⟨before, e, between, f, after, split, -, a, b, outermost, outermostF, sameClass, -⟩
    -- The two components are the first and the second one.
    change [1, 2] = before ++ e :: (between ++ f :: after) at split
    have lengths := congrArg List.length split
    simp only [List.length_cons, List.length_append, List.length_nil] at lengths
    obtain ⟨rfl, rfl, rfl⟩ : before = [] ∧ between = [] ∧ after = [] := by
      refine ⟨?_, ?_, ?_⟩ <;> apply List.eq_nil_of_length_eq_zero <;> omega
    obtain ⟨rfl, more⟩ := List.cons.inj split
    obtain ⟨rfl, -⟩ := List.cons.inj more
    rw [only a outermost, onlyRef b outermostF] at sameClass
    cases sameClass

end Esnacc.Compiler
