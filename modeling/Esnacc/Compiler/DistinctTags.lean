import Esnacc.Compiler.FirstTags

/-! Which components of a type the error checker finds in conflict, and which ones are. -/

namespace Esnacc.Compiler

section

variable (m : Parsed)

/-! ## Numbers of tags -/

/-- A value is a number, or refers to a value that is one. -/
inductive ValueIs : Nat → Int → Prop
  | integer {v : Nat} {n : Int} : m.values v = .integer n → ValueIs v n
  | localValueRef {v link : Nat} {n : Int} : m.values v = .localValueRef (some link) →
      ValueIs link n → ValueIs v n
  | importValueRef {v link : Nat} {n : Int} : m.values v = .importValueRef (some link) →
      ValueIs link n → ValueIs v n

/-- The number of a tag, whether it is written as such or as a reference to a value. -/
def TagNumber (tag : Tag) (n : Int) : Prop :=
  match tag.valueRef with
  | none => tag.code = n
  | some v => ValueIs m v n

/-- Two tags are the same in class and number. -/
def SameTag (a b : Tag) : Prop :=
  a.tclass = b.tclass ∧ ∃ n, TagNumber m a n ∧ TagNumber m b n

/-- The checker takes two tags for the same. -/
def Alike (a b : Tag) : Prop :=
  tagObjCmp m a b = some true

instance (a b : Tag) : Decidable (Alike m a b) :=
  inferInstanceAs (Decidable (_ = _))

/-! ## Components in conflict -/

/-- A component that can be told apart from the next one by its tag only. -/
def joins (t e : Nat) : Bool :=
  (m.types t).basicType.choiceId != .sequence || mayBeAbsent m e

/-- Two components, all of them up to the second one such that tags tell them apart, share a tag. -/
def Conflict (t : Nat) : Prop :=
  ∃ before e between f after, alternatives m t = before ++ e :: (between ++ f :: after) ∧
    (∀ x ∈ e :: between, joins m t x = true) ∧
    ∃ a b, OutermostTag m e a ∧ OutermostTag m f b ∧ SameTag m a b

/-- The checker takes two of the tags of one component for the same. -/
def Repeats (e : Nat) : Prop :=
  ∃ tags, FirstTags m e tags ∧ ¬tags.Pairwise fun a b => ¬Alike m a b

/--
The checker takes a tag of a component for the same as one of those before it, or of another tag of
the component itself where it has collected any tags to compare.
-/
def FoundAlike (t : Nat) : Prop :=
  ∃ before run f after, alternatives m t = before ++ (run ++ f :: after) ∧
    (∀ x ∈ run, joins m t x = true) ∧
    ((∃ e ∈ run, ∃ a b, OutermostTag m e a ∧ OutermostTag m f b ∧ Alike m a b) ∨
      (Repeats m f ∧ (joins m t f = true ∨ ∃ e ∈ run, ∃ a, OutermostTag m e a)))

end

variable {m : Parsed}

/-! ## Adding tags -/

/-- Tags that can be added to those defined without a conflict. -/
def Fits (m : Parsed) (definedTags tags : List Tag) : Prop :=
  (tags.Pairwise fun a b => ¬Alike m a b) ∧ ∀ a ∈ definedTags, ∀ b ∈ tags, ¬Alike m a b

/-- All tags that satisfy a condition can be compared. -/
def Comparable (m : Parsed) (p : Tag → Prop) : Prop :=
  ∀ a b, p a → p b → ∃ same, tagObjCmp m a b = some same

theorem objIsDefined_spec {p : Tag → Prop} (comparable : Comparable m p) {definedTags : List Tag}
    (all : ∀ a ∈ definedTags, p a) {tag : Tag} (isTag : p tag) :
    ∃ found, objIsDefined m definedTags tag = some found ∧
      (found = true ↔ ∃ a ∈ definedTags, Alike m a tag) := by
  induction definedTags with
  | nil => exact ⟨false, rfl, by simp⟩
  | cons obj objs ih =>
    obtain ⟨same, compared⟩ := comparable obj tag (all obj List.mem_cons_self) isTag
    rw [objIsDefined, compared]
    cases same with
    | true => exact ⟨true, rfl, iff_of_true rfl ⟨obj, List.mem_cons_self, compared⟩⟩
    | false =>
      obtain ⟨found, later, spec⟩ := ih fun a inside => all a (List.mem_cons_of_mem obj inside)
      refine ⟨found, later, spec.trans ?_⟩
      constructor
      · rintro ⟨a, inside, alike⟩
        exact ⟨a, List.mem_cons_of_mem obj inside, alike⟩
      · rintro ⟨a, inside, alike⟩
        rcases List.mem_cons.mp inside with rfl | other
        · rw [Alike, compared] at alike
          cases alike
        · exact ⟨a, other, alike⟩

/-- Tags are added without a conflict exactly where they fit. -/
theorem addTags_spec {p : Tag → Prop} (comparable : Comparable m p) {definedTags tags : List Tag}
    (all : ∀ a ∈ definedTags, p a) (new : ∀ b ∈ tags, p b) :
    ∃ distinct defined', addTags m definedTags tags = some (distinct, defined') ∧
      (distinct = true ↔ Fits m definedTags tags) ∧
      (distinct = true → defined' = tags.reverse ++ definedTags) ∧ ∀ a ∈ defined', p a := by
  induction tags generalizing definedTags with
  | nil => exact ⟨true, definedTags, rfl, iff_of_true rfl ⟨.nil, by simp⟩, fun _ => rfl, all⟩
  | cons tag rest ih =>
    have isTag := new tag List.mem_cons_self
    obtain ⟨found, looked, spec⟩ := objIsDefined_spec comparable all isTag
    rw [addTags, addTag, looked]
    cases found with
    | true =>
      refine ⟨false, definedTags, rfl, iff_of_false (fun no => by cases no) ?_, (fun no => by cases no), all⟩
      obtain ⟨a, inside, alike⟩ := spec.mp rfl
      exact fun fits => fits.2 a inside tag List.mem_cons_self alike
    | false =>
      have fresh : ∀ a ∈ definedTags, ¬Alike m a tag := fun a inside alike =>
        Bool.false_ne_true (spec.mpr ⟨a, inside, alike⟩)
      have grown : ∀ a ∈ tag :: definedTags, p a := by
        intro a inside
        rcases List.mem_cons.mp inside with rfl | other
        · exact isTag
        · exact all a other
      obtain ⟨distinct, defined', added, fits, grows, still⟩ := ih grown
        fun b inside => new b (List.mem_cons_of_mem tag inside)
      refine ⟨distinct, defined', added, fits.trans ?_, fun yes => ?_, still⟩
      · constructor
        · rintro ⟨apart, others⟩
          refine ⟨.cons (fun b inside => others tag List.mem_cons_self b inside) apart, ?_⟩
          intro a inside b member
          rcases List.mem_cons.mp member with rfl | later
          · exact fresh a inside
          · exact others a (List.mem_cons_of_mem tag inside) b later
        · rintro ⟨apart, others⟩
          obtain ⟨first, later⟩ := List.pairwise_cons.mp apart
          refine ⟨later, fun a inside b member => ?_⟩
          rcases List.mem_cons.mp inside with rfl | other
          · exact first b member
          · exact others a other b (List.mem_cons_of_mem tag member)
      · rw [grows yes, List.reverse_cons, List.append_assoc]
        rfl

/-! ## Runs of components -/

section

variable (m : Parsed) (joined : Nat → Bool) (tagsOf : Nat → List Tag)

/-- The checker finds a conflict in components behind a run with these tags. -/
@[grind =] def Clashes : List Tag → List Nat → Prop
  | _, [] => False
  | run, e :: es =>
    if joined e then ¬Fits m run (tagsOf e) ∨ Clashes (run ++ tagsOf e) es
    else (run ≠ [] ∧ ¬Fits m run (tagsOf e)) ∨ Clashes [] es

end

variable {joined : Nat → Bool} {tagsOf : Nat → List Tag}

theorem fits_congr {run run' tags : List Tag} (same : ∀ a, a ∈ run ↔ a ∈ run') :
    Fits m run tags ↔ Fits m run' tags := by
  simp only [Fits, same]

theorem clashes_congr {run run' : List Tag} (same : ∀ a, a ∈ run ↔ a ∈ run') (es : List Nat) :
    Clashes m joined tagsOf run es ↔ Clashes m joined tagsOf run' es := by
  induction es generalizing run run' with
  | nil => exact Iff.rfl
  | cons e rest ih =>
    have some : run ≠ [] ↔ run' ≠ [] := by
      simp only [ne_eq, List.eq_nil_iff_forall_not_mem, same]
    have grown : Clashes m joined tagsOf (run ++ tagsOf e) rest ↔
        Clashes m joined tagsOf (run' ++ tagsOf e) rest := by
      apply ih
      intro a
      rw [List.mem_append, List.mem_append, same]
    rw [Clashes, Clashes, fits_congr same, some, grown]

/-- A conflict found in one of the runs of a list of components. -/
def ClashesAt (m : Parsed) (joined : Nat → Bool) (tagsOf : Nat → List Tag) (es : List Nat) : Prop :=
  ∃ before run f after, es = before ++ (run ++ f :: after) ∧ (∀ x ∈ run, joined x = true) ∧
    (joined f = true ∨ run.flatMap tagsOf ≠ []) ∧ ¬Fits m (run.flatMap tagsOf) (tagsOf f)

theorem fits_append (run xs ys : List Tag) :
    Fits m run (xs ++ ys) ↔ Fits m run xs ∧ Fits m (run ++ xs) ys := by
  unfold Fits
  rw [List.pairwise_append]
  constructor
  · rintro ⟨⟨first, second, across⟩, others⟩
    refine ⟨⟨first, fun a inside b member => others a inside b (List.mem_append_left ys member)⟩,
      second, fun a inside b member => ?_⟩
    rcases List.mem_append.mp inside with before | here
    · exact others a before b (List.mem_append_right xs member)
    · exact across a here b member
  · rintro ⟨⟨first, others⟩, second, more⟩
    refine ⟨⟨first, second, fun a inside b member =>
      more a (List.mem_append_right run inside) b member⟩, fun a inside b member => ?_⟩
    rcases List.mem_append.mp member with here | later
    · exact others a inside b here
    · exact more a (List.mem_append_left xs inside) b later

theorem Fits.mono {run run' tags : List Tag} (fits : Fits m run' tags)
    (within : ∀ a ∈ run, a ∈ run') : Fits m run tags :=
  ⟨fits.1, fun a inside => fits.2 a (within a inside)⟩

theorem clashes_of_joined {es : List Nat} (all : ∀ e, joined e = true) (run : List Tag) :
    Clashes m joined tagsOf run es ↔ ¬Fits m run (es.flatMap tagsOf) := by
  induction es generalizing run with
  | nil => simp [Clashes, Fits]
  | cons e rest ih =>
    rw [Clashes, if_pos (all e), ih, List.flatMap_cons, fits_append, not_and_or]

/-- A conflict is found behind a run of components exactly where one of the runs has it. -/
theorem clashes_iff {prev es : List Nat} (all : ∀ x ∈ prev, joined x = true) :
    Clashes m joined tagsOf (prev.flatMap tagsOf) es ↔
      ∃ before run f after, prev ++ es = before ++ (run ++ f :: after) ∧
        after.length < es.length ∧ (∀ x ∈ run, joined x = true) ∧
        (joined f = true ∨ run.flatMap tagsOf ≠ []) ∧
        ¬Fits m (run.flatMap tagsOf) (tagsOf f) := by
  induction es generalizing prev with
  | nil =>
    refine iff_of_false id ?_
    rintro ⟨_, _, _, _, -, short, -⟩
    cases short
  | cons e rest ih =>
    -- A run that ends at this component is part of the run before it.
    have here : ∀ {before run f after}, prev ++ e :: rest = before ++ (run ++ f :: after) →
        after.length = rest.length → f = e ∧ ∀ a ∈ run.flatMap tagsOf, a ∈ prev.flatMap tagsOf := by
      intro before run f after split same
      rw [← List.append_assoc] at split
      obtain ⟨front, back⟩ := List.append_inj' split (by simp [same])
      obtain ⟨rfl, -⟩ := List.cons.inj back
      refine ⟨rfl, fun a inside => ?_⟩
      rw [front, List.flatMap_append]
      exact List.mem_append_right _ inside
    by_cases joinedE : joined e = true
    · have allMore : ∀ x ∈ prev ++ [e], joined x = true := by
        intro x inside
        rcases List.mem_append.mp inside with before | last
        · exact all x before
        · rw [List.mem_singleton.mp last]
          exact joinedE
      have more := ih allMore
      rw [List.flatMap_append, List.flatMap_singleton, List.append_assoc, List.singleton_append]
        at more
      rw [Clashes, if_pos joinedE, more]
      constructor
      · rintro (misfit | ⟨before, run, f, after, split, short, facts⟩)
        · exact ⟨[], prev, e, rest, rfl, Nat.lt_succ_self _, all, .inl joinedE, misfit⟩
        · exact ⟨before, run, f, after, split, Nat.lt_succ_of_lt short, facts⟩
      · rintro ⟨before, run, f, after, split, short, joinedRun, some, misfit⟩
        rcases Nat.lt_succ_iff_lt_or_eq.mp short with less | same
        · exact .inr ⟨before, run, f, after, split, less, joinedRun, some, misfit⟩
        · obtain ⟨rfl, within⟩ := here split same
          exact .inl fun fits => misfit (fits.mono within)
    · have more := @ih [] (by simp)
      rw [List.flatMap_nil, List.nil_append] at more
      rw [Clashes, if_neg joinedE, more]
      constructor
      · rintro (⟨some, misfit⟩ | ⟨before, run, f, after, split, short, facts⟩)
        · exact ⟨[], prev, e, rest, rfl, Nat.lt_succ_self _, all, .inr some, misfit⟩
        · refine ⟨prev ++ e :: before, run, f, after, ?_, Nat.lt_succ_of_lt short, facts⟩
          rw [split, List.append_assoc, List.cons_append]
      · rintro ⟨before, run, f, after, split, short, joinedRun, some, misfit⟩
        rcases Nat.lt_succ_iff_lt_or_eq.mp short with less | same
        · -- The component is not joined, so that the run starts behind it.
          refine .inr ?_
          have noRun : e ∉ run := fun inside => joinedE (joinedRun e inside)
          rcases List.append_eq_append_iff.mp split with ⟨as, front, back⟩ | ⟨cs, front, back⟩
          · cases as with
            | nil =>
              cases run with
              | nil =>
                obtain ⟨-, rfl⟩ := List.cons.inj back
                exact absurd less (Nat.lt_irrefl _)
              | cons x run =>
                obtain ⟨rfl, -⟩ := List.cons.inj back
                exact absurd List.mem_cons_self noRun
            | cons x as =>
              obtain ⟨rfl, split'⟩ := List.cons.inj back
              exact ⟨as, run, f, after, split', less, joinedRun, some, misfit⟩
          · have inside : e ∈ run ++ f :: after := by
              rw [back]
              exact List.mem_append_right cs List.mem_cons_self
            rcases List.append_eq_append_iff.mp back with ⟨ds, -, tail⟩ | ⟨ds, runs, tail⟩
            · have lengths := congrArg List.length tail
              simp only [List.length_cons, List.length_append] at lengths
              omega
            · cases ds with
              | nil =>
                obtain ⟨-, rfl⟩ := List.cons.inj tail
                exact absurd less (Nat.lt_irrefl _)
              | cons x ds =>
                obtain ⟨rfl, -⟩ := List.cons.inj tail
                refine absurd ?_ noRun
                rw [runs]
                exact List.mem_append_right cs List.mem_cons_self
        · obtain ⟨rfl, within⟩ := here split same
          refine .inl ⟨fun none => ?_, fun fits => misfit (fits.mono within)⟩
          -- A run that is not joined to this component has a tag.
          obtain ⟨a, inside⟩ := List.exists_mem_of_ne_nil _ (some.resolve_left joinedE)
          have member := within a inside
          rw [none] at member
          cases member

/-- The checker finds a conflict in components exactly where one of their runs has it. -/
theorem clashes_nil_iff (es : List Nat) :
    Clashes m joined tagsOf [] es ↔ ClashesAt m joined tagsOf es := by
  have spec := @clashes_iff m joined tagsOf [] es (by simp)
  rw [List.flatMap_nil, List.nil_append] at spec
  rw [spec]
  constructor
  · rintro ⟨before, run, f, after, split, -, joinedRun, facts⟩
    exact ⟨before, run, f, after, split, joinedRun, facts⟩
  · rintro ⟨before, run, f, after, split, joinedRun, facts⟩
    refine ⟨before, run, f, after, split, ?_, joinedRun, facts⟩
    rw [split, List.length_append, List.length_append, List.length_cons]
    omega

end Esnacc.Compiler
