import Esnacc.Compiler.NamedElmts
import Esnacc.Lib.GraphWalks

/-! When the named numbers of a type are gathered in finite time, and that they are those it reaches. -/

namespace Esnacc.Compiler

open Lib

variable {m : Parsed} {namedNumberLists : Nat → List Nat}

/-! ## Gathering named elements -/

/-- That a routine fails or gathers these named elements and leaves the cursors of these lists. -/
def Gathers (routine : NamedElmtM (List Nat)) (names : List Nat) (kept : Nat → Prop) : Prop :=
  ∀ curr, routine.run curr = none ∨ ∃ curr', routine.run curr = some (names, curr') ∧
    ∀ l, kept l → curr'.namedTypeLists l = curr.namedTypeLists l

section

variable {getElmts : Nat → NamedElmtM (List Nat)} {choice : Nat}

theorem choiceNamedElmts_none {curr : NamedElmtCursors}
    (done : (m.namedTypeLists choice)[curr.namedTypeLists choice]? = none) (turns : Nat)
    (retVal : List Nat) :
    (choiceNamedElmts m getElmts choice (turns + 1) retVal).run curr = some (retVal, curr) := by
  rw [choiceNamedElmts, StateT.run_bind, StateT.run_get, Option.pure_def, Option.bind_eq_bind,
    Option.bind_some]
  simp only [done]
  rfl

/-- The elements of an alternative are gathered before those of the next ones. -/
theorem choiceNamedElmts_some {curr : NamedElmtCursors} {e : Nat}
    (here : (m.namedTypeLists choice)[curr.namedTypeLists choice]? = some e) (turns : Nat)
    (retVal : List Nat) :
    (choiceNamedElmts m getElmts choice (turns + 1) retVal).run curr =
      (getElmts e).run curr >>= fun r =>
        if r.2.namedTypeLists choice < (m.namedTypeLists choice).length then
          (choiceNamedElmts m getElmts choice turns (retVal ++ r.1)).run
            (r.2.setNamedTypes choice (r.2.namedTypeLists choice + 1))
        else none := by
  rw [choiceNamedElmts, StateT.run_bind, StateT.run_get, Option.pure_def, Option.bind_eq_bind,
    Option.bind_some]
  simp only [here, StateT.run_bind]
  congr 1
  funext r
  simp only [StateT.run_get, Option.pure_def, Option.bind_eq_bind, Option.bind_some]
  split
  · simp only [StateT.run_bind, StateT.run_set, Option.pure_def, Option.bind_eq_bind,
      Option.bind_some]
  · rfl

/-- The elements of all the alternatives are gathered in their order, where each leaves the cursor of
the CHOICE; with turns for all of them only an alternative fails. -/
theorem choiceNamedElmts_spec {kept : Nat → Prop} {namesOf : Nat → List Nat} {front es : List Nat}
    (split : m.namedTypeLists choice = front ++ es)
    (gathers : ∀ e ∈ es, Gathers (getElmts e) (namesOf e) fun l => kept l ∨ l = choice)
    {curr : NamedElmtCursors} (here : curr.namedTypeLists choice = front.length) (turns : Nat)
    (retVal : List Nat) :
    (choiceNamedElmts m getElmts choice turns retVal).run curr = none ∧
        (turns ≤ es.length ∨ ∃ e ∈ es, ∃ curr, (getElmts e).run curr = none) ∨
      ∃ curr', (choiceNamedElmts m getElmts choice turns retVal).run curr =
          some (retVal ++ es.flatMap namesOf, curr') ∧
        (∀ l, kept l → l ≠ choice → curr'.namedTypeLists l = curr.namedTypeLists l) ∧
        ∀ e ∈ es, ∃ curr, (getElmts e).run curr ≠ none := by
  induction es generalizing front curr turns retVal with
  | nil =>
    cases turns with
    | zero => exact .inl ⟨rfl, .inl (Nat.le_refl 0)⟩
    | succ turns =>
      have done : (m.namedTypeLists choice)[curr.namedTypeLists choice]? = none := by
        rw [split, List.append_nil, here, List.getElem?_eq_none (Nat.le_refl _)]
      refine .inr ⟨curr, ?_, fun _ _ _ => rfl, by simp⟩
      rw [choiceNamedElmts_none done, List.flatMap_nil, List.append_nil]
  | cons e es ih =>
    cases turns with
    | zero => exact .inl ⟨rfl, .inl (Nat.zero_le _)⟩
    | succ turns =>
      have first : (m.namedTypeLists choice)[curr.namedTypeLists choice]? = some e := by
        rw [split, here]
        simp
      rw [choiceNamedElmts_some first]
      rcases gathers e List.mem_cons_self curr with failed | ⟨curr₁, got, same⟩
      · rw [failed]
        exact .inl ⟨rfl, .inr ⟨e, List.mem_cons_self, curr, failed⟩⟩
      · -- The alternative left the cursor of the CHOICE, so that the step goes to the next one.
        have place : curr₁.namedTypeLists choice = front.length := by
          rw [same choice (.inr rfl), here]
        have within : curr₁.namedTypeLists choice < (m.namedTypeLists choice).length := by
          rw [place, split]
          simp
        have split' : m.namedTypeLists choice = (front ++ [e]) ++ es := by simp [split]
        have here' : (curr₁.setNamedTypes choice
            (curr₁.namedTypeLists choice + 1)).namedTypeLists choice = (front ++ [e]).length := by
          simp [NamedElmtCursors.setNamedTypes, place]
        rw [got, Option.bind_eq_bind, Option.bind_some]
        simp only [within, if_true]
        rcases ih split' (fun e isIn => gathers e (List.mem_cons_of_mem _ isIn)) here' turns
          (retVal ++ namesOf e) with ⟨failed, why⟩ | ⟨curr', rest, others, ran⟩
        · refine .inl ⟨failed, ?_⟩
          rcases why with few | ⟨e', isIn, curr, none⟩
          · exact .inl (by simpa using few)
          · exact .inr ⟨e', List.mem_cons_of_mem e isIn, curr, none⟩
        · refine .inr ⟨curr', ?_, ?_, ?_⟩
          · rw [rest, List.flatMap_cons, List.append_assoc]
          · intro l isKept different
            rw [others l isKept different, ← same l (.inl isKept)]
            simp [NamedElmtCursors.setNamedTypes, different]
          · intro e' isIn
            rcases List.mem_cons.mp isIn with rfl | later
            · exact ⟨curr, by simp [got]⟩
            · exact ran e' later

end

/-! ## Termination -/

/-- That every walk from a type through alternatives ends. -/
def Ends (m : Parsed) (t : Nat) : Prop :=
  Acc (fun e t => Alternates m t e) t

/-- The alternatives of a type are those of its defining type. -/
theorem alternates_iff {t u e : Nat} (defining : DefiningType m t u) :
    Alternates m t e ↔ isChoice m u ∧ e ∈ alternatives m u := by
  rcases defining with ⟨refers, notRef⟩ | ⟨rfl, endless⟩
  · constructor
    · rintro ⟨c, refers', choice, isIn⟩
      -- References have one end only, so that the CHOICE is the defining type.
      have same : c = u := by
        rcases Relation.ReflTransGen.total_of_right_unique
          (fun _ _ _ step step' => Option.some.inj (step.symm.trans step')) refers refers' with
          onwards | onwards
        · cases onwards using Relation.ReflTransGen.head_induction_on with
          | refl => rfl
          | head step _ _ =>
            rw [step.isTypeRef] at notRef
            exact absurd notRef.symm Bool.false_ne_true
        · cases onwards using Relation.ReflTransGen.head_induction_on with
          | refl => rfl
          | head step _ _ => exact absurd choice (not_isChoice_of_isTypeRef step.isTypeRef)
      exact same ▸ ⟨choice, isIn⟩
    · rintro ⟨choice, isIn⟩
      exact ⟨u, refers, choice, isIn⟩
  · constructor
    · rintro ⟨c, refers', choice, -⟩
      exact absurd choice (not_isChoice_of_isTypeRef (endless c refers'))
    · rintro ⟨choice, -⟩
      exact absurd choice (not_isChoice_of_isTypeRef (endless u .refl))

theorem DefiningType.reaches {t u w : Nat} (defining : DefiningType m t u)
    (reaches : Relation.ReflTransGen (Leads m) t w) :
    (m.types w).basicType.isTypeRef = true ∨
      (m.types u).basicType.isTypeRef = false ∧ Relation.ReflTransGen (Leads m) u w := by
  rcases defining with ⟨refers, notRef⟩ | ⟨rfl, endless⟩
  · exact (reaches_of_refers_end refers reaches).imp_right fun onwards => ⟨notRef, onwards⟩
  · exact .inl (isTypeRef_of_reaches endless reaches)

/-- What a type leads to through alternatives and references but is no reference is its defining type
or lies behind an alternative. -/
theorem DefiningType.reaches_cases {t u w : Nat} (defining : DefiningType m t u)
    (reaches : Relation.ReflTransGen (Leads m) t w)
    (notRef : (m.types w).basicType.isTypeRef = false) :
    w = u ∨ ∃ e, isChoice m u ∧ e ∈ alternatives m u ∧ Relation.ReflTransGen (Leads m) e w := by
  rcases defining.reaches reaches with isRef | ⟨uNotRef, onwards⟩
  · rw [isRef] at notRef
    exact absurd notRef.symm Bool.false_ne_true
  · cases onwards using Relation.ReflTransGen.head_induction_on with
    | refl => exact .inl rfl
    | head leads rest _ =>
      rcases leads with refers | ⟨choice, isIn⟩
      · rw [refers.isTypeRef] at uNotRef
        exact absurd uNotRef.symm Bool.false_ne_true
      · exact .inr ⟨_, choice, isIn, rest⟩

theorem DefiningType.reached {t u : Nat} (defining : DefiningType m t u) :
    Relation.ReflTransGen (Leads m) t u := by
  rcases defining with ⟨refers, -⟩ | ⟨rfl, -⟩
  · exact reaches_of_refers refers
  · exact .refl

theorem exists_alternates_of_reaches {t c : Nat} (reaches : Relation.ReflTransGen (Leads m) t c) :
    ∃ y, Relation.ReflTransGen (Alternates m) t y ∧ Relation.ReflTransGen (Refers m) y c := by
  induction reaches with
  | refl => exact ⟨t, .refl, .refl⟩
  | tail _ leads ih =>
    obtain ⟨y, through, refers⟩ := ih
    rcases leads with step | ⟨choice, isIn⟩
    · exact ⟨y, through, refers.tail step⟩
    · exact ⟨_, through.tail ⟨_, refers, choice, isIn⟩, .refl⟩

/-- A CHOICE that a walk which ends reaches does not contain itself. -/
theorem Ends.not_transGen {t c : Nat} (ends : Ends m t)
    (reaches : Relation.ReflTransGen (Leads m) t c) (choice : isChoice m c) :
    ¬Relation.TransGen (Leads m) c c := by
  intro cycle
  obtain ⟨e, leads, back⟩ := Relation.TransGen.head'_iff.mp cycle
  have isIn : e ∈ alternatives m c := by
    rcases leads with refers | ⟨-, isIn⟩
    · exact absurd choice (not_isChoice_of_isTypeRef refers.isTypeRef)
    · exact isIn
  obtain ⟨y, through, refers⟩ := exists_alternates_of_reaches reaches
  obtain ⟨z, onwards, refers'⟩ := exists_alternates_of_reaches back
  have endsAt : Ends m e := acc_of_reflTransGen ends (through.tail ⟨c, refers, choice, isIn⟩)
  -- From the alternative back to the CHOICE, and to the alternative again.
  exact not_transGen_self_of_acc endsAt (.tail' onwards ⟨c, refers', choice, isIn⟩)

theorem mem_of_reaches {nodes : Finset Nat} (closed : ∀ t ∈ nodes, ∀ u, Leads m t u → u ∈ nodes)
    {t u : Nat} (inside : t ∈ nodes) (reaches : Relation.ReflTransGen (Leads m) t u) :
    u ∈ nodes := by
  induction reaches with
  | refl => exact inside
  | tail _ leads ih => exact closed _ ih _ leads

theorem ends_of_acyclic {nodes : Finset Nat}
    (closed : ∀ t ∈ nodes, ∀ u, Leads m t u → u ∈ nodes) {t : Nat} (inside : t ∈ nodes)
    (acyclic : ∀ c, Relation.ReflTransGen (Leads m) t c → isChoice m c →
      ¬Relation.TransGen (Leads m) c c) : Ends m t := by
  refine acc_of_acyclic nodes (fun x isNode y alternates =>
    mem_of_reaches closed isNode alternates.reaches.to_reflTransGen) inside ?_
  intro y through cycle
  obtain ⟨e, ⟨c, refers, choice, isIn⟩, back⟩ := Relation.TransGen.head'_iff.mp cycle
  have toChoice := reaches_of_refers refers
  exact acyclic c ((reaches_of_alternates through).trans toChoice) choice
    (.head' (.inr ⟨choice, isIn⟩) ((reaches_of_alternates back).trans toChoice))

theorem Gathers.mono {routine : NamedElmtM (List Nat)} {names : List Nat} {kept fewer : Nat → Prop}
    (gathers : Gathers routine names kept) (included : ∀ l, fewer l → kept l) :
    Gathers routine names fewer := by
  intro curr
  rcases gathers curr with failed | ⟨curr', got, same⟩
  · exact .inl failed
  · exact .inr ⟨curr', got, fun l isFewer => same l (included l isFewer)⟩

theorem getAllNamedElmtsOf_none {fuel t : Nat} (notFound : paranoidGetType m fuel t = none)
    (curr : NamedElmtCursors) :
    (getAllNamedElmtsOf m namedNumberLists (fuel + 1) t).run curr = none := by
  rw [getAllNamedElmtsOf, notFound]
  rfl

theorem getAllNamedElmtsOf_choice {fuel t u choice : Nat} (found : paranoidGetType m fuel t = some u)
    (isAChoice : isChoice m u) (list : (m.types u).basicType.elmts = some choice)
    (curr : NamedElmtCursors) :
    (getAllNamedElmtsOf m namedNumberLists (fuel + 1) t).run curr =
      (choiceNamedElmts m (getAllNamedElmtsOf m namedNumberLists fuel) choice fuel []).run
        (curr.setNamedTypes choice 0) := by
  unfold isChoice at isAChoice
  rw [getAllNamedElmtsOf, found]
  simp only [isAChoice, list, StateT.run_bind, StateT.run_modify, Option.pure_def,
    Option.bind_eq_bind, Option.bind_some]

/-- Any other type gives its own named numbers. -/
theorem getAllNamedElmtsOf_leaf {fuel t u : Nat} (found : paranoidGetType m fuel t = some u)
    (leaf : isChoice m u → (m.types u).basicType.elmts = none) (curr : NamedElmtCursors) :
    ∃ curr', (getAllNamedElmtsOf m namedNumberLists (fuel + 1) t).run curr =
        some (namedNumbers m namedNumberLists u, curr') ∧
      curr'.namedTypeLists = curr.namedTypeLists := by
  unfold isChoice at leaf
  rw [getAllNamedElmtsOf, found]
  dsimp only
  by_cases numbered : isNumbered m u
  · rw [namedNumbers, if_pos numbered]
    unfold isNumbered at numbered
    simp only [List.mem_cons, List.not_mem_nil, or_false] at numbered
    cases (m.types u).basicType.elmts with
    | none => exact ⟨curr, by rcases numbered with kind | kind | kind <;> rw [kind] <;> rfl, rfl⟩
    | some numbers =>
      exact ⟨curr.setNamedNumbers numbers (namedNumberLists numbers).length,
        by rcases numbered with kind | kind | kind <;> rw [kind] <;> rfl, rfl⟩
  · rw [namedNumbers, if_neg numbered]
    unfold isNumbered at numbered
    generalize (m.types u).basicType = bt at leaf numbered ⊢
    obtain ⟨choiceId, link, elmts, setOf⟩ := bt
    cases choiceId
    case integer | enumerated | bitString => exact absurd (by simp) numbered
    case choice =>
      obtain rfl : elmts = none := leaf rfl
      exact ⟨curr, rfl, rfl⟩
    all_goals exact ⟨curr, rfl, rfl⟩

theorem Ends.not_goesAlong {e choice : Nat} (ends : Ends m e)
    (isIn : e ∈ m.namedTypeLists choice) : ¬GoesAlong m e choice := by
  rintro ⟨c, reaches, isAChoice, list⟩
  have alternative : e ∈ alternatives m c := by
    unfold alternatives
    rw [list]
    exact isIn
  exact ends.not_transGen reaches isAChoice (.head' (.inr ⟨isAChoice, alternative⟩) reaches)

theorem alternatives_of_list {u choice : Nat} (list : (m.types u).basicType.elmts = some choice) :
    alternatives m u = m.namedTypeLists choice := by
  unfold alternatives
  rw [list]

theorem notRef_of_mem_namedNumbers {w v : Nat} (isIn : v ∈ namedNumbers m namedNumberLists w) :
    (m.types w).basicType.isTypeRef = false := by
  rw [← Bool.not_eq_true]
  intro isRef
  rw [namedNumbers_of_isTypeRef isRef] at isIn
  exact absurd isIn List.not_mem_nil

theorem namedNumbers_of_isChoice {u : Nat} (choice : isChoice m u) :
    namedNumbers m namedNumberLists u = [] := by
  refine if_neg fun numbered => ?_
  unfold isNumbered isChoice at *
  rw [choice] at numbered
  exact absurd numbered (by decide)

/-- That some named numbers are those that are reached. -/
def AreReached (m : Parsed) (namedNumberLists : Nat → List Nat) (t : Nat) (names : List Nat) :
    Prop :=
  ∀ v, v ∈ names ↔
    ∃ w, Relation.ReflTransGen (Leads m) t w ∧ v ∈ namedNumbers m namedNumberLists w

/-- A type without alternatives reaches its own named numbers only. -/
theorem areReached_leaf {t u : Nat} (defining : DefiningType m t u)
    (leaf : isChoice m u → alternatives m u = []) :
    AreReached m namedNumberLists t (namedNumbers m namedNumberLists u) := by
  intro v
  constructor
  · intro isIn
    exact ⟨u, defining.reached, isIn⟩
  · rintro ⟨w, reaches, isIn⟩
    rcases defining.reaches_cases reaches (notRef_of_mem_namedNumbers isIn) with
      rfl | ⟨e, choice, alternative, -⟩
    · exact isIn
    · rw [leaf choice] at alternative
      exact absurd alternative List.not_mem_nil

/-- A CHOICE reaches the named numbers that its alternatives reach. -/
theorem areReached_choice {t u : Nat} (defining : DefiningType m t u) (choice : isChoice m u)
    {namesOf : Nat → List Nat}
    (reached : ∀ e ∈ alternatives m u, AreReached m namedNumberLists e (namesOf e)) :
    AreReached m namedNumberLists t ((alternatives m u).flatMap namesOf) := by
  intro v
  rw [List.mem_flatMap]
  constructor
  · rintro ⟨e, alternative, isIn⟩
    obtain ⟨w, reaches, isIn⟩ := (reached e alternative v).mp isIn
    exact ⟨w, defining.reached.trans (.head (.inr ⟨choice, alternative⟩) reaches), isIn⟩
  · rintro ⟨w, reaches, isIn⟩
    rcases defining.reaches_cases reaches (notRef_of_mem_namedNumbers isIn) with
      rfl | ⟨e, -, alternative, onwards⟩
    · rw [namedNumbers_of_isChoice choice] at isIn
      exact absurd isIn List.not_mem_nil
    · exact ⟨e, alternative, (reached e alternative v).mpr ⟨w, onwards, isIn⟩⟩

/-- A CHOICE gathers what its alternatives gather, as none of them moves its cursor. -/
theorem gathers_choice {t u choice enough : Nat} {namesOf : Nat → List Nat}
    (walk : ∀ fuel, paranoidGetType m fuel t = none ∧ fuel < enough ∨
      paranoidGetType m fuel t = some u)
    (isAChoice : isChoice m u) (list : (m.types u).basicType.elmts = some choice)
    (goes : GoesAlong m t choice)
    (gathers : ∀ e ∈ m.namedTypeLists choice, ∀ fuel,
      Gathers (getAllNamedElmtsOf m namedNumberLists fuel e) (namesOf e)
        fun l => ¬GoesAlong m t l ∨ l = choice)
    (returns : ∀ e ∈ m.namedTypeLists choice, ∃ n, ∀ fuel ≥ n, ∀ curr,
      (getAllNamedElmtsOf m namedNumberLists fuel e).run curr ≠ none) :
    ∃ enough, ∀ fuel, Gathers (getAllNamedElmtsOf m namedNumberLists fuel t)
        ((m.namedTypeLists choice).flatMap namesOf) (¬GoesAlong m t ·) ∧
      (enough ≤ fuel → ∀ curr,
        (getAllNamedElmtsOf m namedNumberLists fuel t).run curr ≠ none) := by
  obtain ⟨n, all⟩ := exists_fuel returns
  refine ⟨max enough (max n ((m.namedTypeLists choice).length + 1)) + 1, fun fuel => ?_⟩
  cases fuel with
  | zero => exact ⟨fun _ => .inl rfl, fun few => absurd few (by omega)⟩
  | succ fuel =>
    rcases walk fuel with ⟨notFound, few⟩ | found
    · exact ⟨fun curr => .inl (getAllNamedElmtsOf_none notFound curr),
        fun isEnough => absurd isEnough (by omega)⟩
    · have loop (curr : NamedElmtCursors) := choiceNamedElmts_spec
        (show m.namedTypeLists choice = [] ++ m.namedTypeLists choice from rfl)
        (fun e isIn => gathers e isIn fuel)
        (show (curr.setNamedTypes choice 0).namedTypeLists choice = ([] : List Nat).length by
          simp [NamedElmtCursors.setNamedTypes])
        fuel []
      constructor
      · intro curr
        rw [getAllNamedElmtsOf_choice found isAChoice list]
        rcases loop curr with ⟨failed, -⟩ | ⟨curr', got, others, -⟩
        · exact .inl failed
        · refine .inr ⟨curr', got, fun l isKept => ?_⟩
          have different : l ≠ choice := fun same => isKept (same ▸ goes)
          rw [others l isKept different]
          simp [NamedElmtCursors.setNamedTypes, different]
      · intro isEnough curr
        rw [getAllNamedElmtsOf_choice found isAChoice list]
        rcases loop curr with ⟨-, why⟩ | ⟨curr', got, -⟩
        · rcases why with few | ⟨e, isIn, curr, failed⟩
          · omega
          · exact absurd failed (all fuel (by omega) e isIn curr)
        · rw [got]
          simp

/-- Where walks end, the named numbers that are reached are gathered, with enough fuel for sure. -/
theorem Ends.gathers {nodes : Finset Nat} (closed : ∀ t ∈ nodes, ∀ u, Leads m t u → u ∈ nodes)
    {t : Nat} (ends : Ends m t) (inside : t ∈ nodes) :
    ∃ names enough, AreReached m namedNumberLists t names ∧ ∀ fuel,
      Gathers (getAllNamedElmtsOf m namedNumberLists fuel t) names (¬GoesAlong m t ·) ∧
        (enough ≤ fuel → ∀ curr,
          (getAllNamedElmtsOf m namedNumberLists fuel t).run curr ≠ none) := by
  induction ends with
  | intro t below ih =>
    have ends : Ends m t := ⟨t, below⟩
    obtain ⟨u, enough, defining, walk⟩ := exists_paranoidGetType closed inside
    by_cases branches : isChoice m u ∧ (m.types u).basicType.elmts ≠ none
    · obtain ⟨isAChoice, hasList⟩ := branches
      obtain ⟨choice, list⟩ := Option.ne_none_iff_exists'.mp hasList
      have asList := alternatives_of_list list
      have goes : GoesAlong m t choice := ⟨u, defining.reached, isAChoice, list⟩
      have alternates {e : Nat} (isIn : e ∈ m.namedTypeLists choice) : Alternates m t e :=
        (alternates_iff defining).mpr ⟨isAChoice, asList ▸ isIn⟩
      -- What is known of the alternatives by induction.
      have each : ∀ e, ∃ names enough, e ∈ m.namedTypeLists choice →
          AreReached m namedNumberLists e names ∧ ∀ fuel,
            Gathers (getAllNamedElmtsOf m namedNumberLists fuel e) names (¬GoesAlong m e ·) ∧
              (enough ≤ fuel → ∀ curr,
                (getAllNamedElmtsOf m namedNumberLists fuel e).run curr ≠ none) := by
        intro e
        by_cases isIn : e ∈ m.namedTypeLists choice
        · have isNode : e ∈ nodes :=
            mem_of_reaches closed inside (alternates isIn).reaches.to_reflTransGen
          obtain ⟨names, enough, spec⟩ := ih e (alternates isIn) isNode
          exact ⟨names, enough, fun _ => spec⟩
        · exact ⟨[], 0, fun isIn' => absurd isIn' isIn⟩
      choose namesOf enoughOf spec using each
      obtain ⟨enough, loop⟩ := gathers_choice walk isAChoice list goes
        (fun e isIn fuel => ((spec e isIn).2 fuel).1.mono fun l fewer => by
          rcases fewer with outside | rfl
          · intro ⟨c, reaches, inner⟩
            exact outside ⟨c, (alternates isIn).reaches.to_reflTransGen.trans reaches, inner⟩
          · exact Ends.not_goesAlong (below e (alternates isIn)) isIn)
        (fun e isIn => ⟨enoughOf e, fun fuel isEnough => ((spec e isIn).2 fuel).2 isEnough⟩)
      refine ⟨_, enough, ?_, loop⟩
      rw [← asList]
      exact areReached_choice defining isAChoice fun e isIn => (spec e (asList ▸ isIn)).1
    · push Not at branches
      have noAlternatives : isChoice m u → alternatives m u = [] := by
        intro choice
        unfold alternatives
        rw [branches choice]
      refine ⟨namedNumbers m namedNumberLists u, enough + 1,
        areReached_leaf defining noAlternatives, ?_⟩
      intro fuel
      cases fuel with
      | zero => exact ⟨fun _ => .inl rfl, fun few => absurd few (by omega)⟩
      | succ fuel =>
        rcases walk fuel with ⟨notFound, few⟩ | found
        · exact ⟨fun curr => .inl (getAllNamedElmtsOf_none notFound curr),
            fun isEnough => absurd isEnough (by omega)⟩
        · constructor
          · intro curr
            obtain ⟨curr', got, same⟩ := getAllNamedElmtsOf_leaf found branches curr
            exact .inr ⟨curr', got, fun l _ => congrFun same l⟩
          · intro _ curr failed
            obtain ⟨curr', got, -⟩ := getAllNamedElmtsOf_leaf found branches curr
            rw [got] at failed
            exact absurd failed (by simp)

/-- Where some walk has no end, nothing is ever gathered. -/
theorem getAllNamedElmtsOf_of_not_ends {nodes : Finset Nat}
    (closed : ∀ t ∈ nodes, ∀ u, Leads m t u → u ∈ nodes) {t : Nat} (inside : t ∈ nodes)
    (endless : ¬Ends m t) (fuel : Nat) (curr : NamedElmtCursors) :
    (getAllNamedElmtsOf m namedNumberLists fuel t).run curr = none := by
  induction fuel generalizing t curr with
  | zero => rfl
  | succ fuel ih =>
    obtain ⟨u, _, defining, walk⟩ := exists_paranoidGetType closed inside
    rcases walk fuel with ⟨notFound, -⟩ | found
    · exact getAllNamedElmtsOf_none notFound curr
    -- Some alternative has a walk without end as well.
    obtain ⟨e, alternates, endless'⟩ : ∃ e, Alternates m t e ∧ ¬Ends m e := by
      by_contra none
      push Not at none
      exact endless ⟨t, none⟩
    obtain ⟨isAChoice, alternative⟩ := (alternates_iff defining).mp alternates
    obtain ⟨choice, list⟩ : ∃ choice, (m.types u).basicType.elmts = some choice := by
      unfold alternatives at alternative
      cases list : (m.types u).basicType.elmts with
      | none =>
        rw [list] at alternative
        exact absurd alternative List.not_mem_nil
      | some choice => exact ⟨choice, rfl⟩
    rw [alternatives_of_list list] at alternative
    have each : ∀ e, ∃ names, e ∈ m.namedTypeLists choice →
        Gathers (getAllNamedElmtsOf m namedNumberLists fuel e) names
          fun l => False ∨ l = choice := by
      intro e
      by_cases isIn : e ∈ m.namedTypeLists choice
      · have alternates : Alternates m t e :=
          (alternates_iff defining).mpr ⟨isAChoice, alternatives_of_list list ▸ isIn⟩
        have isNode : e ∈ nodes :=
          mem_of_reaches closed inside alternates.reaches.to_reflTransGen
        by_cases ends : Ends m e
        · obtain ⟨names, _, -, gathers⟩ := ends.gathers closed isNode
          refine ⟨names, fun _ => (gathers fuel).1.mono ?_⟩
          rintro l (impossible | rfl)
          · exact impossible.elim
          · exact ends.not_goesAlong isIn
        · exact ⟨[], fun _ curr => .inl (ih isNode ends curr)⟩
      · exact ⟨[], fun isIn' => absurd isIn' isIn⟩
    choose namesOf gathers using each
    rw [getAllNamedElmtsOf_choice found isAChoice list]
    rcases choiceNamedElmts_spec
      (show m.namedTypeLists choice = [] ++ m.namedTypeLists choice from rfl) gathers
      (show (curr.setNamedTypes choice 0).namedTypeLists choice = ([] : List Nat).length by
        simp [NamedElmtCursors.setNamedTypes]) fuel [] with ⟨failed, -⟩ | ⟨_, -, -, ran⟩
    · exact failed
    · obtain ⟨curr', got⟩ := ran e alternative
      exact absurd (ih (mem_of_reaches closed inside alternates.reaches.to_reflTransGen) endless'
        curr') got

/-- That the named elements of a type are gathered in finite time, wherever the cursors stand, and
that they are exactly the named numbers reached through alternatives and references. -/
def ReturnsNamedElmts (m : Parsed) (namedNumberLists : Nat → List Nat) (t : Nat) : Prop :=
  ∃ names, AreReached m namedNumberLists t names ∧ ∃ enough, ∀ fuel ≥ enough, ∀ curr, ∃ curr',
    (getAllNamedElmts m namedNumberLists fuel (some t)).run curr = some (names, curr')

/-- In a finite graph of linked types the named elements of a type are gathered exactly when no CHOICE
reached from it through alternatives and references contains itself. -/
theorem returnsNamedElmts_iff (m : Parsed) (namedNumberLists : Nat → List Nat) (nodes : Finset Nat)
    (closed : ∀ t ∈ nodes, ∀ u, Leads m t u → u ∈ nodes) (t : Nat) (inside : t ∈ nodes) :
    ReturnsNamedElmts m namedNumberLists t ↔
      ∀ c, Relation.ReflTransGen (Leads m) t c → isChoice m c →
        ¬Relation.TransGen (Leads m) c c := by
  constructor
  · rintro ⟨names, -, enough, returns⟩ c reaches choice
    have ends : Ends m t := by
      by_contra endless
      obtain ⟨curr', got⟩ := returns enough (Nat.le_refl enough) ⟨fun _ => 0, fun _ => 0⟩
      have never : (getAllNamedElmts m namedNumberLists enough (some t)).run
          ⟨fun _ => 0, fun _ => 0⟩ = none :=
        getAllNamedElmtsOf_of_not_ends closed inside endless enough _
      rw [never] at got
      exact absurd got (by simp)
    exact ends.not_transGen reaches choice
  · intro acyclic
    have ends := ends_of_acyclic closed inside acyclic
    obtain ⟨names, enough, reached, gathers⟩ := ends.gathers closed inside
    refine ⟨names, reached, enough, fun fuel isEnough curr => ?_⟩
    rcases (gathers fuel).1 curr with failed | ⟨curr', got, -⟩
    · exact absurd failed ((gathers fuel).2 isEnough curr)
    · exact ⟨curr', got⟩

/-- C ::= CHOICE { a [0] C, b INTEGER }: the CHOICE, its tagged reference to itself and the number. -/
def taggedChoice : Parsed where
  types
    | 0 => { tags := none, implicit := false,
             basicType := { choiceId := .choice, elmts := some 0 } }
    | 1 => { tags := some 0, implicit := false,
             basicType := { choiceId := .localTypeRef, link := some 0 } }
    | _ => { tags := none, implicit := false, basicType := { choiceId := .integer } }
  tagLists := fun _ => [{ tclass := .cntx, form := .cons, code := 0, explicit := true }]
  namedTypeLists := fun _ => [1, 2]

/-- The number leads nowhere. -/
theorem returnsNamedElmts_iff_number :
    ReturnsNamedElmts taggedChoice (fun _ => []) 2 ↔
      ∀ c, Relation.ReflTransGen (Leads taggedChoice) 2 c → isChoice taggedChoice c →
        ¬Relation.TransGen (Leads taggedChoice) c c :=
  returnsNamedElmts_iff taggedChoice (fun _ => []) {2}
    (by
      intro t isIn u leads
      obtain rfl := Finset.mem_singleton.mp isIn
      rcases leads with refers | ⟨choice, -⟩
      · exact absurd refers (by simp [Refers, refersTo, taggedChoice, BasicType.isTypeRef])
      · exact absurd choice (by decide))
    2 (Finset.mem_singleton_self 2)

/-- What leads where in the CHOICE with a reference to itself. -/
theorem taggedChoice_leads {t u : Nat} (leads : Leads taggedChoice t u) :
    t = 0 ∧ (u = 1 ∨ u = 2) ∨ t = 1 ∧ u = 0 := by
  match t with
  | 0 =>
    rcases leads with refers | ⟨-, isIn⟩
    · exact absurd refers (by simp [Refers, refersTo, taggedChoice, BasicType.isTypeRef])
    · have isIn : u ∈ [1, 2] := isIn
      exact .inl ⟨rfl, by simpa using isIn⟩
  | 1 =>
    rcases leads with refers | ⟨choice, -⟩
    · exact .inr ⟨rfl, (Option.some.inj refers).symm⟩
    · exact absurd choice (by decide)
  | n + 2 =>
    rcases leads with refers | ⟨choice, -⟩
    · exact absurd refers (by simp [Refers, refersTo, taggedChoice, BasicType.isTypeRef])
    · exact absurd choice (by simp [isChoice, taggedChoice])

/-- A CHOICE with a tagged reference to itself is never done with, although every cycle passes a
tag. -/
theorem not_returnsNamedElmts :
    ¬ ∀ (m : Parsed) (namedNumberLists : Nat → List Nat) (nodes : Finset Nat),
      (∀ t ∈ nodes, ∀ u, Leads m t u → u ∈ nodes) →
      (∀ t, ¬Relation.TransGen (fun t u => Leads m t u ∧ ownTags m t = []) t t) →
      ∀ t ∈ nodes, ReturnsNamedElmts m namedNumberLists t := by
  intro claim
  have closed : ∀ t ∈ ({0, 1, 2} : Finset Nat), ∀ u, Leads taggedChoice t u →
      u ∈ ({0, 1, 2} : Finset Nat) := by
    intro t _ u leads
    rcases taggedChoice_leads leads with ⟨-, rfl | rfl⟩ | ⟨-, rfl⟩ <;> decide
  have tagged : ∀ t, ¬Relation.TransGen
      (fun t u => Leads taggedChoice t u ∧ ownTags taggedChoice t = []) t t := by
    intro t cycle
    -- Only the CHOICE itself has an untagged way on, and that does not lead back to it.
    obtain ⟨_, ⟨leads, untagged⟩, -⟩ := Relation.TransGen.head'_iff.mp cycle
    obtain ⟨_, -, leads', untagged'⟩ := Relation.TransGen.tail'_iff.mp cycle
    rcases taggedChoice_leads leads with ⟨rfl, -⟩ | ⟨rfl, -⟩
    · rcases taggedChoice_leads leads' with ⟨-, h | h⟩ | ⟨rfl, -⟩
      · exact absurd h (by decide)
      · exact absurd h (by decide)
      · exact absurd untagged' (by decide)
    · exact absurd untagged (by decide)
  obtain ⟨names, -, enough, returns⟩ := claim taggedChoice (fun _ => []) {0, 1, 2} closed tagged 0
    (by decide)
  have toRef : Leads taggedChoice 0 1 := .inr ⟨rfl, by decide⟩
  have back : Leads taggedChoice 1 0 := .inl rfl
  have endless : ¬Ends taggedChoice 0 := by
    intro ends
    exact ends.not_transGen .refl rfl (.head toRef (.single back))
  obtain ⟨curr', got⟩ := returns enough (Nat.le_refl enough) ⟨fun _ => 0, fun _ => 0⟩
  have never : (getAllNamedElmts taggedChoice (fun _ => []) enough (some 0)).run
      ⟨fun _ => 0, fun _ => 0⟩ = none :=
    getAllNamedElmtsOf_of_not_ends closed (by decide) endless enough _
  rw [never] at got
  exact absurd got (by simp)

end Esnacc.Compiler
