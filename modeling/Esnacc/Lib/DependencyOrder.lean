import Esnacc.Lib.GraphWalks
import Mathlib.Data.List.Perm.Basic

/-! Lists sorted by taking out, round after round, what refers to nothing else that is left. -/

namespace Lib

section

variable {α : Type*} {r : α → α → Prop}

/-- That a vertex leads to a cycle. -/
def LeadsToCycle (r : α → α → Prop) (x : α) : Prop :=
  ∃ y, Relation.ReflTransGen r x y ∧ Relation.TransGen r y y

/-- Where every vertex of a finite set has a successor there, each leads to a cycle that meets it. -/
theorem exists_cycle {nodes : Finset α} (onward : ∀ x ∈ nodes, ∃ y ∈ nodes, r x y) {x : α}
    (inside : x ∈ nodes) :
    ∃ y ∈ nodes, Relation.ReflTransGen r x y ∧ Relation.TransGen r y y := by
  by_contra none
  -- Without a cycle the walks inside the set would end, but each of them goes on.
  have acc : Acc (fun b a => r a b ∧ b ∈ nodes) x := by
    refine acc_of_acyclic (r := fun a b => r a b ∧ b ∈ nodes) nodes (fun _ _ _ edge => edge.2)
      inside fun y reaches cycle => none ⟨y, ?_, ?_, ?_⟩
    · rcases Relation.ReflTransGen.cases_tail reaches with rfl | ⟨_, _, edge⟩
      · exact inside
      · exact edge.2
    · exact Relation.ReflTransGen.mono (fun _ _ edge => edge.1) _ _ reaches
    · exact Relation.TransGen.mono (fun _ _ edge => edge.1) _ _ cycle
  have endless : ∀ x, Acc (fun b a => r a b ∧ b ∈ nodes) x → x ∉ nodes := by
    intro x acc
    induction acc with
    | intro x _ ih =>
      intro isIn
      obtain ⟨y, isIn', edge⟩ := onward x isIn
      exact ih y ⟨edge, isIn'⟩ isIn'
  exact endless x acc inside

end

variable {α : Type*} [DecidableEq α] (refs : α → List α)

/-- An element refers to another one of a list. -/
def refersInto (x : α) (l : List α) : Bool :=
  (refs x).any fun r => decide (r ≠ x ∧ r ∈ l)

/-- One round through what is left: what refers to none of the others is taken out at once. -/
def takeRound (taken kept : List α) : List α → List α × List α
  | [] => (taken, kept)
  | x :: rest =>
    if refersInto refs x (kept ++ x :: rest) then takeRound taken (kept ++ [x]) rest
    else takeRound (taken ++ [x]) kept rest

theorem length_takeRound (taken kept rest : List α) :
    (takeRound refs taken kept rest).1.length + (takeRound refs taken kept rest).2.length =
      taken.length + kept.length + rest.length := by
  induction rest generalizing taken kept with
  | nil => rfl
  | cons x rest ih =>
    rw [takeRound]
    split <;> rw [ih] <;> simp only [List.length_append, List.length_cons, List.length_nil] <;> omega

/-- Rounds are made as long as they take something out. -/
def takeRounds (taken left : List α) : List α × List α :=
  if left = [] then (taken, [])
  else
    let round := takeRound refs taken [] left
    if taken.length < round.1.length then takeRounds round.1 round.2 else round
termination_by left.length
decreasing_by
  have := length_takeRound refs taken [] left
  simp only [round, List.length_nil] at *
  omega

/-- That an element refers to another one. -/
def RefersOnward (x y : α) : Prop := y ∈ refs x ∧ y ≠ x

/-- What was taken out refers neither to what was taken out later nor to what is left. -/
structure IndependentFirst (taken left : List α) : Prop where
  ordered : taken.Pairwise fun x y => ¬RefersOnward refs x y
  ended : ∀ x ∈ taken, ∀ y ∈ left, ¬RefersOnward refs x y

variable {refs}

theorem refersInto_iff {x : α} {l : List α} :
    refersInto refs x l = true ↔ ∃ y ∈ l, RefersOnward refs x y := by
  simp only [refersInto, RefersOnward, List.any_eq_true, decide_eq_true_eq]
  exact ⟨fun ⟨y, isRef, other, isIn⟩ => ⟨y, isIn, isRef, other⟩,
    fun ⟨y, isIn, isRef, other⟩ => ⟨y, isRef, other, isIn⟩⟩

/-- A round keeps the order; where it takes nothing out, everything left refers to something left. -/
theorem takeRound_spec {taken kept rest : List α}
    (first : IndependentFirst refs taken (kept ++ rest)) :
    IndependentFirst refs (takeRound refs taken kept rest).1 (takeRound refs taken kept rest).2 ∧
      ((takeRound refs taken kept rest).1 ++ (takeRound refs taken kept rest).2).Perm
        (taken ++ (kept ++ rest)) ∧
      taken.length ≤ (takeRound refs taken kept rest).1.length ∧
      ((takeRound refs taken kept rest).1.length = taken.length →
        (takeRound refs taken kept rest).2 = kept ++ rest ∧
          ∀ x ∈ rest, refersInto refs x (kept ++ rest) = true) := by
  induction rest generalizing taken kept with
  | nil =>
    rw [List.append_nil] at first ⊢
    exact ⟨first, .refl _, Nat.le_refl _, fun _ => ⟨rfl, nofun⟩⟩
  | cons x rest ih =>
    rw [takeRound]
    split
    next refers =>
      have same : kept ++ x :: rest = kept ++ [x] ++ rest := by simp
      rw [same] at first refers ⊢
      obtain ⟨later, perm, grows, stays⟩ := ih first
      refine ⟨later, perm, grows, fun none => ?_⟩
      obtain ⟨left, all⟩ := stays none
      refine ⟨left, fun y isIn => ?_⟩
      rcases List.mem_cons.mp isIn with rfl | isIn
      · exact refers
      · exact all y isIn
    next refers =>
      have free : ∀ y ∈ kept ++ x :: rest, ¬RefersOnward refs x y :=
        fun y isIn onward => refers (refersInto_iff.mpr ⟨y, isIn, onward⟩)
      have next : IndependentFirst refs (taken ++ [x]) (kept ++ rest) := by
        refine ⟨List.pairwise_append.mpr ⟨first.ordered, List.pairwise_singleton _ _, ?_⟩, ?_⟩
        · intro y isTaken z isX
          obtain rfl := List.mem_singleton.mp isX
          exact first.ended y isTaken z (by simp)
        · intro y isTaken z isLeft
          have isLeft' : z ∈ kept ++ x :: rest := by
            rw [List.mem_append, List.mem_cons]
            rcases List.mem_append.mp isLeft with isKept | later
            · exact .inl isKept
            · exact .inr (.inr later)
          rcases List.mem_append.mp isTaken with earlier | isX
          · exact first.ended y earlier z isLeft'
          · obtain rfl := List.mem_singleton.mp isX
            exact free z isLeft'
      obtain ⟨later, perm, grows, -⟩ := ih next
      rw [List.length_append, List.length_singleton] at grows
      refine ⟨later, perm.trans ?_, by omega, fun none => by omega⟩
      rw [List.append_assoc, List.singleton_append]
      exact List.Perm.append_left taken List.perm_middle.symm

/-- After the rounds, everything left refers to something else that is left. -/
theorem takeRounds_spec {taken left : List α} (first : IndependentFirst refs taken left) :
    IndependentFirst refs (takeRounds refs taken left).1 (takeRounds refs taken left).2 ∧
      ((takeRounds refs taken left).1 ++ (takeRounds refs taken left).2).Perm (taken ++ left) ∧
      ∀ x ∈ (takeRounds refs taken left).2,
        ∃ y ∈ (takeRounds refs taken left).2, RefersOnward refs x y := by
  fun_induction takeRounds refs taken left with
  | case1 taken => exact ⟨first, .refl _, nofun⟩
  | case2 taken left _ round grows ih =>
    obtain ⟨later, perm, -⟩ := @takeRound_spec α _ refs taken [] left first
    obtain ⟨last, perm', stuck⟩ := ih later
    exact ⟨last, perm'.trans perm, stuck⟩
  | case3 taken left _ round stops =>
    obtain ⟨later, perm, grows, stays⟩ := @takeRound_spec α _ refs taken [] left first
    obtain ⟨same, all⟩ := stays (Nat.le_antisymm (Nat.le_of_not_lt stops) grows)
    refine ⟨later, perm, fun x isIn => ?_⟩
    simp only [round] at isIn ⊢
    rw [same] at isIn ⊢
    exact refersInto_iff.mp (all x isIn)

theorem takeRounds_nil_spec (refs : α → List α) (tdl : List α) :
    IndependentFirst refs (takeRounds refs [] tdl).1 (takeRounds refs [] tdl).2 ∧
      ((takeRounds refs [] tdl).1 ++ (takeRounds refs [] tdl).2).Perm tdl ∧
      ∀ x ∈ (takeRounds refs [] tdl).2, ∃ y ∈ (takeRounds refs [] tdl).2, RefersOnward refs x y :=
  takeRounds_spec ⟨.nil, fun _ isIn => absurd isIn List.not_mem_nil⟩

/-- What is left after the rounds leads to a cycle of what is left. -/
theorem takeRounds_cycle {tdl : List α} {x : α} (isLeft : x ∈ (takeRounds refs [] tdl).2) :
    ∃ y ∈ (takeRounds refs [] tdl).2, Relation.ReflTransGen (RefersOnward refs) x y ∧
      Relation.TransGen (RefersOnward refs) y y := by
  obtain ⟨-, -, stuck⟩ := takeRounds_nil_spec refs tdl
  obtain ⟨y, isLeft', reaches, cycle⟩ :=
    @exists_cycle α (RefersOnward refs) (takeRounds refs [] tdl).2.toFinset
      (fun x isIn => by
        obtain ⟨y, isIn', edge⟩ := stuck x (List.mem_toFinset.mp isIn)
        exact ⟨y, List.mem_toFinset.mpr isIn', edge⟩)
      x (List.mem_toFinset.mpr isLeft)
  exact ⟨y, List.mem_toFinset.mp isLeft', reaches, cycle⟩

end Lib
