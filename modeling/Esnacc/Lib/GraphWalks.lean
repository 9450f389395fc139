import Mathlib.Data.Finset.Card
import Mathlib.Data.Fintype.Basic
import Mathlib.Logic.Relation

/-! Walks of finite graphs: where all of them end, and the search back to a vertex along labels. -/

namespace Lib

/-! ## Walks that end -/

section

variable {α : Type*} {r : α → α → Prop}

theorem not_transGen_self_of_acc {x : α} (acc : Acc (fun b a => r a b) x) :
    ¬Relation.TransGen r x x := by
  induction acc with
  | intro x _ ih =>
    intro cycle
    obtain ⟨y, edge, back⟩ := Relation.TransGen.head'_iff.mp cycle
    exact ih y edge (Relation.TransGen.tail' back edge)

theorem acc_of_reflTransGen {x y : α} (acc : Acc (fun b a => r a b) x)
    (reaches : Relation.ReflTransGen r x y) : Acc (fun b a => r a b) y := by
  induction reaches with
  | refl => exact acc
  | tail _ edge ih => exact ih.inv edge

/-- In a finite graph every walk ends from where no cycle is reached. -/
theorem acc_of_acyclic (nodes : Finset α) (closed : ∀ x ∈ nodes, ∀ y, r x y → y ∈ nodes) {x : α}
    (inside : x ∈ nodes)
    (acyclic : ∀ y, Relation.ReflTransGen r x y → ¬Relation.TransGen r y y) :
    Acc (fun b a => r a b) x := by
  classical
  -- The induction is on what is reached, which gets less along an edge.
  induction reached : (nodes.filter (Relation.TransGen r x)).card using Nat.strong_induction_on
    generalizing x with
  | h n ih =>
    refine ⟨x, fun y edge => ?_⟩
    have inside' : y ∈ nodes := closed x inside y edge
    have acyclic' : ∀ z, Relation.ReflTransGen r y z → ¬Relation.TransGen r z z :=
      fun z reaches => acyclic z (reaches.head edge)
    refine ih _ ?_ inside' acyclic' rfl
    rw [← reached]
    apply Finset.card_lt_card
    rw [Finset.ssubset_iff_of_subset]
    · refine ⟨y, Finset.mem_filter.mpr ⟨inside', .single edge⟩, ?_⟩
      intro isIn
      exact acyclic' y .refl (Finset.mem_filter.mp isIn).2
    · intro z isIn
      obtain ⟨isNode, reaches⟩ := Finset.mem_filter.mp isIn
      exact Finset.mem_filter.mpr ⟨isNode, .head edge reaches⟩

end

/-! ## The search back -/

section

variable {V L : Type*} [DecidableEq V] (edges : V → List (V × L)) (target : V)

/-- The labels of the paths to the target that pass no marked vertex and none twice, in the order of
the search: those before the last edge, and that of the last edge. -/
def pathsTo : ℕ → Finset V → V → List (List L × L)
  | 0, _, _ => []
  | fuel + 1, marked, v =>
    (edges v).flatMap fun edge =>
      if edge.1 = target then [([], edge.2)]
      else if edge.1 ∈ marked then []
      else (pathsTo fuel (insert edge.1 marked) edge.1).map fun path => (edge.2 :: path.1, path.2)

/-- A walk to the target that passes no marked vertex. -/
inductive Walk (marked : Finset V) : V → List L → L → Prop
  | last {v : V} {l : L} : (target, l) ∈ edges v → Walk marked v [] l
  | step {v w : V} {l last : L} {before : List L} : (w, l) ∈ edges v → w ≠ target → w ∉ marked →
      Walk marked w before last → Walk marked v (l :: before) last

/-- A walk to the target that marks every vertex it passes. -/
inductive FreshWalk : Finset V → V → List L → L → Prop
  | last {marked : Finset V} {v : V} {l : L} : (target, l) ∈ edges v → FreshWalk marked v [] l
  | step {marked : Finset V} {v w : V} {l last : L} {before : List L} : (w, l) ∈ edges v →
      w ≠ target → w ∉ marked → FreshWalk (insert w marked) w before last →
      FreshWalk marked v (l :: before) last

variable {edges target}

omit [DecidableEq V] in
theorem Walk.mono {marked more : Finset V} (fewer : marked ⊆ more) {v : V} {before : List L}
    {last : L} (walk : Walk edges target more v before last) :
    Walk edges target marked v before last := by
  induction walk with
  | last edge => exact .last edge
  | step edge notTarget unmarked _ ih =>
    exact .step edge notTarget (fun isMarked => unmarked (fewer isMarked)) ih

theorem FreshWalk.walk {marked : Finset V} {v : V} {before : List L} {last : L}
    (fresh : FreshWalk edges target marked v before last) :
    Walk edges target marked v before last := by
  induction fresh with
  | last edge => exact .last edge
  | step edge notTarget unmarked _ ih =>
    exact .step edge notTarget unmarked (ih.mono (Finset.subset_insert _ _))

/-- A walk avoids one more vertex, or what follows its last visit there does. -/
theorem Walk.avoid {marked : Finset V} (u : V) {v : V} {before : List L} {last : L}
    (walk : Walk edges target marked v before last) :
    Walk edges target (insert u marked) v before last ∨
      ∃ rest, Walk edges target (insert u marked) u rest last ∧ rest.Sublist before := by
  induction walk with
  | last edge => exact .inl (.last edge)
  | @step v w l last before edge notTarget unmarked _ ih =>
    rcases ih with avoids | ⟨rest, after, shorter⟩
    · by_cases visit : w = u
      · subst visit
        exact .inr ⟨before, avoids, List.sublist_cons_self l before⟩
      · have stays : w ∉ insert u marked := by
          rw [Finset.mem_insert, not_or]
          exact ⟨visit, unmarked⟩
        exact .inl (.step edge notTarget stays avoids)
    · exact .inr ⟨rest, after, shorter.cons l⟩

/-- A walk without its detours marks every vertex it passes. -/
theorem Walk.exists_fresh {marked : Finset V} {v : V} {before : List L} {last : L}
    (walk : Walk edges target marked v before last) :
    ∃ kept, FreshWalk edges target marked v kept last ∧ kept.Sublist before := by
  -- The induction is on the length, as cutting a detour shortens what is left.
  induction length : before.length using Nat.strong_induction_on generalizing marked v before with
  | h n ih =>
    cases walk with
    | last edge => exact ⟨[], .last edge, List.Sublist.refl []⟩
    | @step _ w l _ rest edge notTarget unmarked onwards =>
      obtain ⟨more, avoids, shorter⟩ : ∃ more, Walk edges target (insert w marked) w more last ∧
          more.Sublist rest := by
        rcases onwards.avoid w with avoids | ⟨more, avoids, shorter⟩
        · exact ⟨rest, avoids, List.Sublist.refl rest⟩
        · exact ⟨more, avoids, shorter⟩
      have less : more.length < n := by
        have := shorter.length_le
        rw [List.length_cons] at length
        omega
      obtain ⟨kept, fresh, inMore⟩ := ih more.length less avoids rfl
      exact ⟨l :: kept, .step edge notTarget unmarked fresh, (inMore.trans shorter).cons_cons l⟩

theorem card_sdiff_insert_lt {nodes marked : Finset V} {w : V} (inside : w ∈ nodes)
    (unmarked : w ∉ marked) {fuel : ℕ} (enough : (nodes \ marked).card < fuel + 1) :
    (nodes \ insert w marked).card < fuel := by
  have fewer : (nodes \ insert w marked).card < (nodes \ marked).card := by
    apply Finset.card_lt_card
    rw [Finset.ssubset_iff_of_subset (Finset.sdiff_subset_sdiff (Finset.Subset.refl nodes)
      (Finset.subset_insert w marked))]
    exact ⟨w, Finset.mem_sdiff.mpr ⟨inside, unmarked⟩, by simp⟩
  omega

/-- With fuel for all the unmarked vertices the search finds exactly the walks that mark what they
pass. -/
theorem mem_pathsTo_iff {nodes : Finset V} (closed : ∀ v ∈ nodes, ∀ edge ∈ edges v, edge.1 ∈ nodes)
    {fuel : ℕ} {marked : Finset V} {v : V} (inside : v ∈ nodes)
    (enough : (nodes \ marked).card < fuel) {before : List L} {last : L} :
    (before, last) ∈ pathsTo edges target fuel marked v ↔
      FreshWalk edges target marked v before last := by
  induction fuel generalizing marked v before with
  | zero => omega
  | succ fuel ih =>
    rw [pathsTo, List.mem_flatMap]
    constructor
    · rintro ⟨⟨w, l⟩, edge, found⟩
      by_cases arrived : w = target
      · rw [if_pos arrived, List.mem_singleton] at found
        obtain ⟨rfl, rfl⟩ := Prod.mk.inj found
        exact .last (arrived ▸ edge)
      · rw [if_neg arrived] at found
        by_cases isMarked : w ∈ marked
        · rw [if_pos isMarked] at found
          exact absurd found List.not_mem_nil
        · rw [if_neg isMarked, List.mem_map] at found
          obtain ⟨⟨rest, end'⟩, inner, same⟩ := found
          obtain ⟨rfl, rfl⟩ := Prod.mk.inj same
          have next := closed v inside (w, l) edge
          exact .step edge arrived isMarked
            ((ih next (card_sdiff_insert_lt next isMarked enough)).mp inner)
    · intro fresh
      cases fresh with
      | last edge => exact ⟨(target, last), edge, by simp⟩
      | @step _ _ w l _ rest edge notTarget unmarked onwards =>
        refine ⟨(w, l), edge, ?_⟩
        have next := closed v inside (w, l) edge
        rw [if_neg notTarget, if_neg unmarked, List.mem_map]
        exact ⟨(rest, last), (ih next (card_sdiff_insert_lt next unmarked enough)).mpr onwards, rfl⟩

/-- More fuel than enough finds the same paths. -/
theorem pathsTo_eq_of_enough {nodes : Finset V}
    (closed : ∀ v ∈ nodes, ∀ edge ∈ edges v, edge.1 ∈ nodes) {fuel more : ℕ} {marked : Finset V}
    {v : V} (inside : v ∈ nodes) (enough : (nodes \ marked).card < fuel) (atLeast : fuel ≤ more) :
    pathsTo edges target more marked v = pathsTo edges target fuel marked v := by
  induction fuel generalizing more marked v with
  | zero => omega
  | succ fuel ih =>
    obtain ⟨more, rfl⟩ : ∃ n, more = n + 1 := ⟨more - 1, by omega⟩
    rw [pathsTo, pathsTo]
    refine List.flatMap_congr fun edge isEdge => ?_
    by_cases arrived : edge.1 = target
    · rw [if_pos arrived, if_pos arrived]
    · rw [if_neg arrived, if_neg arrived]
      by_cases isMarked : edge.1 ∈ marked
      · rw [if_pos isMarked, if_pos isMarked]
      · have next := closed v inside edge isEdge
        rw [if_neg isMarked, if_neg isMarked,
          ih next (card_sdiff_insert_lt next isMarked enough) (by omega)]

/-- There is a walk to the target exactly when edges lead there. -/
theorem exists_walk_iff {v : V} :
    (∃ before last, Walk edges target ∅ v before last) ↔
      Relation.TransGen (fun v w => ∃ l, (w, l) ∈ edges v) v target := by
  constructor
  · rintro ⟨before, last, walk⟩
    induction walk with
    | last edge => exact .single ⟨_, edge⟩
    | step edge _ _ _ ih => exact .head ⟨_, edge⟩ ih
  · intro leads
    induction leads using Relation.TransGen.head_induction_on with
    | single edge =>
      obtain ⟨l, edge⟩ := edge
      exact ⟨[], l, .last edge⟩
    | @head v w edge _ ih =>
      obtain ⟨l, edge⟩ := edge
      obtain ⟨before, last, walk⟩ := ih
      by_cases arrived : w = target
      · exact ⟨[], l, .last (arrived ▸ edge)⟩
      · exact ⟨l :: before, last, .step edge arrived (Finset.notMem_empty w) walk⟩

end

end Lib
