import Mathlib.Data.List.Pairwise
import Mathlib.Data.List.Perm.Basic
import Mathlib.Data.List.Sort
import Mathlib.Data.Prod.Lex
import Mathlib.Tactic.Common

/-! Two sorts that compare places: each with all later ones, and each with every place. -/

namespace Lib

section

variable {α κ : Type*} [LinearOrder κ] (key : α → κ)

/-! ## The sort -/

/-- The entry that stays at a place, and those behind it. -/
def settle : α → List α → α × List α
  | here, [] => (here, [])
  | here, later :: rest =>
    -- The entries trade places, and the smaller one is compared on.
    if key later < key here then
      let (settled, behind) := settle later rest
      (settled, here :: behind)
    else
      let (settled, behind) := settle here rest
      (settled, later :: behind)

/-- Settle one place after the other. -/
def settlePlaces : Nat → List α → List α
  | 0, xs => xs
  | _, [] => []
  | places + 1, here :: rest =>
    let (settled, behind) := settle key here rest
    settled :: settlePlaces places behind

/-- Sort a list; its last place needs no settling. -/
def exchangeSort (xs : List α) : List α :=
  settlePlaces key (xs.length - 1) xs

variable {key}

/-! ## One place -/

theorem settle_perm (here : α) (rest : List α) :
    ((settle key here rest).1 :: (settle key here rest).2).Perm (here :: rest) := by
  induction rest generalizing here with
  | nil => exact List.Perm.refl _
  | cons later rest ih =>
    rw [settle]
    by_cases smaller : key later < key here
    · rw [if_pos smaller]
      exact (List.Perm.swap _ _ _).trans ((ih later).cons here)
    · rw [if_neg smaller]
      have kept := (ih here).cons later
      exact ((List.Perm.swap _ _ _).trans kept).trans (List.Perm.swap _ _ _)

theorem length_settle (here : α) (rest : List α) : (settle key here rest).2.length = rest.length :=
  Nat.succ_inj.mp (settle_perm here rest).length_eq

/-- What stays at a place is least. -/
theorem settle_le (here : α) (rest : List α) :
    ∀ x ∈ here :: rest, key (settle key here rest).1 ≤ key x := by
  induction rest generalizing here with
  | nil =>
    intro x member
    rw [List.mem_singleton.mp member]
    exact le_refl _
  | cons later rest ih =>
    intro x member
    rw [settle]
    by_cases smaller : key later < key here
    · rw [if_pos smaller]
      rcases List.mem_cons.mp member with rfl | behind
      · exact le_trans (ih later later List.mem_cons_self) (le_of_lt smaller)
      · exact ih later x behind
    · rw [if_neg smaller]
      have least := ih here here List.mem_cons_self
      rcases List.mem_cons.mp member with rfl | behind
      · exact least
      · rcases List.mem_cons.mp behind with rfl | behind
        · exact le_trans least (not_lt.mp smaller)
        · exact ih here x (List.mem_cons_of_mem _ behind)

theorem settle_of_le {here : α} {rest : List α} (least : ∀ x ∈ rest, key here ≤ key x) :
    settle key here rest = (here, rest) := by
  induction rest with
  | nil => rfl
  | cons later rest ih =>
    have stays : ¬key later < key here := not_lt.mpr (least later List.mem_cons_self)
    rw [settle, if_neg stays, ih fun x inside => least x (List.mem_cons_of_mem _ inside)]

/-! ## All places -/

theorem settlePlaces_perm (places : Nat) (xs : List α) : (settlePlaces key places xs).Perm xs := by
  induction places generalizing xs with
  | zero => exact List.Perm.refl _
  | succ places ih =>
    cases xs with
    | nil => exact List.Perm.refl _
    | cons here rest => exact ((ih _).cons _).trans (settle_perm here rest)

theorem settlePlaces_sorted {places : Nat} {xs : List α} (enough : xs.length ≤ places + 1) :
    (settlePlaces key places xs).Pairwise fun a b => key a ≤ key b := by
  -- The induction is on the places that are still to be settled.
  induction places generalizing xs with
  | zero =>
    cases xs with
    | nil => exact List.Pairwise.nil
    | cons here rest =>
      cases rest with
      | nil => exact List.pairwise_singleton _ _
      | cons next rest =>
        rw [List.length_cons, List.length_cons] at enough
        omega
  | succ places ih =>
    cases xs with
    | nil => exact List.Pairwise.nil
    | cons here rest =>
      rw [settlePlaces]
      refine List.Pairwise.cons (fun x inside => ?_) (ih ?_)
      · -- What is behind was there before.
        have behind : x ∈ (settle key here rest).2 := (settlePlaces_perm _ _).mem_iff.mp inside
        exact settle_le here rest x
          ((settle_perm here rest).mem_iff.mp (List.mem_cons_of_mem _ behind))
      · rw [length_settle]
        exact Nat.le_of_succ_le_succ enough

theorem settlePlaces_of_sorted {xs : List α} (sorted : xs.Pairwise fun a b => key a ≤ key b)
    (places : Nat) : settlePlaces key places xs = xs := by
  induction places generalizing xs with
  | zero => rfl
  | succ places ih =>
    cases sorted with
    | nil => rfl
    | cons least sorted =>
      rw [settlePlaces, settle_of_le least]
      exact congrArg (List.cons _) (ih sorted)

theorem exchangeSort_perm (xs : List α) : (exchangeSort key xs).Perm xs :=
  settlePlaces_perm _ _

theorem exchangeSort_sorted (xs : List α) :
    (exchangeSort key xs).Pairwise fun a b => key a ≤ key b :=
  settlePlaces_sorted (by omega)

theorem exchangeSort_of_sorted {xs : List α} (sorted : xs.Pairwise fun a b => key a ≤ key b) :
    exchangeSort key xs = xs :=
  settlePlaces_of_sorted sorted _

/-! ## Another order -/

section

variable {γ : Type*} [LinearOrder γ] {rank : α → γ}

/-- Where keys follow ranks, the sort orders by rank. -/
theorem exchangeSort_ranked {xs : List α} (distinct : (xs.map rank).Nodup)
    (follows : ∀ a ∈ xs, ∀ b ∈ xs, rank a < rank b → key a < key b) :
    (exchangeSort key xs).Pairwise fun a b => rank a < rank b := by
  have perm : (exchangeSort key xs).Perm xs := exchangeSort_perm xs
  have apart : (exchangeSort key xs).Pairwise fun a b => rank a ≠ rank b :=
    List.pairwise_map.mp ((perm.map rank).nodup_iff.mpr distinct)
  refine (apart.and (exchangeSort_sorted xs)).imp_of_mem ?_
  intro a b insideA insideB both
  obtain ⟨other, ordered⟩ := both
  -- In the other order the keys would be too.
  rcases lt_or_gt_of_ne other with less | greater
  · exact less
  · have back := follows b (perm.mem_iff.mp insideB) a (perm.mem_iff.mp insideA) greater
    exact absurd ordered (not_le.mpr back)

/-- The sort orders by rank, from whatever order, exactly where keys follow ranks. -/
theorem exchangeSort_ranked_iff {xs : List α} (distinct : (xs.map rank).Nodup) :
    (∀ ys, ys.Perm xs → (exchangeSort key ys).Pairwise fun a b => rank a < rank b) ↔
      ∀ a ∈ xs, ∀ b ∈ xs, rank a < rank b → key a < key b := by
  classical
  constructor
  · intro ranked a insideA b insideB less
    -- From an order by keys that puts equal keys against their ranks nothing is exchanged.
    let worst (a : α) : κ ×ₗ γᵒᵈ := toLex (key a, OrderDual.toDual (rank a))
    let ys := xs.mergeSort fun a b => decide (worst a ≤ worst b)
    have perm : ys.Perm xs := List.mergeSort_perm _ _
    have against : ys.Pairwise fun a b => worst a ≤ worst b := by
      have sorted : ys.Pairwise fun a b => decide (worst a ≤ worst b) = true :=
        List.pairwise_mergeSort (by simpa using fun a b c => le_trans)
          (by simpa using fun a b => le_total _ _) xs
      simpa using sorted
    have byKey : ys.Pairwise fun a b => key a ≤ key b := by
      refine against.imp fun ordered => ?_
      rcases Prod.Lex.le_iff.mp ordered with less | ⟨same, -⟩
      · exact le_of_lt less
      · exact le_of_eq same
    have ordered := ranked ys perm
    rw [exchangeSort_of_sorted byKey] at ordered
    let follows (a b : α) : Prop :=
      (rank a < rank b → key a < key b) ∧ (rank b < rank a → key b < key a)
    have symmetric : Std.Symm follows := ⟨fun _ _ => And.symm⟩
    have following : ys.Pairwise follows := by
      refine (against.and ordered).imp fun both => ⟨fun _ => ?_, fun greater => ?_⟩
      · obtain ⟨before, less⟩ := both
        rcases Prod.Lex.le_iff.mp before with smaller | ⟨-, back⟩
        · exact smaller
        · exact absurd less (not_lt.mpr back)
      · exact absurd both.2 (lt_asymm greater)
    have other : a ≠ b := by
      rintro rfl
      exact lt_irrefl _ less
    have each := following.forall (perm.mem_iff.mpr insideA) (perm.mem_iff.mpr insideB) other
    exact each.1 less
  · intro follows ys perm
    refine exchangeSort_ranked ((perm.map rank).nodup_iff.mpr distinct) ?_
    intro a insideA b insideB
    exact follows a (perm.mem_iff.mp insideA) b (perm.mem_iff.mp insideB)

end

end

section

variable {α : Type*} [LinearOrder α]

/-! ## The sort -/

/-- Exchange the entries of two places where the other one has the smaller entry. -/
def exchange (xs : List α) (place other : Nat) : List α :=
  match xs[place]?, xs[other]? with
  | some here, some there => if there < here then (xs.set other here).set place there else xs
  | _, _ => xs

/-- Compare a place with every place. -/
def exchangeAll (xs : List α) (place : Nat) : List α :=
  (List.range xs.length).foldl (fun ys other => exchange ys place other) xs

/-- Compare every place with every place. -/
def everyPairSort (xs : List α) : List α :=
  (List.range xs.length).foldl exchangeAll xs

/-! ## One place -/

/-- An entry that is carried along a list is left wherever a smaller one is picked up. -/
@[grind =] def carry : α → List α → List α × α
  | here, [] => ([], here)
  | here, there :: rest =>
    if there < here then
      let (left, least) := carry there rest
      (here :: left, least)
    else
      let (left, least) := carry here rest
      (there :: left, least)

theorem length_carry (here : α) (xs : List α) : (carry here xs).1.length = xs.length := by
  induction xs generalizing here with
  | nil => rfl
  | cons there rest ih =>
    rw [carry]
    split
    · exact congrArg (· + 1) (ih there)
    · exact congrArg (· + 1) (ih here)

theorem carry_perm (here : α) (xs : List α) :
    ((carry here xs).2 :: (carry here xs).1).Perm (here :: xs) := by
  induction xs generalizing here with
  | nil => exact List.Perm.refl _
  | cons there rest ih =>
    rw [carry]
    split
    · exact (List.Perm.swap _ _ _).trans ((ih there).cons here)
    · have kept := (ih here).cons there
      exact ((List.Perm.swap _ _ _).trans kept).trans (List.Perm.swap _ _ _)

/-- What is carried to the end is least. -/
theorem carry_le (here : α) (xs : List α) : ∀ x ∈ here :: xs, (carry here xs).2 ≤ x := by
  induction xs generalizing here with
  | nil => simp [carry]
  | cons there rest ih =>
    intro x member
    rw [carry]
    split
    next smaller =>
      rcases List.mem_cons.mp member with rfl | behind
      · exact le_trans (ih there there List.mem_cons_self) (le_of_lt smaller)
      · exact ih there x behind
    next larger =>
      rcases List.mem_cons.mp member with rfl | behind
      · exact ih x x List.mem_cons_self
      · rcases List.mem_cons.mp behind with rfl | behind
        · exact le_trans (ih here here List.mem_cons_self) (not_lt.mp larger)
        · exact ih here x (List.mem_cons_of_mem _ behind)

/-- Along a descending list an entry is left at its place. -/
theorem carry_descending (here : α) {xs : List α} (descending : xs.Pairwise (· ≥ ·)) :
    ((carry here xs).1 ++ [(carry here xs).2]).Pairwise (· ≥ ·) := by
  refine List.pairwise_append.mpr ⟨?_, List.pairwise_singleton _ _, ?_⟩
  · induction descending generalizing here with
    | nil => exact List.Pairwise.nil
    | @cons there rest largest sorted ih =>
      rw [carry]
      have others : ∀ here, ∀ x ∈ (carry here rest).1, x = here ∨ x ∈ rest := by
        intro here x inside
        exact List.mem_cons.mp ((carry_perm here rest).mem_iff.mp (List.mem_cons_of_mem _ inside))
      split
      next smaller =>
        refine List.Pairwise.cons (fun x inside => ?_) (ih there)
        rcases others there x inside with rfl | behind
        · exact le_of_lt smaller
        · exact le_trans (largest x behind) (le_of_lt smaller)
      next larger =>
        refine List.Pairwise.cons (fun x inside => ?_) (ih here)
        rcases others here x inside with rfl | behind
        · exact not_lt.mp larger
        · exact largest x behind
  · intro x inside y last
    rw [List.mem_singleton.mp last]
    have member := (carry_perm here xs).mem_iff.mp (List.mem_cons_of_mem _ inside)
    exact carry_le here xs x member

theorem exchange_before (done rest post : List α) (there here : α) :
    exchange (done ++ there :: (rest ++ here :: post)) (done.length + (rest.length + 1))
        done.length =
      if there < here then done ++ here :: (rest ++ there :: post)
      else done ++ there :: (rest ++ here :: post) := by
  simp [exchange]

theorem exchange_behind (pre done rest : List α) (here there : α) :
    exchange (pre ++ here :: (done ++ there :: rest)) pre.length
        (pre.length + (done.length + 1)) =
      if there < here then pre ++ there :: (done ++ here :: rest)
      else pre ++ here :: (done ++ there :: rest) := by
  simp [exchange]

/-- The exchanges with the places before an entry carry it along them. -/
theorem foldl_exchange_before (done todo post : List α) (here : α) :
    (List.range' done.length todo.length).foldl
        (fun ys other => exchange ys (done.length + todo.length) other)
        (done ++ (todo ++ here :: post)) =
      done ++ ((carry here todo).1 ++ (carry here todo).2 :: post) := by
  -- The induction is on the places to come, whatever is carried to them.
  induction todo generalizing done here with
  | nil => rfl
  | cons there rest ih =>
    have next : ∀ left : α, (done ++ [left]).length = done.length + 1 := by simp
    have place : ∀ n, done.length + (n + 1) = done.length + 1 + n := by omega
    rw [List.length_cons, List.range'_succ, List.foldl_cons, List.cons_append, exchange_before,
      carry]
    split
    next smaller =>
      have others := ih (done ++ [here]) there
      rw [next, ← place] at others
      simpa using others
    next larger =>
      have others := ih (done ++ [there]) here
      rw [next, ← place] at others
      simpa using others

/-- The exchanges with the places behind an entry carry it along them too. -/
theorem foldl_exchange_behind (pre done todo : List α) (here : α) :
    (List.range' (pre.length + (done.length + 1)) todo.length).foldl
        (fun ys other => exchange ys pre.length other) (pre ++ here :: (done ++ todo)) =
      pre ++ (carry here todo).2 :: (done ++ (carry here todo).1) := by
  induction todo generalizing done here with
  | nil => rfl
  | cons there rest ih =>
    have next : ∀ left : α, (done ++ [left]).length = done.length + 1 := by simp
    rw [List.length_cons, List.range'_succ, List.foldl_cons, exchange_behind, carry]
    split
    next smaller =>
      have others := ih (done ++ [here]) there
      rw [next] at others
      simpa [Nat.add_assoc] using others
    next larger =>
      have others := ih (done ++ [there]) here
      rw [next] at others
      simpa [Nat.add_assoc] using others

/-- A place that is compared with every place: its entry is carried along those before it, and then along those behind it. -/
theorem exchangeAll_eq (pre post : List α) (here : α) :
    exchangeAll (pre ++ here :: post) pre.length =
      (carry here pre).1 ++ (carry (carry here pre).2 post).2 ::
        (carry (carry here pre).2 post).1 := by
  have split : List.range (pre ++ here :: post).length =
      List.range' 0 pre.length ++ pre.length :: List.range' (pre.length + 1) post.length := by
    rw [List.length_append, List.length_cons, List.range_eq_range', ← List.range'_append_1,
      List.range'_succ, Nat.zero_add]
  have before := foldl_exchange_before [] pre post here
  have behind := foldl_exchange_behind (carry here pre).1 [] post (carry here pre).2
  rw [List.length_nil, Nat.zero_add, List.nil_append, List.nil_append] at before
  rw [length_carry, List.length_nil, Nat.zero_add, List.nil_append, List.nil_append] at behind
  -- With itself the place is compared in between.
  have itself : ∀ ys : List α, exchange ys pre.length pre.length = ys := by
    intro ys
    unfold exchange
    cases ys[pre.length]? with
    | none => rfl
    | some x => exact if_neg (lt_irrefl x)
  rw [exchangeAll, split, List.foldl_append, List.foldl_cons, before, itself, behind]

/-! ## All places -/

omit [LinearOrder α] in
theorem exists_place {xs : List α} {place : Nat} (inside : place < xs.length) :
    ∃ pre here post, xs = pre ++ here :: post ∧ place = pre.length := by
  refine ⟨xs.take place, xs[place], xs.drop (place + 1), ?_, ?_⟩
  · rw [List.getElem_cons_drop, List.take_append_drop]
  · rw [List.length_take, Nat.min_eq_left (Nat.le_of_lt inside)]

theorem exchangeAll_perm {xs : List α} {place : Nat} (inside : place < xs.length) :
    (exchangeAll xs place).Perm xs := by
  obtain ⟨pre, here, post, rfl, rfl⟩ := exists_place inside
  have before := (carry_perm here pre).append_right post
  have behind := (carry_perm (carry here pre).2 post).append_left (carry here pre).1
  rw [exchangeAll_eq]
  exact behind.trans (List.perm_middle.trans (before.trans List.perm_middle.symm))

/-- One more place is done: its entry goes to where it belongs among those before it. -/
theorem exchangeAll_descending {xs : List α} {place : Nat} (inside : place < xs.length)
    (descending : (xs.take place).Pairwise (· ≥ ·)) :
    ((exchangeAll xs place).take (place + 1)).Pairwise (· ≥ ·) := by
  obtain ⟨pre, here, post, rfl, rfl⟩ := exists_place inside
  rw [List.take_left] at descending
  have size : ((carry here pre).1 ++ [(carry (carry here pre).2 post).2]).length =
      pre.length + 1 := by
    rw [List.length_append, length_carry, List.length_singleton]
  rw [exchangeAll_eq, List.append_cons, ← size, List.take_left]
  obtain ⟨sorted, -, before⟩ := List.pairwise_append.mp (carry_descending here descending)
  refine List.pairwise_append.mpr ⟨sorted, List.pairwise_singleton _ _, ?_⟩
  intro x left y last
  rw [List.mem_singleton.mp last]
  -- What is carried on can only get smaller.
  have less := carry_le (carry here pre).2 post _ List.mem_cons_self
  exact le_trans less (before x left _ (List.mem_singleton_self _))

/-- What a number of places that are done leave. -/
theorem foldl_exchangeAll_spec (xs : List α) {places : Nat} (inside : places ≤ xs.length) :
    ((List.range places).foldl exchangeAll xs).Perm xs ∧
      (((List.range places).foldl exchangeAll xs).take places).Pairwise (· ≥ ·) := by
  induction places with
  | zero => exact ⟨List.Perm.refl _, List.Pairwise.nil⟩
  | succ place ih =>
    obtain ⟨perm, descending⟩ := ih (Nat.le_of_succ_le inside)
    have room : place < ((List.range place).foldl exchangeAll xs).length := by
      rw [perm.length_eq]
      exact inside
    rw [List.range_succ, List.foldl_append, List.foldl_cons, List.foldl_nil]
    exact ⟨(exchangeAll_perm room).trans perm, exchangeAll_descending room descending⟩

theorem everyPairSort_perm (xs : List α) : (everyPairSort xs).Perm xs :=
  (foldl_exchangeAll_spec xs le_rfl).1

theorem everyPairSort_descending (xs : List α) : (everyPairSort xs).Pairwise (· ≥ ·) := by
  obtain ⟨perm, descending⟩ := foldl_exchangeAll_spec xs le_rfl
  have all : xs.length = (everyPairSort xs).length := perm.length_eq.symm
  rwa [← everyPairSort, all, List.take_length] at descending

/-! ## Places in the sorted list -/

/-- Where an entry comes in a list with the largest first: behind those that are greater. -/
theorem idxOf?_of_descending {xs : List α} (descending : xs.Pairwise (· > ·)) {v : α}
    (member : v ∈ xs) : xs.idxOf? v = some (xs.countP (v < ·)) := by
  induction descending with
  | nil => exact absurd member List.not_mem_nil
  | @cons first rest greater sorted ih =>
    rw [List.idxOf?_cons, List.countP_cons]
    by_cases here : first = v
    · -- All that follow are smaller.
      subst here
      have none : rest.countP (first < ·) = 0 := by
        refine List.countP_eq_zero.mpr fun x inside => ?_
        rw [decide_eq_true_iff]
        exact lt_asymm (greater x inside)
      simp [none]
    · have behind : v ∈ rest := (List.mem_cons.mp member).resolve_left (Ne.symm here)
      simp [here, ih behind, greater v behind]

theorem idxOf?_everyPairSort {xs : List α} (distinct : xs.Nodup) {v : α} (member : v ∈ xs) :
    (everyPairSort xs).idxOf? v = some (xs.countP (v < ·)) := by
  have perm := everyPairSort_perm xs
  have apart : (everyPairSort xs).Pairwise (· ≠ ·) := perm.nodup_iff.mpr distinct
  have descending : (everyPairSort xs).Pairwise (· > ·) :=
    (apart.and (everyPairSort_descending xs)).imp fun both => lt_of_le_of_ne both.2 both.1.symm
  rw [idxOf?_of_descending descending (perm.mem_iff.mpr member), perm.countP_eq]

end

end Lib
