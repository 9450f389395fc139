import Esnacc.Lib.Run
import Esnacc.Mem.AsnList

/-! Runs of calls on several lists, the nodes of which are in one memory. -/

namespace Esnacc

open Lib

variable {ι α : Type*}

/-- A call on one list, with the address of the node that it allocates. -/
inductive ListCall (α : Type*)
  | append (newNode : α)
  | prepend (newNode : α)
  | add (newNode : α)
  | insert (newNode : α)
  | remove
  | first
  | last
  | next
  | prev

/-- A call on one list, or one that joins two. -/
inductive ListOp (ι α : Type*)
  | call (list : ι) (c : ListCall α)
  | concat (l1 l2 : ι)

namespace ListCall

def newNode? : ListCall α → Option α
  | append x | prepend x | add x | insert x => some x
  | _ => none

/-- What a call makes of a sequence with a cursor, and what it returns. -/
def model : ListCall α → CursorList α → CursorList α × Option α
  | append x, l => (l.append x, some x)
  | prepend x, l => (l.prepend x, some x)
  | add x, l => (l.add x, l.curr?.map fun _ => x)
  | insert x, l => (l.insert x, l.curr?.map fun _ => x)
  | remove, l => (l.remove, none)
  | first, l => (l.first, l.first.curr?)
  | last, l => (l.last, l.last.curr?)
  | next, l => (l.next, l.next.curr?)
  | prev, l => (l.prev, l.prev.curr?)

end ListCall

section

variable [DecidableEq α]

def ListCall.run (nodes : AsnListNodes α) (list : AsnList α) :
    ListCall α → Option (ListResult α)
  | append x => asnListAppend nodes list x
  | prepend x => asnListPrepend nodes list x
  | add x => asnListAdd nodes list x
  | insert x => asnListInsert nodes list x
  | remove => asnListRemove nodes list
  | first => asnListFirst nodes list
  | last => asnListLast nodes list
  | next => asnListNext nodes list
  | prev => asnListPrev nodes list

variable {nodes : AsnListNodes α} {list : AsnList α} {model : CursorList α}

/-- Every call does what it does to the sequence, and touches no other nodes. -/
theorem HoldsList.run (holds : HoldsList nodes list model) (c : ListCall α)
    (fresh : ∀ x ∈ c.newNode?, x ∉ model.toList) :
    LeavesList nodes (c.newNode?.toList ++ model.toList) (c.model model).1 (c.model model).2
      (c.run nodes list) := by
  have wider : ∀ {model' : CursorList α} {data call}, LeavesList nodes [] model' data call →
      LeavesList nodes model.toList model' data call := by
    rintro model' data call ⟨nodes', list', done, holds', frame⟩
    exact ⟨nodes', list', done, holds', fun x _ => frame x List.not_mem_nil⟩
  cases c with
  | append x => exact holds.asnListAppend (fresh x rfl)
  | prepend x => exact holds.asnListPrepend (fresh x rfl)
  | add x => exact holds.asnListAdd (fresh x rfl)
  | insert x => exact holds.asnListInsert (fresh x rfl)
  | remove => exact holds.asnListRemove
  | first => exact wider holds.asnListFirst
  | last => exact wider holds.asnListLast
  | next => exact wider holds.asnListNext
  | prev => exact wider holds.asnListPrev

end

/-- A call leaves nodes that were there, and its new one. -/
theorem ListCall.toList_model_subset (c : ListCall α) (model : CursorList α) :
    (c.model model).1.toList ⊆ c.newNode?.toList ++ model.toList := by
  cases c with
  | append x => simp [ListCall.model, newNode?, CursorList.append, CursorList.toList]
  | prepend x => simp [ListCall.model, newNode?, CursorList.prepend, CursorList.toList]
  | add x =>
    rcases model with xs | ⟨left, curr, right⟩ <;>
      simp [ListCall.model, newNode?, CursorList.add, CursorList.toList]
    exact fun x among => by simp [among]
  | insert x =>
    rcases model with xs | ⟨left, curr, right⟩ <;>
      simp [ListCall.model, newNode?, CursorList.insert, CursorList.toList]
  | remove =>
    rcases model with xs | ⟨left, curr, _ | ⟨x, right⟩⟩ <;>
      simp [ListCall.model, newNode?, CursorList.remove, CursorList.toList]
  | first => exact fun x among => CursorList.toList_first model ▸ among
  | last => exact fun x among => CursorList.toList_last model ▸ among
  | next => exact fun x among => CursorList.toList_next model ▸ among
  | prev => exact fun x among => CursorList.toList_prev model ▸ among

/-! ## Several lists -/

/-- The nodes of all lists, and the lists. -/
structure ListHeap (ι α : Type*) where
  nodes : AsnListNodes α
  lists : ι → AsnList α

/-- The sequences that are in use, with their cursors. -/
abbrev CursorLists (ι α : Type*) := ι → Option (CursorList α)

section

variable [DecidableEq ι]

/-- One call on the sequences; a list that was joined to another one is not used again. -/
@[grind =] def CursorLists.step (m : CursorLists ι α) : ListOp ι α → Option (CursorLists ι α × Option α)
  | .call l c => (m l).map fun model =>
      (Function.update m l (some (c.model model).1), (c.model model).2)
  | .concat l1 l2 => (m l1).bind fun model1 => (m l2).map fun model2 =>
      (Function.update (Function.update m l2 none) l1 (some (model1.concat model2.toList)), none)

/-- One call on the lists. -/
def ListHeap.step [DecidableEq α] (s : ListHeap ι α) :
    ListOp ι α → Option (ListHeap ι α × Option α)
  | .call l c => (c.run s.nodes (s.lists l)).map fun r =>
      (⟨r.1, Function.update s.lists l r.2.1⟩, r.2.2)
  | .concat l1 l2 => (asnListConcat s.nodes (s.lists l1) (s.lists l2)).map fun r =>
      (⟨r.1, Function.update s.lists l1 r.2⟩, none)

/-- The lists are in use, and a node that is allocated is in none of them. -/
def ProperOp (m : CursorLists ι α) : ListOp ι α → Prop
  | .call l c => (m l).isSome ∧
      ∀ x ∈ c.newNode?, ∀ l' model, m l' = some model → x ∉ model.toList
  | .concat l1 l2 => l1 ≠ l2 ∧ (m l1).isSome ∧ (m l2).isSome

/-- The counters tell whether the lists that are joined are empty. -/
def JoinsCounted (m : CursorLists ι α) : ListOp ι α → Prop
  | .call _ _ => True
  | .concat l1 l2 => ∀ model, m l1 = some model ∨ m l2 = some model →
      model.toList.length < 2 ^ 32

/-- A call leaves no list of more nodes than an `int` counts. -/
def CountedOp (m : CursorLists ι α) : ListOp ι α → Prop
  | .call l c => ∀ model, m l = some model → (c.model model).1.toList.length < 2 ^ 31
  | .concat l1 l2 => ∀ model1 model2, m l1 = some model1 → m l2 = some model2 →
      model1.toList.length + model2.toList.length < 2 ^ 31

/-- The lists are sequences with cursors, no two of which share a node. -/
structure HoldLists (s : ListHeap ι α) (m : CursorLists ι α) : Prop where
  holds : ∀ l model, m l = some model → HoldsList s.nodes (s.lists l) model
  apart : ∀ l l' model model', l ≠ l' → m l = some model → m l' = some model' →
    List.Disjoint model.toList model'.toList

omit [DecidableEq ι] in
theorem holdLists_new (nodes : AsnListNodes α) :
    HoldLists ⟨nodes, fun _ : ι => asnListNew⟩ fun _ => some (.off []) where
  holds l model empty := by
    cases empty
    exact holds_new nodes
  apart l l' model model' different empty empty' := by
    cases empty
    exact List.disjoint_nil_left _

variable [DecidableEq α] {s : ListHeap ι α} {m : CursorLists ι α}

/-- A call does to the lists what it does to the sequences. -/
theorem HoldLists.step (all : HoldLists s m) (op : ListOp ι α) (proper : ProperOp m op)
    (joins : JoinsCounted m op) : ∃ s' m' out, ListHeap.step s op = some (s', out) ∧
      CursorLists.step m op = some (m', out) ∧ HoldLists s' m' := by
  cases op with
  | call l c =>
    obtain ⟨used, fresh⟩ := proper
    obtain ⟨model, here⟩ := Option.isSome_iff_exists.mp used
    obtain ⟨nodes', list', done, holds', frame⟩ :=
      (all.holds l model here).run c fun x new => fresh x new l model here
    have subset := c.toList_model_subset model
    -- Nodes of another list are touched by no call on this one.
    have other : ∀ l' model', l' ≠ l → m l' = some model' → ∀ x ∈ model'.toList,
        x ∉ c.newNode?.toList ++ model.toList := by
      intro l' model' different there x among
      rw [List.mem_append, not_or]
      refine ⟨fun new => ?_, fun both => ?_⟩
      · exact fresh x (by simpa using new) l' model' there among
      · exact all.apart l' l model' model different there here among both
    refine ⟨⟨nodes', Function.update s.lists l list'⟩,
      Function.update m l (some (c.model model).1), (c.model model).2, ?_, ?_, ?_, ?_⟩
    · rw [ListHeap.step, done]
      rfl
    · rw [CursorLists.step, here]
      rfl
    · intro l' model' there
      by_cases same : l' = l
      · subst same
        rw [Function.update_self] at there
        cases there
        dsimp only
        rw [Function.update_self]
        exact holds'
      · rw [Function.update_of_ne same] at there
        dsimp only
        rw [Function.update_of_ne same]
        exact (all.holds l' model' there).frame fun x among =>
          frame x (other l' model' same there x among)
    · intro l1 l2 model1 model2 different there1 there2
      by_cases same1 : l1 = l
      · subst same1
        rw [Function.update_self] at there1
        rw [Function.update_of_ne different.symm] at there2
        cases there1
        exact fun x among both => other l2 model2 different.symm there2 x both (subset among)
      · rw [Function.update_of_ne same1] at there1
        by_cases same2 : l2 = l
        · subst same2
          rw [Function.update_self] at there2
          cases there2
          exact fun x among both => other l1 model1 same1 there1 x among (subset both)
        · rw [Function.update_of_ne same2] at there2
          exact all.apart l1 l2 model1 model2 different there1 there2
  | concat l1 l2 =>
    obtain ⟨different, used1, used2⟩ := proper
    obtain ⟨model1, here1⟩ := Option.isSome_iff_exists.mp used1
    obtain ⟨model2, here2⟩ := Option.isSome_iff_exists.mp used2
    obtain ⟨nodes', list', done, holds', frame⟩ :=
      (all.holds l1 model1 here1).asnListConcat (all.holds l2 model2 here2)
        (all.apart l1 l2 model1 model2 different here1 here2) (joins model1 (.inl here1))
        (joins model2 (.inr here2))
    have joined := CursorList.toList_concat model1 model2.toList
    have other : ∀ l' model', l' ≠ l1 → l' ≠ l2 → m l' = some model' → ∀ x ∈ model'.toList,
        x ∉ model1.toList ++ model2.toList := by
      intro l' model' apart1 apart2 there x among both
      rcases List.mem_append.mp both with first | second
      · exact all.apart l' l1 model' model1 apart1 there here1 among first
      · exact all.apart l' l2 model' model2 apart2 there here2 among second
    -- What is left is the joined list and the lists that were neither of the two.
    have left : ∀ l' model', Function.update (Function.update m l2 none) l1
        (some (model1.concat model2.toList)) l' = some model' →
        l' = l1 ∧ model' = model1.concat model2.toList ∨
          l' ≠ l1 ∧ l' ≠ l2 ∧ m l' = some model' := by
      intro l' model' there
      by_cases same : l' = l1
      · rw [same, Function.update_self] at there
        exact .inl ⟨same, (Option.some.inj there).symm⟩
      · rw [Function.update_of_ne same] at there
        by_cases joinedOne : l' = l2
        · rw [joinedOne, Function.update_self] at there
          cases there
        · rw [Function.update_of_ne joinedOne] at there
          exact .inr ⟨same, joinedOne, there⟩
    refine ⟨⟨nodes', Function.update s.lists l1 list'⟩,
      Function.update (Function.update m l2 none) l1 (some (model1.concat model2.toList)), none,
      ?_, ?_, ?_, ?_⟩
    · rw [ListHeap.step, done]
      rfl
    · rw [CursorLists.step, here1, here2]
      rfl
    · intro l' model' there
      dsimp only
      rcases left l' model' there with ⟨rfl, rfl⟩ | ⟨apart1, apart2, there⟩
      · rw [Function.update_self]
        exact holds'
      · rw [Function.update_of_ne apart1]
        exact (all.holds l' model' there).frame fun x among =>
          frame x (other l' model' apart1 apart2 there x among)
    · intro l l' model model' distinct there there' x among both
      rcases left l model there with ⟨rfl, rfl⟩ | ⟨apart1, apart2, own⟩
      · rcases left l' model' there' with ⟨rfl, -⟩ | ⟨apart1, apart2, own'⟩
        · exact distinct rfl
        · exact other l' model' apart1 apart2 own' x both (joined ▸ among)
      · rcases left l' model' there' with ⟨rfl, rfl⟩ | ⟨-, -, own'⟩
        · exact other l model apart1 apart2 own x among (joined ▸ both)
        · exact all.apart l l' model model' distinct own own' among both

/-- No list has more nodes than an `int` counts. -/
def AllCounted (m : CursorLists ι α) : Prop :=
  ∀ l model, m l = some model → model.toList.length < 2 ^ 31

omit [DecidableEq α] in
theorem AllCounted.step {m' : CursorLists ι α} {out : Option α} (all : AllCounted m)
    (op : ListOp ι α) (counted : CountedOp m op)
    (stepped : CursorLists.step m op = some (m', out)) :
    AllCounted m' := by
  cases op with
  | call l c =>
    obtain ⟨model, here, same⟩ := Option.map_eq_some_iff.mp stepped
    cases same
    intro l' model' there
    by_cases equal : l' = l
    · rw [equal, Function.update_self] at there
      cases there
      exact counted model here
    · rw [Function.update_of_ne equal] at there
      exact all l' model' there
  | concat l1 l2 =>
    obtain ⟨model1, here1, rest⟩ := Option.bind_eq_some_iff.mp stepped
    obtain ⟨model2, here2, same⟩ := Option.map_eq_some_iff.mp rest
    cases same
    intro l' model' there
    by_cases equal : l' = l1
    · rw [equal, Function.update_self] at there
      cases there
      rw [CursorList.toList_concat, List.length_append]
      exact counted model1 model2 here1 here2
    · rw [Function.update_of_ne equal] at there
      by_cases joined : l' = l2
      · rw [joined, Function.update_self] at there
        cases there
      · rw [Function.update_of_ne joined] at there
        exact all l' model' there

/-- A list whose links visit a sequence both ways, with its count and a cursor on it. -/
structure IsCursorList (nodes : AsnListNodes α) (list : AsnList α) (model : CursorList α) :
    Prop where
  next : Visits (fun x => (nodes x).map Links.next) list.first model.toList
  prev : Visits (fun x => (nodes x).map Links.prev) list.last model.toList.reverse
  count : list.count.toInt = model.toList.length
  curr : list.curr = model.curr?

omit [DecidableEq α] in
theorem HoldsList.isCursorList {nodes : AsnListNodes α} {list : AsnList α} {model : CursorList α}
    (holds : HoldsList nodes list model) (few : model.toList.length < 2 ^ 31) :
    IsCursorList nodes list model where
  next := by
    rw [holds.first]
    exact holds.linked.visits_next
  prev := by
    rw [holds.last]
    exact holds.linked.visits_prev
  count := by
    rw [holds.count, Int32.toInt_ofNat_of_lt few]
  curr := holds.curr

/--
In every run in which no list gets more nodes than an `int` counts, the calls return what they
return for sequences with cursors, and the lists are these sequences.
-/
theorem isCursorList_of_run (nodes : AsnListNodes α) (ops : List (ListOp ι α))
    (along : Along CursorLists.step (fun m op => ProperOp m op ∧ CountedOp m op)
      (fun _ => some (.off [])) ops) :
    ∃ s m outs, Lib.run ListHeap.step ⟨nodes, fun _ => asnListNew⟩ ops = some (s, outs) ∧
      Lib.run CursorLists.step (fun _ => some (.off [])) ops = some (m, outs) ∧
      ∀ l model, m l = some model → IsCursorList s.nodes (s.lists l) model := by
  have sim : ∀ (m : CursorLists ι α) (s : ListHeap ι α) op, HoldLists s m ∧ AllCounted m →
      ProperOp m op ∧ CountedOp m op → ∃ m' s' out, CursorLists.step m op = some (m', out) ∧
        ListHeap.step s op = some (s', out) ∧ HoldLists s' m' ∧ AllCounted m' := by
    rintro m s op ⟨all, few⟩ ⟨proper, counted⟩
    have joins : JoinsCounted m op := by
      cases op with
      | call l c => trivial
      | concat l1 l2 =>
        rintro model (here | here)
        · exact Nat.lt_trans (few l1 model here) (by decide)
        · exact Nat.lt_trans (few l2 model here) (by decide)
    obtain ⟨s', m', out, stepped, stepped', all'⟩ := all.step op proper joins
    exact ⟨m', s', out, stepped', stepped, all', few.step op counted stepped'⟩
  have none : AllCounted fun _ : ι => some (CursorList.off ([] : List α)) := by
    intro l model here
    cases here
    exact Nat.two_pow_pos 31
  obtain ⟨m, s, outs, ran, ran', all, few⟩ := run_simulates sim ⟨holdLists_new nodes, none⟩ along
  exact ⟨s, m, outs, ran', ran, fun l model here =>
    (all.holds l model here).isCursorList (few l model here)⟩

end

/-- Two lists are filled and joined. -/
theorem isCursorList_of_run_join :
    ∃ s m outs, Lib.run ListHeap.step ⟨fun _ : Nat => none, fun _ : Bool => asnListNew⟩
        [.call false (.append 5), .call true (.append 7), .concat false true] = some (s, outs) ∧
      Lib.run CursorLists.step (fun _ : Bool => some (.off []))
        [.call false (.append 5), .call true (.append 7), .concat false true] = some (m, outs) ∧
      ∀ l model, m l = some model → IsCursorList s.nodes (s.lists l) model := by
  refine isCursorList_of_run _ _ ⟨⟨⟨rfl, ?_⟩, ?_⟩, fun m out stepped => ?_⟩
  · rintro x - l model here
    cases here
    exact List.not_mem_nil
  · rintro model here
    cases here
    decide
  cases stepped
  refine ⟨⟨⟨rfl, ?_⟩, ?_⟩, fun m out stepped => ?_⟩
  · rintro x new l model here
    cases new
    cases l <;> cases here <;> decide
  · rintro model here
    cases here
    decide
  cases stepped
  refine ⟨⟨⟨by decide, rfl, rfl⟩, ?_⟩, fun m out stepped => trivial⟩
  rintro model1 model2 here1 here2
  cases here1
  cases here2
  decide

/-- Nodes that are not in a list are appended to it one after the other. -/
theorem run_appends (ks : List Nat) (m : CursorLists Unit Nat) (model : CursorList Nat)
    (here : m () = some model) (distinct : (model.toList ++ ks).Nodup) :
    Along CursorLists.step ProperOp m (ks.map fun k => .call () (.append k)) ∧
      ∃ m' model' outs, Lib.run CursorLists.step m (ks.map fun k => .call () (.append k)) =
        some (m', outs) ∧ m' () = some model' ∧ model'.toList = model.toList ++ ks := by
  induction ks generalizing m model with
  | nil => exact ⟨trivial, m, model, [], rfl, here, (List.append_nil _).symm⟩
  | cons k ks ih =>
    have stepped : CursorLists.step m (.call () (.append k)) =
        some (Function.update m () (some (model.append k)), some k) := by
      rw [CursorLists.step, here]
      rfl
    have longer : (model.append k).toList = model.toList ++ [k] := rfl
    have distinct' : ((model.append k).toList ++ ks).Nodup := by
      rw [longer, List.append_assoc]
      exact distinct
    obtain ⟨along, m', model', outs, ran, here', all⟩ :=
      ih _ (model.append k) (Function.update_self ..) distinct'
    refine ⟨⟨⟨by rw [here]; rfl, ?_⟩, ?_⟩, m', model', some k :: outs, ?_, here', ?_⟩
    · rintro x new l model'' there among
      cases new
      rw [here] at there
      cases there
      rw [List.nodup_append'] at distinct
      exact distinct.2.2 among List.mem_cons_self
    · intro m'' out stepped'
      rw [stepped] at stepped'
      cases stepped'
      exact along
    · exact run_cons_eq_some.mpr ⟨_, _, _, stepped, ran, rfl⟩
    · rw [all, longer, List.append_assoc]
      rfl

/-- A list of as many nodes as an `int` does not count. -/
theorem not_isCursorList_of_run :
    ¬ ∀ (nodes : AsnListNodes Nat) (ops : List (ListOp Unit Nat)),
      Along CursorLists.step ProperOp (fun _ => some (.off [])) ops →
      ∃ s m outs, Lib.run ListHeap.step ⟨nodes, fun _ => asnListNew⟩ ops = some (s, outs) ∧
        Lib.run CursorLists.step (fun _ => some (.off [])) ops = some (m, outs) ∧
        ∀ l model, m l = some model → IsCursorList s.nodes (s.lists l) model := by
  intro all
  obtain ⟨n, many⟩ : ∃ n : Nat, n = 2 ^ 31 := ⟨_, rfl⟩
  obtain ⟨along, m, model, outs, ran, here, nodes⟩ :=
    run_appends (List.range n) (fun _ => some (.off [])) (.off []) rfl List.nodup_range
  obtain ⟨s, m', outs', -, ran', holds⟩ := all (fun _ => none) _ along
  cases Option.some.inj (ran'.symm.trans ran)
  have count := (holds () model here).count
  have bound := Int32.toInt_lt (s.lists ()).count
  rw [nodes, CursorList.toList, List.nil_append, List.length_range] at count
  omega

end Esnacc
