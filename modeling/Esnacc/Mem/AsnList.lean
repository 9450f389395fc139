import Esnacc.Lib.LinkedLists
import Mathlib.Algebra.Group.Nat.Defs
import Mathlib.Data.List.Nodup

/-! Lists of nodes linked in both directions, with a current node. -/

namespace Esnacc

open Lib

variable {α : Type*}

/-- The links of a node, apart from the data behind them. -/
abbrev AsnListNode (α : Type*) := Links α

/-- The nodes that are allocated, by their addresses. -/
abbrev AsnListNodes (α : Type*) := Cells α

structure AsnList (α : Type*) where
  first : Option α
  last : Option α
  curr : Option α
  count : Int32
  deriving DecidableEq

/-- The nodes and the list after a call, and the address of the data that it returned. -/
abbrev ListResult (α : Type*) := AsnListNodes α × AsnList α × Option α

def asnListNew : AsnList α :=
  { first := none, last := none, curr := none, count := 0 }

section

variable (nodes : AsnListNodes α) (list : AsnList α)

def asnListPrev : Option (ListResult α) :=
  match list.curr with
  | none => some (nodes, { list with curr := list.last }, list.last)
  | some curr => do
    let node ← nodes curr
    some (nodes, { list with curr := node.prev }, node.prev)

def asnListNext : Option (ListResult α) :=
  match list.curr with
  | none => some (nodes, { list with curr := list.first }, list.first)
  | some curr => do
    let node ← nodes curr
    some (nodes, { list with curr := node.next }, node.next)

def asnListLast : Option (ListResult α) :=
  some (nodes, { list with curr := list.last }, list.last)

def asnListFirst : Option (ListResult α) :=
  some (nodes, { list with curr := list.first }, list.first)

end

section

variable [DecidableEq α]

/-- Write the link of a node to the one in front of it, which fails where there is no node. -/
def setPrev (nodes : AsnListNodes α) (node : α) (prev : Option α) : Option (AsnListNodes α) :=
  (nodes node).map fun links => Function.update nodes node (some { links with prev })

/-- Write the link of a node to the one behind it, which fails where there is no node. -/
def setNext (nodes : AsnListNodes α) (node : α) (next : Option α) : Option (AsnListNodes α) :=
  (nodes node).map fun links => Function.update nodes node (some { links with next })

variable (nodes : AsnListNodes α) (list : AsnList α)

/-- Link a node with the one in front of it; where there is no node, that one is the last. -/
def setPrevOf (node prev : Option α) : Option (AsnListNodes α × AsnList α) :=
  match node with
  | some node => (setPrev nodes node prev).map fun nodes => (nodes, list)
  | none => some (nodes, { list with last := prev })

/-- Link a node with the one behind it; where there is no node, that one is the first. -/
def setNextOf (node next : Option α) : Option (AsnListNodes α × AsnList α) :=
  match node with
  | some node => (setNext nodes node next).map fun nodes => (nodes, list)
  | none => some (nodes, { list with first := next })

/-- Remove the current node; the next one becomes the current one. -/
def asnListRemove : Option (ListResult α) :=
  match list.curr with
  | none => some (nodes, list, none)
  | some curr => do
    let node ← nodes curr
    let (nodes, list) ← setPrevOf nodes list node.next node.prev
    let node ← nodes curr
    let (nodes, list) ← setNextOf nodes list node.prev node.next
    let node ← nodes curr
    some (Function.update nodes curr none,
      { list with curr := node.next, count := list.count - 1 }, none)

/-- Add a node, given where it is allocated, behind the current one. -/
def asnListAdd (newNode : α) : Option (ListResult α) :=
  match list.curr with
  | none => some (nodes, list, none)
  | some curr => do
    let node ← nodes curr
    let nodes := Function.update nodes newNode (some { prev := some curr, next := node.next })
    let (nodes, list) ← setPrevOf nodes list node.next (some newNode)
    let nodes ← setNext nodes curr (some newNode)
    some (nodes, { list with curr := some newNode, count := list.count + 1 }, some newNode)

/-- Add a node, given where it is allocated, in front of the current one. -/
def asnListInsert (newNode : α) : Option (ListResult α) :=
  match list.curr with
  | none => some (nodes, list, none)
  | some curr => do
    let node ← nodes curr
    let nodes := Function.update nodes newNode (some { prev := node.prev, next := some curr })
    let (nodes, list) ← setNextOf nodes list node.prev (some newNode)
    let nodes ← setPrev nodes curr (some newNode)
    some (nodes, { list with curr := some newNode, count := list.count + 1 }, some newNode)

/-- Add a node, given where it is allocated, at the beginning. -/
def asnListPrepend (newNode : α) : Option (ListResult α) := do
  let (nodes, list) ← match list.first with
    | none => some (Function.update nodes newNode (some { prev := none, next := none }),
        { list with first := some newNode, last := some newNode })
    | some first =>
      let nodes := Function.update nodes newNode (some { prev := none, next := some first })
      (setPrev nodes first (some newNode)).map fun nodes =>
        (nodes, { list with first := some newNode })
  some (nodes, { list with curr := some newNode, count := list.count + 1 }, some newNode)

/-- Add a node, given where it is allocated, at the end. -/
def asnListAppend (newNode : α) : Option (ListResult α) := do
  let (nodes, list) ← match list.last with
    | none => some (Function.update nodes newNode (some { prev := none, next := none }),
        { list with first := some newNode, last := some newNode })
    | some last =>
      let nodes := Function.update nodes newNode (some { prev := some last, next := none })
      (setNext nodes last (some newNode)).map fun nodes =>
        (nodes, { list with last := some newNode })
  some (nodes, { list with curr := some newNode, count := list.count + 1 }, some newNode)

/-- Join the nodes of a list behind those of another one. -/
def asnListConcat (l1 l2 : AsnList α) : Option (AsnListNodes α × AsnList α) :=
  if l2.count = 0 then some (nodes, l1)
  else if l1.count = 0 then
    some (nodes, { first := l2.first, last := l2.last, curr := l2.first, count := l2.count })
  else do
    let nodes ← setNext nodes (← l1.last) l2.first
    let nodes ← setPrev nodes (← l2.first) l1.last
    some (nodes, { l1 with last := l2.last, count := l1.count + l2.count })

end

/-! ## Which list the nodes are -/

/-- A list with its nodes is a sequence of addresses and a cursor on one of them. -/
structure HoldsList (nodes : AsnListNodes α) (list : AsnList α) (model : CursorList α) : Prop where
  nodup : model.toList.Nodup
  linked : Linked nodes none model.toList none
  first : list.first = model.toList.head?
  last : list.last = model.toList.getLast?
  curr : list.curr = model.curr?
  count : list.count = Int32.ofNat model.toList.length

theorem HoldsList.frame {nodes nodes' : AsnListNodes α} {list : AsnList α} {model : CursorList α}
    (holds : HoldsList nodes list model) (same : ∀ x ∈ model.toList, nodes' x = nodes x) :
    HoldsList nodes' list model :=
  { holds with linked := holds.linked.congr same }

/-- A call leaves a list that is a sequence, returns some data and touches some nodes only. -/
def LeavesList (nodes : AsnListNodes α) (own : List α) (model : CursorList α) (data : Option α)
    (call : Option (ListResult α)) : Prop :=
  ∃ nodes' list', call = some (nodes', list', data) ∧ HoldsList nodes' list' model ∧
    ∀ x ∉ own, nodes' x = nodes x

theorem holds_new (nodes : AsnListNodes α) : HoldsList nodes asnListNew (.off []) :=
  ⟨.nil, trivial, rfl, rfl, rfl, rfl⟩

section

variable {nodes : AsnListNodes α} {list : AsnList α} {model : CursorList α} {x : α}

theorem HoldsList.move (holds : HoldsList nodes list model) {model' : CursorList α}
    (same : model'.toList = model.toList) {curr : Option α} (moved : curr = model'.curr?) :
    LeavesList nodes [] model' curr (some (nodes, { list with curr }, curr)) := by
  refine ⟨nodes, _, rfl, ⟨?_, ?_, ?_, ?_, moved, ?_⟩, fun _ _ => rfl⟩ <;> rw [same]
  · exact holds.nodup
  · exact holds.linked
  · exact holds.first
  · exact holds.last
  · exact holds.count

theorem HoldsList.asnListFirst (holds : HoldsList nodes list model) :
    LeavesList nodes [] model.first model.first.curr? (asnListFirst nodes list) := by
  have moved : list.first = model.first.curr? := by
    rw [holds.first, CursorList.first, CursorList.curr?_atFirst]
  rw [← moved]
  exact holds.move (CursorList.toList_first model) moved

theorem HoldsList.asnListLast (holds : HoldsList nodes list model) :
    LeavesList nodes [] model.last model.last.curr? (asnListLast nodes list) := by
  have moved : list.last = model.last.curr? := by
    rw [holds.last, CursorList.last, CursorList.curr?_atLast, List.head?_reverse]
  rw [← moved]
  exact holds.move (CursorList.toList_last model) moved

theorem HoldsList.asnListNext (holds : HoldsList nodes list model) :
    LeavesList nodes [] model.next model.next.curr? (asnListNext nodes list) := by
  have same := CursorList.toList_next model
  rcases model with xs | ⟨left, curr, right⟩
  · have off : list.curr = none := holds.curr
    have first : list.first = (CursorList.next (.off xs)).curr? := by
      rw [holds.first, CursorList.next, CursorList.curr?_atFirst]
      rfl
    rw [Esnacc.asnListNext, off, ← first]
    exact holds.move same first
  · have on : list.curr = some curr := holds.curr
    have here := (linked_cons_mid.mp holds.linked).2.1
    have next : right.head?.or none = (CursorList.next (.on left curr right)).curr? := by
      cases right <;> rfl
    rw [Esnacc.asnListNext, on, ← next]
    dsimp only
    rw [here]
    exact holds.move same next

theorem HoldsList.asnListPrev (holds : HoldsList nodes list model) :
    LeavesList nodes [] model.prev model.prev.curr? (asnListPrev nodes list) := by
  have same := CursorList.toList_prev model
  rcases model with xs | ⟨left, curr, right⟩
  · have off : list.curr = none := holds.curr
    have last : list.last = (CursorList.prev (.off xs)).curr? := by
      rw [holds.last, CursorList.prev, CursorList.curr?_atLast, List.head?_reverse]
      rfl
    rw [Esnacc.asnListPrev, off, ← last]
    exact holds.move same last
  · have on : list.curr = some curr := holds.curr
    have here := (linked_cons_mid.mp holds.linked).2.1
    have prev : left.getLast?.or none = (CursorList.prev (.on left curr right)).curr? := by
      cases left using List.reverseRecOn with
      | nil => rfl
      | append_singleton before y => simp [CursorList.prev, CursorList.curr?]
    rw [Esnacc.asnListPrev, on, ← prev]
    dsimp only
    rw [here]
    exact holds.move same prev

/-- A node is put in between, once its links and those to it are written. -/
theorem HoldsList.inserted (holds : HoldsList nodes list model) (fresh : x ∉ model.toList)
    {nodes' : AsnListNodes α} (left right : List α) (split : model.toList = left ++ right)
    (before : Linked nodes' none left (some x))
    (here : nodes' x = some ⟨left.getLast?, right.head?⟩)
    (behind : Linked nodes' (some x) right none) (model' : CursorList α)
    (inserted : model'.toList = left ++ x :: right) (on : model'.curr? = some x) :
    HoldsList nodes'
      { first := if left = [] then some x else list.first
        last := if right = [] then some x else list.last
        curr := some x
        count := list.count + 1 } model' where
  nodup := by
    rw [inserted, List.nodup_middle, ← split]
    exact List.nodup_cons.mpr ⟨fresh, holds.nodup⟩
  linked := by
    rw [inserted]
    refine linked_cons_mid.mpr ⟨before, ?_, behind⟩
    rw [Option.or_none, Option.or_none]
    exact here
  first := by
    rw [inserted, holds.first, split]
    cases left <;> simp
  last := by
    rw [inserted, holds.last, split]
    cases right <;> simp [List.getLast?_append]
  curr := on.symm
  count := by
    rw [inserted, holds.count, split, List.length_append, List.length_append, List.length_cons,
      ← Nat.add_assoc, Int32.ofNat_add _ 1]
    rfl

/-- A node is taken out, once those on its sides are linked. -/
theorem HoldsList.removed {left right : List α} {curr : α}
    (holds : HoldsList nodes list (.on left curr right)) {nodes' : AsnListNodes α}
    (linked : Linked nodes' none (left ++ right) none) :
    HoldsList nodes'
      { first := if left = [] then right.head? else list.first
        last := if right = [] then left.getLast? else list.last
        curr := right.head?
        count := list.count - 1 } (CursorList.remove (.on left curr right)) := by
  have nodup : (left ++ curr :: right).Nodup := holds.nodup
  have same : (CursorList.remove (.on left curr right)).toList = left ++ right := by
    cases right <;> simp [CursorList.remove, CursorList.toList]
  constructor <;> try rw [same]
  case nodup => exact (List.nodup_cons.mp (List.nodup_middle.mp nodup)).2
  case linked => exact linked
  case first =>
    rw [holds.first]
    cases left <;> simp [CursorList.toList]
  case last =>
    rw [holds.last]
    cases right <;> simp [CursorList.toList, List.getLast?_append]
  case curr => cases right <;> rfl
  case count =>
    have more : (left ++ curr :: right).length = (left ++ right).length + 1 := by
      rw [List.length_append, List.length_append, List.length_cons, Nat.add_assoc]
    rw [holds.count, CursorList.toList, more, Int32.ofNat_add]
    exact Int32.add_sub_cancel ..

/-- Where the current node is, and what a new node is not. -/
structure OnNode (nodes : AsnListNodes α) (x : α) (left : List α) (curr : α) (right : List α) :
    Prop where
  before : Linked nodes none left (some curr)
  here : nodes curr = some ⟨left.getLast?, right.head?⟩
  behind : Linked nodes (some curr) right none
  distinct : left.Nodup ∧ right.Nodup ∧ List.Disjoint left right
  apart : curr ∉ left ∧ curr ∉ right
  fresh : x ∉ left ∧ x ≠ curr ∧ x ∉ right

theorem HoldsList.onNode {left right : List α} {curr : α}
    (holds : HoldsList nodes list (.on left curr right)) (fresh : x ∉ left ++ curr :: right) :
    OnNode nodes x left curr right := by
  have nodup : (left ++ curr :: right).Nodup := holds.nodup
  obtain ⟨before, here, behind⟩ := linked_cons_mid.mp holds.linked
  obtain ⟨apart, nodup⟩ := List.nodup_cons.mp (List.nodup_middle.mp nodup)
  rw [List.mem_append, not_or] at apart
  rw [Option.or_none, Option.or_none] at here
  exact ⟨before, here, behind, List.nodup_append'.mp nodup, apart, by simpa using fresh⟩

/-- What counts no nodes has none, as far as a counter tells the numbers apart. -/
theorem count_eq_zero_iff {xs : List α} (count : list.count = Int32.ofNat xs.length)
    (few : xs.length < 2 ^ 32) : list.count = 0 ↔ xs = [] := by
  have words : Int32.size = 4294967296 := rfl
  constructor
  · intro zero
    have value := congrArg Int32.toInt (count.symm.trans zero)
    rw [Int32.toInt_ofNat', Int.bmod_def, words] at value
    change _ = (0 : Int) at value
    apply List.length_eq_zero_iff.mp
    split at value <;> omega
  · rintro rfl
    exact count

variable [DecidableEq α]

theorem setPrev_of_eq {links : AsnListNode α} (there : nodes x = some links) (prev : Option α) :
    setPrev nodes x prev = some (Function.update nodes x (some { links with prev })) := by
  rw [setPrev, there]
  rfl

theorem setNext_of_eq {links : AsnListNode α} (there : nodes x = some links) (next : Option α) :
    setNext nodes x next = some (Function.update nodes x (some { links with next })) := by
  rw [setNext, there]
  rfl

variable (list) in
/-- Linking what comes behind with the node in front of it. -/
theorem setPrevOf_spec {front : Option α} {right : List α} (linked : Linked nodes front right none)
    (nodup : right.Nodup) (prev : Option α) :
    ∃ nodes', setPrevOf nodes list right.head? prev =
        some (nodes', { list with last := if right = [] then prev else list.last }) ∧
      Linked nodes' prev right none ∧ ∀ x ∉ right, nodes' x = nodes x := by
  cases right with
  | nil => exact ⟨nodes, rfl, trivial, fun _ _ => rfl⟩
  | cons y right =>
    have apart := (List.nodup_cons.mp nodup).1
    refine ⟨Function.update nodes y (some ⟨prev, right.head?.or none⟩), ?_,
      linked.setPrev apart prev, fun x outside => ?_⟩
    · change (setPrev nodes y prev).map _ = _
      rw [setPrev_of_eq linked.1, if_neg (List.cons_ne_nil _ _)]
      rfl
    · exact Function.update_of_ne (ne_of_mem_of_not_mem List.mem_cons_self outside).symm ..

variable (list) in
/-- Linking what comes in front with the node behind it. -/
theorem setNextOf_spec {back : Option α} {left : List α} (linked : Linked nodes none left back)
    (nodup : left.Nodup) (next : Option α) :
    ∃ nodes', setNextOf nodes list left.getLast? next =
        some (nodes', { list with first := if left = [] then next else list.first }) ∧
      Linked nodes' none left next ∧ ∀ x ∉ left, nodes' x = nodes x := by
  cases left using List.reverseRecOn with
  | nil => exact ⟨nodes, rfl, trivial, fun _ _ => rfl⟩
  | append_singleton left y =>
    have apart : y ∉ left := by
      intro among
      rw [List.nodup_append] at nodup
      exact nodup.2.2 y among y List.mem_cons_self rfl
    obtain ⟨-, here, -⟩ := linked_cons_mid.mp linked
    refine ⟨Function.update nodes y (some ⟨left.getLast?.or none, next⟩), ?_,
      linked.setNext apart next, fun x outside => ?_⟩
    · rw [List.getLast?_append]
      change (setNext nodes y next).map _ = _
      rw [setNext_of_eq here, if_neg (by simp)]
      rfl
    · exact Function.update_of_ne (ne_of_mem_of_not_mem List.mem_concat_self outside).symm ..

theorem HoldsList.asnListAdd (holds : HoldsList nodes list model) (fresh : x ∉ model.toList) :
    LeavesList nodes (x :: model.toList) (model.add x) (model.curr?.map fun _ => x)
      (asnListAdd nodes list x) := by
  rcases model with xs | ⟨left, curr, right⟩
  · have off : list.curr = none := holds.curr
    rw [Esnacc.asnListAdd, off]
    exact ⟨nodes, list, rfl, holds, fun _ _ => rfl⟩
  · have on : list.curr = some curr := holds.curr
    obtain ⟨before, here, behind, distinct, apart, new⟩ := holds.onNode fresh
    -- The node behind is linked with the new one, then the current node is.
    have row := behind.update new.2.2 (some ⟨some curr, right.head?⟩)
    obtain ⟨nodes', linked, row, frame⟩ := setPrevOf_spec list row distinct.2.1 (some x)
    have there : nodes' curr = some ⟨left.getLast?, right.head?⟩ := by
      rw [frame curr apart.2, Function.update_of_ne new.2.1.symm, here]
    have newNode : nodes' x = some ⟨some curr, right.head?⟩ := by
      rw [frame x new.2.2, Function.update_self]
    have kept : ∀ z, z ≠ x → z ≠ curr → z ∉ right →
        Function.update nodes' curr (some ⟨left.getLast?, some x⟩) z = nodes z := by
      intro z notNew notCurr notRight
      rw [Function.update_of_ne notCurr, frame z notRight, Function.update_of_ne notNew]
    have holds' := holds.inserted fresh (left ++ [curr]) right (by simp [CursorList.toList])
      (linked_cons_mid.mpr ⟨before.congr fun z among => kept z (ne_of_mem_of_not_mem among new.1)
          (ne_of_mem_of_not_mem among apart.1) (distinct.2.2 among),
        by rw [Function.update_self, Option.or_none]; rfl, trivial⟩)
      (by rw [Function.update_of_ne new.2.1, newNode, List.getLast?_append]; rfl)
      (row.update apart.2 _) (.on (left ++ [curr]) x right) rfl rfl
    refine ⟨_, _, ?_, holds', fun z outside => ?_⟩
    · rw [Esnacc.asnListAdd, on]
      dsimp only
      rw [here]
      change (setPrevOf _ list right.head? (some x)).bind _ = _
      rw [linked]
      change (setNext nodes' curr (some x)).bind _ = _
      rw [setNext_of_eq there, if_neg (show ¬ left ++ [curr] = [] by simp)]
      rfl
    · simp only [CursorList.toList, List.mem_cons, List.mem_append, not_or] at outside
      exact kept z outside.1 outside.2.2.1 outside.2.2.2

theorem HoldsList.asnListInsert (holds : HoldsList nodes list model) (fresh : x ∉ model.toList) :
    LeavesList nodes (x :: model.toList) (model.insert x) (model.curr?.map fun _ => x)
      (asnListInsert nodes list x) := by
  rcases model with xs | ⟨left, curr, right⟩
  · have off : list.curr = none := holds.curr
    rw [Esnacc.asnListInsert, off]
    exact ⟨nodes, list, rfl, holds, fun _ _ => rfl⟩
  · have on : list.curr = some curr := holds.curr
    obtain ⟨before, here, behind, distinct, apart, new⟩ := holds.onNode fresh
    -- The node in front is linked with the new one, then the current node is.
    have row := before.update new.1 (some ⟨left.getLast?, some curr⟩)
    obtain ⟨nodes', linked, row, frame⟩ := setNextOf_spec list row distinct.1 (some x)
    have there : nodes' curr = some ⟨left.getLast?, right.head?⟩ := by
      rw [frame curr apart.1, Function.update_of_ne new.2.1.symm, here]
    have newNode : nodes' x = some ⟨left.getLast?, some curr⟩ := by
      rw [frame x new.1, Function.update_self]
    have kept : ∀ z, z ≠ x → z ≠ curr → z ∉ left →
        Function.update nodes' curr (some ⟨some x, right.head?⟩) z = nodes z := by
      intro z notNew notCurr notLeft
      rw [Function.update_of_ne notCurr, frame z notLeft, Function.update_of_ne notNew]
    have holds' := holds.inserted fresh left (curr :: right) rfl (row.update apart.1 _)
      (by rw [Function.update_of_ne new.2.1, newNode]; rfl)
      ⟨by rw [Function.update_self, Option.or_none], behind.congr fun z among =>
        kept z (ne_of_mem_of_not_mem among new.2.2) (ne_of_mem_of_not_mem among apart.2)
          fun both => distinct.2.2 both among⟩
      (.on left x (curr :: right)) rfl rfl
    refine ⟨_, _, ?_, holds', fun z outside => ?_⟩
    · rw [Esnacc.asnListInsert, on]
      dsimp only
      rw [here]
      change (setNextOf _ list left.getLast? (some x)).bind _ = _
      rw [linked]
      change (setPrev nodes' curr (some x)).bind _ = _
      rw [setPrev_of_eq there, if_neg (show ¬ curr :: right = [] by simp)]
      rfl
    · simp only [CursorList.toList, List.mem_cons, List.mem_append, not_or] at outside
      exact kept z outside.1 outside.2.2.1 outside.2.1

theorem asnListAppend_eq (nodes : AsnListNodes α) (list : AsnList α) (x : α) :
    asnListAppend nodes list x =
      (setNextOf (Function.update nodes x (some ⟨list.last, none⟩)) list list.last (some x)).map
        fun r => (r.1, { r.2 with last := some x, curr := some x, count := r.2.count + 1 },
          some x) := by
  rw [asnListAppend]
  cases list.last with
  | none => rfl
  | some last =>
    rw [setNextOf]
    dsimp only
    cases setNext (Function.update nodes x (some ⟨some last, none⟩)) last (some x) <;> rfl

theorem HoldsList.asnListAppend (holds : HoldsList nodes list model) (fresh : x ∉ model.toList) :
    LeavesList nodes (x :: model.toList) (model.append x) (some x)
      (asnListAppend nodes list x) := by
  -- The last node, if there is one, is linked with the new one.
  have row := holds.linked.update fresh (some ⟨list.last, none⟩)
  obtain ⟨nodes', linked, row, frame⟩ := setNextOf_spec list row holds.nodup (some x)
  have newNode : nodes' x = some ⟨model.toList.getLast?, none⟩ := by
    rw [frame x fresh, Function.update_self, holds.last]
  have holds' := holds.inserted fresh model.toList [] (List.append_nil _).symm row newNode trivial
    (model.append x) rfl rfl
  refine ⟨_, _, ?_, holds', fun z outside => ?_⟩
  · rw [← holds.last] at linked
    rw [asnListAppend_eq, linked]
    rfl
  · rw [List.mem_cons, not_or] at outside
    rw [frame z outside.2, Function.update_of_ne outside.1]

theorem asnListPrepend_eq (nodes : AsnListNodes α) (list : AsnList α) (x : α) :
    asnListPrepend nodes list x =
      (setPrevOf (Function.update nodes x (some ⟨none, list.first⟩)) list list.first (some x)).map
        fun r => (r.1, { r.2 with first := some x, curr := some x, count := r.2.count + 1 },
          some x) := by
  rw [asnListPrepend]
  cases list.first with
  | none => rfl
  | some first =>
    rw [setPrevOf]
    dsimp only
    cases setPrev (Function.update nodes x (some ⟨none, some first⟩)) first (some x) <;> rfl

theorem HoldsList.asnListPrepend (holds : HoldsList nodes list model) (fresh : x ∉ model.toList) :
    LeavesList nodes (x :: model.toList) (model.prepend x) (some x)
      (asnListPrepend nodes list x) := by
  -- The first node, if there is one, is linked with the new one.
  have row := holds.linked.update fresh (some ⟨none, list.first⟩)
  obtain ⟨nodes', linked, row, frame⟩ := setPrevOf_spec list row holds.nodup (some x)
  have newNode : nodes' x = some ⟨none, model.toList.head?⟩ := by
    rw [frame x fresh, Function.update_self, holds.first]
  have holds' := holds.inserted fresh [] model.toList rfl trivial newNode row (model.prepend x)
    rfl rfl
  refine ⟨_, _, ?_, holds', fun z outside => ?_⟩
  · rw [← holds.first] at linked
    rw [asnListPrepend_eq, linked]
    rfl
  · rw [List.mem_cons, not_or] at outside
    rw [frame z outside.2, Function.update_of_ne outside.1]

theorem HoldsList.asnListRemove (holds : HoldsList nodes list model) :
    LeavesList nodes model.toList model.remove none (asnListRemove nodes list) := by
  rcases model with xs | ⟨left, curr, right⟩
  · have off : list.curr = none := holds.curr
    rw [Esnacc.asnListRemove, off]
    exact ⟨nodes, list, rfl, holds, fun _ _ => rfl⟩
  · have on : list.curr = some curr := holds.curr
    have nodup : (left ++ curr :: right).Nodup := holds.nodup
    obtain ⟨before, here, behind⟩ := linked_cons_mid.mp holds.linked
    rw [Option.or_none, Option.or_none] at here
    obtain ⟨apart, nodup⟩ := List.nodup_cons.mp (List.nodup_middle.mp nodup)
    rw [List.mem_append, not_or] at apart
    obtain ⟨nodupLeft, nodupRight, disjoint⟩ := List.nodup_append'.mp nodup
    -- The nodes on both sides are linked with each other.
    obtain ⟨nodes1, linked1, row1, frame1⟩ :=
      setPrevOf_spec list behind nodupRight left.getLast?
    have before1 : Linked nodes1 none left (some curr) :=
      before.congr fun z among => frame1 z (disjoint among)
    obtain ⟨nodes2, linked2, row2, frame2⟩ := setNextOf_spec
      { list with last := if right = [] then left.getLast? else list.last } before1 nodupLeft
      right.head?
    have row1' : Linked nodes2 left.getLast? right none :=
      row1.congr fun z among => frame2 z fun both => disjoint both among
    have there1 : nodes1 curr = some ⟨left.getLast?, right.head?⟩ := by
      rw [frame1 curr apart.2, here]
    have there2 : nodes2 curr = some ⟨left.getLast?, right.head?⟩ := by
      rw [frame2 curr apart.1, there1]
    have joined : Linked nodes2 none (left ++ right) none := by
      rw [linked_append, Option.or_none, Option.or_none]
      exact ⟨row2, row1'⟩
    have outside : curr ∉ left ++ right := by
      rw [List.mem_append, not_or]
      exact apart
    refine ⟨_, _, ?_, holds.removed (joined.update outside none), fun z others => ?_⟩
    · rw [Esnacc.asnListRemove, on]
      dsimp only
      rw [here]
      change (setPrevOf nodes list right.head? left.getLast?).bind _ = _
      rw [linked1]
      dsimp only [Option.bind_some]
      rw [there1]
      change (setNextOf nodes1 _ left.getLast? right.head?).bind _ = _
      rw [linked2]
      dsimp only [Option.bind_some]
      rw [there2]
      rfl
    · simp only [CursorList.toList, List.mem_cons, List.mem_append, not_or] at others
      rw [Function.update_of_ne others.2.1, frame2 z others.1, frame1 z others.2.2]

theorem HoldsList.asnListConcat {list' : AsnList α} {model' : CursorList α}
    (holds : HoldsList nodes list model) (holds' : HoldsList nodes list' model')
    (disjoint : List.Disjoint model.toList model'.toList) (few : model.toList.length < 2 ^ 32)
    (few' : model'.toList.length < 2 ^ 32) :
    ∃ nodes' joined, asnListConcat nodes list list' = some (nodes', joined) ∧
      HoldsList nodes' joined (model.concat model'.toList) ∧
      ∀ x ∉ model.toList ++ model'.toList, nodes' x = nodes x := by
  have zero := count_eq_zero_iff holds.count few
  have zero' := count_eq_zero_iff holds'.count few'
  have nodup' := holds'.nodup
  have linked' := holds'.linked
  rw [Esnacc.asnListConcat, holds'.first]
  cases second : model'.toList with
  | nil =>
    rw [if_pos (zero'.mpr second)]
    exact ⟨nodes, list, rfl, holds, fun _ _ => rfl⟩
  | cons y ys =>
    rw [second] at nodup' linked' disjoint
    have some' : ¬ list'.count = 0 := fun none => by simp [second] at zero'; exact zero' none
    rw [if_neg some']
    by_cases empty : model.toList = []
    · -- The nodes of the second list become those of the first one.
      rw [if_pos (zero.mpr empty)]
      have off : model = .off [] := by
        rcases model with xs | ⟨left, curr, right⟩
        · exact congrArg _ empty
        · exact absurd empty (by simp [CursorList.toList])
      rw [off]
      refine ⟨nodes, _, rfl, ⟨nodup', linked', rfl, ?_, rfl, ?_⟩, fun _ _ => rfl⟩
      · exact holds'.last.trans (congrArg _ second)
      · exact holds'.count.trans (congrArg (fun xs => Int32.ofNat xs.length) second)
    · rw [if_neg (fun none => empty (zero.mp none))]
      obtain ⟨z, final⟩ : ∃ z, model.toList.getLast? = some z :=
        Option.isSome_iff_exists.mp (List.getLast?_isSome.mpr empty)
      -- The last node of the one list and the first node of the other are linked.
      obtain ⟨nodes1, linked1, row1, frame1⟩ :=
        setNextOf_spec list holds.linked holds.nodup (some y)
      have row1' := linked'.congr fun x among => frame1 x fun both => disjoint both among
      obtain ⟨nodes2, linked2, row2, frame2⟩ := setPrevOf_spec list row1' nodup' (some z)
      have step1 : setNext nodes z (some y) = some nodes1 := by
        rw [final, setNextOf] at linked1
        obtain ⟨r, stepped, same⟩ := Option.map_eq_some_iff.mp linked1
        rw [stepped, (Prod.mk.inj same).1]
      have step2 : setPrev nodes1 y (some z) = some nodes2 := by
        obtain ⟨r, stepped, same⟩ := Option.map_eq_some_iff.mp linked2
        rw [stepped, (Prod.mk.inj same).1]
      have joined := CursorList.toList_concat model (y :: ys)
      refine ⟨nodes2, { list with last := list'.last, count := list.count + list'.count }, ?_,
        ⟨?_, ?_, ?_, ?_, ?_, ?_⟩, fun x outside => ?_⟩
      · rw [holds.last, final]
        change (setNext nodes z (some y)).bind _ = _
        rw [step1]
        change (setPrev nodes1 y (some z)).bind _ = _
        rw [step2]
        rfl
      · rw [joined, List.nodup_append']
        exact ⟨holds.nodup, nodup', disjoint⟩
      · rw [joined, linked_append, final]
        refine ⟨row1.congr fun x among => frame2 x (disjoint among), ?_⟩
        exact row2
      · rw [joined, List.head?_append, ← holds.first]
        cases first : list.first with
        | none => exact absurd (List.head?_eq_none_iff.mp (holds.first.symm.trans first)) empty
        | some x => rfl
      · rw [joined, List.getLast?_append, holds'.last, second]
        rfl
      · rw [holds.curr]
        rcases model with (_ | ⟨x, xs⟩) | ⟨left, curr, right⟩
        · exact absurd rfl empty
        · rfl
        · rfl
      · rw [joined, List.length_append, Int32.ofNat_add, holds.count, holds'.count, second]
      · rw [List.mem_append, not_or] at outside
        rw [frame2 x outside.2, frame1 x outside.1]

end

end Esnacc
