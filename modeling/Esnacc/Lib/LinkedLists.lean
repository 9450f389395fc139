import Mathlib.Data.List.Induction
import Mathlib.Logic.Function.Basic
import Mathlib.Tactic.Common

/-! Lists with a cursor, and the cells that are linked with the ones in front of and behind them. -/

namespace Lib

/-! ## Cursors -/

/-- A list, split at the cursor where it is on an element. -/
inductive CursorList (α : Type*)
  | off (xs : List α)
  | on (left : List α) (curr : α) (right : List α)

namespace CursorList

variable {α : Type*}

def toList : CursorList α → List α
  | off xs => xs
  | on left curr right => left ++ curr :: right

/-- The element the cursor is on. -/
def curr? : CursorList α → Option α
  | off _ => none
  | on _ curr _ => some curr

/-- Put the cursor on the first element of a list. -/
def atFirst : List α → CursorList α
  | [] => off []
  | x :: xs => on [] x xs

/-- Put the cursor on the last element of a list, which is given in reverse. -/
def atLast : List α → CursorList α
  | [] => off []
  | x :: xs => on xs.reverse x []

def append (l : CursorList α) (x : α) : CursorList α :=
  on l.toList x []

def prepend (l : CursorList α) (x : α) : CursorList α :=
  on [] x l.toList

/-- Add an element behind the cursor, which moves there. -/
def add (l : CursorList α) (x : α) : CursorList α :=
  match l with
  | off xs => off xs
  | on left curr right => on (left ++ [curr]) x right

/-- Add an element in front of the cursor, which moves there. -/
def insert (l : CursorList α) (x : α) : CursorList α :=
  match l with
  | off xs => off xs
  | on left curr right => on left x (curr :: right)

/-- Take out the element at the cursor, which moves to the one behind it. -/
def remove : CursorList α → CursorList α
  | off xs => off xs
  | on left _ [] => off left
  | on left _ (x :: right) => on left x right

def first (l : CursorList α) : CursorList α :=
  atFirst l.toList

def last (l : CursorList α) : CursorList α :=
  atLast l.toList.reverse

/-- Move the cursor on, from off the list to the first element. -/
def next : CursorList α → CursorList α
  | off xs => atFirst xs
  | on left curr [] => off (left ++ [curr])
  | on left curr (x :: right) => on (left ++ [curr]) x right

/-- Move the cursor back, from off the list to the last element. -/
def prev (l : CursorList α) : CursorList α :=
  match l with
  | off xs => atLast xs.reverse
  | on left curr right =>
    match left.reverse with
    | [] => off (curr :: right)
    | x :: before => on before.reverse x (curr :: right)

/-- Join a list behind another one, the cursor of which stays unless that one is empty. -/
def concat (l : CursorList α) (ys : List α) : CursorList α :=
  match ys with
  | [] => l
  | y :: ys =>
    match l with
    | off [] => on [] y ys
    | off xs => off (xs ++ y :: ys)
    | on left curr right => on left curr (right ++ y :: ys)

@[simp] theorem toList_atFirst (xs : List α) : (atFirst xs).toList = xs := by
  cases xs <;> rfl

@[simp] theorem toList_atLast (xs : List α) : (atLast xs).toList = xs.reverse := by
  cases xs <;> simp [atLast, toList]

@[simp] theorem curr?_atFirst (xs : List α) : (atFirst xs).curr? = xs.head? := by
  cases xs <;> rfl

@[simp] theorem curr?_atLast (xs : List α) : (atLast xs).curr? = xs.head? := by
  cases xs <;> rfl

theorem toList_first (l : CursorList α) : l.first.toList = l.toList :=
  toList_atFirst _

theorem toList_last (l : CursorList α) : l.last.toList = l.toList := by
  rw [last, toList_atLast, List.reverse_reverse]

theorem toList_next (l : CursorList α) : l.next.toList = l.toList := by
  rcases l with xs | ⟨left, curr, _ | ⟨x, right⟩⟩
  · exact toList_atFirst xs
  · rfl
  · simp [next, toList]

theorem toList_prev (l : CursorList α) : l.prev.toList = l.toList := by
  rcases l with xs | ⟨left, curr, right⟩
  · change (atLast xs.reverse).toList = xs
    rw [toList_atLast, List.reverse_reverse]
  · cases left using List.reverseRecOn with
    | nil => rfl
    | append_singleton before x => simp [prev, toList]

theorem toList_concat (l : CursorList α) (ys : List α) :
    (l.concat ys).toList = l.toList ++ ys := by
  cases ys with
  | nil => simp [concat]
  | cons y ys => rcases l with (_ | ⟨x, xs⟩) | ⟨left, curr, right⟩ <;> simp [concat, toList]

end CursorList

/-! ## Cells -/

section

variable {α : Type*}

/-- The cells in front of and behind a cell. -/
structure Links (α : Type*) where
  prev : Option α
  next : Option α
  deriving DecidableEq

/-- What each cell that there is holds. -/
abbrev Cells (α : Type*) := α → Option (Links α)

/-- A row of cells linked in both directions, between what is in front of it and behind it. -/
def Linked (cells : Cells α) : Option α → List α → Option α → Prop
  | _, [], _ => True
  | front, x :: xs, back =>
    cells x = some ⟨front, xs.head?.or back⟩ ∧ Linked cells (some x) xs back

section

variable {cells cells' : Cells α} {front back : Option α} {xs ys : List α} {x : α}

theorem linked_append : Linked cells front (xs ++ ys) back ↔
    Linked cells front xs (ys.head?.or back) ∧ Linked cells (xs.getLast?.or front) ys back := by
  induction xs generalizing front with
  | nil => simp [Linked]
  | cons x xs ih =>
    have last : (x :: xs).getLast?.or front = xs.getLast?.or (some x) := by
      rw [List.getLast?_cons]
      cases xs.getLast? <;> rfl
    rw [List.cons_append, Linked, Linked, ih, last, List.head?_append, Option.or_assoc, and_assoc]

theorem linked_cons_mid : Linked cells front (xs ++ x :: ys) back ↔
    Linked cells front xs (some x) ∧
      cells x = some ⟨xs.getLast?.or front, ys.head?.or back⟩ ∧ Linked cells (some x) ys back := by
  rw [linked_append]
  rfl

theorem Linked.congr (linked : Linked cells front xs back) (same : ∀ x ∈ xs, cells' x = cells x) :
    Linked cells' front xs back := by
  induction xs generalizing front with
  | nil => trivial
  | cons x xs ih =>
    obtain ⟨here, rest⟩ := linked
    obtain ⟨first, others⟩ := List.forall_mem_cons.mp same
    exact ⟨first.trans here, ih rest others⟩

variable [DecidableEq α]

theorem Linked.update (linked : Linked cells front xs back) {other : α} (outside : other ∉ xs)
    (links : Option (Links α)) : Linked (Function.update cells other links) front xs back :=
  linked.congr fun _ among => Function.update_of_ne (ne_of_mem_of_not_mem among outside) ..

theorem Linked.setPrev (linked : Linked cells front (x :: xs) back) (apart : x ∉ xs)
    (front' : Option α) :
    Linked (Function.update cells x (some ⟨front', xs.head?.or back⟩)) front' (x :: xs) back :=
  ⟨Function.update_self .., linked.2.update apart _⟩

theorem Linked.setNext (linked : Linked cells front (xs ++ [x]) back) (apart : x ∉ xs)
    (back' : Option α) :
    Linked (Function.update cells x (some ⟨xs.getLast?.or front, back'⟩)) front (xs ++ [x])
      back' := by
  obtain ⟨before, -, -⟩ := linked_cons_mid.mp linked
  exact linked_cons_mid.mpr ⟨before.update apart _, Function.update_self .., trivial⟩

end

/-- What is visited by following a link from a cell until there is none. -/
inductive Visits (link : α → Option (Option α)) : Option α → List α → Prop
  | stop : Visits link none []
  | go {x : α} {next : Option α} {xs : List α} (there : link x = some next)
      (rest : Visits link next xs) : Visits link (some x) (x :: xs)

section

variable {cells : Cells α} {front back : Option α} {xs : List α}

theorem Linked.visits_next (linked : Linked cells front xs none) :
    Visits (fun x => (cells x).map Links.next) xs.head? xs := by
  induction xs generalizing front with
  | nil => exact .stop
  | cons x xs ih =>
    obtain ⟨here, rest⟩ := linked
    have there : (cells x).map Links.next = some xs.head? := by
      rw [here, Option.or_none]
      rfl
    exact .go there (ih rest)

theorem Linked.visits_prev (linked : Linked cells none xs back) :
    Visits (fun x => (cells x).map Links.prev) xs.getLast? xs.reverse := by
  induction xs using List.reverseRecOn generalizing back with
  | nil => exact .stop
  | append_singleton xs x ih =>
    obtain ⟨before, here, -⟩ := linked_cons_mid.mp linked
    have there : (cells x).map Links.prev = some xs.getLast? := by
      rw [here, Option.or_none]
      rfl
    rw [List.getLast?_append, List.reverse_append]
    exact .go there (ih before)

end

end

end Lib
