import Mathlib.Data.List.Basic
import Mathlib.Tactic.Common

/-! The `checkConstraints` that is printed for each class, over objects nested in any way. -/

namespace Esnacc.Cxx

/-! ## Classes and objects -/

/-- A component of a SEQUENCE or SET, which is a pointer or an object. -/
structure ClassElmt where
  isPtr : Bool
  cls : Nat

/-- What is printed for a class; a leaf has a check of its own. -/
inductive ClassDef where
  | leaf
  | seqOrSet (elmts : List ClassElmt)
  /-- The alternatives are pointers that share one union. -/
  | choice (alternatives : List Nat)
  | list (elmt : Nat)

/-- An object of a class, or what a pointer that is NULL points to. -/
inductive Obj (ν : Type) where
  | null
  | leaf (cls : Nat) (value : ν)
  | seqOrSet (cls : Nat) (elmts : List (Obj ν))
  | choice (cls choiceId : Nat) (ptr : Obj ν)
  | list (cls : Nat) (elmts : List (Obj ν))

/-- A call has no meaning: a member function is called through another class than the object's. -/
inductive Undefined where
  | otherClass
  | nullObject
  deriving DecidableEq

variable {ν : Type}

/-- A pointer is NULL. -/
def Obj.isNull : Obj ν → Bool
  | .null => true
  | _ => false

/-- The class of an object. -/
def Obj.cls? : Obj ν → Option Nat
  | .null => none
  | .leaf cls _ => some cls
  | .seqOrSet cls _ => some cls
  | .choice cls _ _ => some cls
  | .list cls _ => some cls

section

variable (classes : Nat → ClassDef) (leafCheck : Nat → ν → Int × List String)

/-! ## The printed checks -/

/-- The calls for the alternatives of a CHOICE, each of which looks whether its pointer is NULL. -/
def checkAlternatives (isNull : Bool) (call : Nat → Except Undefined (Int × List String)) :
    List Nat → Except Undefined (List String)
  | [] => return []
  | cls :: rest => do
    let fails ← (if isNull then pure [] else (call cls).map Prod.snd)
    return fails ++ (← checkAlternatives isNull call rest)

mutual

/-- checkConstraints, called through a class: what it returns and what it appends to the list. -/
@[grind =] def checkConstraints : Obj ν → Nat → Except Undefined (Int × List String)
  | .null, _ => throw .nullObject
  | .leaf cls value, c => if c = cls then return leafCheck cls value else throw .otherClass
  | .seqOrSet cls objs, c =>
    match classes c with
    | .seqOrSet elmts =>
      if c = cls then do return (0, ← checkComponents objs elmts) else throw .otherClass
    | _ => throw .otherClass
  | .choice cls _ ptr, c =>
    match classes c with
    | .choice alternatives =>
      if c = cls then do
        return (0, ← checkAlternatives ptr.isNull (fun a => checkConstraints ptr a) alternatives)
      else throw .otherClass
    | _ => throw .otherClass
  | .list cls objs, c =>
    match classes c with
    | .list elmt => if c = cls then do return (0, ← checkElements objs elmt) else throw .otherClass
    | _ => throw .otherClass

/-- The calls for the components of a SEQUENCE or SET; what they return is dropped. -/
def checkComponents : List (Obj ν) → List ClassElmt → Except Undefined (List String)
  | obj :: objs, e :: rest => do
    let fails ← (if e.isPtr && obj.isNull then pure []
      else (checkConstraints obj e.cls).map Prod.snd)
    return fails ++ (← checkComponents objs rest)
  | _, _ => return []

/-- The calls for the elements of a list. -/
def checkElements : List (Obj ν) → Nat → Except Undefined (List String)
  | [], _ => return []
  | obj :: objs, elmt => do
    let fails ← (checkConstraints obj elmt).map Prod.snd
    return fails ++ (← checkElements objs elmt)

end

end

/-! ## Objects that programs build -/

mutual

/-- The leaves that are present: of a CHOICE those of its selected alternative. -/
def leaves : Obj ν → List (Nat × ν)
  | .null => []
  | .leaf cls value => [(cls, value)]
  | .seqOrSet _ objs => leavesOfAll objs
  | .choice _ _ ptr => leaves ptr
  | .list _ objs => leavesOfAll objs

/-- The leaves that are present in any of some objects. -/
def leavesOfAll : List (Obj ν) → List (Nat × ν)
  | [] => []
  | obj :: objs => leaves obj ++ leavesOfAll objs

end

section

variable (classes : Nat → ClassDef)

mutual

/-- An object of a class, whose components are of the classes that the class gives them. -/
def Obj.OfClass : Obj ν → Nat → Prop
  | .null, _ => False
  | .leaf cls _, c => c = cls ∧ classes c = .leaf
  | .seqOrSet cls objs, c => c = cls ∧ ∃ elmts, classes c = .seqOrSet elmts ∧ AreComponents objs elmts
  | .choice cls choiceId ptr, c => c = cls ∧ ∃ alternatives a, classes c = .choice alternatives ∧
      alternatives[choiceId]? = some a ∧ (ptr.isNull = true ∨ ptr.OfClass a)
  | .list cls objs, c => c = cls ∧ ∃ elmt, classes c = .list elmt ∧ AreElements objs elmt

/-- Objects are the components of a SEQUENCE or SET; what is a pointer may be NULL. -/
def AreComponents : List (Obj ν) → List ClassElmt → Prop
  | [], [] => True
  | obj :: objs, e :: elmts =>
    (e.isPtr = true ∧ obj.isNull = true ∨ obj.OfClass e.cls) ∧ AreComponents objs elmts
  | _, _ => False

/-- Objects are the elements of a list. -/
def AreElements : List (Obj ν) → Nat → Prop
  | [], _ => True
  | obj :: objs, elmt => obj.OfClass elmt ∧ AreElements objs elmt

end

mutual

/-- Every CHOICE that is set has alternatives of one class only, that of the selected one. -/
def Obj.OneClass : Obj ν → Prop
  | .null => True
  | .leaf _ _ => True
  | .seqOrSet _ objs => AllOneClass objs
  | .choice cls _ ptr => (ptr.isNull = false → ∀ alternatives, classes cls = .choice alternatives →
      ∀ a ∈ alternatives, ptr.cls? = some a) ∧ ptr.OneClass
  | .list _ objs => AllOneClass objs

/-- The same of each of some objects. -/
def AllOneClass : List (Obj ν) → Prop
  | [] => True
  | obj :: objs => obj.OneClass ∧ AllOneClass objs

end

end

/-! ## Failures -/

section

variable (leafCheck : Nat → ν → Int × List String)

/-- The failures of leaves: those of each of them, in order, and no others. -/
structure Covers (fails : List String) (ls : List (Nat × ν)) : Prop where
  each : (ls.flatMap fun l => (leafCheck l.1 l.2).2).Sublist fails
  others : ∀ fail ∈ fails, ∃ l ∈ ls, fail ∈ (leafCheck l.1 l.2).2

variable {leafCheck} {fails fails' : List String} {ls ls' : List (Nat × ν)}

theorem Covers.nil : Covers leafCheck [] ([] : List (Nat × ν)) where
  each := List.Sublist.refl _
  others fail member := by cases member

theorem Covers.append (covers : Covers leafCheck fails ls) (more : Covers leafCheck fails' ls') :
    Covers leafCheck (fails ++ fails') (ls ++ ls') where
  each := by
    rw [List.flatMap_append]
    exact covers.each.append more.each
  others fail member := by
    rcases List.mem_append.mp member with first | second
    · obtain ⟨l, inside, its⟩ := covers.others fail first
      exact ⟨l, List.mem_append_left _ inside, its⟩
    · obtain ⟨l, inside, its⟩ := more.others fail second
      exact ⟨l, List.mem_append_right _ inside, its⟩

theorem Covers.again (covers : Covers leafCheck fails ls) (times : Nat) :
    Covers leafCheck (fails ++ (List.replicate times fails).flatten) ls where
  each := covers.each.trans (List.sublist_append_left _ _)
  others fail member := by
    rcases List.mem_append.mp member with first | second
    · exact covers.others fail first
    · obtain ⟨same, inside, its⟩ := List.mem_flatten.mp second
      rw [(List.mem_replicate.mp inside).2] at its
      exact covers.others fail its

end

/-! ## What a check goes through -/

section

variable {classes : Nat → ClassDef} {leafCheck : Nat → ν → Int × List String}

/-- A check has a meaning through the object's own class only. -/
theorem cls_of_checkConstraints {obj : Obj ν} {c : Nat} {r : Int × List String}
    (ran : checkConstraints classes leafCheck obj c = .ok r) : obj.cls? = some c := by
  -- Through another class every check is undefined.
  have own {cls : Nat} {x : Except Undefined (Int × List String)}
      (ran : (if c = cls then x else throw .otherClass) = .ok r) : some cls = some c := by
    by_cases same : c = cls
    · rw [same]
    · rw [if_neg same] at ran
      cases ran
  cases obj with
  | null =>
    rw [checkConstraints] at ran
    cases ran
  | leaf cls value =>
    rw [checkConstraints] at ran
    exact own ran
  | seqOrSet cls objs =>
    rw [checkConstraints] at ran
    cases kind : classes c with
    | seqOrSet elmts =>
      rw [kind] at ran
      exact own ran
    | _ =>
      rw [kind] at ran
      cases ran
  | choice cls choiceId ptr =>
    rw [checkConstraints] at ran
    cases kind : classes c with
    | choice alternatives =>
      rw [kind] at ran
      exact own ran
    | _ =>
      rw [kind] at ran
      cases ran
  | list cls objs =>
    rw [checkConstraints] at ran
    cases kind : classes c with
    | list elmt =>
      rw [kind] at ran
      exact own ran
    | _ =>
      rw [kind] at ran
      cases ran

theorem checkAlternatives_of_null (call : Nat → Except Undefined (Int × List String))
    (alternatives : List Nat) : checkAlternatives true call alternatives = .ok [] := by
  induction alternatives with
  | nil => rfl
  | cons a rest ih =>
    rw [checkAlternatives, ih]
    rfl

/-- Every alternative is called. -/
theorem called_of_checkAlternatives {call : Nat → Except Undefined (Int × List String)}
    {alternatives : List Nat} {fails : List String}
    (ran : checkAlternatives false call alternatives = .ok fails) :
    ∀ a ∈ alternatives, ∃ r, call a = .ok r := by
  induction alternatives generalizing fails with
  | nil =>
    intro a inside
    cases inside
  | cons first rest ih =>
    intro a inside
    rw [checkAlternatives] at ran
    cases called : call first with
    | error e =>
      rw [called] at ran
      cases ran
    | ok r =>
      cases later : checkAlternatives false call rest with
      | error e =>
        rw [called, later] at ran
        cases ran
      | ok fails' =>
        rcases List.mem_cons.mp inside with rfl | behind
        · exact ⟨r, called⟩
        · exact ih later a behind

theorem checkAlternatives_of_same {call : Nat → Except Undefined (Int × List String)}
    {alternatives : List Nat} {r : Int × List String} (same : ∀ a ∈ alternatives, call a = .ok r) :
    checkAlternatives false call alternatives =
      .ok (List.replicate alternatives.length r.2).flatten := by
  induction alternatives with
  | nil => rfl
  | cons first rest ih =>
    rw [checkAlternatives, same first List.mem_cons_self,
      ih fun a inside => same a (List.mem_cons_of_mem _ inside)]
    rfl

/-! ## Whole values -/

/-- What a check makes of objects: it has a meaning where each CHOICE has one class only. -/
def Checked (leafCheck : Nat → ν → Int × List String) (result : Except Undefined (List String))
    (oneClass : Prop) (ls : List (Nat × ν)) : Prop :=
  (oneClass → ∃ fails, result = .ok fails ∧ Covers leafCheck fails ls) ∧
    ((∃ fails, result = .ok fails) → oneClass)

/-- Checks one after the other. -/
theorem Checked.append {first second : Except Undefined (List String)} {oneClass oneClass' : Prop}
    {ls ls' : List (Nat × ν)} (here : Checked leafCheck first oneClass ls)
    (later : Checked leafCheck second oneClass' ls') :
    Checked leafCheck (do let fails ← first; return fails ++ (← second)) (oneClass ∧ oneClass')
      (ls ++ ls') := by
  constructor
  · rintro ⟨one, others⟩
    obtain ⟨fails, ran, covers⟩ := here.1 one
    obtain ⟨fails', ran', covers'⟩ := later.1 others
    refine ⟨fails ++ fails', ?_, covers.append covers'⟩
    rw [ran, ran']
    rfl
  · rintro ⟨fails, ran⟩
    -- Both have a meaning where the whole has one.
    cases ranFirst : first with
    | error e =>
      rw [ranFirst] at ran
      cases ran
    | ok fails =>
      cases ranSecond : second with
      | error e =>
        rw [ranFirst, ranSecond] at ran
        cases ran
      | ok fails' => exact ⟨here.2 ⟨fails, ranFirst⟩, later.2 ⟨fails', ranSecond⟩⟩

theorem map_snd_zero (x : Except Undefined (List String)) :
    (do return ((0 : Int), ← x) : Except Undefined (Int × List String)).map Prod.snd = x := by
  cases x <;> rfl

theorem eq_null_of_isNull {obj : Obj ν} (isNull : obj.isNull = true) : obj = .null := by
  cases obj with
  | null => rfl
  | _ => cases isNull

theorem cls_of_ofClass {obj : Obj ν} {c : Nat} (ofClass : obj.OfClass classes c) :
    obj.cls? = some c := by
  cases obj with
  | null => exact ofClass.elim
  | leaf cls value => exact congrArg some ofClass.1.symm
  | seqOrSet cls objs => exact congrArg some ofClass.1.symm
  | choice cls choiceId ptr => exact congrArg some ofClass.1.symm
  | list cls objs => exact congrArg some ofClass.1.symm

/-- The alternatives of a CHOICE, of which one is selected. -/
theorem checked_alternatives {ptr : Obj ν} {alternatives : List Nat} {choiceId a : Nat}
    (selected : alternatives[choiceId]? = some a) (notNull : ptr.isNull = false)
    (ofClass : ptr.OfClass classes a)
    (inner : Checked leafCheck ((checkConstraints classes leafCheck ptr a).map Prod.snd)
      (ptr.OneClass classes) (leaves ptr)) :
    Checked leafCheck
      (checkAlternatives ptr.isNull (fun a => checkConstraints classes leafCheck ptr a) alternatives)
      ((∀ a ∈ alternatives, ptr.cls? = some a) ∧ ptr.OneClass classes) (leaves ptr) := by
  have inside : a ∈ alternatives := List.mem_of_getElem? selected
  have own : ptr.cls? = some a := cls_of_ofClass ofClass
  rw [notNull]
  constructor
  · rintro ⟨same, oneClass⟩
    obtain ⟨fails, ran, covers⟩ := inner.1 oneClass
    cases called : checkConstraints classes leafCheck ptr a with
    | error e =>
      rw [called] at ran
      cases ran
    | ok r =>
      rw [called] at ran
      cases ran
      -- Every alternative is checked as the selected one.
      have each : ∀ b ∈ alternatives, checkConstraints classes leafCheck ptr b = .ok r := by
        intro b member
        have equal := (same b member).symm.trans own
        injection equal with equal
        rw [equal]
        exact called
      refine ⟨_, checkAlternatives_of_same each, ?_⟩
      cases alternatives with
      | nil => cases inside
      | cons b rest => exact covers.again rest.length
  · rintro ⟨fails, ran⟩
    have called := called_of_checkAlternatives ran
    constructor
    · intro b member
      obtain ⟨r, ranB⟩ := called b member
      exact cls_of_checkConstraints ranB
    · obtain ⟨r, ranA⟩ := called a inside
      exact inner.2 ⟨r.2, by rw [ranA]; rfl⟩

mutual

/-- A check of an object, which goes through all that it consists of. -/
theorem checked (obj : Obj ν) (c : Nat) (ofClass : obj.OfClass classes c) :
    Checked leafCheck ((checkConstraints classes leafCheck obj c).map Prod.snd)
      (obj.OneClass classes) (leaves obj) := by
  match obj with
  | .null => exact ofClass.elim
  | .leaf cls value =>
    obtain ⟨rfl, -⟩ := ofClass
    rw [checkConstraints, if_pos rfl]
    refine ⟨fun _ => ⟨_, rfl, ?_⟩, fun _ => trivial⟩
    constructor
    · rw [leaves, List.flatMap_singleton]
    · intro fail member
      exact ⟨_, List.mem_singleton.mpr rfl, member⟩
  | .seqOrSet cls objs =>
    obtain ⟨rfl, elmts, kind, are⟩ := ofClass
    simp only [checkConstraints, kind, if_true, map_snd_zero]
    exact checkedComponents objs elmts are
  | .choice cls choiceId ptr =>
    obtain ⟨rfl, alternatives, a, kind, selected, ofClass⟩ := ofClass
    simp only [checkConstraints, kind, if_true, map_snd_zero]
    cases isNull : ptr.isNull with
    | true =>
      rw [eq_null_of_isNull isNull]
      rw [checkAlternatives_of_null]
      refine ⟨fun _ => ⟨[], rfl, Covers.nil⟩, fun _ => ⟨fun no => ?_, trivial⟩⟩
      cases no
    | false =>
      have ofClass' : ptr.OfClass classes a := by
        rcases ofClass with null | ofClass
        · rw [isNull] at null
          cases null
        · exact ofClass
      have inner := checked_alternatives selected isNull ofClass' (checked ptr a ofClass')
      rw [isNull] at inner
      constructor
      · rintro ⟨one, oneClass⟩
        exact inner.1 ⟨one isNull alternatives kind, oneClass⟩
      · intro ran
        obtain ⟨one, oneClass⟩ := inner.2 ran
        refine ⟨fun _ others kind' => ?_, oneClass⟩
        cases kind.symm.trans kind'
        exact one
  | .list cls objs =>
    obtain ⟨rfl, elmt, kind, are⟩ := ofClass
    simp only [checkConstraints, kind, if_true, map_snd_zero]
    exact checkedElements objs elmt are

/-- The checks of the components of a SEQUENCE or SET. -/
theorem checkedComponents (objs : List (Obj ν)) (elmts : List ClassElmt)
    (are : AreComponents classes objs elmts) :
    Checked leafCheck (checkComponents classes leafCheck objs elmts)
      (AllOneClass classes objs) (leavesOfAll objs) := by
  match objs, elmts with
  | [], [] =>
    rw [checkComponents]
    · exact ⟨fun _ => ⟨[], rfl, Covers.nil⟩, fun _ => trivial⟩
    · simp
  | obj :: objs, e :: elmts =>
    obtain ⟨first, rest⟩ := are
    have later := checkedComponents objs elmts rest
    rw [checkComponents]
    refine Checked.append ?_ later
    -- A pointer that is NULL is passed over.
    by_cases absent : (e.isPtr && obj.isNull) = true
    · rw [if_pos absent]
      rw [Bool.and_eq_true] at absent
      rw [eq_null_of_isNull absent.2]
      exact ⟨fun _ => ⟨[], rfl, Covers.nil⟩, fun _ => trivial⟩
    · rw [if_neg absent]
      rw [Bool.and_eq_true] at absent
      exact checked obj e.cls (first.resolve_left absent)
  | [], e :: elmts => exact are.elim
  | obj :: objs, [] => exact are.elim

/-- The checks of the elements of a list. -/
theorem checkedElements (objs : List (Obj ν)) (elmt : Nat)
    (are : AreElements classes objs elmt) :
    Checked leafCheck (checkElements classes leafCheck objs elmt)
      (AllOneClass classes objs) (leavesOfAll objs) := by
  match objs with
  | [] =>
    rw [checkElements]
    exact ⟨fun _ => ⟨[], rfl, Covers.nil⟩, fun _ => trivial⟩
  | obj :: objs =>
    obtain ⟨first, rest⟩ := are
    rw [checkElements]
    exact Checked.append (checked obj elmt first) (checkedElements objs elmt rest)

end

end

/-! ## When a whole value is checked -/

/-- The checks of leaves are exact: they return 0, and append nothing, where a leaf is satisfied. -/
structure ExactLeaves (leafCheck : Nat → ν → Int × List String) (sat : Nat → ν → Prop) :
    Prop where
  returned : ∀ cls value, (leafCheck cls value).1 = 0 ↔ sat cls value
  appended : ∀ cls value, (leafCheck cls value).2 = [] ↔ sat cls value

/-- Failures in a list: at least one for each leaf that is violated, and no others. -/
def Reports (sat : Nat → ν → Prop) (fails : List String) (ls : List (Nat × ν)) : Prop :=
  ∃ own : Nat × ν → List String, (∀ l ∈ ls, own l = [] ↔ sat l.1 l.2) ∧
    (ls.flatMap own).Sublist fails ∧ ∀ fail ∈ fails, ∃ l ∈ ls, fail ∈ own l

/-- A check returns 0 exactly where all is satisfied, and reports every leaf that is not. -/
def ChecksWhole (classes : Nat → ClassDef) (leafCheck : Nat → ν → Int × List String)
    (sat : Nat → ν → Prop) (obj : Obj ν) (c : Nat) : Prop :=
  ∃ ret fails, checkConstraints classes leafCheck obj c = .ok (ret, fails) ∧
    (ret = 0 ↔ ∀ l ∈ leaves obj, sat l.1 l.2) ∧ Reports sat fails (leaves obj)

section

variable {classes : Nat → ClassDef} {leafCheck : Nat → ν → Int × List String}
  {sat : Nat → ν → Prop}

/-- A class with components returns 0. -/
theorem returned_zero {obj : Obj ν} {c : Nat} {r : Int × List String}
    (ofClass : obj.OfClass classes c) (composite : classes c ≠ .leaf)
    (ran : checkConstraints classes leafCheck obj c = .ok r) : r.1 = 0 := by
  -- The failures are put behind a literal 0.
  have zero {x : Except Undefined (List String)}
      (ran : (do return ((0 : Int), ← x) : Except Undefined (Int × List String)) = .ok r) :
      r.1 = 0 := by
    cases x with
    | error e => cases ran
    | ok fails =>
      cases ran
      rfl
  cases obj with
  | null => exact ofClass.elim
  | leaf cls value => exact absurd ofClass.2 composite
  | seqOrSet cls objs =>
    obtain ⟨rfl, elmts, kind, -⟩ := ofClass
    simp only [checkConstraints, kind, if_true] at ran
    exact zero ran
  | choice cls choiceId ptr =>
    obtain ⟨rfl, alternatives, a, kind, -⟩ := ofClass
    simp only [checkConstraints, kind, if_true] at ran
    exact zero ran
  | list cls objs =>
    obtain ⟨rfl, elmt, kind, -⟩ := ofClass
    simp only [checkConstraints, kind, if_true] at ran
    exact zero ran

/--
What the checks of generated classes and lists are worth.

They report every violated leaf where each CHOICE has alternatives of one class only, but they return
0 in any case, so that the whole value is checked only where nothing is violated.
-/
theorem checks_whole_iff (exact : ExactLeaves leafCheck sat) {obj : Obj ν} {c : Nat}
    (ofClass : obj.OfClass classes c) (composite : classes c ≠ .leaf) :
    (obj.OneClass classes → ∃ fails,
      checkConstraints classes leafCheck obj c = .ok (0, fails) ∧
        Reports sat fails (leaves obj)) ∧
    (ChecksWhole classes leafCheck sat obj c ↔
      obj.OneClass classes ∧ ∀ l ∈ leaves obj, sat l.1 l.2) := by
  have whole : Checked leafCheck ((checkConstraints classes leafCheck obj c).map Prod.snd)
      (obj.OneClass classes) (leaves obj) := checked obj c ofClass
  obtain ⟨forward, back⟩ := whole
  have reported : obj.OneClass classes → ∃ fails,
      checkConstraints classes leafCheck obj c = .ok (0, fails) ∧
        Reports sat fails (leaves obj) := by
    intro oneClass
    obtain ⟨fails, ran, covers⟩ := forward oneClass
    cases called : checkConstraints classes leafCheck obj c with
    | error e =>
      rw [called] at ran
      cases ran
    | ok r =>
      rw [called] at ran
      cases ran
      have zero := returned_zero ofClass composite called
      refine ⟨r.2, by rw [← zero], fun l => (leafCheck l.1 l.2).2, fun l _ => ?_, covers.each,
        covers.others⟩
      exact exact.appended l.1 l.2
  refine ⟨reported, ?_, ?_⟩
  · rintro ⟨ret, fails, ran, whole, -⟩
    have zero : ret = 0 := returned_zero ofClass composite ran
    exact ⟨back ⟨fails, by rw [ran]; rfl⟩, whole.mp zero⟩
  · rintro ⟨oneClass, satisfied⟩
    obtain ⟨fails, ran, reports⟩ := reported oneClass
    exact ⟨0, fails, ran, iff_of_true rfl satisfied, reports⟩

end

/-! ## Small classes -/

/-- An INTEGER of at most 10, a CHOICE of two of them, and a SEQUENCE of one. -/
def smallClasses : Nat → ClassDef
  | 1 => .choice [0, 0]
  | 2 => .seqOrSet [⟨false, 0⟩]
  | _ => .leaf

/-- The check of such an INTEGER. -/
def atMostTen (_ value : Nat) : Int × List String :=
  if value ≤ 10 then (0, []) else (1, ["out of range"])

theorem exactLeaves_atMostTen : ExactLeaves atMostTen fun _ value => value ≤ 10 where
  returned cls value := by
    by_cases small : value ≤ 10 <;> simp [atMostTen, small]
  appended cls value := by
    by_cases small : value ≤ 10 <;> simp [atMostTen, small]

/-- A CHOICE of equal types that holds a good value is checked as a whole. -/
theorem checks_whole_iff_choice : ChecksWhole smallClasses atMostTen (fun _ value => value ≤ 10)
    (.choice 1 0 (.leaf 0 7)) 1 := by
  have ofClass : (Obj.choice 1 0 (.leaf 0 7)).OfClass smallClasses 1 :=
    ⟨rfl, [0, 0], 0, rfl, rfl, .inr ⟨rfl, rfl⟩⟩
  refine (checks_whole_iff exactLeaves_atMostTen ofClass fun leaf => by cases leaf).2.mpr ⟨⟨?_, trivial⟩, ?_⟩
  · intro _ alternatives kind a inside
    cases kind
    rcases List.mem_cons.mp inside with rfl | inside
    · rfl
    · rw [List.mem_singleton.mp inside]
      rfl
  · intro l inside
    rw [List.mem_singleton.mp inside]
    decide

/-- A SEQUENCE whose component is out of range returns 0 all the same. -/
theorem violation_not_returned :
    ¬ ∀ (classes : Nat → ClassDef) (leafCheck : Nat → Nat → Int × List String)
      (sat : Nat → Nat → Prop) (obj : Obj Nat) (c : Nat), ExactLeaves leafCheck sat →
      obj.OfClass classes c → classes c ≠ .leaf → ChecksWhole classes leafCheck sat obj c := by
  intro whole
  have ofClass : (Obj.seqOrSet 2 [.leaf 0 11]).OfClass smallClasses 2 :=
    ⟨rfl, [⟨false, 0⟩], rfl, .inr ⟨rfl, rfl⟩, trivial⟩
  obtain ⟨ret, fails, ran, returned, -⟩ :=
    whole smallClasses atMostTen _ _ 2 exactLeaves_atMostTen ofClass fun leaf => by cases leaf
  have zero : checkConstraints smallClasses atMostTen (.seqOrSet 2 [.leaf 0 11]) 2 =
      .ok (0, ["out of range"]) := by decide
  rw [zero] at ran
  cases ran
  exact absurd (returned.mp rfl (0, 11) (List.mem_singleton.mpr rfl)) (by decide)

end Esnacc.Cxx
