import Esnacc.Python.Integers

/-! The constraints of Python objects, and which of them the encoder enforces. -/

namespace Esnacc.Python

open Lib

/-! ## Constraints -/

/-- The constraints that can be added to an object, each with the fields of its class. -/
inductive Constraint where
  | integer (lower upper : Option Int)
  | enumerated (enums : List Int)
  | character (lower upper : Option UInt8) (chars : Option (List UInt8))
  | octetLength (length : Nat)
  deriving DecidableEq

/-- What a constraint on characters looks at: a string, or a list of strings of one octet. -/
inductive PyText where
  | str (octets : List UInt8)
  | list (octets : List UInt8)

def PyText.octets : PyText → List UInt8
  | .str octets => octets
  | .list octets => octets

/-- Whether a text sorts before a character; a list sorts before every string. -/
def PyText.before : PyText → UInt8 → Bool
  | .str octets, c => decide (octets < [c])
  | .list _, _ => true

/-- Whether a text sorts behind a character. -/
def PyText.behind : PyText → UInt8 → Bool
  | .str octets, c => decide ([c] < octets)
  | .list _, _ => false

/-- Whether a text is one of some characters. -/
def PyText.oneOf : PyText → List UInt8 → Bool
  | .str octets, chars => (chars.map ([·])).contains octets
  | .list _, _ => false

/-- Whether a text satisfies a constraint on characters; absent where calls are nested too deep. -/
def characterWithin (lower upper : Option UInt8) (chars : Option (List UInt8)) :
    Nat → PyText → Option Bool
  | 0, _ => none
  | depth + 1, value => do
    -- Each character is a string itself, and the text is refused where one of them satisfies it.
    let some ← value.octets.anyM fun x => characterWithin lower upper chars depth (.str [x])
    if some then return false
    else if lower.any value.before then return false
    else if upper.any value.behind then return false
    else return chars.all value.oneOf

/-- Whether a text is short enough. -/
def octetLengthWithin (length : Nat) (value : PyText) : Bool :=
  value.octets.length ≤ length

/-! ## Objects -/

/-- The exceptions that the encoder does not pass on. -/
inductive Swallowed where
  | attributeError
  | typeError

/-- The attribute that holds the constraints of an object. -/
inductive ConstraintsAttr where
  /-- It was never set. -/
  | absent
  | none
  | list (constraints : List Constraint)

/-- The constraints of an object. -/
def ConstraintsAttr.all : ConstraintsAttr → List Constraint
  | .absent | .none => []
  | .list constraints => constraints

/-- Add a constraint; neither an absent attribute nor `None` can be appended to. -/
def addConstraint : ConstraintsAttr → Constraint → ConstraintsAttr
  | .list constraints, constraint => .list (constraints ++ [constraint])
  | .absent, constraint | .none, constraint => .list [constraint]

/-- The answer of a class that looks at no constraint. -/
def AsnBase.passesAll {α : Type} (_ : List Constraint) (_ : α) : Except Swallowed Bool :=
  return true

/-- The answer of integers, which look at their bounds alone. -/
def AsnInt.passesAll : List Constraint → Int → Except Swallowed Bool
  | [], _ => return true
  | x :: rest, intVal =>
    let passes := match x with
      | .integer lower upper => (IntConstraint.integer lower upper).withinConstraint intVal
      | _ => true
    if passes then AsnInt.passesAll rest intVal else return false

/-- The answer of enumerated values, which look at their numbers as well. -/
def AsnEnum.passesAll : List Constraint → Int → Except Swallowed Bool
  | [], _ => return true
  | x :: rest, intVal =>
    let passes := match x with
      | .integer lower upper => (IntConstraint.integer lower upper).withinConstraint intVal
      | .enumerated enums => (IntConstraint.enumerated enums).withinConstraint intVal
      | _ => true
    if passes then AsnEnum.passesAll rest intVal else return false

/-- Whether there are constraints and not all of them are passed, or an exception says less. -/
def refused (constraints : ConstraintsAttr)
    (passesAll : List Constraint → Except Swallowed Bool) : Except Swallowed Bool :=
  match constraints with
  | .absent => throw .attributeError
  -- `None` has no length.
  | .none => throw .typeError
  | .list constraints => do
    if 0 < constraints.length then return !(← passesAll constraints) else return false

/-- Whether the encoder goes on; it does where the check raises an exception. -/
def goesOn (constraints : ConstraintsAttr)
    (passesAll : List Constraint → Except Swallowed Bool) : Bool :=
  match refused constraints passesAll with
  | .ok refused => !refused
  | .error .attributeError | .error .typeError => true

/-- Integers with constraints of any kind. -/
def intWith (constraints : ConstraintsAttr) (berClass : BerClass) (berForm : BerForm)
    (berTag : Nat) : AsnBase Int :=
  { asnInt berClass berForm berTag [] with
    passesAllConstraints := fun intVal => goesOn constraints (AsnInt.passesAll · intVal) }

/-- Enumerated values with constraints of any kind. -/
def enumWith (constraints : ConstraintsAttr) (berClass : BerClass) (berForm : BerForm)
    (berTag : Nat) : AsnBase Int :=
  { asnEnum berClass berForm berTag [] with
    passesAllConstraints := fun intVal => goesOn constraints (AsnEnum.passesAll · intVal) }

/-- Octet strings with constraints of any kind. -/
def octsWith (constraints : ConstraintsAttr) (berClass : BerClass) (berForm : BerForm)
    (berTag : Nat) : AsnBase (List PyObj) :=
  { asnOcts berClass berForm berTag with
    passesAllConstraints := fun octs => goesOn constraints (AsnBase.passesAll · octs) }

/-- The digits and the space. -/
def NumericStrConstraint : Constraint :=
  .character none none (some [48, 49, 50, 51, 52, 53, 54, 55, 56, 57, 32])

/-- Numeric strings, which have a constraint from the start, and those added. -/
def numericStringWith (added : List Constraint) (berClass : BerClass) (berForm : BerForm)
    (berTag : Nat) : AsnBase (List PyObj) :=
  octsWith (.list (NumericStrConstraint :: added)) berClass berForm berTag

/-! ## The check on characters -/

theorem characterWithin_eq_none (lower upper : Option UInt8) (chars : Option (List UInt8))
    (depth : Nat) {value : PyText} (some : value.octets ≠ []) :
    characterWithin lower upper chars depth value = none := by
  -- The induction is on the depth; the first character is looked at one call deeper.
  induction depth generalizing value with
  | zero => rfl
  | succ depth ih =>
    obtain ⟨x, rest, octets⟩ := List.exists_cons_of_ne_nil some
    have first := @ih (.str [x]) (List.cons_ne_nil x [])
    rw [characterWithin, octets, List.anyM, first]
    rfl

/-! ## Violated constraints -/

/-- That a number violates a constraint; those on texts say nothing about it. -/
def Constraint.ViolatedByInt : Constraint → Int → Prop
  | .integer lower upper, value => (∃ l ∈ lower, value < l) ∨ ∃ u ∈ upper, u < value
  | .enumerated enums, value => value ∉ enums
  | .character _ _ _, _ | .octetLength _, _ => False

/-- That octets violate a constraint; those on numbers say nothing about them. -/
def Constraint.ViolatedByOctets : Constraint → List UInt8 → Prop
  | .character lower upper chars, octs =>
    ∃ c ∈ octs, (∃ l ∈ lower, c < l) ∨ (∃ u ∈ upper, u < c) ∨ ∃ list ∈ chars, c ∉ list
  | .octetLength length, octs => length < octs.length
  | .integer _ _, _ | .enumerated _, _ => False

/-- That the encoder raises `ValueError` and leaves the buffer as it is exactly if a constraint is
violated. -/
@[grind =] def Enforces {α : Type} (t : AsnBase α) (x : α) (buf : List PyObj) (violated : Prop) : Prop :=
  (∃ text, (t.bEnc x).run buf = .error (.valueError text) buf) ↔ violated

theorem run_bEncDefLen (length : Nat) (buf : List PyObj) :
    ∃ n buf', (bEncDefLen length).run buf = .ok n buf' := by
  unfold bEncDefLen
  split_ifs <;> exact ⟨_, _, rfl⟩

/-- The encoder of contents that can be encoded fails where the check does, and there alone. -/
theorem bEnc_raises_iff {α : Type} (t : AsnBase α) (x : α)
    (encodes : ∃ n buf', (t.bEncContent x).run [] = .ok n buf') (buf : List PyObj) :
    (∃ text, (t.bEnc x).run buf = .error (.valueError text) buf) ↔
      t.passesAllConstraints x = false := by
  constructor
  · rintro ⟨text, raised⟩
    by_contra passes
    obtain ⟨n, content, encoded⟩ := encodes
    obtain ⟨m, whole, counted⟩ := run_bEncDefLen n content
    rw [AsnBase.bEnc, if_neg passes] at raised
    have got : (get : BufM (List PyObj)).run buf = .ok buf buf := rfl
    have emptied : (set ([] : List PyObj) : BufM PUnit).run buf = .ok ⟨⟩ [] := rfl
    dsimp only at raised
    rw [run_bind_of_ok got, run_bind_of_ok emptied, run_bind_of_ok encoded,
      run_bind_of_ok counted] at raised
    cases raised
  · intro fails
    refine ⟨"Not all constraints passed", ?_⟩
    rw [AsnBase.bEnc, if_pos fails]
    rfl

/-- The check of a class that asks the same of every constraint. -/
theorem goesOn_eq_all {passesAll : List Constraint → Except Swallowed Bool} {p : Constraint → Bool}
    (answers : ∀ constraints, passesAll constraints = .ok (constraints.all p))
    (constraints : ConstraintsAttr) : goesOn constraints passesAll = constraints.all.all p := by
  cases constraints with
  | absent => rfl
  | none => rfl
  | list constraints =>
    rw [goesOn, refused]
    cases constraints with
    | nil => rfl
    | cons x rest =>
      have some : 0 < (x :: rest).length := Nat.succ_pos _
      rw [if_pos some, answers]
      exact Bool.not_not _

theorem raises_iff_of_answers {α : Type} {t : AsnBase α} {x : α}
    (encodes : ∃ n buf', (t.bEncContent x).run [] = .ok n buf') {constraints : ConstraintsAttr}
    {passesAll : List Constraint → Except Swallowed Bool} {p : Constraint → Bool}
    (answers : ∀ constraints, passesAll constraints = .ok (constraints.all p))
    (check : t.passesAllConstraints x = goesOn constraints passesAll) (buf : List PyObj) :
    (∃ text, (t.bEnc x).run buf = .error (.valueError text) buf) ↔
      ∃ c ∈ constraints.all, p c = false := by
  rw [bEnc_raises_iff t x encodes, check, goesOn_eq_all answers, List.all_eq_false]
  simp only [Bool.not_eq_true]

theorem violatedByInt_integer {lower upper : Option Int} {value : Int} :
    (Constraint.integer lower upper).ViolatedByInt value ↔
      (IntConstraint.integer lower upper).withinConstraint value = false := by
  cases lower <;> cases upper <;>
    simp [Constraint.ViolatedByInt, IntConstraint.withinConstraint, imp_iff_not_or]

theorem violatedByInt_enumerated {enums : List Int} {value : Int} :
    (Constraint.enumerated enums).ViolatedByInt value ↔
      (IntConstraint.enumerated enums).withinConstraint value = false := by
  simp [Constraint.ViolatedByInt, IntConstraint.withinConstraint]

/-- What integers ask of a constraint. -/
def AsnInt.passes (value : Int) : Constraint → Bool
  | .integer lower upper => (IntConstraint.integer lower upper).withinConstraint value
  | _ => true

/-- What enumerated values ask of a constraint. -/
def AsnEnum.passes (value : Int) : Constraint → Bool
  | .integer lower upper => (IntConstraint.integer lower upper).withinConstraint value
  | .enumerated enums => (IntConstraint.enumerated enums).withinConstraint value
  | _ => true

theorem AsnInt.passesAll_eq (value : Int) (constraints : List Constraint) :
    AsnInt.passesAll constraints value = .ok (constraints.all (AsnInt.passes value)) := by
  induction constraints with
  | nil => rfl
  | cons x rest ih =>
    have one : AsnInt.passesAll (x :: rest) value =
        if AsnInt.passes value x then AsnInt.passesAll rest value else .ok false := by
      cases x <;> rfl
    rw [one, ih, List.all_cons]
    cases AsnInt.passes value x <;> rfl

theorem AsnEnum.passesAll_eq (value : Int) (constraints : List Constraint) :
    AsnEnum.passesAll constraints value = .ok (constraints.all (AsnEnum.passes value)) := by
  induction constraints with
  | nil => rfl
  | cons x rest ih =>
    have one : AsnEnum.passesAll (x :: rest) value =
        if AsnEnum.passes value x then AsnEnum.passesAll rest value else .ok false := by
      cases x <;> rfl
    rw [one, ih, List.all_cons]
    cases AsnEnum.passes value x <;> rfl

theorem AsnEnum.passes_eq_false_iff (value : Int) (c : Constraint) :
    AsnEnum.passes value c = false ↔ c.ViolatedByInt value := by
  cases c with
  | integer lower upper => exact violatedByInt_integer.symm
  | enumerated enums => exact violatedByInt_enumerated.symm
  | character lower upper chars => exact iff_of_false Bool.true_eq_false.mp id
  | octetLength length => exact iff_of_false Bool.true_eq_false.mp id

theorem AsnInt.passes_eq_false_iff (value : Int) (c : Constraint) :
    AsnInt.passes value c = false ↔
      (∃ lower upper, c = .integer lower upper) ∧ c.ViolatedByInt value := by
  cases c with
  | integer lower upper =>
    rw [violatedByInt_integer]
    exact (and_iff_right ⟨lower, upper, rfl⟩).symm
  | enumerated enums => exact iff_of_false Bool.true_eq_false.mp (by simp)
  | character lower upper chars => exact iff_of_false Bool.true_eq_false.mp (by simp)
  | octetLength length => exact iff_of_false Bool.true_eq_false.mp (by simp)

variable (constraints : ConstraintsAttr) (cls : BerClass) (frm : BerForm) (tag : Nat)

/-- Integers enforce their constraints unless a list of numbers is the only one violated. -/
theorem int_enforces_iff (value : Int) (buf : List PyObj) :
    Enforces (intWith constraints cls frm tag) value buf
        (∃ c ∈ constraints.all, c.ViolatedByInt value) ↔
      ((∃ enums, .enumerated enums ∈ constraints.all ∧ value ∉ enums) →
        ∃ lower upper, .integer lower upper ∈ constraints.all ∧
          (Constraint.integer lower upper).ViolatedByInt value) := by
  obtain ⟨octets, -, encoded⟩ := run_intBEncContent value []
  have encodes : ∃ n buf', ((intWith constraints cls frm tag).bEncContent value).run [] =
      .ok n buf' := ⟨_, _, encoded⟩
  rw [Enforces, raises_iff_of_answers encodes
    (AsnInt.passesAll_eq value) rfl buf]
  simp only [AsnInt.passes_eq_false_iff]
  constructor
  · rintro enforced ⟨enums, isIn, missing⟩
    obtain ⟨c, there, ⟨lower, upper, rfl⟩, violated⟩ := enforced.mpr ⟨_, isIn, missing⟩
    exact ⟨lower, upper, there, violated⟩
  · intro covered
    constructor
    · rintro ⟨c, there, -, violated⟩
      exact ⟨c, there, violated⟩
    · rintro ⟨c, there, violated⟩
      cases c with
      | integer lower upper => exact ⟨_, there, ⟨lower, upper, rfl⟩, violated⟩
      | enumerated enums =>
        obtain ⟨lower, upper, isIn, bounds⟩ := covered ⟨enums, there, violated⟩
        exact ⟨_, isIn, ⟨lower, upper, rfl⟩, bounds⟩
      | character lower upper chars => exact violated.elim
      | octetLength length => exact violated.elim

theorem enum_enforces (value : Int) (buf : List PyObj) :
    Enforces (enumWith constraints cls frm tag) value buf
      (∃ c ∈ constraints.all, c.ViolatedByInt value) := by
  obtain ⟨octets, -, encoded⟩ := run_intBEncContent value []
  have encodes : ∃ n buf', ((enumWith constraints cls frm tag).bEncContent value).run [] =
      .ok n buf' := ⟨_, _, encoded⟩
  rw [Enforces, raises_iff_of_answers encodes
    (AsnEnum.passesAll_eq value) rfl buf]
  simp only [AsnEnum.passes_eq_false_iff]

/-- Octet strings never raise, so that they enforce the constraints that they satisfy. -/
theorem octs_enforces_iff (octs : List UInt8) (buf : List PyObj) :
    Enforces (octsWith constraints cls frm tag) (octs.map .chr) buf
        (∃ c ∈ constraints.all, c.ViolatedByOctets octs) ↔
      ¬ ∃ c ∈ constraints.all, c.ViolatedByOctets octs := by
  have answers : ∀ constraints : List Constraint,
      AsnBase.passesAll constraints (octs.map PyObj.chr) =
        .ok (constraints.all fun _ => true) := by
    intro constraints
    rw [List.all_eq_true.mpr fun _ _ => rfl]
    rfl
  have encodes : ∃ n buf', ((octsWith constraints cls frm tag).bEncContent
      (octs.map PyObj.chr)).run [] = .ok n buf' := ⟨_, _, rfl⟩
  rw [Enforces, raises_iff_of_answers encodes answers rfl buf]
  have never : ¬ ∃ c ∈ constraints.all, true = false := by
    rintro ⟨c, -, impossible⟩
    cases impossible
  rw [iff_false_left never]

/-- Which objects enforce their constraints: enumerated values do, integers unless a list of numbers
is the only one violated, and octet and numeric strings where they satisfy them all. -/
theorem constraints_enforced_iff (buf : List PyObj) :
    (∀ value, Enforces (intWith constraints cls frm tag) value buf
        (∃ c ∈ constraints.all, c.ViolatedByInt value) ↔
      ((∃ enums, .enumerated enums ∈ constraints.all ∧ value ∉ enums) →
        ∃ lower upper, .integer lower upper ∈ constraints.all ∧
          (Constraint.integer lower upper).ViolatedByInt value)) ∧
    (∀ value, Enforces (enumWith constraints cls frm tag) value buf
      (∃ c ∈ constraints.all, c.ViolatedByInt value)) ∧
    (∀ octs : List UInt8, Enforces (octsWith constraints cls frm tag) (octs.map .chr) buf
        (∃ c ∈ constraints.all, c.ViolatedByOctets octs) ↔
      ¬ ∃ c ∈ constraints.all, c.ViolatedByOctets octs) ∧
    (∀ (added : List Constraint) (octs : List UInt8),
      Enforces (numericStringWith added cls frm tag) (octs.map .chr) buf
          (∃ c ∈ NumericStrConstraint :: added, c.ViolatedByOctets octs) ↔
        ¬ ∃ c ∈ NumericStrConstraint :: added, c.ViolatedByOctets octs) :=
  ⟨fun value => int_enforces_iff constraints cls frm tag value buf,
    fun value => enum_enforces constraints cls frm tag value buf,
    fun octs => octs_enforces_iff constraints cls frm tag octs buf,
    fun added octs =>
      octs_enforces_iff (.list (NumericStrConstraint :: added)) cls frm tag octs buf⟩

/-- The numeric string of one letter is encoded. -/
theorem not_constraints_enforced :
    ¬ ∀ (added : List Constraint) (cls : BerClass) (frm : BerForm) (tag : Nat)
      (octs : List UInt8) (buf : List PyObj),
      Enforces (numericStringWith added cls frm tag) (octs.map .chr) buf
        (∃ c ∈ NumericStrConstraint :: added, c.ViolatedByOctets octs) := by
  intro enforced
  have letter := enforced [] .univ .prim 18 [65] []
  refine (octs_enforces_iff (.list [NumericStrConstraint]) .univ .prim 18 [65] []).mp letter ?_
  exact ⟨NumericStrConstraint, List.mem_cons_self, 65, List.mem_singleton_self 65,
    .inr (.inr ⟨_, rfl, by decide⟩)⟩

end Esnacc.Python
