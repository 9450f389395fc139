import Mathlib.Algebra.Group.Int.Defs
import Mathlib.Algebra.Group.Nat.Defs
import Mathlib.Data.Int.Notation
import Mathlib.Data.List.Basic
import Mathlib.Data.List.DropRight
import Mathlib.Logic.Relation

/-! The parser of OBJECT IDENTIFIER values in braces, whose cursor stays inside the string. -/

namespace Esnacc.Compiler.ValParser

/-! ## Comments -/

mutual

/-- StripComments: the text without its comments. -/
def stripComments : List Char → List Char
  | '-' :: '-' :: s => eatComment s
  | c :: s => c :: stripComments s
  | [] => []

/-- The loop over the body of a comment, and the rest of StripComments. -/
def eatComment : List Char → List Char
  | '-' :: '-' :: s => stripComments s
  | '\n' :: s => stripComments s
  | _ :: s => eatComment s
  | [] => []

end

/-! ## Scanners -/

/-- How the parsing ends when no value is returned. -/
inductive Stopped where
  /-- FAIL, with the message that was printed. -/
  | fail (message : String)
  /-- A read or a move that leaves the string, or a read through a pointer that was never set. -/
  | outside
  | outOfTurns
  deriving DecidableEq

abbrev ParseM := Except Stopped

/-- A place in a string: the characters in front of it, the nearest first, and those from it up to
the zero that ends the string. -/
structure Cursor where
  before : List Char
  rest : List Char
  deriving DecidableEq

namespace Cursor

/-- AT_EOF. -/
def atEof (vStr : Cursor) : Bool :=
  vStr.rest.isEmpty

/-- `**vStr`, which is the zero at the end. -/
def char (vStr : Cursor) : Char :=
  vStr.rest.headD '\x00'

/-- `*(*vStr - 1)`. -/
def charBefore : Cursor → ParseM Char
  | ⟨c :: _, _⟩ => return c
  | ⟨[], _⟩ => throw .outside

/-- `(*vStr)++`. -/
def next : Cursor → ParseM Cursor
  | ⟨before, c :: rest⟩ => return ⟨c :: before, rest⟩
  | ⟨_, []⟩ => throw .outside

/-- `(*vStr)--`. -/
def back : Cursor → ParseM Cursor
  | ⟨c :: before, rest⟩ => return ⟨before, c :: rest⟩
  | ⟨[], _⟩ => throw .outside

/-- The copy of the characters between two places. -/
def copyFrom (start vStr : Cursor) : List Char :=
  (vStr.before.take (vStr.before.length - start.before.length)).reverse

end Cursor

/-- The characters that SkipWht skips. -/
def isWht (c : Char) : Bool :=
  ['\n', '\x0c', '\x0b', '\r', '\t', ' ', '\x07', '\x08'].contains c

/-- The loop of SkipWht. -/
def skipWhtTurns : List Char → List Char → Cursor
  | before, c :: rest => if isWht c then skipWhtTurns (c :: before) rest else ⟨before, c :: rest⟩
  | before, [] => ⟨before, []⟩

/-- SkipWht. -/
def skipWht (vStr : Cursor) : Cursor :=
  skipWhtTurns vStr.before vStr.rest

/-- The loop of ParseIdentifier. -/
def identifierTurns : List Char → List Char → ParseM Cursor
  | before, c :: rest => do
    if c.isAlpha || c.isDigit then identifierTurns (c :: before) rest
    else if c = '-' then
      if (← Cursor.charBefore ⟨before, c :: rest⟩) = '-' then return ⟨before, c :: rest⟩
      else identifierTurns (c :: before) rest
    else return ⟨before, c :: rest⟩
  | before, [] => return ⟨before, []⟩

/-- ParseIdentifier: the copy if there is an identifier, and the place behind it. -/
def parseIdentifier (start : Cursor) : ParseM (Option (List Char) × Cursor) := do
  if start.atEof then return (none, start)
  else if !start.char.isLower then return (none, start)
  else
    let first ← start.next
    let vStr ← identifierTurns first.before first.rest
    let vStr ← if (← vStr.charBefore) = '-' then vStr.back else pure vStr
    return (some (start.copyFrom vStr), vStr)

/-- The loop of ParseNum. -/
def numTurns : List Char → List Char → Cursor
  | before, c :: rest => if c.isDigit then numTurns (c :: before) rest else ⟨before, c :: rest⟩
  | before, [] => ⟨before, []⟩

/-- ParseNum: the copy if there is a number, and the place behind it. -/
def parseNum (start : Cursor) : ParseM (Option (List Char) × Cursor) :=
  let vStr := numTurns start.before start.rest
  if (start.copyFrom vStr).isEmpty then return (none, start)
  else return (some (start.copyFrom vStr), vStr)

/-! ## Components -/

/-- The value reference of a component. -/
inductive ValueRef where
  | localValueRef (valueName : List Char)
  | importValueRef (valueName moduleName : List Char)
  deriving DecidableEq

/-- An element of the linked OBJECT IDENTIFIER. -/
structure OID where
  valueRef : Option ValueRef
  arcNum : ℤ
  deriving DecidableEq

def NULL_OID_ARCNUM : ℤ := -1

/-- `oidArcNameMapG`. -/
def oidArcNameMap : List (String × ℤ) :=
  [("itu-t", 0), ("iso", 1), ("joint-iso-itu-t", 2), ("standard", 0), ("registration-authority", 1),
    ("member-body", 2), ("identified-organization", 3), ("recommendation", 0), ("question", 1),
    ("administration", 2), ("network-operator", 3), ("ccitt", 0), ("joint-iso-ccitt", 2)]

/-- OidArcNameToNum. -/
def oidArcNameToNum (name : List Char) : ℤ :=
  match oidArcNameMap.find? fun entry => name = entry.1.toList with
  | some entry => entry.2
  | none => -1

/-- The number that digits stand for. -/
def digitsValue (num : List Char) : ℕ :=
  Nat.ofDigitChars 10 num 0

/-- `atoi` of digits: the `long` of `strtol`, which ends at its maximum, as an `int`. -/
def atoi (num : List Char) : ℤ :=
  (min (digitsValue num) (2 ^ 63 - 1) : ℤ).bmod (2 ^ 32)

/-- The module name behind the `.` of a reference. -/
def parseModuleName (id2 : List Char) (vStr : Cursor) : ParseM (Option (List Char) × Cursor) := do
  if vStr.char = '.' then
    match ← parseIdentifier (← vStr.next) with
    | (some id3, vStr) => return (some id3, vStr)
    | (none, _) =>
      throw (.fail ("ERROR - missing a module name after the \"" ++ String.ofList id2 ++
        ".\" value reference"))
  else return (none, vStr)

/-- The value reference with the names `id2` and `id3`. -/
def toValueRef (id2 : List Char) : Option (List Char) → ValueRef
  | some id3 => .importValueRef id2 id3
  | none => .localValueRef id2

/-- The component in front of the `(`, with what stands in the parentheses; `id2` keeps the pointer
to the last reference. -/
def parseNamedArc (id2 : Option (List Char)) (vStr : Cursor) :
    ParseM (OID × Option (List Char) × Cursor) := do
  let vStr := skipWht (← vStr.next)
  match ← parseIdentifier vStr with
  | (some id2, vStr) =>
    let (id3, vStr) ← parseModuleName id2 vStr
    let vStr := skipWht vStr
    if vStr.char = ')' then
      return (⟨some (toValueRef id2 id3), NULL_OID_ARCNUM⟩, some id2, ← vStr.next)
    else
      throw (.fail ("ERROR - missing a closing \")\", after the \"" ++ String.ofList id2 ++
        "\" value reference.\n"))
  | (none, vStr) =>
    match ← parseNum vStr with
    | (some num, vStr) =>
      let vStr := skipWht vStr
      if vStr.char = ')' then return (⟨none, atoi num⟩, id2, ← vStr.next)
      else
        -- The message wants the name in front of the `(`, and prints through `id2`.
        let some id2 := id2 | throw .outside
        throw (.fail ("ERROR - missing a closing \")\" after the \"" ++ String.ofList id2 ++ " (" ++
          String.ofList num ++ "\".\n"))
    | (none, _) =>
      throw (.fail "ERROR - expecting either a value reference or number after the \"(\".\n")

/-- The component for a name that no `(` follows. -/
def nameArc (id : List Char) : OID :=
  if oidArcNameToNum id ≠ -1 then ⟨none, oidArcNameToNum id⟩
  else ⟨some (.localValueRef id), NULL_OID_ARCNUM⟩

/-- The body of the loop over the components. -/
def parseArc (id2 : Option (List Char)) (vStr : Cursor) :
    ParseM (OID × Option (List Char) × Cursor) := do
  match ← parseIdentifier vStr with
  | (some id, vStr) =>
    let vStr := skipWht vStr
    if vStr.char = '(' then parseNamedArc id2 vStr
    else return (nameArc id, id2, vStr)
  | (none, vStr) =>
    match ← parseNum vStr with
    | (some num, vStr) => return (⟨none, atoi num⟩, id2, vStr)
    | (none, _) => throw (.fail "ERROR - bady formed arc number\n")

/-- The loop over the components. -/
def parseArcs : ℕ → Option (List Char) → Cursor → ParseM (List OID)
  | 0, _, _ => throw .outOfTurns
  | turns + 1, id2, vStr => do
    if vStr.char = '}' then
      let _ ← vStr.next
      return []
    else
      let (arc, id2, vStr) ← parseArc id2 vStr
      return arc :: (← parseArcs turns id2 (skipWht vStr))

/-- ParseOidValue: the linked OBJECT IDENTIFIER. -/
def parseOidValue (turns : ℕ) (vStr : Cursor) : ParseM (List OID) := do
  if vStr.atEof then
    throw (.fail "ERROR - expecting more data in OBJECT IDENTIFER value\n")
  else
    let vStr := skipWht vStr
    if vStr.char ≠ '{' then
      throw (.fail "ERROR - OBJECT IDENTIFER values must begin with an \"\x7b\".\n")
    else
      parseArcs turns none (skipWht (← vStr.next))

/-- ParseValue for an OBJECT IDENTIFIER: the copy without the comments ends at its first zero. -/
def parseValue (turns : ℕ) (valueNotation : List Char) : ParseM (List OID) :=
  parseOidValue turns ⟨[], (stripComments valueNotation).takeWhile (· ≠ '\x00')⟩

/-! ## What the scanners read -/

/-- What follows white space. -/
def pastWht (r : List Char) : List Char :=
  r.dropWhile isWht

/-- The characters with which a name goes on behind a character. -/
def nameTail : Char → List Char → List Char
  | prev, c :: rest =>
    if c.isAlpha || c.isDigit || (c = '-' && prev ≠ '-') then c :: nameTail c rest else []
  | _, [] => []

/-- The characters without the hyphen at the end. -/
def trimHyphen (w : List Char) : List Char :=
  if w.getLast? = some '-' then w.dropLast else w

/-- The identifier at the front, and what follows it. -/
def identifier? : List Char → Option (List Char × List Char)
  | c :: rest =>
    if c.isLower then
      let w := trimHyphen (c :: nameTail c rest)
      some (w, (c :: rest).drop w.length)
    else none
  | [] => none

/-- The number at the front, and what follows it. -/
def number? (r : List Char) : Option (List Char × List Char) :=
  if r.takeWhile Char.isDigit = [] then none
  else some (r.takeWhile Char.isDigit, r.dropWhile Char.isDigit)

theorem skipWhtTurns_eq (before r : List Char) :
    skipWhtTurns before r = ⟨(r.takeWhile isWht).reverse ++ before, pastWht r⟩ := by
  induction r generalizing before with
  | nil => rfl
  | cons c rest ih =>
    unfold skipWhtTurns pastWht
    cases white : isWht c with
    | true => simp [white, ih, pastWht]
    | false => simp [white]

theorem skipWht_eq (vStr : Cursor) :
    skipWht vStr = ⟨(vStr.rest.takeWhile isWht).reverse ++ vStr.before, pastWht vStr.rest⟩ :=
  skipWhtTurns_eq _ _

theorem numTurns_eq (before r : List Char) :
    numTurns before r =
      ⟨(r.takeWhile Char.isDigit).reverse ++ before, r.dropWhile Char.isDigit⟩ := by
  induction r generalizing before with
  | nil => rfl
  | cons c rest ih =>
    unfold numTurns
    cases digit : c.isDigit with
    | true => simp [digit, ih]
    | false => simp [digit]

theorem copyFrom_append (before w r s : List Char) :
    Cursor.copyFrom ⟨before, r⟩ ⟨w.reverse ++ before, s⟩ = w := by
  simp [Cursor.copyFrom]

theorem parseNum_eq (before r : List Char) :
    parseNum ⟨before, r⟩ = .ok (match number? r with
      | some (num, s) => (some num, ⟨num.reverse ++ before, s⟩)
      | none => (none, ⟨before, r⟩)) := by
  unfold parseNum number?
  simp only [numTurns_eq, copyFrom_append, List.isEmpty_iff]
  split
  · rfl
  · rfl

theorem nameTail_append_drop (prev : Char) (r : List Char) :
    nameTail prev r ++ r.drop (nameTail prev r).length = r := by
  induction r generalizing prev with
  | nil => rfl
  | cons c rest ih =>
    unfold nameTail
    split
    · simp [ih]
    · rfl

/-- The loop of ParseIdentifier passes what goes on with the name. -/
theorem identifierTurns_eq (prev : Char) (before r : List Char) :
    identifierTurns (prev :: before) r =
      .ok ⟨(nameTail prev r).reverse ++ prev :: before, r.drop (nameTail prev r).length⟩ := by
  induction r generalizing prev before with
  | nil => rfl
  | cons c rest ih =>
    unfold identifierTurns nameTail
    by_cases alnum : (c.isAlpha || c.isDigit) = true
    · simp [alnum, ih]
    · by_cases hyphen : c = '-'
      · subst hyphen
        by_cases double : prev = '-'
        · simp [double, Cursor.charBefore, bind, Except.bind, pure, Except.pure]
        · simp [double, Cursor.charBefore, bind, Except.bind, pure, Except.pure, ih]
      · simp [alnum, hyphen, pure, Except.pure]

/-- ParseIdentifier reads the identifier at the front. -/
theorem parseIdentifier_eq (before r : List Char) :
    parseIdentifier ⟨before, r⟩ = .ok (match identifier? r with
      | some (w, s) => (some w, ⟨w.reverse ++ before, s⟩)
      | none => (none, ⟨before, r⟩)) := by
  cases r with
  | nil => rfl
  | cons c rest =>
    by_cases lower : c.isLower = true
    · -- The name ends with some character, which is given back if it is a hyphen.
      obtain ⟨body, last, ends⟩ : ∃ body last, c :: nameTail c rest = body ++ [last] :=
        ⟨_, _, (List.dropLast_append_getLast (List.cons_ne_nil _ _)).symm⟩
      have follows : (c :: rest).drop (body.length + 1) = rest.drop (nameTail c rest).length := by
        have lengths := congrArg List.length ends
        simp only [List.length_cons, List.length_append, List.length_nil] at lengths
        rw [← lengths]
        rfl
      have whole : (c :: rest) = (body ++ [last]) ++ rest.drop (nameTail c rest).length := by
        rw [← ends]
        simp [nameTail_append_drop]
      have passed : (nameTail c rest).reverse ++ c :: before = last :: (body.reverse ++ before) :=
        calc (nameTail c rest).reverse ++ c :: before
          _ = (c :: nameTail c rest).reverse ++ before := by simp
          _ = last :: (body.reverse ++ before) := by simp [ends]
      by_cases hyphen : last = '-'
      · subst hyphen
        have given : (c :: rest).drop body.length = '-' :: rest.drop (nameTail c rest).length := by
          conv_lhs => rw [whole]
          simp
        simp [parseIdentifier, identifier?, lower, Cursor.atEof, Cursor.char, Cursor.next,
          identifierTurns_eq, passed, Cursor.charBefore, Cursor.back, ends, trimHyphen, given,
          copyFrom_append, bind, Except.bind, pure, Except.pure]
      · have kept := copyFrom_append before (body ++ [last]) (c :: rest)
          (rest.drop (nameTail c rest).length)
        simp only [List.reverse_append, List.reverse_cons, List.reverse_nil, List.nil_append,
          List.cons_append] at kept
        simp [parseIdentifier, identifier?, lower, Cursor.atEof, Cursor.char, Cursor.next,
          identifierTurns_eq, passed, Cursor.charBefore, ends, trimHyphen, hyphen, follows, kept,
          bind, Except.bind, pure, Except.pure]
    · simp [parseIdentifier, identifier?, lower, Cursor.atEof, Cursor.char, pure, Except.pure]

/-- An identifier is at the front of what it is read from, and not empty. -/
theorem identifier?_append {r w s : List Char} (read : identifier? r = some (w, s)) :
    r = w ++ s ∧ w ≠ [] := by
  cases r with
  | nil => cases read
  | cons c rest =>
    by_cases lower : c.isLower = true
    · simp only [identifier?, lower, if_true, Option.some.injEq, Prod.mk.injEq] at read
      obtain ⟨rfl, rfl⟩ := read
      have whole := nameTail_append_drop c rest
      unfold trimHyphen
      split
      next hyphen =>
        cases tail : nameTail c rest with
        | nil =>
          -- A single hyphen is no lower-case letter.
          simp only [tail, List.getLast?_singleton, Option.some.injEq] at hyphen
          subst hyphen
          contradiction
        | cons d more =>
          rw [tail] at whole
          refine ⟨?_, by simp [List.dropLast]⟩
          have fits : (c :: d :: more).dropLast <+: c :: rest :=
            ((List.dropLast_prefix _).trans ⟨_, by simpa using whole⟩)
          exact (List.prefix_iff_eq_append.mp fits).symm
      next => exact ⟨by simp [whole], List.cons_ne_nil _ _⟩
    · simp [identifier?, lower] at read

theorem number?_append {r w s : List Char} (read : number? r = some (w, s)) :
    r = w ++ s ∧ w ≠ [] := by
  unfold number? at read
  split at read
  · cases read
  next some =>
    simp only [Option.some.injEq, Prod.mk.injEq] at read
    obtain ⟨rfl, rfl⟩ := read
    exact ⟨List.takeWhile_append_dropWhile.symm, some⟩

theorem length_pastWht_le (r : List Char) : (pastWht r).length ≤ r.length :=
  (List.dropWhile_suffix _).length_le

theorem pastWht_pastWht (r : List Char) : pastWht (pastWht r) = pastWht r :=
  List.dropWhile_idempotent _ _

theorem length_lt_of_identifier? {r w s : List Char} (read : identifier? r = some (w, s)) :
    s.length < r.length := by
  obtain ⟨rfl, some⟩ := identifier?_append read
  simpa using List.length_pos_iff.mpr some

theorem length_lt_of_number? {r w s : List Char} (read : number? r = some (w, s)) :
    s.length < r.length := by
  obtain ⟨rfl, some⟩ := number?_append read
  simpa using List.length_pos_iff.mpr some

/-! ## Components -/

@[simp]
theorem char_cons (before rest : List Char) (c : Char) : Cursor.char ⟨before, c :: rest⟩ = c :=
  rfl

theorem char_ne (before : List Char) {r : List Char} {c : Char} (absent : r.head? ≠ some c) (real : c ≠ '\x00') :
    Cursor.char ⟨before, r⟩ ≠ c := by
  cases r with
  | nil => exact real.symm
  | cons d rest => simpa using absent

section Forms

variable {r s t u v id num ref : List Char} (id2 : Option (List Char)) (before : List Char)

theorem parseArc_number (noName : identifier? r = none) (digits : number? r = some (num, s)) :
    ∃ before', parseArc id2 ⟨before, r⟩ = .ok (⟨none, atoi num⟩, id2, ⟨before', s⟩) := by
  simp [parseArc, parseIdentifier_eq, noName, parseNum_eq, digits, bind, Except.bind, pure,
    Except.pure]

theorem parseArc_name (name : identifier? r = some (id, s)) (bare : (pastWht s).head? ≠ some '(') :
    ∃ before', parseArc id2 ⟨before, r⟩ = .ok (nameArc id, id2, ⟨before', pastWht s⟩) := by
  have other := fun before => char_ne before bare (by decide)
  simp [parseArc, parseIdentifier_eq, name, skipWht_eq, other, bind, Except.bind, pure, Except.pure]

theorem parseArc_named (name : identifier? r = some (id, s)) (opened : pastWht s = '(' :: t) :
    ∃ before', parseArc id2 ⟨before, r⟩ = parseNamedArc id2 ⟨before', '(' :: t⟩ := by
  refine ⟨(s.takeWhile isWht).reverse ++ (id.reverse ++ before), ?_⟩
  simp [parseArc, parseIdentifier_eq, name, skipWht_eq, opened, bind, Except.bind]

theorem parseNamedArc_number (noName : identifier? (pastWht t) = none)
    (digits : number? (pastWht t) = some (num, u)) (closed : pastWht u = ')' :: v) :
    ∃ before', parseNamedArc id2 ⟨before, '(' :: t⟩ =
      .ok (⟨none, atoi num⟩, id2, ⟨before', v⟩) := by
  simp [parseNamedArc, Cursor.next, skipWht_eq, parseIdentifier_eq, noName, parseNum_eq, digits,
    closed, bind, Except.bind, pure, Except.pure]

/-- A number behind a `(` that is not closed: the message reads the reference. -/
theorem parseNamedArc_open (noName : identifier? (pastWht t) = none)
    (digits : number? (pastWht t) = some (num, u)) (isOpen : (pastWht u).head? ≠ some ')') :
    (id2 = none → parseNamedArc id2 ⟨before, '(' :: t⟩ = .error .outside) ∧
      (id2 ≠ none → ∃ message, parseNamedArc id2 ⟨before, '(' :: t⟩ = .error (.fail message)) := by
  have other := fun before => char_ne before isOpen (by decide)
  cases id2 with
  | none =>
    simp [parseNamedArc, Cursor.next, skipWht_eq, parseIdentifier_eq, noName, parseNum_eq, digits,
      other, bind, Except.bind, pure, Except.pure, throw, throwThe, MonadExceptOf.throw]
  | some id2 =>
    simp [parseNamedArc, Cursor.next, skipWht_eq, parseIdentifier_eq, noName, parseNum_eq, digits,
      other, bind, Except.bind, pure, Except.pure, throw, throwThe, MonadExceptOf.throw]

theorem parseNamedArc_ref (name : identifier? (pastWht t) = some (ref, u))
    (plain : u.head? ≠ some '.') (closed : pastWht u = ')' :: v) :
    ∃ before', parseNamedArc id2 ⟨before, '(' :: t⟩ =
      .ok (⟨some (.localValueRef ref), NULL_OID_ARCNUM⟩, some ref, ⟨before', v⟩) := by
  have other := fun before => char_ne before plain (by decide)
  simp [parseNamedArc, Cursor.next, skipWht_eq, parseIdentifier_eq, name, parseModuleName, other,
    toValueRef, closed, bind, Except.bind, pure, Except.pure]

theorem parseNamedArc_neither (noName : identifier? (pastWht t) = none)
    (noDigits : number? (pastWht t) = none) :
    ∃ message, parseNamedArc id2 ⟨before, '(' :: t⟩ = .error (.fail message) := by
  simp [parseNamedArc, Cursor.next, skipWht_eq, parseIdentifier_eq, noName, parseNum_eq, noDigits,
    bind, Except.bind, throw, throwThe, MonadExceptOf.throw, pure, Except.pure]

theorem parseArc_neither (noName : identifier? r = none) (noDigits : number? r = none) :
    ∃ message, parseArc id2 ⟨before, r⟩ = .error (.fail message) := by
  simp [parseArc, parseIdentifier_eq, noName, parseNum_eq, noDigits, bind, Except.bind, throw,
    throwThe, MonadExceptOf.throw]

/-- Where the module name is looked for, a message is printed or the string goes on. -/
theorem parseModuleName_settles (id : List Char) (before r : List Char) :
    (∃ message, parseModuleName id ⟨before, r⟩ = .error (.fail message)) ∨
      ∃ id3 before' s, parseModuleName id ⟨before, r⟩ = .ok (id3, ⟨before', s⟩) ∧
        s.length ≤ r.length := by
  by_cases dot : r.head? = some '.'
  · obtain ⟨rest, rfl⟩ := List.head?_eq_some_iff.mp dot
    cases name : identifier? rest with
    | none =>
      left
      simp [parseModuleName, Cursor.next, parseIdentifier_eq, name, bind, Except.bind, pure,
        Except.pure, throw, throwThe, MonadExceptOf.throw]
    | some read =>
      right
      have shorter := length_lt_of_identifier? (w := read.1) (s := read.2) name
      refine ⟨some read.1, read.1.reverse ++ '.' :: before, read.2, ?_, ?_⟩
      · simp [parseModuleName, Cursor.next, parseIdentifier_eq, name, bind, Except.bind, pure,
          Except.pure]
      · simp only [List.length_cons]
        omega
  · right
    refine ⟨none, before, r, ?_, Nat.le_refl _⟩
    simp [parseModuleName, char_ne _ dot, pure, Except.pure]

/-- A reference in parentheses sets the pointer, or a message is printed. -/
theorem parseNamedArc_name (name : identifier? (pastWht t) = some (ref, u)) :
    (∃ message, parseNamedArc id2 ⟨before, '(' :: t⟩ = .error (.fail message)) ∨
      ∃ arc before' v, parseNamedArc id2 ⟨before, '(' :: t⟩ = .ok (arc, some ref, ⟨before', v⟩) ∧
        v.length < t.length := by
  have behind := length_lt_of_identifier? name
  have front := length_pastWht_le t
  rcases parseModuleName_settles ref
    (ref.reverse ++ ((t.takeWhile isWht).reverse ++ '(' :: before)) u with
    ⟨message, failed⟩ | ⟨id3, before', s, read, notLonger⟩
  · left
    exact ⟨message, by simp [parseNamedArc, Cursor.next, skipWht_eq, parseIdentifier_eq, name,
      failed, bind, Except.bind, pure, Except.pure]⟩
  · have last := length_pastWht_le s
    cases closing : pastWht s with
    | nil =>
      left
      simp [parseNamedArc, Cursor.next, skipWht_eq, parseIdentifier_eq, name, read, closing,
        Cursor.char, bind, Except.bind, pure, Except.pure, throw, throwThe, MonadExceptOf.throw]
    | cons c v =>
      rw [closing, List.length_cons] at last
      by_cases parenthesis : c = ')'
      · right
        subst parenthesis
        refine ⟨⟨some (toValueRef ref id3), NULL_OID_ARCNUM⟩,
          ')' :: ((s.takeWhile isWht).reverse ++ before'), v, ?_, by omega⟩
        simp [parseNamedArc, Cursor.next, skipWht_eq, parseIdentifier_eq, name, read, closing,
          bind, Except.bind, pure, Except.pure]
      · left
        simp [parseNamedArc, Cursor.next, skipWht_eq, parseIdentifier_eq, name, read, closing,
          parenthesis, bind, Except.bind, pure, Except.pure, throw, throwThe, MonadExceptOf.throw]

end Forms

/-! ## Runs -/

/-- A component without a reference stands at the front, and what follows it and white space. -/
inductive ReadsOver : List Char → List Char → Prop
  | number {r num s : List Char} (noName : identifier? r = none)
      (digits : number? r = some (num, s)) : ReadsOver r (pastWht s)
  | name {r id s : List Char} (name : identifier? r = some (id, s))
      (bare : (pastWht s).head? ≠ some '(') : ReadsOver r (pastWht s)
  | nameNumber {r id s t num u v : List Char} (name : identifier? r = some (id, s))
      (opened : pastWht s = '(' :: t) (noName : identifier? (pastWht t) = none)
      (digits : number? (pastWht t) = some (num, u)) (closed : pastWht u = ')' :: v) :
      ReadsOver r (pastWht v)

/-- A name, a `(` and a number stand at the front, and no `)` behind them. -/
def OpensNumber (r : List Char) : Prop :=
  ∃ id s t num u, identifier? r = some (id, s) ∧ pastWht s = '(' :: t ∧
    identifier? (pastWht t) = none ∧ number? (pastWht t) = some (num, u) ∧
    (pastWht u).head? ≠ some ')'

/-- Behind components without a reference, a number in parentheses is not closed. -/
def MeetsOpenNumber (r : List Char) : Prop :=
  ∃ s, Relation.ReflTransGen ReadsOver r s ∧ OpensNumber s

/-- Nothing of this kind stands at the front. -/
def Otherwise (r : List Char) : Prop :=
  (∀ s, ¬ ReadsOver r s) ∧ ¬ OpensNumber r

theorem ReadsOver.unique {r s s' : List Char} (one : ReadsOver r s) (other : ReadsOver r s') :
    s = s' := by
  cases one with
  | number noName digits => cases other <;> simp_all
  | name name bare => cases other <;> simp_all
  | nameNumber name opened noName digits closed => cases other <;> simp_all

theorem ReadsOver.not_opensNumber {r s : List Char} (one : ReadsOver r s) : ¬ OpensNumber r := by
  rintro ⟨id, a, t, num, u, name', opened', noName', digits', isOpen⟩
  cases one <;> simp_all

theorem meetsOpenNumber_iff {r s : List Char} (one : ReadsOver r s) :
    MeetsOpenNumber r ↔ MeetsOpenNumber s := by
  constructor
  · rintro ⟨last, steps, opens⟩
    rcases steps.cases_head with rfl | ⟨next, step, steps⟩
    · exact absurd opens one.not_opensNumber
    · exact ⟨last, (one.unique step) ▸ steps, opens⟩
  · rintro ⟨last, steps, opens⟩
    exact ⟨last, steps.head one, opens⟩

theorem Otherwise.not_meetsOpenNumber {r : List Char} (other : Otherwise r) :
    ¬ MeetsOpenNumber r := by
  rintro ⟨last, steps, opens⟩
  rcases steps.cases_head with rfl | ⟨next, step, steps⟩
  · exact other.2 opens
  · exact other.1 next step

/-- What one turn of the loop does. -/
theorem parseArc_settles (id2 : Option (List Char)) (before r : List Char) :
    ((∃ message, parseArc id2 ⟨before, r⟩ = .error (.fail message)) ∧ Otherwise r) ∨
    (OpensNumber r ∧ (id2 = none → parseArc id2 ⟨before, r⟩ = .error .outside) ∧
      (id2 ≠ none → ∃ message, parseArc id2 ⟨before, r⟩ = .error (.fail message))) ∨
    (∃ arc before' s, parseArc id2 ⟨before, r⟩ = .ok (arc, id2, ⟨before', s⟩) ∧
      ReadsOver r (pastWht s) ∧ s.length < r.length) ∨
    (∃ arc ref before' s, parseArc id2 ⟨before, r⟩ = .ok (arc, some ref, ⟨before', s⟩) ∧
      Otherwise r ∧ s.length < r.length) := by
  cases name : identifier? r with
  | none =>
    cases digits : number? r with
    | none =>
      refine .inl ⟨parseArc_neither id2 before name digits, fun s one => ?_, ?_⟩
      · cases one <;> simp_all
      · rintro ⟨id, s, t, num, u, name', -⟩
        simp_all
    | some read =>
      obtain ⟨num, s⟩ := read
      obtain ⟨before', result⟩ := parseArc_number id2 before name digits
      exact .inr (.inr (.inl ⟨_, before', s, result, .number name digits,
        length_lt_of_number? digits⟩))
  | some read =>
    obtain ⟨id, s⟩ := read
    have behindName := length_lt_of_identifier? name
    have behindWht := length_pastWht_le s
    by_cases bare : (pastWht s).head? ≠ some '('
    · obtain ⟨before', result⟩ := parseArc_name id2 before name bare
      refine .inr (.inr (.inl ⟨_, before', _, result, ?_, by omega⟩))
      rw [pastWht_pastWht]
      exact .name name bare
    · obtain ⟨t, opened⟩ := List.head?_eq_some_iff.mp (not_not.mp bare)
      obtain ⟨before', result⟩ := parseArc_named id2 before name opened
      have inside := congrArg List.length opened
      rw [List.length_cons] at inside
      have insideWht := length_pastWht_le t
      rw [result]
      cases inner : identifier? (pastWht t) with
      | some read =>
        obtain ⟨ref, u⟩ := read
        have other : Otherwise r := by
          refine ⟨fun s one => ?_, ?_⟩
          · cases one <;> simp_all
          · rintro ⟨id', s', t', num, u', name', opened', noName, -⟩
            simp_all
        rcases parseNamedArc_name id2 before' inner with
          failed | ⟨arc, before'', v, result, shorter⟩
        · exact .inl ⟨failed, other⟩
        · exact .inr (.inr (.inr ⟨arc, ref, before'', v, result, other, by omega⟩))
      | none =>
        cases digits : number? (pastWht t) with
        | none =>
          refine .inl ⟨parseNamedArc_neither id2 before' inner digits, fun s one => ?_, ?_⟩
          · cases one <;> simp_all
          · rintro ⟨id', s', t', num, u', name', opened', noName, digits', -⟩
            simp_all
        | some read =>
          obtain ⟨num, u⟩ := read
          have behindNum := length_lt_of_number? digits
          by_cases isOpen : (pastWht u).head? ≠ some ')'
          · exact .inr (.inl ⟨⟨id, s, t, num, u, name, opened, inner, digits, isOpen⟩,
              parseNamedArc_open id2 before' inner digits isOpen⟩)
          · obtain ⟨v, closed⟩ := List.head?_eq_some_iff.mp (not_not.mp isOpen)
            obtain ⟨before'', result⟩ := parseNamedArc_number id2 before' inner digits closed
            have closing := length_pastWht_le u
            rw [closed, List.length_cons] at closing
            exact .inr (.inr (.inl ⟨_, before'', v, result,
              .nameNumber name opened inner digits closed, by omega⟩))

/-- The loop ends, and leaves the string exactly where no reference was read and an open number is
met. -/
theorem parseArcs_settles (turns : ℕ) (id2 : Option (List Char)) (before r : List Char)
    (enough : r.length < turns) :
    parseArcs turns id2 ⟨before, r⟩ ≠ .error .outOfTurns ∧
      (parseArcs turns id2 ⟨before, r⟩ = .error .outside ↔ id2 = none ∧ MeetsOpenNumber r) := by
  -- The induction is on the turns, of which each takes at least one character.
  induction turns generalizing id2 before r with
  | zero => omega
  | succ turns ih =>
    by_cases closed : Cursor.char ⟨before, r⟩ = '}'
    · have brace : ∃ rest, r = '}' :: rest := by
        cases r with
        | nil => exact absurd closed (show '\x00' ≠ '}' by decide)
        | cons c rest => exact ⟨rest, by simpa using closed⟩
      obtain ⟨rest, rfl⟩ := brace
      have other : Otherwise ('}' :: rest) := by
        refine ⟨fun s one => ?_, ?_⟩
        · cases one with
          | number noName digits => simp [number?] at digits
          | name name bare => simp [identifier?] at name
          | nameNumber name => simp [identifier?] at name
        · rintro ⟨id, s, t, num, u, name, -⟩
          simp [identifier?] at name
      simp [parseArcs, Cursor.next, bind, Except.bind, pure, Except.pure,
        other.not_meetsOpenNumber]
    · have goesOn : ∀ {arc id2' before' s}, parseArc id2 ⟨before, r⟩ =
          .ok (arc, id2', ⟨before', s⟩) → s.length < r.length →
          parseArcs (turns + 1) id2 ⟨before, r⟩ ≠ .error .outOfTurns ∧
            (parseArcs (turns + 1) id2 ⟨before, r⟩ = .error .outside ↔
              id2' = none ∧ MeetsOpenNumber (pastWht s)) := by
        intro arc id2' before' s result shorter
        have notLonger := length_pastWht_le s
        have rest := ih id2' ((s.takeWhile isWht).reverse ++ before') (pastWht s) (by omega)
        have turn : parseArcs (turns + 1) id2 ⟨before, r⟩ =
            (parseArcs turns id2' ⟨(s.takeWhile isWht).reverse ++ before', pastWht s⟩).map
              (arc :: ·) := by
          simp only [parseArcs, closed, if_false, result, skipWht_eq, bind, Except.bind, pure,
            Except.pure]
          rfl
        rw [turn]
        revert rest
        cases parseArcs turns id2' ⟨(s.takeWhile isWht).reverse ++ before', pastWht s⟩ with
        | ok oid => simp [Except.map]
        | error stopped => simp [Except.map]
      have stops : ∀ {stopped}, parseArc id2 ⟨before, r⟩ = .error stopped →
          parseArcs (turns + 1) id2 ⟨before, r⟩ = .error stopped := by
        intro stopped result
        simp [parseArcs, closed, result, bind, Except.bind]
      rcases parseArc_settles id2 before r with ⟨⟨message, failed⟩, other⟩ |
        ⟨opens, wild, printed⟩ | ⟨arc, before', s, result, one, shorter⟩ |
        ⟨arc, ref, before', s, result, other, shorter⟩
      · rw [stops failed]
        simp [other.not_meetsOpenNumber]
      · have met : MeetsOpenNumber r := ⟨r, .refl, opens⟩
        by_cases unset : id2 = none
        · rw [stops (wild unset)]
          simp [unset, met]
        · obtain ⟨message, failed⟩ := printed unset
          rw [stops failed]
          simp [unset]
      · rw [meetsOpenNumber_iff one]
        exact goesOn result shorter
      -- From here on the pointer is set, so that no read leaves the string.
      · have := goesOn result shorter
        simpa [other.not_meetsOpenNumber] using this

/-- The text of a value as it is read, without the comments and up to the first zero. -/
def readText (valueNotation : List Char) : List Char :=
  (stripComments valueNotation).takeWhile (· ≠ '\x00')

/-- Behind the brace and components without a reference, a number in parentheses is not closed. -/
def LeavesNumberOpen (valueNotation : List Char) : Prop :=
  ∃ r, pastWht (readText valueNotation) = '{' :: r ∧ MeetsOpenNumber (pastWht r)

/-- The parser ends on every text, and leaves the string exactly where a number is left open. -/
theorem parseValue_settles (turns : ℕ) (valueNotation : List Char)
    (enough : (readText valueNotation).length < turns) :
    parseValue turns valueNotation ≠ .error .outOfTurns ∧
      (parseValue turns valueNotation = .error .outside ↔ LeavesNumberOpen valueNotation) := by
  have start : parseValue turns valueNotation =
      parseOidValue turns ⟨[], readText valueNotation⟩ := rfl
  rw [start]
  unfold LeavesNumberOpen
  generalize readText valueNotation = text at enough
  have whiteFirst := length_pastWht_le text
  cases empty : text with
  | nil => simp [parseOidValue, Cursor.atEof, pastWht, throw, throwThe, MonadExceptOf.throw]
  | cons c rest =>
    rw [← empty]
    have isSome : Cursor.atEof ⟨[], text⟩ = false := by simp [Cursor.atEof, empty]
    by_cases brace : (pastWht text).head? = some '{'
    · obtain ⟨r, opened⟩ := List.head?_eq_some_iff.mp brace
      have inside := congrArg List.length opened
      rw [List.length_cons] at inside
      have whiteNext := length_pastWht_le r
      have entered : ∃ before, parseOidValue turns ⟨[], text⟩ =
          parseArcs turns none ⟨before, pastWht r⟩ := by
        refine ⟨(r.takeWhile isWht).reverse ++ '{' :: ((text.takeWhile isWht).reverse ++ []), ?_⟩
        simp [parseOidValue, isSome, skipWht_eq, opened, Cursor.next, bind, Except.bind, pure,
          Except.pure]
      obtain ⟨before, entered⟩ := entered
      rw [entered]
      simpa [opened] using parseArcs_settles turns none before (pastWht r) (by omega)
    · have other := fun before => char_ne before brace (by decide)
      have none : ∀ r, pastWht text ≠ '{' :: r := by
        intro r opened
        exact brace (by rw [opened]; rfl)
      simp [parseOidValue, isSome, skipWht_eq, other, none, throw, throwThe, MonadExceptOf.throw]

end Esnacc.Compiler.ValParser
