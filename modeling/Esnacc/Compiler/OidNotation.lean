import Esnacc.Compiler.ValParser
import Mathlib.Algebra.Group.Nat.Defs
import Mathlib.Data.List.Chain

/-! The notation of OBJECT IDENTIFIER values with white space and comments, and what is read from
it. -/

namespace Esnacc.Compiler.ValParser

/-! ## Notation -/

/-- No two hyphens follow one another. -/
def NoDoubleHyphen (w : List Char) : Prop :=
  w.IsChain fun c d => c = '-' → d ≠ '-'

/-- An identifier. -/
structure Name where
  chars : List Char
  head : ∃ c rest, chars = c :: rest ∧ c.isLower = true
  letters : ∀ c ∈ chars, c.isAlpha = true ∨ c.isDigit = true ∨ c = '-'
  noDouble : NoDoubleHyphen chars
  last : chars.getLast? ≠ some '-'

/-- The digits of a number. -/
structure Number where
  digits : List Char
  nonempty : digits ≠ []
  areDigits : ∀ c ∈ digits, c.isDigit = true

namespace Number

def value (num : Number) : ℕ :=
  digitsValue num.digits

end Number

/-- A white-space character or a comment. -/
inductive Separator where
  | white (c : Char) (isWhite : isWht c = true)
  /-- A comment that ends with two hyphens. -/
  | comment (body : List Char) (oneLine : '\n' ∉ body) (isOpen : NoDoubleHyphen (body ++ ['-']))
  /-- A comment that ends with the line. -/
  | lineComment (body : List Char) (oneLine : '\n' ∉ body) (isOpen : NoDoubleHyphen body)

namespace Separator

def text : Separator → List Char
  | white c _ => [c]
  | comment body _ _ => '-' :: '-' :: (body ++ ['-', '-'])
  | lineComment body _ _ => '-' :: '-' :: (body ++ ['\n'])

/-- The white space of a separator. -/
def whites : Separator → List Char
  | white c _ => [c]
  | _ => []

end Separator

/-- White space. -/
structure White where
  chars : List Char
  areWhite : ∀ c ∈ chars, isWht c = true

/-- One separator or more. -/
structure Separators where
  list : List Separator
  nonempty : list ≠ []

namespace Separators

def text (s : Separators) : List Char :=
  s.list.flatMap Separator.text

end Separators

/-- A component with what separates its tokens. -/
inductive Piece (σ : Type) where
  | number (num : Number)
  | name (id : Name)
  | nameNumber (id : Name) (s₁ s₂ : σ) (num : Number) (s₃ : σ)
  | nameRef (id : Name) (s₁ s₂ : σ) (ref : Name) (s₃ : σ)

/-- A component. -/
inductive Component where
  | number (num : Number)
  | name (id : Name)
  | nameNumber (id : Name) (num : Number)
  | nameRef (id ref : Name)

namespace Component

/-- The element for a component: its number, the number of a defined name, or the reference. -/
def arc : Component → OID
  | number num => ⟨none, num.value⟩
  | name id => nameArc id.chars
  | nameNumber _ num => ⟨none, num.value⟩
  | nameRef _ ref => ⟨some (.localValueRef ref.chars), NULL_OID_ARCNUM⟩

/-- The number of a component, if it has one, has 31 bits. -/
def Small : Component → Prop
  | number num | nameNumber _ num => num.value < 2 ^ 31
  | name _ | nameRef _ _ => True

end Component

namespace Piece

variable {σ τ : Type}

def component : Piece σ → Component
  | number num => .number num
  | name id => .name id
  | nameNumber id _ _ num _ => .nameNumber id num
  | nameRef id _ _ ref _ => .nameRef id ref

/-- The text of a component. -/
def text (sep : σ → List Char) : Piece σ → List Char
  | number num => num.digits
  | name id => id.chars
  | nameNumber id s₁ s₂ num s₃ =>
    id.chars ++ (sep s₁ ++ '(' :: (sep s₂ ++ (num.digits ++ (sep s₃ ++ [')']))))
  | nameRef id s₁ s₂ ref s₃ =>
    id.chars ++ (sep s₁ ++ '(' :: (sep s₂ ++ (ref.chars ++ (sep s₃ ++ [')']))))

/-- Two components of which the first goes on with the second where nothing is between them. -/
def Joins : Piece σ → Piece τ → Prop
  | name _, _ => True
  | number _, number _ => True
  | _, _ => False

end Piece

/-- The text of components with what follows each of them. -/
def piecesText {σ : Type} (sep : σ → List Char) (pieces : List (Piece σ × σ)) : List Char :=
  pieces.flatMap fun piece => piece.1.text sep ++ sep piece.2

/-- A value in braces, with separators between the tokens. -/
structure Notation where
  lead : List Separator
  opening : Separators
  pieces : List (Piece Separators × Separators)
  trail : List Char

namespace Notation

/-- The text of a value, with what stands around it. -/
def text (written : Notation) : List Char :=
  written.lead.flatMap Separator.text ++ '{' :: (written.opening.text ++
    (piecesText Separators.text written.pieces ++ '}' :: written.trail))

def components (written : Notation) : List Component :=
  written.pieces.map (·.1.component)

/-- The components are read in their order. -/
def IsRead (written : Notation) : Prop :=
  ∃ enough, ∀ turns, enough ≤ turns →
    parseValue turns written.text = .ok (written.components.map Component.arc)

/-- Names and what follows them, and numbers that follow numbers, are not separated by comments
alone. -/
def KeepsApart (written : Notation) : Prop :=
  written.pieces.IsChain fun piece next =>
    piece.1.Joins next.1 → ∃ s ∈ piece.2.list, ∃ c isWhite, s = .white c isWhite

/-- All numbers have 31 bits. -/
def HasSmallNumbers (written : Notation) : Prop :=
  ∀ component ∈ written.components, component.Small

end Notation

/-- The parser ends on a text and does not leave the string. -/
def StaysInside (valueNotation : List Char) : Prop :=
  ∃ enough, ∀ turns, enough ≤ turns → parseValue turns valueNotation ≠ .error .outOfTurns ∧
    parseValue turns valueNotation ≠ .error .outside

/-! ## Comments -/

theorem stripComments_cons {c : Char} {s : List Char} (single : c = '-' → s.head? ≠ some '-') :
    stripComments (c :: s) = c :: stripComments s := by
  rw [stripComments.eq_2]
  rintro t rfl rfl
  exact single rfl rfl

theorem eatComment_cons {c : Char} {s : List Char} (single : c = '-' → s.head? ≠ some '-')
    (oneLine : c ≠ '\n') : eatComment (c :: s) = eatComment s := by
  rw [eatComment.eq_3]
  · rintro t rfl rfl
    exact single rfl rfl
  · exact oneLine

/-- The body of a comment is passed up to its end. -/
theorem eatComment_body {body : List Char} (close : List Char) (oneLine : '\n' ∉ body)
    (isOpen : NoDoubleHyphen (body ++ close.take 1)) :
    eatComment (body ++ close) = eatComment close := by
  induction body with
  | nil => rfl
  | cons c body ih =>
    rw [List.cons_append, eatComment_cons, ih]
    · exact fun isIn => oneLine (List.mem_cons_of_mem c isIn)
    · exact (List.isChain_cons.mp isOpen).2
    · rintro rfl twice
      have first := (List.isChain_cons.mp isOpen).1 '-' (by
        cases body with
        | nil => cases close <;> simp_all
        | cons d rest => simpa using twice)
      exact first rfl rfl
    · rintro rfl
      exact oneLine List.mem_cons_self

/-- A separator leaves its white space. -/
theorem stripComments_separator (s : Separator) (r : List Char) :
    stripComments (s.text ++ r) = s.whites ++ stripComments r := by
  cases s with
  | white c isWhite =>
    refine stripComments_cons fun hyphen => ?_
    subst hyphen
    exact absurd isWhite (by decide)
  | comment body oneLine isOpen =>
    have passed := eatComment_body ('-' :: '-' :: r) oneLine isOpen
    simpa [Separator.text, Separator.whites, stripComments, eatComment] using passed
  | lineComment body oneLine isOpen =>
    have closed : NoDoubleHyphen (body ++ ['\n']) := by
      refine isOpen.append (List.isChain_singleton _) fun c _ d isLast => ?_
      cases Option.mem_some_iff.mp isLast
      exact fun _ => by decide
    have passed := eatComment_body ('\n' :: r) oneLine closed
    simpa [Separator.text, Separator.whites, stripComments, eatComment] using passed

theorem stripComments_separators (list : List Separator) (r : List Char) :
    stripComments (list.flatMap Separator.text ++ r) =
      list.flatMap Separator.whites ++ stripComments r := by
  induction list with
  | nil => rfl
  | cons s list ih => simp [stripComments_separator, ih]

/-- A token that does not end with a hyphen is kept. -/
theorem stripComments_token {w : List Char} (r : List Char) (noDouble : NoDoubleHyphen w)
    (last : w.getLast? ≠ some '-') : stripComments (w ++ r) = w ++ stripComments r := by
  induction w with
  | nil => rfl
  | cons c w ih =>
    rw [List.cons_append, stripComments_cons, ih]
    · rfl
    · exact (List.isChain_cons.mp noDouble).2
    · cases w with
      | nil => simp
      | cons d rest => simpa using last
    · rintro rfl twice
      cases w with
      | nil => simp at last
      | cons d rest =>
        exact (List.isChain_cons.mp noDouble).1 '-' (by simpa using twice) rfl rfl

/-! ## White space between the tokens -/

section Chars

variable {c : Char}

theorem of_isWht (isWhite : isWht c = true) :
    c.isLower = false ∧ c.isAlpha = false ∧ c.isDigit = false ∧ c ≠ '-' ∧ c ≠ '\x00' := by
  simp only [isWht, List.contains_eq_mem, List.mem_cons, List.not_mem_nil, or_false,
    decide_eq_true_eq] at isWhite
  rcases isWhite with rfl | rfl | rfl | rfl | rfl | rfl | rfl | rfl <;> decide

theorem not_isLower_of_isDigit (digit : c.isDigit = true) : c.isLower = false := by
  change (decide (c.val ≥ 'a'.val) && decide (c.val ≤ 'z'.val)) = false
  simp only [Char.isDigit, Bool.and_eq_true, decide_eq_true_eq, Bool.and_eq_false_iff,
    decide_eq_false_iff_not] at digit ⊢
  left
  intro le
  exact absurd (UInt32.le_trans le digit.2) (by decide)

/-- A character that starts a component or ends the value. -/
def StartsToken (c : Char) : Prop :=
  c.isLower = true ∨ c.isDigit = true ∨ c = '}'

theorem StartsToken.not_isWht (starts : StartsToken c) : isWht c = false := by
  cases white : isWht c with
  | false => rfl
  | true =>
    obtain ⟨noLower, noAlpha, noDigit, -, -⟩ := of_isWht white
    rcases starts with lower | digit | rfl
    · simp [noLower] at lower
    · simp [noDigit] at digit
    · exact absurd white (by decide)

end Chars

theorem pastWht_append {w r : List Char} (areWhite : ∀ c ∈ w, isWht c = true)
    (stops : ∀ c, r.head? = some c → isWht c = false) : pastWht (w ++ r) = r := by
  unfold pastWht
  rw [List.dropWhile_append_of_pos areWhite]
  cases r with
  | nil => rfl
  | cons c r => rw [List.dropWhile_cons_of_neg (by simpa using stops c rfl)]

/-! ## Tokens -/

/-- What follows does not go on with a name. -/
def EndsName (r : List Char) : Prop :=
  ∀ c, r.head? = some c → c.isAlpha = false ∧ c.isDigit = false ∧ c ≠ '-'

/-- What follows does not go on with a number. -/
def EndsNumber (r : List Char) : Prop :=
  ∀ c, r.head? = some c → c.isDigit = false

theorem EndsName.endsNumber {r : List Char} (ends : EndsName r) : EndsNumber r :=
  fun c first => (ends c first).2.1

theorem nameTail_append {prev : Char} {w r : List Char}
    (letters : ∀ c ∈ w, c.isAlpha = true ∨ c.isDigit = true ∨ c = '-')
    (noDouble : NoDoubleHyphen (prev :: w)) (ends : EndsName r) : nameTail prev (w ++ r) = w := by
  induction w generalizing prev with
  | nil =>
    cases r with
    | nil => rfl
    | cons c r =>
      obtain ⟨noAlpha, noDigit, noHyphen⟩ := ends c rfl
      simp [nameTail, noAlpha, noDigit, noHyphen]
  | cons c w ih =>
    obtain ⟨first, others⟩ := List.forall_mem_cons.mp letters
    have rest := ih others (List.isChain_cons.mp noDouble).2
    have pair := (List.isChain_cons_cons.mp noDouble).1
    have goesOn : (c.isAlpha || c.isDigit || (c = '-' && prev ≠ '-')) = true := by
      rcases first with alpha | digit | rfl
      · simp [alpha]
      · simp [digit]
      · have single : prev ≠ '-' := fun same => pair same rfl
        simp [single]
    rw [List.cons_append, nameTail, if_pos goesOn, rest]

theorem identifier?_name (id : Name) {r : List Char} (ends : EndsName r) :
    identifier? (id.chars ++ r) = some (id.chars, r) := by
  obtain ⟨c, rest, chars, lower⟩ := id.head
  have letters := id.letters
  have noDouble := id.noDouble
  have last := id.last
  rw [chars] at letters noDouble last ⊢
  have tail := nameTail_append (List.forall_mem_cons.mp letters).2 noDouble ends
  simp [identifier?, lower, tail, trimHyphen, last]

theorem takeWhile_isDigit (num : Number) {r : List Char} (ends : EndsNumber r) :
    (num.digits ++ r).takeWhile Char.isDigit = num.digits ∧
      (num.digits ++ r).dropWhile Char.isDigit = r := by
  rw [List.takeWhile_append_of_pos num.areDigits, List.dropWhile_append_of_pos num.areDigits]
  cases r with
  | nil => simp
  | cons c r => simp [ends c rfl]

theorem number?_number (num : Number) {r : List Char} (ends : EndsNumber r) :
    number? (num.digits ++ r) = some (num.digits, r) := by
  obtain ⟨front, behind⟩ := takeWhile_isDigit num ends
  simp [number?, front, behind, num.nonempty]

theorem Number.head (num : Number) : ∃ c rest, num.digits = c :: rest ∧ c.isDigit = true := by
  obtain ⟨c, rest, digits⟩ := List.exists_cons_of_ne_nil num.nonempty
  exact ⟨c, rest, digits, num.areDigits c (by simp [digits])⟩

theorem identifier?_number (num : Number) (r : List Char) :
    identifier? (num.digits ++ r) = none := by
  obtain ⟨c, rest, digits, digit⟩ := num.head
  simp [digits, identifier?, not_isLower_of_isDigit digit]

/-! ## Components -/

/-- The element that is read for a component, with the `int` of its number. -/
def Component.readArc : Component → OID
  | number num | nameNumber _ num => ⟨none, atoi num.digits⟩
  | name id => nameArc id.chars
  | nameRef _ ref => ⟨some (.localValueRef ref.chars), NULL_OID_ARCNUM⟩

/-- What follows a component does not go on with it. -/
def Piece.EndsBefore {σ : Type} : Piece σ → List Char → Prop
  | name _, r => EndsName r
  | number _, r => EndsNumber r
  | _, _ => True

theorem endsName_cons {c : Char} (r : List Char)
    (ends : c.isAlpha = false ∧ c.isDigit = false ∧ c ≠ '-') : EndsName (c :: r) := by
  rintro _ ⟨⟩
  exact ends

theorem White.endsName (w : White) {r : List Char} (ends : w.chars = [] → EndsName r) :
    EndsName (w.chars ++ r) := by
  cases chars : w.chars with
  | nil => exact ends chars
  | cons c rest =>
    obtain ⟨-, noAlpha, noDigit, noHyphen, -⟩ := of_isWht (w.areWhite c (by simp [chars]))
    exact endsName_cons _ ⟨noAlpha, noDigit, noHyphen⟩

theorem White.endsNumber (w : White) {r : List Char} (ends : w.chars = [] → EndsNumber r) :
    EndsNumber (w.chars ++ r) := by
  cases chars : w.chars with
  | nil => exact ends chars
  | cons c rest =>
    rintro _ ⟨⟩
    exact (of_isWht (w.areWhite c (by simp [chars]))).2.2.1

theorem White.pastWht (w : White) {c : Char} (r : List Char) (stops : isWht c = false) :
    pastWht (w.chars ++ c :: r) = c :: r := by
  refine pastWht_append w.areWhite ?_
  rintro _ ⟨⟩
  exact stops

theorem Name.head_append (id : Name) (r : List Char) :
    ∃ c rest, id.chars ++ r = c :: rest ∧ c.isLower = true := by
  obtain ⟨c, rest, chars, lower⟩ := id.head
  exact ⟨c, rest ++ r, by rw [chars]; rfl, lower⟩

theorem Number.head_append (num : Number) (r : List Char) :
    ∃ c rest, num.digits ++ r = c :: rest ∧ c.isDigit = true := by
  obtain ⟨c, rest, digits, digit⟩ := num.head
  exact ⟨c, rest ++ r, by rw [digits]; rfl, digit⟩

theorem White.pastWht_name (w : White) (id : Name) (r : List Char) :
    ValParser.pastWht (w.chars ++ (id.chars ++ r)) = id.chars ++ r := by
  obtain ⟨c, rest, text, lower⟩ := id.head_append r
  rw [text, w.pastWht rest (StartsToken.not_isWht (.inl lower))]

theorem White.pastWht_number (w : White) (num : Number) (r : List Char) :
    ValParser.pastWht (w.chars ++ (num.digits ++ r)) = num.digits ++ r := by
  obtain ⟨c, rest, text, digit⟩ := num.head_append r
  rw [text, w.pastWht rest (StartsToken.not_isWht (.inr (.inl digit)))]

/-- One turn reads a component up to the token behind it. -/
theorem parseArc_piece (piece : Piece White) (gap : White) {c : Char} {r : List Char}
    (id2 : Option (List Char)) (before : List Char) (starts : StartsToken c)
    (ends : piece.EndsBefore (gap.chars ++ c :: r)) :
    ∃ id2' before' s, parseArc id2 ⟨before, piece.text White.chars ++ (gap.chars ++ c :: r)⟩ =
      .ok (piece.component.readArc, id2', ⟨before', s⟩) ∧ pastWht s = c :: r := by
  have skipped := gap.pastWht r starts.not_isWht
  cases piece with
  | number num =>
    obtain ⟨before', read⟩ := parseArc_number id2 before (identifier?_number num _)
      (number?_number num ends)
    exact ⟨id2, before', _, read, skipped⟩
  | name id =>
    have bare : (pastWht (gap.chars ++ c :: r)).head? ≠ some '(' := by
      rw [skipped]
      rintro ⟨⟩
      rcases starts with starts | starts | starts <;> exact absurd starts (by decide)
    obtain ⟨before', read⟩ := parseArc_name id2 before (identifier?_name id ends) bare
    exact ⟨id2, before', _, read, by rw [pastWht_pastWht, skipped]⟩
  | nameNumber id s₁ s₂ num s₃ =>
    have name := identifier?_name id (r := s₁.chars ++ '(' :: (s₂.chars ++ (num.digits ++
      (s₃.chars ++ ')' :: (gap.chars ++ c :: r)))))
      (s₁.endsName fun _ => endsName_cons _ (by decide))
    have opened := s₁.pastWht (c := '(') (s₂.chars ++ (num.digits ++
      (s₃.chars ++ ')' :: (gap.chars ++ c :: r)))) (by decide)
    have inner := s₂.pastWht_number num (s₃.chars ++ ')' :: (gap.chars ++ c :: r))
    have digits := number?_number num (r := s₃.chars ++ ')' :: (gap.chars ++ c :: r))
      (s₃.endsName fun _ => endsName_cons _ (by decide)).endsNumber
    have closed := s₃.pastWht (c := ')') (gap.chars ++ c :: r) (by decide)
    obtain ⟨before₁, entered⟩ := parseArc_named id2 before name opened
    obtain ⟨before₂, read⟩ := parseNamedArc_number id2 before₁
      (by rw [inner]; exact identifier?_number num _) (by rw [inner]; exact digits) closed
    refine ⟨id2, before₂, _, ?_, skipped⟩
    simp only [Piece.text, List.append_assoc, List.cons_append, List.nil_append]
    rw [entered, read]
    rfl
  | nameRef id s₁ s₂ ref s₃ =>
    have name := identifier?_name id (r := s₁.chars ++ '(' :: (s₂.chars ++ (ref.chars ++
      (s₃.chars ++ ')' :: (gap.chars ++ c :: r)))))
      (s₁.endsName fun _ => endsName_cons _ (by decide))
    have opened := s₁.pastWht (c := '(') (s₂.chars ++ (ref.chars ++
      (s₃.chars ++ ')' :: (gap.chars ++ c :: r)))) (by decide)
    have inner := s₂.pastWht_name ref (s₃.chars ++ ')' :: (gap.chars ++ c :: r))
    have reference := identifier?_name ref (r := s₃.chars ++ ')' :: (gap.chars ++ c :: r))
      (s₃.endsName fun _ => endsName_cons _ (by decide))
    have closed := s₃.pastWht (c := ')') (gap.chars ++ c :: r) (by decide)
    have plain : (s₃.chars ++ ')' :: (gap.chars ++ c :: r)).head? ≠ some '.' := by
      cases chars : s₃.chars with
      | nil => simp
      | cons d rest =>
        rintro ⟨⟩
        exact absurd (s₃.areWhite '.' (by simp [chars])) (by decide)
    obtain ⟨before₁, entered⟩ := parseArc_named id2 before name opened
    obtain ⟨before₂, read⟩ := parseNamedArc_ref id2 before₁
      (by rw [inner]; exact reference) plain closed
    refine ⟨some ref.chars, before₂, _, ?_, skipped⟩
    simp only [Piece.text, List.append_assoc, List.cons_append, List.nil_append]
    rw [entered, read]
    rfl

/-! ## Lists of components -/

/-- White space stands where one component would go on with another. -/
def Apart (pieces : List (Piece White × White)) : Prop :=
  pieces.IsChain fun piece next => piece.1.Joins next.1 → piece.2.chars ≠ []

/-- A component starts with a letter or a digit. -/
theorem Piece.head_text {σ : Type} (sep : σ → List Char) (piece : Piece σ) (r : List Char) :
    ∃ c rest, piece.text sep ++ r = c :: rest ∧ (c.isLower = true ∨ c.isDigit = true) := by
  cases piece with
  | number num =>
    obtain ⟨c, rest, text, digit⟩ := num.head_append r
    exact ⟨c, rest, text, .inr digit⟩
  | name id =>
    obtain ⟨c, rest, text, lower⟩ := id.head_append r
    exact ⟨c, rest, text, .inl lower⟩
  | nameNumber id s₁ s₂ num s₃ =>
    obtain ⟨c, rest, text, lower⟩ := id.head_append
      (sep s₁ ++ '(' :: (sep s₂ ++ (num.digits ++ (sep s₃ ++ [')']))) ++ r)
    exact ⟨c, rest, by simpa [Piece.text] using text, .inl lower⟩
  | nameRef id s₁ s₂ ref s₃ =>
    obtain ⟨c, rest, text, lower⟩ := id.head_append
      (sep s₁ ++ '(' :: (sep s₂ ++ (ref.chars ++ (sep s₃ ++ [')']))) ++ r)
    exact ⟨c, rest, by simpa [Piece.text] using text, .inl lower⟩

/-- A number does not go on with what is no number. -/
theorem endsNumber_of_not_joins {σ τ : Type} (sep : τ → List Char) {num : Number} {next : Piece τ}
    (r : List Char) (apart : ¬ (Piece.number num : Piece σ).Joins next) :
    EndsNumber (next.text sep ++ r) := by
  have letter : ∀ {id : Name} {r : List Char}, EndsNumber (id.chars ++ r) := by
    intro id r d first
    obtain ⟨c, rest, text, lower⟩ := id.head_append r
    rw [text] at first
    cases first
    cases digit : d.isDigit with
    | false => rfl
    | true => simp [not_isLower_of_isDigit digit] at lower
  cases next with
  | number other => exact absurd trivial apart
  | name id => exact letter
  | nameNumber id s₁ s₂ num s₃ =>
    simp only [Piece.text, List.append_assoc]
    exact letter
  | nameRef id s₁ s₂ ref s₃ =>
    simp only [Piece.text, List.append_assoc]
    exact letter

theorem head_piecesText {σ : Type} (sep : σ → List Char) (pieces : List (Piece σ × σ))
    (trail : List Char) :
    ∃ c rest, piecesText sep pieces ++ '}' :: trail = c :: rest ∧ StartsToken c := by
  cases pieces with
  | nil => exact ⟨'}', trail, rfl, .inr (.inr rfl)⟩
  | cons piece pieces =>
    obtain ⟨c, rest, text, kind⟩ := piece.1.head_text sep
      (sep piece.2 ++ (piecesText sep pieces ++ '}' :: trail))
    exact ⟨c, rest, by simpa [piecesText] using text, kind.imp_right .inl⟩

/-- A component ends in front of those that it is apart from. -/
theorem endsBefore_of_apart {piece : Piece White × White} {pieces : List (Piece White × White)}
    (trail : List Char) (apart : Apart (piece :: pieces)) :
    piece.1.EndsBefore (piece.2.chars ++ (piecesText White.chars pieces ++ '}' :: trail)) := by
  obtain ⟨piece, gap⟩ := piece
  cases piece with
  | number num =>
    refine gap.endsNumber fun none => ?_
    cases pieces with
    | nil => exact (endsName_cons _ (by decide)).endsNumber
    | cons next pieces =>
      have notJoined := fun joins => (List.isChain_cons_cons.mp apart).1 joins none
      simpa [piecesText] using endsNumber_of_not_joins (σ := White) White.chars _ notJoined
  | name id =>
    refine gap.endsName fun none => ?_
    cases pieces with
    | nil => exact endsName_cons _ (by decide)
    | cons next pieces => exact absurd none ((List.isChain_cons_cons.mp apart).1 trivial)
  | nameNumber id s₁ s₂ num s₃ => trivial
  | nameRef id s₁ s₂ ref s₃ => trivial

/-- The loop reads components that are apart, up to the brace. -/
theorem parseArcs_pieces {turns : ℕ} {pieces : List (Piece White × White)}
    (id2 : Option (List Char)) (before trail : List Char) (enough : pieces.length < turns)
    (apart : Apart pieces) :
    parseArcs turns id2 ⟨before, piecesText White.chars pieces ++ '}' :: trail⟩ =
      .ok (pieces.map (·.1.component.readArc)) := by
  -- The induction is on the components, one for each turn.
  induction pieces generalizing turns id2 before with
  | nil =>
    obtain ⟨turns, rfl⟩ := Nat.exists_eq_add_one.mpr enough
    rfl
  | cons piece pieces ih =>
    obtain ⟨turns, rfl⟩ := Nat.exists_eq_add_one.mpr (Nat.zero_lt_of_lt enough)
    have ends := endsBefore_of_apart trail apart
    have text : piecesText White.chars (piece :: pieces) ++ '}' :: trail =
        piece.1.text White.chars ++ (piece.2.chars ++
          (piecesText White.chars pieces ++ '}' :: trail)) := by simp [piecesText]
    obtain ⟨d, rest, first, kind⟩ := piece.1.head_text White.chars (piece.2.chars ++
      (piecesText White.chars pieces ++ '}' :: trail))
    have noBrace : Cursor.char ⟨before, piece.1.text White.chars ++ (piece.2.chars ++
        (piecesText White.chars pieces ++ '}' :: trail))⟩ ≠ '}' := by
      rw [first, char_cons]
      rintro rfl
      rcases kind with kind | kind <;> exact absurd kind (by decide)
    rw [text]
    have turn : ∃ id2' before' s, parseArc id2 ⟨before, piece.1.text White.chars ++
        (piece.2.chars ++ (piecesText White.chars pieces ++ '}' :: trail))⟩ =
        .ok (piece.1.component.readArc, id2', ⟨before', s⟩) ∧
        pastWht s = piecesText White.chars pieces ++ '}' :: trail := by
      obtain ⟨c, others, follows, starts⟩ := head_piecesText White.chars pieces trail
      rw [follows] at ends ⊢
      exact parseArc_piece piece.1 piece.2 id2 before starts ends
    obtain ⟨id2', before', s, read, skipped⟩ := turn
    have fewer : pieces.length < turns := by simpa using enough
    have next := ih id2' ((s.takeWhile isWht).reverse ++ before') fewer apart.tail
    simp [parseArcs, noBrace, read, skipWht_eq, skipped, next, bind, Except.bind, pure, Except.pure]

/-! ## Components that go on with one another -/

/-- A name that goes on with other characters. -/
def Name.extend (id : Name) (w : List Char)
    (letters : ∀ c ∈ w, c.isAlpha = true ∨ c.isDigit = true ∨ c = '-')
    (noDouble : NoDoubleHyphen w) (last : w.getLast? ≠ some '-') : Name where
  chars := id.chars ++ w
  head := by
    obtain ⟨c, rest, chars, lower⟩ := id.head
    exact ⟨c, rest ++ w, by rw [chars]; rfl, lower⟩
  letters := List.forall_mem_append.mpr ⟨id.letters, letters⟩
  noDouble := by
    refine id.noDouble.append noDouble fun c isLast d _ hyphen => ?_
    subst hyphen
    exact absurd isLast id.last
  last := by
    rw [List.getLast?_append]
    cases ends : w.getLast? with
    | none => exact id.last
    | some c => simpa [ends] using last

theorem Number.ne_hyphen (num : Number) : ∀ c ∈ num.digits, c ≠ '-' := by
  rintro c isIn rfl
  exact absurd (num.areDigits _ isIn) (by decide)

theorem noDoubleHyphen_of_forall {w : List Char} (none : ∀ c ∈ w, c ≠ '-') : NoDoubleHyphen w := by
  induction w with
  | nil => exact List.isChain_nil
  | cons c w ih =>
    obtain ⟨first, others⟩ := List.forall_mem_cons.mp none
    exact List.isChain_cons.mpr ⟨fun _ _ hyphen => absurd hyphen first, ih others⟩

theorem Number.noDoubleHyphen (num : Number) : NoDoubleHyphen num.digits :=
  noDoubleHyphen_of_forall num.ne_hyphen

theorem Number.getLast?_ne (num : Number) : num.digits.getLast? ≠ some '-' :=
  fun last => num.ne_hyphen _ (List.mem_of_getLast? last) rfl

/-- A name that goes on with a name. -/
def Name.appendName (id other : Name) : Name :=
  id.extend other.chars other.letters other.noDouble other.last

/-- A name that goes on with a number. -/
def Name.appendNumber (id : Name) (num : Number) : Name :=
  id.extend num.digits (fun c isIn => .inr (.inl (num.areDigits c isIn))) num.noDoubleHyphen
    num.getLast?_ne

/-- A number that goes on with a number. -/
def Number.append (num other : Number) : Number where
  digits := num.digits ++ other.digits
  nonempty := by simp [num.nonempty]
  areDigits := List.forall_mem_append.mpr ⟨num.areDigits, other.areDigits⟩

/-- What two components are read as where nothing is between them. -/
def Piece.join : Piece White → Piece White → Option (Piece White)
  | name id, name other => some (name (id.appendName other))
  | name id, number num => some (name (id.appendNumber num))
  | name id, nameNumber other s₁ s₂ num s₃ => some (nameNumber (id.appendName other) s₁ s₂ num s₃)
  | name id, nameRef other s₁ s₂ ref s₃ => some (nameRef (id.appendName other) s₁ s₂ ref s₃)
  | number num, number other => some (number (num.append other))
  | _, _ => none

/-- What components are read as. -/
@[grind =] def glue (piece : Piece White) (gap : White) :
    List (Piece White × White) → List (Piece White × White)
  | [] => [(piece, gap)]
  | (next, behind) :: rest =>
    match gap.chars, piece.join next with
    | [], some both => glue both behind rest
    | _, _ => (piece, gap) :: glue next behind rest

namespace Piece

variable {piece next both : Piece White}

theorem text_of_join (joined : piece.join next = some both) :
    both.text White.chars = piece.text White.chars ++ next.text White.chars := by
  cases piece <;> cases next <;> cases joined <;>
    simp [Piece.text, Name.appendName, Name.appendNumber, Name.extend, Number.append]

theorem join_eq_none_iff : piece.join next = none ↔ ¬ piece.Joins next := by
  cases piece <;> cases next <;> simp [join, Joins]

theorem joins_of_join {σ : Type} {first : Piece σ} (joined : piece.join next = some both) :
    first.Joins both ↔ first.Joins piece := by
  cases piece <;> cases next <;> cases joined <;> cases first <;> simp [Joins]

end Piece

section Glue

variable (piece : Piece White) (gap : White) (rest : List (Piece White × White))

/-- The text stays the same. -/
theorem piecesText_glue :
    piecesText White.chars (glue piece gap rest) =
      piecesText White.chars ((piece, gap) :: rest) := by
  induction rest generalizing piece gap with
  | nil => rfl
  | cons next rest ih =>
    obtain ⟨next, behind⟩ := next
    unfold glue
    split
    next both none joined =>
      -- What follows the first component is read as a part of it.
      rw [ih]
      simp [piecesText, Piece.text_of_join joined, none]
    next => simpa [piecesText] using ih next behind

/-- The first component is still one of its kind. -/
theorem head_glue : ∃ first behind others, glue piece gap rest = (first, behind) :: others ∧
    ∀ other : Piece White, other.Joins first ↔ other.Joins piece := by
  induction rest generalizing piece gap with
  | nil => exact ⟨piece, gap, [], rfl, fun _ => .rfl⟩
  | cons next rest ih =>
    obtain ⟨next, behind⟩ := next
    unfold glue
    split
    next both _ joined =>
      obtain ⟨first, gap', others, same, kind⟩ := ih both behind
      exact ⟨first, gap', others, same, fun other =>
        (kind other).trans (Piece.joins_of_join joined)⟩
    next => exact ⟨piece, gap, _, rfl, fun _ => .rfl⟩

/-- Nothing goes on with the next component any more. -/
theorem apart_glue : Apart (glue piece gap rest) := by
  -- What is kept back is compared with the first of the rest, which is of its old kind.
  induction rest generalizing piece gap with
  | nil => exact List.isChain_singleton _
  | cons next rest ih =>
    obtain ⟨next, behind⟩ := next
    unfold glue
    split
    next => exact ih _ _
    next notJoined =>
      obtain ⟨first, gap', others, same, kind⟩ := head_glue next behind rest
      have tail := ih next behind
      rw [same] at tail ⊢
      refine List.isChain_cons_cons.mpr ⟨fun joins none => ?_, tail⟩
      cases joined : piece.join next with
      | none => exact Piece.join_eq_none_iff.mp joined ((kind piece).mp joins)
      | some both => exact notJoined both none joined

/-- There are not more components, and as many only where all are apart. -/
theorem length_glue : (glue piece gap rest).length ≤ rest.length + 1 ∧
    ((glue piece gap rest).length = rest.length + 1 → Apart ((piece, gap) :: rest)) := by
  induction rest generalizing piece gap with
  | nil => exact ⟨Nat.le_refl _, fun _ => List.isChain_singleton _⟩
  | cons next rest ih =>
    obtain ⟨next, behind⟩ := next
    unfold glue
    split
    next both _ joined =>
      -- Two components have become one, so that there are fewer than before.
      obtain ⟨fewer, -⟩ := ih both behind
      simp only [List.length_cons]
      exact ⟨by omega, fun same => by omega⟩
    next notJoined =>
      obtain ⟨fewer, tail⟩ := ih next behind
      simp only [List.length_cons]
      refine ⟨by omega, fun same => List.isChain_cons_cons.mpr ⟨fun joins none => ?_,
        tail (by omega)⟩⟩
      cases joined : piece.join next with
      | none => exact Piece.join_eq_none_iff.mp joined joins
      | some both => exact notJoined both none joined

end Glue

/-! ## Values -/

/-- The white space of separators. -/
def cutAll (list : List Separator) : White where
  chars := list.flatMap Separator.whites
  areWhite := by
    simp only [List.mem_flatMap, forall_exists_index, and_imp]
    intro c sep _ isIn
    cases sep with
    | white d isWhite =>
      simp only [Separator.whites, List.mem_singleton] at isIn
      exact isIn ▸ isWhite
    | comment => cases isIn
    | lineComment => cases isIn

def Separators.cut (s : Separators) : White :=
  cutAll s.list

/-- A component without its comments. -/
def Piece.cut : Piece Separators → Piece White
  | number num => .number num
  | name id => .name id
  | nameNumber id s₁ s₂ num s₃ => .nameNumber id s₁.cut s₂.cut num s₃.cut
  | nameRef id s₁ s₂ ref s₃ => .nameRef id s₁.cut s₂.cut ref s₃.cut

/-- The components without the comments. -/
def cutPieces (pieces : List (Piece Separators × Separators)) : List (Piece White × White) :=
  pieces.map fun piece => (piece.1.cut, piece.2.cut)

@[simp]
theorem Piece.component_cut (piece : Piece Separators) : piece.cut.component = piece.component := by
  cases piece <;> rfl

theorem Piece.joins_cut_iff {piece next : Piece Separators} :
    piece.cut.Joins next.cut ↔ piece.Joins next := by
  cases piece <;> cases next <;> rfl

@[simp]
theorem stripComments_separators_text (s : Separators) (r : List Char) :
    stripComments (s.text ++ r) = s.cut.chars ++ stripComments r :=
  stripComments_separators s.list r

@[simp]
theorem stripComments_name (id : Name) (r : List Char) :
    stripComments (id.chars ++ r) = id.chars ++ stripComments r :=
  stripComments_token r id.noDouble id.last

@[simp]
theorem stripComments_number (num : Number) (r : List Char) :
    stripComments (num.digits ++ r) = num.digits ++ stripComments r :=
  stripComments_token r num.noDoubleHyphen num.getLast?_ne

theorem stripComments_of_ne {c : Char} (r : List Char) (other : c ≠ '-') :
    stripComments (c :: r) = c :: stripComments r :=
  stripComments_cons fun hyphen => absurd hyphen other

theorem stripComments_piece (piece : Piece Separators) (r : List Char) :
    stripComments (piece.text Separators.text ++ r) =
      piece.cut.text White.chars ++ stripComments r := by
  have opening := fun r => stripComments_of_ne (c := '(') r (by decide)
  have closing := fun r => stripComments_of_ne (c := ')') r (by decide)
  cases piece <;> simp [Piece.text, Piece.cut, opening, closing]

theorem stripComments_pieces (pieces : List (Piece Separators × Separators)) (r : List Char) :
    stripComments (piecesText Separators.text pieces ++ r) =
      piecesText White.chars (cutPieces pieces) ++ stripComments r := by
  induction pieces with
  | nil => rfl
  | cons piece pieces ih =>
    unfold piecesText cutPieces at ih ⊢
    simp [stripComments_piece, ih]

/-- No zero is among the characters. -/
def ZeroFree (w : List Char) : Prop :=
  ∀ c ∈ w, c ≠ '\x00'

theorem White.zeroFree (w : White) : ZeroFree w.chars :=
  fun c isIn => (of_isWht (w.areWhite c isIn)).2.2.2.2

theorem Name.zeroFree (id : Name) : ZeroFree id.chars := by
  rintro c isIn rfl
  exact absurd (id.letters _ isIn) (by decide)

theorem Number.zeroFree (num : Number) : ZeroFree num.digits := by
  rintro c isIn rfl
  exact absurd (num.areDigits _ isIn) (by decide)

theorem Piece.zeroFree (piece : Piece White) : ZeroFree (piece.text White.chars) := by
  have append : ∀ {v w : List Char}, ZeroFree v → ZeroFree w → ZeroFree (v ++ w) :=
    fun first second => List.forall_mem_append.mpr ⟨first, second⟩
  have cons : ∀ {c : Char} {w : List Char}, c ≠ '\x00' → ZeroFree w → ZeroFree (c :: w) :=
    fun first second => List.forall_mem_cons.mpr ⟨first, second⟩
  have last : ZeroFree [')'] := cons (by decide) (List.forall_mem_nil _)
  cases piece with
  | number num => exact num.zeroFree
  | name id => exact id.zeroFree
  | nameNumber id s₁ s₂ num s₃ =>
    exact append id.zeroFree (append s₁.zeroFree (cons (by decide) (append s₂.zeroFree
      (append num.zeroFree (append s₃.zeroFree last)))))
  | nameRef id s₁ s₂ ref s₃ =>
    exact append id.zeroFree (append s₁.zeroFree (cons (by decide) (append s₂.zeroFree
      (append ref.zeroFree (append s₃.zeroFree last)))))

theorem zeroFree_piecesText (pieces : List (Piece White × White)) :
    ZeroFree (piecesText White.chars pieces) := by
  intro c isIn
  obtain ⟨piece, _, isIn⟩ := List.mem_flatMap.mp isIn
  rcases List.mem_append.mp isIn with isIn | isIn
  · exact piece.1.zeroFree c isIn
  · exact piece.2.zeroFree c isIn

theorem takeWhile_zeroFree {w : List Char} (r : List Char) (free : ZeroFree w) :
    (w ++ r).takeWhile (· ≠ '\x00') = w ++ r.takeWhile (· ≠ '\x00') :=
  List.takeWhile_append_of_pos fun c isIn => by simpa using free c isIn

namespace Notation

variable (written : Notation)

/-- The text that is read: comments are cut out, and what is between the tokens is white space. -/
theorem readText_text : ∃ (lead : White) (trail : List Char), readText written.text =
    lead.chars ++ '{' :: (written.opening.cut.chars ++
      (piecesText White.chars (cutPieces written.pieces) ++ '}' :: trail)) := by
  refine ⟨cutAll written.lead, (stripComments written.trail).takeWhile (· ≠ '\x00'), ?_⟩
  have brace := fun r => stripComments_of_ne (c := '{') r (by decide)
  have closing := fun r => stripComments_of_ne (c := '}') r (by decide)
  have stripped : stripComments written.text = (cutAll written.lead).chars ++ '{' ::
      (written.opening.cut.chars ++ (piecesText White.chars (cutPieces written.pieces) ++
        '}' :: stripComments written.trail)) := by
    unfold text
    rw [stripComments_separators, brace, stripComments_separators_text, stripComments_pieces,
      closing]
    rfl
  unfold readText
  rw [stripped, takeWhile_zeroFree _ (White.zeroFree _), List.takeWhile_cons_of_pos (by decide),
    takeWhile_zeroFree _ (White.zeroFree _), takeWhile_zeroFree _ (zeroFree_piecesText _),
    List.takeWhile_cons_of_pos (by decide)]

/-- The components are read that the text without comments has. -/
theorem parseValue_text {pieces : List (Piece White × White)} (turns : ℕ)
    (same : piecesText White.chars pieces = piecesText White.chars (cutPieces written.pieces))
    (apart : Apart pieces) (enough : pieces.length < turns) :
    parseValue turns written.text = .ok (pieces.map (·.1.component.readArc)) := by
  obtain ⟨lead, trail, text⟩ := written.readText_text
  rw [← same] at text
  obtain ⟨c, rest, first, starts⟩ := head_piecesText White.chars pieces trail
  have start : parseValue turns written.text =
      parseOidValue turns ⟨[], readText written.text⟩ := rfl
  have isSome : Cursor.atEof ⟨[], readText written.text⟩ = false := by simp [Cursor.atEof, text]
  have opened := lead.pastWht (c := '{') (written.opening.cut.chars ++
    (piecesText White.chars pieces ++ '}' :: trail)) (by decide)
  have inside := written.opening.cut.pastWht rest starts.not_isWht
  rw [← first] at inside
  rw [start]
  rw [text] at isSome ⊢
  unfold parseOidValue
  simp only [isSome, skipWht_eq, opened, char_cons, Cursor.next, inside, bind, Except.bind,
    pure, Except.pure, Bool.false_eq_true, if_false, ne_eq, not_true_eq_false]
  exact parseArcs_pieces none _ trail enough apart

/-- Where the components are kept apart, they are apart without the comments. -/
theorem keepsApart_iff : written.KeepsApart ↔ Apart (cutPieces written.pieces) := by
  unfold KeepsApart Apart cutPieces
  rw [List.isChain_map]
  refine List.IsChain.iff fun piece next => ?_
  rw [Piece.joins_cut_iff]
  refine imp_congr_right fun _ => ?_
  constructor
  · rintro ⟨s, isIn, c, isWhite, rfl⟩ none
    have : c ∈ piece.2.cut.chars := List.mem_flatMap.mpr ⟨_, isIn, List.mem_singleton_self c⟩
    rw [none] at this
    cases this
  · intro some
    obtain ⟨c, isIn⟩ := List.exists_mem_of_ne_nil _ some
    obtain ⟨s, sIn, isIn⟩ := List.mem_flatMap.mp isIn
    cases s with
    | white d isWhite => exact ⟨_, sIn, d, isWhite, rfl⟩
    | comment => cases isIn
    | lineComment => cases isIn

theorem exists_glued (pieces : List (Piece White × White)) : ∃ glued : List (Piece White × White),
    piecesText White.chars glued = piecesText White.chars pieces ∧ Apart glued ∧
      (glued.length = pieces.length → Apart pieces) := by
  cases pieces with
  | nil => exact ⟨[], rfl, List.isChain_nil, fun _ => List.isChain_nil⟩
  | cons piece rest =>
    exact ⟨glue piece.1 piece.2 rest, piecesText_glue _ _ _, apart_glue _ _ _,
      (length_glue _ _ _).2⟩

end Notation

theorem atoi_eq_iff (num : Number) : atoi num.digits = num.value ↔ num.value < 2 ^ 31 := by
  have same : digitsValue num.digits = num.value := rfl
  simp only [atoi, same, Int.bmod]
  omega

theorem Component.readArc_eq_iff (component : Component) :
    component.readArc = component.arc ↔ component.Small := by
  cases component with
  | number num | nameNumber _ num => simp [readArc, arc, Small, atoi_eq_iff]
  | name id | nameRef _ ref => simp [readArc, arc, Small]

namespace Notation

variable (written : Notation)

/-- Components are read exactly where they are kept apart and their numbers have 31 bits. -/
theorem isRead_iff : written.IsRead ↔ written.KeepsApart ∧ written.HasSmallNumbers := by
  -- Where two components are not kept apart, fewer are read than written.
  have small : written.HasSmallNumbers ↔
      (cutPieces written.pieces).map (·.1.component.readArc) =
        written.components.map Component.arc := by
    unfold HasSmallNumbers cutPieces components
    rw [List.forall_mem_map]
    simp [List.map_inj_left, Component.readArc_eq_iff]
  rw [written.keepsApart_iff]
  constructor
  · rintro ⟨enough, read⟩
    obtain ⟨glued, same, apart, whole⟩ := exists_glued (cutPieces written.pieces)
    have run := parseValue_text written (max enough (glued.length + 1)) same apart
      (by omega)
    have equal : glued.map (·.1.component.readArc) = written.components.map Component.arc :=
      Except.ok.inj (run.symm.trans (read _ (Nat.le_max_left _ _)))
    have kept : Apart (cutPieces written.pieces) := by
      apply whole
      simpa [components, cutPieces] using congrArg List.length equal
    have direct := parseValue_text written
      (max enough ((cutPieces written.pieces).length + 1)) rfl kept (by omega)
    exact ⟨kept, small.mpr (Except.ok.inj (direct.symm.trans (read _ (Nat.le_max_left _ _))))⟩
  · rintro ⟨kept, smallNumbers⟩
    refine ⟨(cutPieces written.pieces).length + 1, fun turns enough => ?_⟩
    rw [parseValue_text written turns rfl kept enough, small.mp smallNumbers]

end Notation

theorem staysInside_iff (valueNotation : List Char) :
    StaysInside valueNotation ↔ ¬ LeavesNumberOpen valueNotation := by
  constructor
  · rintro ⟨enough, stays⟩ leaves
    have settles := parseValue_settles (max enough ((readText valueNotation).length + 1))
      valueNotation (by omega)
    exact (stays _ (Nat.le_max_left _ _)).2 (settles.2.mpr leaves)
  · intro closed
    refine ⟨(readText valueNotation).length + 1, fun turns enough => ?_⟩
    have settles := parseValue_settles turns valueNotation enough
    exact ⟨settles.1, fun outside => closed (settles.2.mp outside)⟩

/-- Components are read in their order exactly where comments alone separate no two that go on with
one another and no number has more than 31 bits, and the parser ends and stays inside any text
exactly where it leaves no number in parentheses open in front of a reference. -/
theorem oid_notation_read_iff (written : Notation) (valueNotation : List Char) :
    (written.IsRead ↔ written.KeepsApart ∧ written.HasSmallNumbers) ∧
      (StaysInside valueNotation ↔ ¬ LeavesNumberOpen valueNotation) :=
  ⟨written.isRead_iff, staysInside_iff valueNotation⟩

/-- In a value whose components a comment separates, one number is read for two. -/
theorem not_oid_notation_read : ¬ ∀ (written : Notation) (valueNotation : List Char),
    written.IsRead ∧ StaysInside valueNotation := by
  intro all
  let space : Separators := ⟨[.white ' ' (by decide)], by simp⟩
  let note : Separators := ⟨[.comment ['a'] (by decide) (by
    unfold NoDoubleHyphen
    decide)], by simp⟩
  let one : Number := ⟨['1'], by simp, List.forall_mem_singleton.mpr rfl⟩
  let written : Notation := ⟨[], space, [(.number one, note), (.number one, space)], []⟩
  obtain ⟨apart, -⟩ := written.isRead_iff.mp (all written []).1
  obtain ⟨s, isIn, c, isWhite, rfl⟩ := (List.isChain_cons_cons.mp apart).1 trivial
  simp [note] at isIn

end Esnacc.Compiler.ValParser
