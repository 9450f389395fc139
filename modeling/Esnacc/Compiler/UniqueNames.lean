import Esnacc.Lib.FirstFree
import Mathlib.Data.List.Dedup
import Mathlib.Data.Finset.Dedup
import Mathlib.Data.Int.ConditionallyCompleteOrder
import Mathlib.Data.Int.Interval
import Mathlib.Tactic.IntervalCases

/-! Names of generated code made unique by the digits appended to them. -/

namespace Esnacc.Compiler

open Lib

/-- The value of a computation of the type `int`, which is undefined where it overflows. -/
def intValue (value : ℤ) : Option ℤ :=
  if -2 ^ 31 ≤ value ∧ value < 2 ^ 31 then some value else none

/-- The character of a digit. -/
def digitToAscii (d : ℕ) : Char :=
  Char.ofNat (d % 10 + '0'.toNat)

/-- The turns of the loop of `AppendDigit`, whose `high` is the next lower power of ten. -/
def digitStr : ℕ → ℕ → List Char
  | 0, _ => []
  | turns + 1, digit =>
    let high := 10 ^ turns
    let value := digit / high
    (if value ≠ 0 then [digitToAscii value] else []) ++ digitStr turns (digit % high)

/-- A name with the ASCII version of a number at its end. -/
def appendDigit (str : List Char) (digit : ℤ) : Option (List Char) :=
  (if digit < 0 then intValue (digit * -1) else some digit).map fun digit =>
    let digits := digitStr 10 digit.toNat
    if digits = [] then str ++ ['0'] else str ++ digits

/-- The product that bounds the digits tried, of one ten for each digit that may be added. -/
def maxDigitVal : ℕ → Option ℤ
  | 0 => some 1
  | maxDigits + 1 => (maxDigitVal maxDigits).bind fun value => intValue (value * 10)

/-- The loop that appends one number after another to a name until it is not defined. -/
def appendUntilUnique (nameList : List (List Char)) (str : List Char) (limit digit : ℤ) :
    Option (List Char) :=
  match appendDigit str digit, intValue (digit + 1) with
  | some tried, some _ =>
    if tried ∈ nameList ∧ digit + 1 < limit then
      appendUntilUnique nameList str limit (digit + 1)
    else some tried
  | _, _ => none
termination_by (limit - digit).toNat

/-- The common body of the functions that make a name unique among the defined ones. -/
def makeStrUnique (isKeyWord : List Char → Bool) (nameList : List (List Char)) (str : List Char)
    (maxDigits startingDigit : Int32) : Option (List Char) :=
  if str ∈ nameList ∨ isKeyWord str then
    (maxDigitVal maxDigits.toInt.toNat).bind fun limit =>
      appendUntilUnique nameList str limit startingDigit.toInt
  else some str

/-- The key words of C. -/
def cKWd : List String :=
  ["auto", "break", "case", "char", "const", "continue",
   "default", "do", "double", "else", "enum", "extern",
   "float", "for", "goto", "if", "int", "long", "register",
   "return", "short", "signed", "sizeof", "static", "struct",
   "switch", "typedef", "union", "unsigned", "void", "volatile",
   "while"]

/-- The key words of C++, with those of the type `bool` where it is built in. -/
def cxxKWd (boolBuiltin : Bool) : List String :=
  ["asm", "auto", "break", "case", "catch", "char", "class", "const",
   "continue", "default", "delete", "do", "double", "else", "enum",
   "extern", "float", "for", "friend", "goto", "if", "inline", "int",
   "long", "new", "operator", "private", "protected", "public",
   "register", "return", "short", "signed", "sizeof", "static",
   "struct", "switch", "template", "this", "throw", "try", "typedef",
   "union", "unsigned", "virtual", "void", "volatile", "while"] ++
  if boolBuiltin then ["bool", "true", "false"] else []

/-- The key words of Python. -/
def pykwds : List String :=
  ["False", "class", "finally", "is", "return",
   "None", "continue", "for", "lambda", "try",
   "True", "def", "from", "nonlocal", "while",
   "and", "del", "global", "not", "with",
   "as", "elif", "if", "or", "yield",
   "assert", "else", "import", "pass",
   "break", "except", "in", "raise"]

/-- Whether a name is a key word of C. -/
def isCKeyWord (str : List Char) : Bool :=
  cKWd.any fun kwd => kwd.toList = str

/-- Whether a name is a key word of C++. -/
def isCxxKeyWord (boolBuiltin : Bool) (str : List Char) : Bool :=
  (cxxKWd boolBuiltin).any fun kwd => kwd.toList = str

/-- Whether a name is a key word of Python. -/
def isPyKeyWord (str : List Char) : Bool :=
  pykwds.any fun kwd => kwd.toList = str

/-- A name made unique for C. -/
def makeCStrUnique (nameList : List (List Char)) (str : List Char)
    (maxDigits startingDigit : Int32) : Option (List Char) :=
  makeStrUnique isCKeyWord nameList str maxDigits startingDigit

/-- A name made unique for C++. -/
def makeCxxStrUnique (boolBuiltin : Bool) (nameList : List (List Char)) (str : List Char)
    (maxDigits startingDigit : Int32) : Option (List Char) :=
  makeStrUnique (isCxxKeyWord boolBuiltin) nameList str maxDigits startingDigit

/-- A name made unique for Python. -/
def makePyStrUnique (nameList : List (List Char)) (str : List Char)
    (maxDigits startingDigit : Int32) : Option (List Char) :=
  makeStrUnique isPyKeyWord nameList str maxDigits startingDigit

/-! ## Numbers appended to names -/

/-- The decimal numeral of an integer. -/
def decimalNumeral : ℤ → List Char
  | .ofNat n => Nat.toDigits 10 n
  | .negSucc n => '-' :: Nat.toDigits 10 (n + 1)

/-- The decimal numeral of a number without its digits zero, or a zero alone for the number zero. -/
def zeroFreeNumeral (n : ℕ) : List Char :=
  if n = 0 then ['0'] else (Nat.toDigits 10 n).filter (· ≠ '0')

/-- That no digit of a number is zero, or that the number itself is. -/
def ZeroFree (n : ℕ) : Prop :=
  n = 0 ∨ '0' ∉ Nat.toDigits 10 n

theorem digitToAscii_eq {d : ℕ} (small : d < 10) : digitToAscii d = Nat.digitChar d := by
  interval_cases d <;> rfl

theorem digitChar_eq_zero_iff {d : ℕ} (small : d < 10) : Nat.digitChar d = '0' ↔ d = 0 := by
  interval_cases d <;> decide

theorem digitStr_zero (turns : ℕ) : digitStr turns 0 = [] := by
  induction turns with
  | zero => rfl
  | succ turns ih => simp [digitStr, ih]

/-- The last digit is written behind those of the number without it. -/
theorem digitStr_succ {turns n : ℕ} (small : n < 10 ^ (turns + 1)) :
    digitStr (turns + 1) n =
      digitStr turns (n / 10) ++ if n % 10 ≠ 0 then [digitToAscii (n % 10)] else [] := by
  induction turns generalizing n with
  | zero =>
    have oneDigit : n % 10 = n := Nat.mod_eq_of_lt (by simpa using small)
    simp [digitStr, oneDigit]
  | succ turns ih =>
    -- The leading digit is the same in both, and the invariant holds of what follows it.
    have leading : n / 10 ^ (turns + 1) = n / 10 / 10 ^ turns := by
      rw [Nat.div_div_eq_div_mul, ← Nat.pow_succ']
    have middle : n % 10 ^ (turns + 1) / 10 = n / 10 % 10 ^ turns := by
      rw [Nat.pow_succ', Nat.mod_mul_right_div_self]
    have last : n % 10 ^ (turns + 1) % 10 = n % 10 := by
      rw [Nat.pow_succ', Nat.mod_mul_right_mod]
    rw [digitStr, ih (Nat.mod_lt n (Nat.pow_pos (by decide))), middle, last, leading, digitStr,
      List.append_assoc]

/-- What the loop writes of a number is its numeral without the digits zero. -/
theorem digitStr_eq {turns n : ℕ} (small : n < 10 ^ turns) (positive : n ≠ 0) :
    digitStr turns n = (Nat.toDigits 10 n).filter (· ≠ '0') := by
  induction turns generalizing n with
  | zero =>
    have zero : n = 0 := by simpa using small
    exact absurd zero positive
  | succ turns ih =>
    have lastSmall : n % 10 < 10 := Nat.mod_lt n (by decide)
    have last : (if n % 10 ≠ 0 then [digitToAscii (n % 10)] else []) =
        [Nat.digitChar (n % 10)].filter (· ≠ '0') := by
      rw [digitToAscii_eq lastSmall]
      simp [List.filter_cons, digitChar_eq_zero_iff lastSmall]
    rw [digitStr_succ small, last]
    by_cases short : n < 10
    · -- A number of one digit has none before it.
      have none : n / 10 = 0 := Nat.div_eq_of_lt short
      rw [none, digitStr_zero, Nat.mod_eq_of_lt short, Nat.toDigits_of_lt_base short,
        List.nil_append]
    · have more : 10 ≤ n := Nat.not_lt.mp short
      have less : n / 10 < 10 ^ turns := by
        rw [Nat.pow_succ'] at small
        exact Nat.div_lt_of_lt_mul small
      rw [ih less (by omega), Nat.toDigits_of_base_le (by decide) more, List.filter_append]

/-- A number that is not zero leaves digits when its digits zero are dropped. -/
theorem zeroFreeNumeral_ne_nil (n : ℕ) : zeroFreeNumeral n ≠ [] := by
  unfold zeroFreeNumeral
  split
  next => exact List.cons_ne_nil _ _
  next positive =>
    induction n using Nat.strong_induction_on with
    | h n ih =>
      by_cases short : n < 10
      · rw [Nat.toDigits_of_lt_base short]
        simp [digitChar_eq_zero_iff short, positive]
      · rw [Nat.toDigits_of_base_le (by decide) (Nat.not_lt.mp short), List.filter_append]
        intro empty
        exact ih (n / 10) (by omega) (by omega) (List.append_eq_nil_iff.mp empty).1

theorem isDigit_of_mem_zeroFreeNumeral {n : ℕ} {c : Char} (isIn : c ∈ zeroFreeNumeral n) :
    c.isDigit = true := by
  unfold zeroFreeNumeral at isIn
  split at isIn
  next =>
    rw [List.mem_singleton.mp isIn]
    rfl
  next => exact Nat.isDigit_of_mem_toDigits (by decide) (by decide) (List.mem_of_mem_filter isIn)

theorem zeroFreeNumeral_eq_iff (n : ℕ) : zeroFreeNumeral n = Nat.toDigits 10 n ↔ ZeroFree n := by
  unfold zeroFreeNumeral ZeroFree
  by_cases zero : n = 0
  · simp [zero]
  · rw [if_neg zero, List.filter_eq_self]
    simp only [zero, false_or, decide_eq_true_eq]
    constructor
    · intro all isIn
      exact all '0' isIn rfl
    · intro absent c isIn same
      exact absent (same ▸ isIn)

theorem toDigits_injective {n m : ℕ} (same : Nat.toDigits 10 n = Nat.toDigits 10 m) : n = m := by
  have values := congrArg (fun digits => Nat.ofDigitChars 10 digits 0) same
  simpa using values

/-- A name with the numeral of a number behind it that lost its zeros. -/
def withNumber (str : List Char) (digit : ℤ) : List Char :=
  str ++ zeroFreeNumeral digit.natAbs

/-- What is appended to a name is a numeral without its zeros and its sign. -/
theorem appendDigit_eq (str : List Char) {digit : ℤ} (above : -2 ^ 31 < digit)
    (below : digit < 2 ^ 31) : appendDigit str digit = some (withNumber str digit) := by
  have absolute : (if digit < 0 then intValue (digit * -1) else some digit) =
      some (digit.natAbs : ℤ) := by
    unfold intValue
    split
    next negative =>
      rw [if_pos (by omega)]
      congr 1
      omega
    next positive =>
      congr 1
      omega
  have small : digit.natAbs < 10 ^ 10 := by omega
  rw [appendDigit, absolute, Option.map_some, Int.toNat_natCast]
  congr 1
  unfold withNumber
  by_cases zero : digit.natAbs = 0
  · simp [zero, digitStr_zero, zeroFreeNumeral]
  · have digits : digitStr 10 digit.natAbs = zeroFreeNumeral digit.natAbs := by
      rw [zeroFreeNumeral, if_neg zero, digitStr_eq small zero]
    simp only [digits, if_neg (zeroFreeNumeral_ne_nil digit.natAbs)]

theorem appendDigit_minValue (str : List Char) : appendDigit str (-2 ^ 31) = none := rfl

/-! ## The search for a free name -/

/-- Whether a name is another one with decimal digits behind it. -/
def extendsByDigits (str name : List Char) : Bool :=
  str.isPrefixOf name && name.drop str.length ≠ [] && (name.drop str.length).all Char.isDigit

/-- The different defined names that are a name with decimal digits behind it. -/
def digitExtensions (nameList : List (List Char)) (str : List Char) : List (List Char) :=
  nameList.dedup.filter (extendsByDigits str)

theorem extendsByDigits_withNumber (str : List Char) (digit : ℤ) :
    extendsByDigits str (withNumber str digit) = true := by
  unfold extendsByDigits withNumber
  simp only [List.drop_left, Bool.and_eq_true, List.isPrefixOf_iff_prefix, List.prefix_append,
    true_and, decide_eq_true_eq, List.all_eq_true]
  exact ⟨zeroFreeNumeral_ne_nil digit.natAbs, fun c isIn => isDigit_of_mem_zeroFreeNumeral isIn⟩

theorem maxDigitVal_eq {maxDigits : ℕ} (few : maxDigits ≤ 9) :
    maxDigitVal maxDigits = some (10 ^ maxDigits) := by
  interval_cases maxDigits <;> rfl

theorem maxDigitVal_of_many {maxDigits : ℕ} (many : 9 < maxDigits) :
    maxDigitVal maxDigits = none := by
  induction maxDigits, many using Nat.le_induction with
  | base => rfl
  | succ n _ ih => rw [maxDigitVal, ih, Option.bind_none]

/-- The loop is a search through the numbers up to its bound. -/
theorem appendUntilUnique_eq (nameList : List (List Char)) (str : List Char) {limit digit : ℤ}
    (fits : limit < 2 ^ 31) (above : -2 ^ 31 < digit) (below : digit < limit) :
    appendUntilUnique nameList str limit digit =
      some (firstFree (· ∈ nameList) (withNumber str) (limit - 1 - digit).toNat digit) := by
  -- The induction is on the numbers left below the bound.
  obtain ⟨turns, left⟩ : ∃ turns : ℕ, limit - 1 - digit = turns := ⟨_, (Int.toNat_of_nonneg
    (by omega)).symm⟩
  induction turns generalizing digit with
  | zero =>
    have next : intValue (digit + 1) = some (digit + 1) := if_pos (by omega)
    have done : ¬ digit + 1 < limit := by omega
    rw [appendUntilUnique, appendDigit_eq str above (by omega), next, left]
    simp only [done, and_false, if_false, Int.toNat_natCast, firstFree]
  | succ turns ih =>
    have next : intValue (digit + 1) = some (digit + 1) := if_pos (by omega)
    have more : digit + 1 < limit := by omega
    have rest := ih (by omega) more (by omega)
    have restLeft : limit - 1 - (digit + 1) = turns := by omega
    rw [restLeft, Int.toNat_natCast] at rest
    rw [appendUntilUnique, appendDigit_eq str above (by omega), next, left, Int.toNat_natCast,
      firstFree]
    simp only [more, and_true, rest]
    split <;> rfl

theorem appendUntilUnique_minValue (nameList : List (List Char)) (str : List Char) (limit : ℤ) :
    appendUntilUnique nameList str limit (-2 ^ 31) = none := by
  rw [appendUntilUnique, appendDigit_minValue]

/-- The languages names are made unique for. -/
inductive NameLanguage
  | c
  | cxx (boolBuiltin : Bool)
  | py

/-- The key words of a language. -/
def NameLanguage.isKeyWord : NameLanguage → List Char → Bool
  | .c => isCKeyWord
  | .cxx boolBuiltin => isCxxKeyWord boolBuiltin
  | .py => isPyKeyWord

/-- The function that makes names unique for a language. -/
def NameLanguage.makeUnique : NameLanguage → List (List Char) → List Char → Int32 → Int32 →
    Option (List Char)
  | .c => makeCStrUnique
  | .cxx boolBuiltin => makeCxxStrUnique boolBuiltin
  | .py => makePyStrUnique

theorem NameLanguage.makeUnique_eq (language : NameLanguage) :
    language.makeUnique = makeStrUnique language.isKeyWord := by
  cases language <;> rfl

/-- A table whose words do not end in digits holds no name with a number behind it. -/
theorem any_withNumber {kwds : List String}
    (lettersLast : kwds.all (fun kwd => kwd.toList.getLast?.all (!·.isDigit)) = true)
    (str : List Char) (digit : ℤ) :
    (kwds.any fun kwd => kwd.toList = withNumber str digit) = false := by
  rw [List.any_eq_false]
  intro kwd isIn same
  have nonempty := zeroFreeNumeral_ne_nil digit.natAbs
  have last : kwd.toList.getLast? = some ((zeroFreeNumeral digit.natAbs).getLast nonempty) := by
    rw [of_decide_eq_true same, withNumber, List.getLast?_append_of_ne_nil _ nonempty,
      List.getLast?_eq_some_getLast nonempty]
  have isDigit := isDigit_of_mem_zeroFreeNumeral (List.getLast_mem nonempty)
  have letter := List.all_eq_true.mp lettersLast kwd isIn
  rw [last, Option.all_some, isDigit] at letter
  exact Bool.false_ne_true letter

theorem NameLanguage.isKeyWord_withNumber (language : NameLanguage) (str : List Char) (digit : ℤ) :
    language.isKeyWord (withNumber str digit) = false := by
  cases language with
  | c => exact any_withNumber (by decide) str digit
  | cxx boolBuiltin =>
    cases boolBuiltin with
    | false => exact any_withNumber (by decide) str digit
    | true => exact any_withNumber (by decide) str digit
  | py => exact any_withNumber (by decide) str digit

/-- That a name is neither defined nor a key word. -/
def FreeName (language : NameLanguage) (nameList : List (List Char)) (name : List Char) : Prop :=
  name ∉ nameList ∧ language.isKeyWord name = false

/-- That a name is made one that is neither defined nor a key word. -/
def MadeUnique (language : NameLanguage) (nameList : List (List Char)) (str : List Char)
    (maxDigits startingDigit : Int32) : Prop :=
  ∃ name, language.makeUnique nameList str maxDigits startingDigit = some name ∧
    FreeName language nameList name

theorem madeUnique_of_free {language : NameLanguage} {nameList : List (List Char)}
    {str : List Char} (free : FreeName language nameList str) (maxDigits startingDigit : Int32) :
    MadeUnique language nameList str maxDigits startingDigit := by
  refine ⟨str, ?_, free⟩
  rw [NameLanguage.makeUnique_eq, makeStrUnique, if_neg]
  simp [free.1, free.2]

/-- A name that is not free gets the first number whose numeral without zeros makes it free. -/
theorem madeUnique_iff_of_not_free {language : NameLanguage} {nameList : List (List Char)}
    {str : List Char} (used : ¬ FreeName language nameList str) {maxDigits startingDigit : Int32}
    (below : startingDigit.toInt < 10 ^ maxDigits.toInt.toNat) :
    MadeUnique language nameList str maxDigits startingDigit ↔
      maxDigits.toInt ≤ 9 ∧ -2 ^ 31 < startingDigit.toInt ∧
        ∃ n, startingDigit.toInt ≤ n ∧ n < 10 ^ maxDigits.toInt.toNat ∧
          withNumber str n ∉ nameList := by
  have searched : language.makeUnique nameList str maxDigits startingDigit =
      (maxDigitVal maxDigits.toInt.toNat).bind fun limit =>
        appendUntilUnique nameList str limit startingDigit.toInt := by
    rw [NameLanguage.makeUnique_eq, makeStrUnique, if_pos]
    by_contra neither
    obtain ⟨undefined, notKeyWord⟩ := not_or.mp neither
    exact used ⟨undefined, Bool.eq_false_iff.mpr notKeyWord⟩
  have least := startingDigit.le_toInt
  unfold MadeUnique
  rw [searched]
  by_cases few : maxDigits.toInt ≤ 9
  · have nine : maxDigits.toInt.toNat ≤ 9 := by omega
    have fits : (10 : ℤ) ^ maxDigits.toInt.toNat < 2 ^ 31 :=
      lt_of_le_of_lt (pow_le_pow_right₀ (by decide) nine) (by decide)
    rw [maxDigitVal_eq nine, Option.bind_some]
    by_cases isMin : startingDigit.toInt = -2 ^ 31
    · -- The absolute value of the first number overflows.
      rw [isMin, appendUntilUnique_minValue]
      simp
    · have above : -2 ^ 31 < startingDigit.toInt := by omega
      rw [appendUntilUnique_eq nameList str fits above below]
      have found := not_taken_firstFree_iff (· ∈ nameList) (withNumber str)
        (10 ^ maxDigits.toInt.toNat - 1 - startingDigit.toInt).toNat startingDigit.toInt
      constructor
      · rintro ⟨name, same, undefined, -⟩
        rw [Option.some.inj same] at found
        obtain ⟨n, start, stop, free⟩ := found.mp undefined
        exact ⟨few, above, n, start, by omega, free⟩
      · rintro ⟨-, -, n, start, stop, free⟩
        have undefined := found.mpr ⟨n, start, by omega, free⟩
        refine ⟨_, rfl, undefined, ?_⟩
        -- The name found is the name with some number behind it.
        obtain ⟨j, same⟩ := firstFree_eq_candidate (· ∈ nameList) (withNumber str)
          (10 ^ maxDigits.toInt.toNat - 1 - startingDigit.toInt).toNat startingDigit.toInt
        rw [same]
        exact language.isKeyWord_withNumber str j
  · rw [maxDigitVal_of_many (by omega), Option.bind_none]
    simp [few]

instance (n : ℕ) : Decidable (ZeroFree n) :=
  inferInstanceAs (Decidable (n = 0 ∨ '0' ∉ Nat.toDigits 10 n))

/-- The numbers of a range without zeros among their digits. -/
noncomputable def zeroFreeNumbers (start limit : ℤ) : Finset ℤ :=
  {n ∈ Finset.Ico start limit | ZeroFree n.toNat}

theorem withNumber_eq_decimalNumeral {digit : ℤ} (positive : 0 ≤ digit)
    (zeroFree : ZeroFree digit.toNat) (str : List Char) :
    withNumber str digit = str ++ decimalNumeral digit := by
  obtain ⟨n, rfl⟩ := Int.eq_ofNat_of_zero_le positive
  rw [withNumber, Int.natAbs_natCast, (zeroFreeNumeral_eq_iff n).mpr zeroFree]
  rfl

/-- Fewer names than there are numbers without zeros leave one of these for the search. -/
theorem madeUnique_of_fewer_zeroFree {language : NameLanguage} {nameList : List (List Char)}
    {str : List Char} {maxDigits startingDigit : Int32} (few : maxDigits.toInt ≤ 9)
    (start : 0 ≤ startingDigit.toInt)
    (fewer : (digitExtensions nameList str).length <
      (zeroFreeNumbers startingDigit.toInt (10 ^ maxDigits.toInt.toNat)).card) :
    MadeUnique language nameList str maxDigits startingDigit := by
  have different : Set.InjOn (withNumber str)
      (zeroFreeNumbers startingDigit.toInt (10 ^ maxDigits.toInt.toNat)) := by
    intro n nIn m mIn same
    obtain ⟨nRange, nZeroFree⟩ := Finset.mem_filter.mp (Finset.mem_coe.mp nIn)
    obtain ⟨mRange, mZeroFree⟩ := Finset.mem_filter.mp (Finset.mem_coe.mp mIn)
    have nPositive : 0 ≤ n := le_trans start (Finset.mem_Ico.mp nRange).1
    have mPositive : 0 ≤ m := le_trans start (Finset.mem_Ico.mp mRange).1
    obtain ⟨n, rfl⟩ := Int.eq_ofNat_of_zero_le nPositive
    obtain ⟨m, rfl⟩ := Int.eq_ofNat_of_zero_le mPositive
    rw [withNumber_eq_decimalNumeral nPositive nZeroFree, withNumber_eq_decimalNumeral mPositive
      mZeroFree] at same
    exact congrArg Int.ofNat (toDigits_injective (List.append_cancel_left same))
  have used : (digitExtensions nameList str).toFinset.card ≤
      (digitExtensions nameList str).length := List.toFinset_card_le _
  obtain ⟨n, inRange, free⟩ := exists_free_of_card_lt (withNumber str) _ _ different
    (lt_of_le_of_lt used fewer)
  obtain ⟨above, below⟩ := Finset.mem_Ico.mp (Finset.mem_filter.mp inRange).1
  have undefined : withNumber str n ∉ nameList := by
    intro defined
    apply free
    rw [List.mem_toFinset, digitExtensions, List.mem_filter]
    exact ⟨List.mem_dedup.mpr defined, extendsByDigits_withNumber str n⟩
  by_cases alreadyFree : FreeName language nameList str
  · exact madeUnique_of_free alreadyFree maxDigits startingDigit
  · rw [madeUnique_iff_of_not_free alreadyFree (lt_of_le_of_lt above below)]
    exact ⟨few, by omega, n, above, below, undefined⟩

/-- A name that is defined without extensions by digits is made unique. -/
theorem madeUnique_of_fewer_zeroFree_foo :
    MadeUnique .c ["Foo".toList, "Bar".toList] "Foo".toList 3 1 :=
  madeUnique_of_fewer_zeroFree (by decide) (by decide) (Finset.card_pos.mpr
    ⟨1, Finset.mem_filter.mpr ⟨Finset.mem_Ico.mpr ⟨by decide, by decide⟩, by decide⟩⟩)

/-- A number is appended as its decimal numeral exactly when it has no sign and no zeros. -/
theorem appendDigit_eq_decimalNumeral_iff (str : List Char) (digit : Int32) :
    appendDigit str digit.toInt = some (str ++ decimalNumeral digit.toInt) ↔
      0 ≤ digit.toInt ∧ ZeroFree digit.toInt.toNat := by
  have least := digit.le_toInt
  by_cases isMin : digit.toInt = -2 ^ 31
  · rw [isMin, appendDigit_minValue]
    simp
  rw [appendDigit_eq str (by omega) digit.toInt_lt, Option.some_inj]
  unfold withNumber
  rw [List.append_cancel_left_eq]
  cases value : digit.toInt with
  | ofNat n =>
    rw [Int.ofNat_eq_natCast, Int.natAbs_natCast, Int.toNat_natCast]
    simpa [decimalNumeral] using zeroFreeNumeral_eq_iff n
  | negSucc n =>
    -- What is written starts with a digit, and the numeral with a sign.
    constructor
    · intro same
      have sign : '-' ∈ zeroFreeNumeral (Int.negSucc n).natAbs := by
        rw [same]
        exact List.mem_cons_self
      exact absurd (isDigit_of_mem_zeroFreeNumeral sign) (by decide)
    · intro positive
      exact absurd positive.1 (by omega)

/-- Two numbers give different names exactly when their absolute values differ in more than zeros.
-/
theorem appendDigit_ne_iff (str : List Char) (digit digit' : Int32) :
    (∃ name name', appendDigit str digit.toInt = some name ∧
        appendDigit str digit'.toInt = some name' ∧ name ≠ name') ↔
      -2 ^ 31 < digit.toInt ∧ -2 ^ 31 < digit'.toInt ∧
        zeroFreeNumeral digit.toInt.natAbs ≠ zeroFreeNumeral digit'.toInt.natAbs := by
  have least := digit.le_toInt
  have least' := digit'.le_toInt
  by_cases isMin : digit.toInt = -2 ^ 31
  · rw [isMin, appendDigit_minValue]
    simp
  by_cases isMin' : digit'.toInt = -2 ^ 31
  · rw [isMin', appendDigit_minValue]
    simp
  have above : -2 ^ 31 < digit.toInt := by omega
  have above' : -2 ^ 31 < digit'.toInt := by omega
  rw [appendDigit_eq str above digit.toInt_lt, appendDigit_eq str above' digit'.toInt_lt]
  rw [and_iff_right above, and_iff_right above']
  simp [withNumber]

/-- A name with fewer extensions by digits than there are numbers to try is made unique exactly when
it is free already, or one of these numbers is not defined behind it once it has lost its zeros; a
number is appended as its decimal numeral exactly when it has neither sign nor zeros, and two numbers
give different names exactly when they differ in more than these. -/
theorem madeUnique_iff (language : NameLanguage) (nameList : List (List Char)) (str : List Char)
    (maxDigits startingDigit digit digit' : Int32)
    (fewer : ((digitExtensions nameList str).length : ℤ) <
      10 ^ maxDigits.toInt.toNat - startingDigit.toInt) :
    (MadeUnique language nameList str maxDigits startingDigit ↔
      FreeName language nameList str ∨
        maxDigits.toInt ≤ 9 ∧ -2 ^ 31 < startingDigit.toInt ∧
          ∃ n, startingDigit.toInt ≤ n ∧ n < 10 ^ maxDigits.toInt.toNat ∧
            withNumber str n ∉ nameList) ∧
    (appendDigit str digit.toInt = some (str ++ decimalNumeral digit.toInt) ↔
      0 ≤ digit.toInt ∧ ZeroFree digit.toInt.toNat) ∧
    ((∃ name name', appendDigit str digit.toInt = some name ∧
        appendDigit str digit'.toInt = some name' ∧ name ≠ name') ↔
      -2 ^ 31 < digit.toInt ∧ -2 ^ 31 < digit'.toInt ∧
        zeroFreeNumeral digit.toInt.natAbs ≠ zeroFreeNumeral digit'.toInt.natAbs) := by
  refine ⟨?_, appendDigit_eq_decimalNumeral_iff str digit, appendDigit_ne_iff str digit digit'⟩
  by_cases free : FreeName language nameList str
  · exact iff_of_true (madeUnique_of_free free maxDigits startingDigit) (.inl free)
  · rw [madeUnique_iff_of_not_free free (by omega), or_iff_right free]

/-- A defined name with no extension by digits gets the first number. -/
theorem madeUnique_iff_foo :
    (MadeUnique .c ["Foo".toList, "Bar".toList] "Foo".toList 3 1 ↔
      FreeName .c ["Foo".toList, "Bar".toList] "Foo".toList ∨
        (3 : Int32).toInt ≤ 9 ∧ -2 ^ 31 < (1 : Int32).toInt ∧
          ∃ n, (1 : Int32).toInt ≤ n ∧ n < 10 ^ (3 : Int32).toInt.toNat ∧
            withNumber "Foo".toList n ∉ ["Foo".toList, "Bar".toList]) ∧
    (appendDigit "Foo".toList (1 : Int32).toInt =
        some ("Foo".toList ++ decimalNumeral (1 : Int32).toInt) ↔
      0 ≤ (1 : Int32).toInt ∧ ZeroFree (1 : Int32).toInt.toNat) ∧
    ((∃ name name', appendDigit "Foo".toList (1 : Int32).toInt = some name ∧
        appendDigit "Foo".toList (10 : Int32).toInt = some name' ∧ name ≠ name') ↔
      -2 ^ 31 < (1 : Int32).toInt ∧ -2 ^ 31 < (10 : Int32).toInt ∧
        zeroFreeNumeral (1 : Int32).toInt.natAbs ≠ zeroFreeNumeral (10 : Int32).toInt.natAbs) :=
  madeUnique_iff .c ["Foo".toList, "Bar".toList] "Foo".toList 3 1 1 10 (by decide)

/-- The name "a", and all its extensions that the numbers up to 99 can give. -/
def crowdedNames : List (List Char) :=
  ['a'] :: (List.range 99).map fun i : ℕ => withNumber ['a'] (i + 1)

/-- Ninety extensions by digits take all the names of the numbers up to 99, and ten is appended as
one. -/
theorem not_madeUnique :
    (¬ ∀ (language : NameLanguage) (nameList : List (List Char)) (str : List Char)
      (maxDigits startingDigit : Int32),
      ((digitExtensions nameList str).length : ℤ) <
        10 ^ maxDigits.toInt.toNat - startingDigit.toInt →
      MadeUnique language nameList str maxDigits startingDigit) ∧
    (¬ ∀ (str : List Char) (digit : Int32),
      appendDigit str digit.toInt = some (str ++ decimalNumeral digit.toInt)) ∧
    ¬ ∀ (str : List Char) (digit digit' : Int32), digit ≠ digit' →
      ∃ name name', appendDigit str digit.toInt = some name ∧
        appendDigit str digit'.toInt = some name' ∧ name ≠ name' := by
  refine ⟨?_, ?_, ?_⟩
  · intro claim
    have fewer : ((digitExtensions crowdedNames ['a']).length : ℤ) <
        10 ^ (2 : Int32).toInt.toNat - (1 : Int32).toInt := by decide +kernel
    have used : ¬ FreeName .c crowdedNames ['a'] := by
      intro free
      exact free.1 List.mem_cons_self
    obtain ⟨-, -, n, above, below, free⟩ :=
      (madeUnique_iff_of_not_free used (by decide)).mp (claim .c crowdedNames ['a'] 2 1 fewer)
    have above : 1 ≤ n := above
    have below : n < 100 := below
    apply free
    refine List.mem_cons_of_mem _ (List.mem_map.mpr ⟨(n - 1).toNat, ?_, ?_⟩)
    · rw [List.mem_range]
      omega
    · congr 1
      omega
  · intro claim
    have ten := (appendDigit_eq_decimalNumeral_iff ['a'] 10).mp (claim ['a'] 10)
    exact absurd ten.2 (by decide)
  · intro claim
    have differ := (appendDigit_ne_iff ['a'] 1 10).mp (claim ['a'] 1 10 (by decide))
    exact differ.2.2 (by decide)

end Esnacc.Compiler
