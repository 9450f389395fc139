import Esnacc.Compiler.Subtypes
import Esnacc.Cxx.Alphabets
import Esnacc.Lib.ExchangeSort
import Mathlib.Data.List.TakeWhile
import Mathlib.Data.Set.Basic

/-! The alphabet that is printed for the constraints of a string component. -/

namespace Esnacc.Compiler

open Lib Esnacc.Cxx

/-! ## The constraints of a component -/

/-- Go through the constraints of a component; one that has no alternatives is put into a list. -/
def eachConstraint {σ : Type} (lists : List Subtype → σ → Option σ) (init : σ) :
    Subtype → Option σ
  | .and subtypes =>
    subtypes.foldlM (fun s subtype => match subtype with
      | .or alternatives => lists alternatives s
      | .single value => lists [.single value] s
      | .and _ => some s) init
  | .or alternatives => lists alternatives init
  | .single value => lists [.single value] init

/-- Constraints without alternatives are gone through one by one. -/
theorem eachConstraint_subtypesOf {σ : Type} (lists : List Subtype → σ → Option σ) (init : σ)
    (first : SubtypeValue) (rest : List SubtypeValue) :
    (subtypesOf ((first :: rest).map .single)).bind (eachConstraint lists init) =
      (first :: rest).foldlM (fun s value => lists [.single value] s) init := by
  cases rest with
  | nil =>
    -- A constraint alone is not put into a list of them.
    rw [List.map_singleton, subtypesOf_singleton, Option.bind_some, eachConstraint,
      List.foldlM_cons]
    change _ = Option.bind _ some
    rw [Option.bind_fun_some]
  | cons second rest =>
    rw [List.map_cons, List.map_cons, subtypesOf_cons _ _ (fun _ same => by cases same),
      Option.bind_some, eachConstraint, ← List.map_cons, ← List.map_cons]
    -- Both go along the same constraints.
    generalize first :: second :: rest = values
    induction values generalizing init with
    | nil => rfl
    | cons value values ih =>
      rw [List.map_cons, List.foldlM_cons, List.foldlM_cons]
      change Option.bind _ _ = Option.bind _ _
      dsimp only
      cases lists [.single value] init with
      | none => rfl
      | some s => exact ih s

/-! ## The alphabet that is printed -/

/-- What C functions take of the octets of a text. -/
def cText (octs : List UInt8) : List UInt8 :=
  octs.takeWhile (· ≠ 0)

/-- Add a character that is not found in the alphabet, which has room for 500. -/
def addChar (same : UInt8 → UInt8 → Bool) (alphabet : List UInt8) (c : UInt8) :
    Option (List UInt8) :=
  if alphabet.any (same · c) then some alphabet
  else if alphabet.length < 500 then some (alphabet ++ [c])
  else none

/-- An `unsigned char` is equal to a `char`, which has a sign. -/
def sameChar (a c : UInt8) : Bool :=
  (a.toNat : Int) = c.toInt8.toInt

/-- The characters of an element are added; `none` where what is read is no text. -/
def permittedChars (alphabet : List UInt8) : SubtypeValue → Option (List UInt8)
  | .singleValue (.asciiText octs) => (cText octs).reverse.foldlM (addChar sameChar) alphabet
  | .singleValue _ => none
  | .valueRange lowerEndValue upperEndValue =>
    match lowerEndValue.endValue, upperEndValue.endValue with
    | .asciiText lower, .asciiText upper =>
      let lower := lower.headD 0
      let upper := upper.headD 0
      -- A counter of one octet does not pass the last one.
      if upper = 255 then none
      else (octetRange lower.toNat upper.toNat).foldlM (addChar (· == ·)) alphabet
    | _, _ => none
  | _ => some alphabet

/-- PrintCxxPermittedAlphabetHandler: add the characters of some elements. -/
def permittedAlphabetHandler : List Subtype → List UInt8 → Option (List UInt8)
  | [], alphabet => some alphabet
  | .single value :: rest, alphabet => do
    permittedAlphabetHandler rest (← permittedChars alphabet value)
  | _ :: rest, alphabet => permittedAlphabetHandler rest alphabet

/-- FindPermittedAlpha: add the characters of the alphabets among some constraints. -/
def findPermittedAlpha : List Subtype → List UInt8 → Option (List UInt8)
  | [], alphabet => some alphabet
  | .single (.permittedAlphabet subtype) :: rest, alphabet => do
    -- What stands behind FROM is put into a list of its own, as one element.
    findPermittedAlpha rest (← permittedAlphabetHandler [subtype] alphabet)
  | _ :: rest, alphabet => findPermittedAlpha rest alphabet

/-- The alphabet that is printed, which is none where it is empty. -/
def printedAlphabet (subtypes : Subtype) : Option (List UInt8) := do
  let alphabet ← eachConstraint findPermittedAlpha [] subtypes
  return exchangeSort UInt8.toNat alphabet

/-! ## Alphabets as they are written -/

/-- The types of strings whose constraints are printed. -/
inductive StringType where
  | numericStr
  | printableStr
  | ia5Str
  | visibleStr

/-- The characters of a type. -/
def StringType.permittedAlphabet : StringType → List UInt8
  | numericStr => NumericString.permittedAlphabet
  | printableStr => PrintableString.permittedAlphabet
  | ia5Str => IA5String.permittedAlphabet
  | visibleStr => VisibleString.permittedAlphabet

/-- A character at the end of a range. -/
structure CharEnd where
  value : UInt8
  inclusive : Bool

/-- A string or a range of characters. -/
inductive AlphabetElement where
  | string (octs : List UInt8)
  | range (lower upper : CharEnd)

/-- What stands behind FROM: elements that are joined with bars. -/
structure AlphabetUnion where
  first : AlphabetElement
  rest : List AlphabetElement

/-- What is parsed for an end of a range. -/
def CharEnd.parsed (e : CharEnd) : ValueRangeEndpoint :=
  ⟨.asciiText [e.value], e.inclusive⟩

/-- What is parsed for an element. -/
def AlphabetElement.parsed : AlphabetElement → SubtypeValue
  | string octs => .singleValue (.asciiText octs)
  | range lower upper => .valueRange lower.parsed upper.parsed

def AlphabetUnion.elements (u : AlphabetUnion) : List AlphabetElement :=
  u.first :: u.rest

/-- What is parsed for FROM. -/
def AlphabetUnion.parsed (u : AlphabetUnion) : SubtypeValue :=
  .permittedAlphabet (subtypeValueSetList u.first.parsed (u.rest.map AlphabetElement.parsed))

/-- A character can be written in the text of a module. -/
def Writable (type : StringType) (c : UInt8) : Prop :=
  c ∈ type.permittedAlphabet ∧ c ≠ 0

/-- The strings and ends of an element are values of the type. -/
def AlphabetElement.Proper (type : StringType) : AlphabetElement → Prop
  | string octs => ∀ c ∈ octs, Writable type c
  | range lower upper => Writable type lower.value ∧ Writable type upper.value

/-- An element allows a character. -/
def AlphabetElement.Allows (c : UInt8) : AlphabetElement → Prop
  | string octs => c ∈ octs
  | range lower upper =>
    (if lower.inclusive then lower.value ≤ c else lower.value < c) ∧
      (if upper.inclusive then c ≤ upper.value else c < upper.value)

/-- The characters of a type that FROM allows. -/
def AlphabetUnion.allowed (type : StringType) (u : AlphabetUnion) : Set UInt8 :=
  { c ∈ type.permittedAlphabet | ∃ e ∈ u.elements, e.Allows c }

/-! ## What is collected -/

theorem lt_of_permitted {type : StringType} {c : UInt8} (permitted : c ∈ type.permittedAlphabet) :
    c.toNat < 128 := by
  cases type with
  | numericStr => revert c; decide +kernel
  | printableStr => revert c; decide +kernel
  | ia5Str => revert c; decide +kernel
  | visibleStr => revert c; decide +kernel

theorem StringType.ascending (type : StringType) :
    type.permittedAlphabet.Pairwise (· < ·) := by
  cases type <;> decide +kernel

theorem length_le_of_nodup {alphabet : List UInt8} (distinct : alphabet.Nodup) :
    alphabet.length ≤ 256 := by
  have numbers : (alphabet.map UInt8.toNat).Nodup :=
    distinct.map fun _ _ same => UInt8.toNat_inj.mp same
  have octets : alphabet.map UInt8.toNat ⊆ List.range 256 := by
    intro n inside
    obtain ⟨c, -, rfl⟩ := List.mem_map.mp inside
    exact List.mem_range.mpr c.toNat_lt
  have count := (List.subperm_of_subset numbers octets).length_le
  rwa [List.length_map, List.length_range] at count

/-- Each of some characters is added once. -/
theorem addChar_foldlM {same : UInt8 → UInt8 → Bool} {chars : List UInt8}
    (right : ∀ c ∈ chars, ∀ a, same a c = true ↔ a = c) {alphabet : List UInt8}
    (distinct : alphabet.Nodup) :
    ∃ all, chars.foldlM (addChar same) alphabet = some all ∧ all.Nodup ∧
      ∀ c, c ∈ all ↔ c ∈ alphabet ∨ c ∈ chars := by
  induction chars generalizing alphabet with
  | nil => exact ⟨alphabet, rfl, distinct, fun c => by simp⟩
  | cons first chars ih =>
    have others := fun c there => right c (List.mem_cons_of_mem first there)
    have found : alphabet.any (same · first) = true ↔ first ∈ alphabet := by
      simp only [List.any_eq_true, right first List.mem_cons_self, exists_eq_right]
    rw [List.foldlM_cons, addChar]
    by_cases old : first ∈ alphabet
    · -- The character is there already.
      obtain ⟨all, ran, distinct', members⟩ := ih others distinct
      refine ⟨all, ?_, distinct', ?_⟩
      · rw [if_pos (found.mpr old)]
        exact ran
      · intro c
        rw [members, List.mem_cons]
        constructor
        · rintro (before | later)
          · exact .inl before
          · exact .inr (.inr later)
        · rintro (before | rfl | later)
          · exact .inl before
          · exact .inl old
          · exact .inr later
    · have longer : (alphabet ++ [first]).Nodup :=
        List.nodup_append'.mpr ⟨distinct, List.nodup_singleton first,
          List.disjoint_singleton.mpr old⟩
      have count := length_le_of_nodup distinct
      obtain ⟨all, ran, distinct', members⟩ := ih others longer
      refine ⟨all, ?_, distinct', ?_⟩
      · rw [if_neg (fun there => old (found.mp there)), if_pos (by omega)]
        exact ran
      · intro c
        rw [members, List.mem_append, List.mem_singleton, List.mem_cons, or_assoc]

theorem mem_octetRange {c first last : UInt8} :
    c ∈ octetRange first.toNat last.toNat ↔ first ≤ c ∧ c ≤ last := by
  have bound := last.toNat_lt
  rw [UInt8.le_iff_toNat_le, UInt8.le_iff_toNat_le, octetRange, List.mem_map]
  constructor
  · rintro ⟨n, inside, rfl⟩
    rw [List.mem_range'_1] at inside
    rw [UInt8.toNat_ofNat']
    omega
  · rintro ⟨above, below⟩
    refine ⟨c.toNat, ?_, UInt8.ofNat_toNat⟩
    rw [List.mem_range'_1]
    omega

/-- The characters that are collected from one element. -/
def AlphabetElement.chars : AlphabetElement → List UInt8
  | string octs => octs
  | range lower upper => octetRange lower.value.toNat upper.value.toNat

/-- The characters of an element are collected, whether its ends are inclusive or not. -/
theorem AlphabetElement.permittedChars_spec {type : StringType} {e : AlphabetElement}
    (proper : e.Proper type) :
    ∃ all, permittedChars [] e.parsed = some all ∧ all.Nodup ∧ ∀ c, c ∈ all ↔ c ∈ e.chars := by
  cases e with
  | string octs =>
    -- The text has no end before its own.
    have whole : cText octs = octs := by
      rw [cText, List.takeWhile_eq_self_iff]
      intro c there
      exact decide_eq_true (proper c there).2
    have right : ∀ c ∈ octs.reverse, ∀ a, sameChar a c = true ↔ a = c := by
      intro c there a
      have small := lt_of_permitted (proper c (List.mem_reverse.mp there)).1
      have number : c.toInt8.toInt = c.toNat := by
        rcases toInt_toInt8 c with ⟨-, number⟩ | ⟨large, -⟩
        · exact number
        · omega
      rw [sameChar, number, decide_eq_true_iff, ← UInt8.toNat_inj]
      omega
    obtain ⟨all, ran, distinct, members⟩ := addChar_foldlM right List.nodup_nil
    refine ⟨all, ?_, distinct, ?_⟩
    · rw [AlphabetElement.parsed, permittedChars, whole, ran]
    · intro c
      rw [members, List.mem_reverse]
      exact or_iff_right List.not_mem_nil
  | range lower upper =>
    have last := lt_of_permitted proper.2.1
    have bounded : upper.value ≠ 255 := by
      intro same
      rw [same] at last
      exact absurd last (by decide)
    have right : ∀ c ∈ octetRange lower.value.toNat upper.value.toNat, ∀ a : UInt8,
        (a == c) = true ↔ a = c := fun _ _ _ => beq_iff_eq
    obtain ⟨all, ran, distinct, members⟩ := addChar_foldlM right List.nodup_nil
    refine ⟨all, ?_, distinct, ?_⟩
    · change (if upper.value = 255 then none else _) = _
      rw [if_neg bounded]
      exact ran
    · intro c
      rw [members]
      exact or_iff_right List.not_mem_nil

theorem exchangeSort_ascending {alphabet : List UInt8} (distinct : alphabet.Nodup) :
    (exchangeSort UInt8.toNat alphabet).Pairwise (· < ·) := by
  have sorted : (exchangeSort UInt8.toNat alphabet).Pairwise fun a b => a.toNat ≤ b.toNat :=
    exchangeSort_sorted alphabet
  have apart : (exchangeSort UInt8.toNat alphabet).Nodup :=
    (exchangeSort_perm alphabet).nodup_iff.mpr distinct
  refine sorted.imp₂ ?_ apart
  intro a b below different
  rw [UInt8.lt_iff_toNat_lt]
  have numbers : a.toNat ≠ b.toNat := fun same => different (UInt8.toNat_inj.mp same)
  omega

/-! ## When it is what is allowed -/

/-- The class of a component takes the alphabet of its type where none is printed. -/
def StringType.alphabetOr (type : StringType) (printed : List UInt8) : List UInt8 :=
  if printed = [] then type.permittedAlphabet else printed

/-- The characters of an element alone are printed as it allows them. -/
def AlphabetElement.Kept (type : StringType) : AlphabetElement → Prop
  | string octs => octs ≠ []
  | range lower upper => lower.inclusive = true ∧ upper.inclusive = true ∧
    lower.value ≤ upper.value ∧
    ∀ c, lower.value ≤ c → c ≤ upper.value → c ∈ type.permittedAlphabet

/-- The characters behind FROM are printed as it allows them; nothing is printed for two elements. -/
def AlphabetUnion.Kept (type : StringType) (u : AlphabetUnion) : Prop :=
  match u.rest with
  | [] => u.first.Kept type
  | _ => ∀ c ∈ type.permittedAlphabet, ∃ e ∈ u.elements, e.Allows c

theorem StringType.alphabet_nonempty (type : StringType) : ∃ c, c ∈ type.permittedAlphabet := by
  cases type
  · exact ⟨0x20, by decide⟩
  · exact ⟨0x20, by decide⟩
  · exact ⟨0x20, by decide⟩
  · exact ⟨0x20, by decide⟩

/-- What is collected from an element alone is what it allows exactly where it is kept. -/
theorem AlphabetElement.kept_iff {type : StringType} {e : AlphabetElement}
    (proper : e.Proper type) {printed : List UInt8} (collected : ∀ c, c ∈ printed ↔ c ∈ e.chars) :
    (∀ c, c ∈ type.alphabetOr printed ↔ c ∈ type.permittedAlphabet ∧ e.Allows c) ↔
      e.Kept type := by
  obtain ⟨some, permitted⟩ := type.alphabet_nonempty
  -- Where nothing is collected, nothing is allowed.
  by_cases empty : printed = []
  · subst empty
    have none : ∀ c, c ∉ e.chars := fun c there => List.not_mem_nil ((collected c).mpr there)
    rw [StringType.alphabetOr, if_pos rfl]
    cases e with
    | string octs =>
      refine iff_of_false (fun all => none some ((all some).mp permitted).2) ?_
      intro nonempty
      obtain ⟨c, there⟩ := List.exists_mem_of_ne_nil octs nonempty
      exact none c there
    | range lower upper =>
      have crossed : ¬lower.value ≤ upper.value := by
        intro ordered
        exact none lower.value (mem_octetRange.mpr ⟨UInt8.le_refl _, ordered⟩)
      refine iff_of_false ?_ fun kept => crossed kept.2.2.1
      intro all
      obtain ⟨above, below⟩ := ((all some).mp permitted).2
      apply crossed
      have weakly : lower.value ≤ some := by
        by_cases inclusive : lower.inclusive = true
        · rwa [if_pos inclusive] at above
        · rw [if_neg inclusive] at above
          exact UInt8.le_of_lt above
      have weakly' : some ≤ upper.value := by
        by_cases inclusive : upper.inclusive = true
        · rwa [if_pos inclusive] at below
        · rw [if_neg inclusive] at below
          exact UInt8.le_of_lt below
      exact UInt8.le_trans weakly weakly'
  · rw [StringType.alphabetOr, if_neg empty]
    simp only [collected]
    cases e with
    | string octs =>
      refine iff_of_true ?_ ?_
      · intro c
        exact ⟨fun there => ⟨(proper c there).1, there⟩, And.right⟩
      · rintro rfl
        exact empty (List.eq_nil_iff_forall_not_mem.mpr fun c there =>
          List.not_mem_nil ((collected c).mp there))
    | range lower upper =>
      have ordered : lower.value ≤ upper.value := by
        obtain ⟨c, there⟩ := List.exists_mem_of_ne_nil printed empty
        obtain ⟨above, below⟩ := mem_octetRange.mp ((collected c).mp there)
        exact UInt8.le_trans above below
      constructor
      · intro all
        -- The ends are collected, and are allowed only where they are inclusive.
        have first := ((all lower.value).mp (mem_octetRange.mpr ⟨UInt8.le_refl _, ordered⟩)).2.1
        have last := ((all upper.value).mp (mem_octetRange.mpr ⟨ordered, UInt8.le_refl _⟩)).2.2
        refine ⟨?_, ?_, ordered, ?_⟩
        · by_contra exclusive
          rw [if_neg exclusive] at first
          exact absurd first (UInt8.lt_irrefl _)
        · by_contra exclusive
          rw [if_neg exclusive] at last
          exact absurd last (UInt8.lt_irrefl _)
        · intro c above below
          exact ((all c).mp (mem_octetRange.mpr ⟨above, below⟩)).1
      · rintro ⟨first, last, -, inside⟩ c
        rw [AlphabetElement.chars, mem_octetRange, AlphabetElement.Allows, if_pos first,
          if_pos last]
        exact ⟨fun between => ⟨inside c between.1 between.2, between⟩, And.right⟩

/-- What is collected behind FROM is what is allowed exactly where it is kept. -/
theorem AlphabetUnion.collected_spec {type : StringType} {u : AlphabetUnion}
    (proper : ∀ e ∈ u.elements, e.Proper type) :
    ∃ all, findPermittedAlpha [.single u.parsed] [] = some all ∧ all.Nodup ∧
      ((∀ c, c ∈ type.alphabetOr all ↔ c ∈ u.allowed type) ↔ u.Kept type) := by
  obtain ⟨first, rest⟩ := u
  cases rest with
  | nil =>
    have firstProper := proper first List.mem_cons_self
    obtain ⟨all, ran, distinct, members⟩ := first.permittedChars_spec firstProper
    refine ⟨all, ?_, distinct, ?_⟩
    · change Option.bind (Option.bind (permittedChars [] first.parsed) some) some = some all
      rw [ran]
      rfl
    · change _ ↔ first.Kept type
      rw [← AlphabetElement.kept_iff firstProper members]
      simp only [AlphabetUnion.allowed, AlphabetUnion.elements, Set.mem_ofPred_eq,
        List.mem_singleton, exists_eq_left]
  | cons second rest =>
    -- The elements are one element of the list that is made, which is no single one.
    refine ⟨[], ?_, List.nodup_nil, ?_⟩
    · rw [AlphabetUnion.parsed, List.map_cons, subtypeValueSetList_cons]
      rfl
    · rw [StringType.alphabetOr, if_pos rfl]
      constructor
      · intro all c permitted
        exact ((all c).mp permitted).2
      · intro kept c
        exact ⟨fun permitted => ⟨permitted, kept c permitted⟩, And.left⟩

end Esnacc.Compiler
