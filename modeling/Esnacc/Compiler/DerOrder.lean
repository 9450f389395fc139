import Esnacc.Ber.Tag
import Esnacc.Compiler.PerSort
import Esnacc.Cxx.StoredInts
import Esnacc.Lib.Qsort

/-! The order in which the printed C encoder puts the components of a SET, where DER is asked for. -/

namespace Esnacc.Compiler

open Lib Esnacc.Cxx

/-! ## Source -/

/-- The number of a class; those that are no classes of tags are negative. -/
def BerClass.number : BerClass → UInt32
  | .anyClass => -2
  | .nullClass => -1
  | .univ => UNIV
  | .appl => APPL
  | .cntx => CNTX
  | .priv => PRIV

/-- The number of a form; those that are not known are negative. -/
def BerForm.number : BerForm → UInt32
  | .anyForm => -2
  | .nullForm => -1
  | .prim => PRIM
  | .cons => CONS

/-- The word of a tag. -/
def Tag.word (tag : Tag) : UInt32 :=
  makeTagId tag.tclass.number tag.form.number (UInt32.ofInt tag.code)

/-- The octets of a word as they lie in the memory of a machine. -/
def memoryOctets (bigEndian : Bool) (word : UInt32) : List UInt8 :=
  let octets := [(word >>> 24).toUInt8, (word >>> 16).toUInt8, (word >>> 8).toUInt8, word.toUInt8]
  if bigEndian then octets else octets.reverse

/-- The words of tags in memory. -/
def tagBuf (bigEndian : Bool) (tags : List Tag) : List UInt8 :=
  tags.flatMap fun tag => memoryOctets bigEndian tag.word

/-- Compare the tags of two types as memory, and by their number where none of them differs. -/
def cmpTags (bigEndian : Bool) (t1 t2 : List Tag) : Int :=
  let len1 := t1.length
  let len2 := t2.length
  let min := if len1 > len2 then len2 else len1
  let cmp := memcmp ((tagBuf bigEndian t1).take (min * 4)) ((tagBuf bigEndian t2).take (min * 4))
  if cmp ≠ 0 then cmp else len1 - len2

/-- The tags of each component, which are the same ones at every comparison. -/
def tagsOfElmts (m : Parsed) (libTypesG : BasicTypeChoiceId → BerForm) (fuel : Nat) :
    List Nat → CursorM (List (List Tag × Nat))
  | [] => return []
  | e :: rest => do
    let (tags, _) ← getTags m libTypesG fuel e
    let others ← tagsOfElmts m libTypesG fuel rest
    return (tags, e) :: others

/-- The components of a SET in the order in which their encoders are printed. -/
def printCElmtsEncodeCode (m : Parsed) (libTypesG : BasicTypeChoiceId → BerForm)
    (bigEndian : Bool)
    (qsort : (List Tag × Nat → List Tag × Nat → Int) → List (List Tag × Nat) →
      List (List Tag × Nat))
    (fuel elmts : Nat) : CursorM (List Nat) := do
  let elmtlist ← tagsOfElmts m libTypesG fuel (m.namedTypeLists elmts)
  -- Tags that fill the buffer of a comparison end the program; nothing is compared with itself.
  if 1 < elmtlist.length && elmtlist.any fun e => 256 ≤ e.1.length then failure
  let elmtlist := qsort (fun a b => cmpTags bigEndian a.1 b.1) elmtlist
  -- The encoders write from the back.
  return (elmtlist.map Prod.snd).reverse

/-! ## The promise -/

/-- The tags that a component may begin with. -/
def outermostTags (tags : List Tag) (stoleChoiceTags : Bool) : List Tag :=
  if stoleChoiceTags then tags else tags.take 1

/-- Whatever tag each of them begins with, a component is before another one in DER. -/
def CanonicallyBefore (tagsOf : Nat → List Tag) (stoleOf : Nat → Bool) (a b : Nat) : Prop :=
  ∀ x ∈ outermostTags (tagsOf a) (stoleOf a), ∀ y ∈ outermostTags (tagsOf b) (stoleOf b),
    x.canonical < y.canonical

/-- The octets of the components come in the canonical order, whatever routine sorts them. -/
def EmitsInOrder (m : Parsed) (libTypesG : BasicTypeChoiceId → BerForm) (bigEndian : Bool)
    (elmts : Nat) (tagsOf : Nat → List Tag) (stoleOf : Nat → Bool) : Prop :=
  ∀ qsort, CorrectQsort qsort → ∃ n, ∀ fuel ≥ n, ∀ curr, ∃ emitted curr',
    printCElmtsEncodeCode m libTypesG bigEndian qsort fuel elmts curr = some (emitted, curr') ∧
      emitted.reverse.Pairwise (CanonicallyBefore tagsOf stoleOf)

/-- The words of tags as numbers, each with the octet on top that comes first in memory. -/
def memoryWords (bigEndian : Bool) (tags : List Tag) : List Nat :=
  tags.map fun tag => ofOctets (memoryOctets bigEndian tag.word)

/-! ## The comparison -/

theorem length_memoryOctets (bigEndian : Bool) (word : UInt32) :
    (memoryOctets bigEndian word).length = 4 := by
  cases bigEndian <;> rfl

/-- What is behind equal octets is compared. -/
theorem memcmp_append {s1 s2 : List UInt8} (same : s1.length = s2.length) (r1 r2 : List UInt8) :
    memcmp (s1 ++ r1) (s2 ++ r2) = if memcmp s1 s2 = 0 then memcmp r1 r2 else memcmp s1 s2 := by
  induction s1 generalizing s2 with
  | nil =>
    obtain rfl := List.length_eq_zero_iff.mp same.symm
    simp [memcmp]
  | cons c s1 ih =>
    cases s2 with
    | nil => cases same
    | cons d s2 =>
      rw [List.length_cons, List.length_cons, Nat.succ_inj] at same
      rw [List.cons_append, List.cons_append, memcmp, memcmp]
      by_cases first : c = d
      · rw [if_pos first, if_pos first, ih same]
      · have apart : (c.toNat : Int) - d.toNat ≠ 0 := by
          intro zero
          exact first (UInt8.toNat_inj.mp (by omega))
        rw [if_neg first, if_neg first, if_neg apart]

/-- The first words decide, and where they are equal those behind them. -/
theorem cmpTags_cons (bigEndian : Bool) (x y : Tag) (t1 t2 : List Tag) :
    cmpTags bigEndian (x :: t1) (y :: t2) =
      if memcmp (memoryOctets bigEndian x.word) (memoryOctets bigEndian y.word) = 0 then
        cmpTags bigEndian t1 t2
      else memcmp (memoryOctets bigEndian x.word) (memoryOctets bigEndian y.word) := by
  have fewer : (if (x :: t1).length > (y :: t2).length then (y :: t2).length
      else (x :: t1).length) = (if t1.length > t2.length then t2.length else t1.length) + 1 := by
    simp only [List.length_cons]
    split_ifs <;> omega
  have words (z : Tag) (t : List Tag) (k : Nat) : (tagBuf bigEndian (z :: t)).take ((k + 1) * 4) =
      memoryOctets bigEndian z.word ++ (tagBuf bigEndian t).take (k * 4) := by
    rw [tagBuf, List.flatMap_cons, List.take_append, length_memoryOctets, List.take_of_length_le]
    · congr 2
      omega
    · rw [length_memoryOctets]
      omega
  have equalLengths : (memoryOctets bigEndian x.word).length =
      (memoryOctets bigEndian y.word).length := by
    rw [length_memoryOctets, length_memoryOctets]
  rw [cmpTags, fewer, words, words, memcmp_append equalLengths]
  by_cases equal : memcmp (memoryOctets bigEndian x.word) (memoryOctets bigEndian y.word) = 0
  · rw [if_pos equal, if_pos equal, cmpTags]
    simp
  · rw [if_neg equal, if_neg equal, if_pos equal]

/-- Tags are compared by their words, the first ones first. -/
theorem cmpTags_spec (bigEndian : Bool) (t1 t2 : List Tag) :
    (cmpTags bigEndian t1 t2 < 0 ↔ memoryWords bigEndian t1 < memoryWords bigEndian t2) ∧
      (0 < cmpTags bigEndian t1 t2 ↔ memoryWords bigEndian t2 < memoryWords bigEndian t1) := by
  -- The induction goes along both lists until one of them ends.
  induction t1 generalizing t2 with
  | nil =>
    cases t2 with
    | nil => simp [cmpTags, memcmp, memoryWords]
    | cons y t2 =>
      have shorter : cmpTags bigEndian [] (y :: t2) = -((t2.length : Int) + 1) := by
        simp [cmpTags, memcmp]
      rw [shorter]
      simp only [memoryWords, List.map_nil, List.map_cons, List.nil_lt_cons, List.not_lt_nil,
        iff_true, iff_false]
      omega
  | cons x t1 ih =>
    cases t2 with
    | nil =>
      have longer : cmpTags bigEndian (x :: t1) [] = (t1.length : Int) + 1 := by
        simp [cmpTags, memcmp]
      rw [longer]
      simp only [memoryWords, List.map_nil, List.map_cons, List.nil_lt_cons, List.not_lt_nil,
        iff_true, iff_false]
      omega
    | cons y t2 =>
      have sameLength : (memoryOctets bigEndian x.word).length =
          (memoryOctets bigEndian y.word).length := by
        rw [length_memoryOctets, length_memoryOctets]
      obtain ⟨less, equal, greater⟩ := memcmp_spec sameLength
      have behind := ih t2
      simp only [memoryWords] at behind
      rw [cmpTags_cons]
      simp only [memoryWords, List.map_cons, List.cons_lt_cons_iff]
      by_cases same : memoryOctets bigEndian x.word = memoryOctets bigEndian y.word
      · rw [if_pos (equal.mpr same), same]
        simpa using behind
      · rw [if_neg fun zero => same (equal.mp zero), less, greater]
        have apart : ofOctets (memoryOctets bigEndian x.word) ≠
            ofOctets (memoryOctets bigEndian y.word) := by
          intro both
          have zero : ¬ memcmp (memoryOctets bigEndian x.word)
              (memoryOctets bigEndian y.word) = 0 := fun zero => same (equal.mp zero)
          omega
        simp [apart, apart.symm]

theorem comparesBy_memoryWords (bigEndian : Bool) :
    ComparesBy (fun a b : List Tag × Nat => cmpTags bigEndian a.1 b.1)
      (fun a => memoryWords bigEndian a.1) where
  lt a b := (cmpTags_spec bigEndian a.1 b.1).1
  gt a b := (cmpTags_spec bigEndian a.1 b.1).2

/-! ## Gathering the components -/

section

variable {m : Parsed} {libTypesG : BasicTypeChoiceId → BerForm} {elmts : Nat}
  {tagsOf : Nat → List Tag} {stoleOf : Nat → Bool}

/-- A component with its tags. -/
def tagged (tagsOf : Nat → List Tag) (e : Nat) : List Tag × Nat :=
  (tagsOf e, e)

/-- Each component gets its tags. -/
theorem tagsOfElmts_spec {fuel : Nat} {es : List Nat}
    (each : ∀ e ∈ es, ∀ curr, ∃ curr',
      getTags m libTypesG fuel e curr = some ((tagsOf e, stoleOf e), curr'))
    (curr : ListCursors) :
    ∃ curr', tagsOfElmts m libTypesG fuel es curr = some (es.map (tagged tagsOf), curr') := by
  induction es generalizing curr with
  | nil => exact ⟨curr, rfl⟩
  | cons e rest ih =>
    obtain ⟨curr₁, got⟩ := each e List.mem_cons_self curr
    obtain ⟨curr₂, others⟩ := ih (fun x inside => each x (List.mem_cons_of_mem e inside)) curr₁
    refine ⟨curr₂, ?_⟩
    change (getTags m libTypesG fuel e curr >>= _) = _
    rw [got]
    change (tagsOfElmts m libTypesG fuel rest curr₁ >>= _) = _
    rw [others]
    rfl

/-- The tags of two components or more fit the buffers of the comparison. -/
def TagsFit (m : Parsed) (elmts : Nat) (tagsOf : Nat → List Tag) : Prop :=
  1 < (m.namedTypeLists elmts).length → ∀ e ∈ m.namedTypeLists elmts, (tagsOf e).length < 256

theorem tagsFit_iff : TagsFit m elmts tagsOf ↔
    (1 < ((m.namedTypeLists elmts).map (tagged tagsOf)).length &&
      ((m.namedTypeLists elmts).map (tagged tagsOf)).any fun e => 256 ≤ e.1.length) = false := by
  simp only [TagsFit, tagged, List.length_map, Bool.and_eq_false_imp, decide_eq_true_eq,
    List.any_map, List.any_eq_false, Function.comp_apply]
  refine forall_congr' fun _ => forall₂_congr fun e _ => ?_
  exact ⟨fun fits full => absurd (of_decide_eq_true full) (Nat.not_le.mpr fits),
    fun fits => Nat.not_le.mp fun full => fits (decide_eq_true full)⟩

/-- The routine sorts the components with their tags, where these fit. -/
theorem printCElmtsEncodeCode_spec (sortable : Sortable m libTypesG elmts tagsOf stoleOf)
    (bigEndian : Bool)
    (qsort : (List Tag × Nat → List Tag × Nat → Int) → List (List Tag × Nat) →
      List (List Tag × Nat)) :
    ∃ n, ∀ fuel ≥ n, ∀ curr,
      (¬TagsFit m elmts tagsOf →
        printCElmtsEncodeCode m libTypesG bigEndian qsort fuel elmts curr = none) ∧
      (TagsFit m elmts tagsOf →
        ∃ curr', printCElmtsEncodeCode m libTypesG bigEndian qsort fuel elmts curr =
          some (((qsort (fun a b => cmpTags bigEndian a.1 b.1)
            ((m.namedTypeLists elmts).map (tagged tagsOf))).map Prod.snd).reverse, curr')) := by
  -- One amount of fuel is enough for the tags of every component.
  obtain ⟨n, spec⟩ := @exists_fuel (fun e fuel => ∀ curr, ∃ curr',
      getTags m libTypesG fuel e curr = some ((tagsOf e, stoleOf e), curr'))
    (m.namedTypeLists elmts) fun e member => by
      obtain ⟨n, found⟩ := (getTags_of_effective (sortable.effective e member)).1
        (sortable.delivers e member)
      refine ⟨n, fun fuel enough curr => ?_⟩
      obtain ⟨curr', got, -⟩ := found fuel enough curr
      exact ⟨curr', got⟩
  refine ⟨n, fun fuel enough curr => ?_⟩
  obtain ⟨curr', gathered⟩ := tagsOfElmts_spec (spec fuel enough) curr
  constructor
  · intro full
    rw [tagsFit_iff, Bool.not_eq_false] at full
    change (tagsOfElmts m libTypesG fuel (m.namedTypeLists elmts) curr >>= _) = _
    rw [gathered]
    simp only [Option.bind_eq_bind, Option.bind_some, full]
    rfl
  · intro fit
    rw [tagsFit_iff] at fit
    refine ⟨curr', ?_⟩
    change (tagsOfElmts m libTypesG fuel (m.namedTypeLists elmts) curr >>= _) = _
    rw [gathered]
    simp only [Option.bind_eq_bind, Option.bind_some, fit]
    rfl

/-- The components come in the canonical order exactly when their tags fit the buffers and every
sorting routine puts them into that order. -/
theorem emitsInOrder_iff_sorts (bigEndian : Bool)
    (sortable : Sortable m libTypesG elmts tagsOf stoleOf) :
    EmitsInOrder m libTypesG bigEndian elmts tagsOf stoleOf ↔
      TagsFit m elmts tagsOf ∧ ∀ qsort, CorrectQsort qsort →
        (qsort (fun a b => cmpTags bigEndian a.1 b.1)
          ((m.namedTypeLists elmts).map (tagged tagsOf))).Pairwise
            fun a b => CanonicallyBefore tagsOf stoleOf a.2 b.2 := by
  constructor
  · intro promise
    have fit : TagsFit m elmts tagsOf := by
      by_contra full
      obtain ⟨qsort, correct, -⟩ := @exists_correctQsort (List Tag × Nat)
      obtain ⟨k, ran⟩ := promise qsort correct
      obtain ⟨n, spec⟩ := printCElmtsEncodeCode_spec sortable bigEndian qsort
      obtain ⟨emitted, curr', got, -⟩ :=
        ran (max n k) (Nat.le_max_right n k) ⟨fun _ => 0, fun _ => 0⟩
      have none := (spec (max n k) (Nat.le_max_left n k) ⟨fun _ => 0, fun _ => 0⟩).1 full
      rw [none] at got
      cases got
    refine ⟨fit, fun qsort correct => ?_⟩
    obtain ⟨k, ran⟩ := promise qsort correct
    obtain ⟨n, spec⟩ := printCElmtsEncodeCode_spec sortable bigEndian qsort
    obtain ⟨emitted, curr', got, ordered⟩ :=
      ran (max n k) (Nat.le_max_right n k) ⟨fun _ => 0, fun _ => 0⟩
    obtain ⟨curr'', got'⟩ := (spec (max n k) (Nat.le_max_left n k) ⟨fun _ => 0, fun _ => 0⟩).2 fit
    rw [got'] at got
    cases got
    rwa [List.reverse_reverse, List.pairwise_map] at ordered
  · rintro ⟨fit, sorted⟩ qsort correct
    obtain ⟨n, spec⟩ := printCElmtsEncodeCode_spec sortable bigEndian qsort
    refine ⟨n, fun fuel enough curr => ?_⟩
    obtain ⟨curr', got⟩ := (spec fuel enough curr).2 fit
    refine ⟨_, curr', got, ?_⟩
    rw [List.reverse_reverse, List.pairwise_map]
    exact sorted qsort correct

/-- Words in the order of memory mean components in the canonical order. -/
def WordsFollow (bigEndian : Bool) (tagsOf : Nat → List Tag) (stoleOf : Nat → Bool)
    (a b : Nat) : Prop :=
  memoryWords bigEndian (tagsOf a) ≤ memoryWords bigEndian (tagsOf b) →
    CanonicallyBefore tagsOf stoleOf a b

theorem sorts_iff_wordsFollow (bigEndian : Bool) (es : List Nat) :
    (∀ qsort, CorrectQsort qsort →
        (qsort (fun a b => cmpTags bigEndian a.1 b.1) (es.map (tagged tagsOf))).Pairwise
          fun a b => CanonicallyBefore tagsOf stoleOf a.2 b.2) ↔
      es.Pairwise fun a b =>
        WordsFollow bigEndian tagsOf stoleOf a b ∧ WordsFollow bigEndian tagsOf stoleOf b a := by
  rw [(comparesBy_memoryWords bigEndian).qsort_pairwise_iff, List.pairwise_map]
  rfl

/-- The components of a SET come in the canonical order exactly when their tags fit the buffers of
the comparison, and words in the order of memory mean tags in the canonical order. -/
theorem emitsInOrder_iff (m : Parsed) (libTypesG : BasicTypeChoiceId → BerForm) (bigEndian : Bool)
    (elmts : Nat) (tagsOf : Nat → List Tag) (stoleOf : Nat → Bool)
    (sortable : Sortable m libTypesG elmts tagsOf stoleOf) :
    EmitsInOrder m libTypesG bigEndian elmts tagsOf stoleOf ↔
      TagsFit m elmts tagsOf ∧ (m.namedTypeLists elmts).Pairwise fun a b =>
        WordsFollow bigEndian tagsOf stoleOf a b ∧ WordsFollow bigEndian tagsOf stoleOf b a := by
  rw [emitsInOrder_iff_sorts bigEndian sortable, sorts_iff_wordsFollow]

/-! ## Tags of one octet -/

/-- A tag of a class and a form, with a number that needs no octets of its own. -/
structure Tag.Short (tag : Tag) : Prop where
  isClass : tag.tclass ∈ [.univ, .appl, .cntx, .priv]
  isForm : tag.form ∈ [.prim, .cons]
  code : ∃ n : Fin 31, tag.code = n

/-- The identifier octet of a tag. -/
def Tag.octet (tag : Tag) : Int :=
  64 * tag.tclass.rank + (if tag.form = .cons then 32 else 0) + tag.code

/-- The word of a short tag has its identifier octet and zeros. -/
theorem Tag.Short.memoryOctets {tag : Tag} (short : tag.Short) (bigEndian : Bool) :
    (ofOctets (memoryOctets bigEndian tag.word) : Int) =
      tag.octet * if bigEndian then 2 ^ 24 else 1 := by
  obtain ⟨isClass, isForm, n, code⟩ := short
  obtain ⟨tclass, form, code', explicit, valueRef⟩ := tag
  obtain rfl : code' = n := code
  have each : ∀ tclass ∈ [BerClass.univ, .appl, .cntx, .priv], ∀ form ∈ [BerForm.prim, .cons],
      ∀ n : Fin 31, ∀ bigEndian : Bool,
      (ofOctets (Compiler.memoryOctets bigEndian
        (makeTagId tclass.number form.number (UInt32.ofInt n))) : Int) =
        (64 * tclass.rank + (if form = .cons then 32 else 0) + (n : Int)) *
          if bigEndian then 2 ^ 24 else 1 := by
    decide
  exact each tclass isClass form isForm n bigEndian

/-- In one class a constructed tag has a lower number than a primitive one. -/
def ConstructedBelow (x y : Tag) : Prop :=
  x.tclass = y.tclass ∧ x.code < y.code ∧ x.form = .cons ∧ y.form = .prim

/-- Identifier octets are in the canonical order but for constructed tags below primitive ones. -/
theorem Tag.Short.octet_lt_iff {x y : Tag} (shortX : x.Short) (shortY : y.Short)
    (before : x.canonical < y.canonical) : x.octet < y.octet ↔ ¬ConstructedBelow x y := by
  obtain ⟨classX, formX, n, codeX⟩ := shortX
  obtain ⟨classY, formY, k, codeY⟩ := shortY
  have sameClass : x.tclass.rank = y.tclass.rank ↔ x.tclass = y.tclass := by
    cases x.tclass <;> cases y.tclass <;> decide
  have bitX : x.form = .cons ∨ x.form = .prim := by simpa [or_comm] using formX
  have bitY : y.form = .cons ∨ y.form = .prim := by simpa [or_comm] using formY
  have lowX := n.isLt
  have lowY := k.isLt
  simp only [Tag.octet, ConstructedBelow, ← sameClass]
  rcases Prod.Lex.lt_iff.mp before with less | ⟨same, less⟩
  · change x.tclass.rank < y.tclass.rank at less
    split_ifs <;> omega
  · change x.tclass.rank = y.tclass.rank at same
    change x.code < y.code at less
    rcases bitX with consX | primX <;> rcases bitY with consY | primY <;> simp [*] <;> omega

theorem not_constructedBelow_of_lt {x y : Tag} (before : x.canonical < y.canonical) :
    ¬ConstructedBelow y x := by
  rintro ⟨sameClass, lower, -, -⟩
  rcases Prod.Lex.lt_iff.mp before with less | ⟨-, less⟩
  · change x.tclass.rank < y.tclass.rank at less
    rw [sameClass] at less
    exact lt_irrefl _ less
  · exact lt_asymm lower less

/-- Identifier octets tell tags of different classes or numbers apart. -/
theorem Tag.Short.octet_ne {x y : Tag} (shortX : x.Short) (shortY : y.Short)
    (other : x.canonical ≠ y.canonical) : x.octet ≠ y.octet := by
  intro same
  obtain ⟨-, -, n, codeX⟩ := shortX
  obtain ⟨-, -, k, codeY⟩ := shortY
  have lowX := n.isLt
  have lowY := k.isLt
  -- The class and the number can be read off the octet.
  simp only [Tag.octet] at same
  have equal : x.tclass.rank = y.tclass.rank ∧ x.code = y.code := by
    split_ifs at same <;> omega
  exact other (by rw [Tag.canonical, Tag.canonical, equal.1, equal.2])

/-- The words of tags come in the order of the identifier octets of the first ones. -/
theorem memoryWords_le_iff {x y : Tag} (shortX : x.Short) (shortY : y.Short)
    (other : x.octet ≠ y.octet) (bigEndian : Bool) (t1 t2 : List Tag) :
    memoryWords bigEndian (x :: t1) ≤ memoryWords bigEndian (y :: t2) ↔ x.octet < y.octet := by
  have wordX := shortX.memoryOctets bigEndian
  have wordY := shortY.memoryOctets bigEndian
  rw [← not_lt, memoryWords, memoryWords, List.map_cons, List.map_cons, List.cons_lt_cons_iff]
  cases bigEndian with
  | false =>
    simp only [Bool.false_eq_true, if_false, mul_one] at wordX wordY
    omega
  | true =>
    simp only [if_true] at wordX wordY
    omega

theorem Tag.Short.ordered_iff {x y : Tag} (shortX : x.Short) (shortY : y.Short)
    (before : x.canonical < y.canonical) :
    ((x.octet < y.octet → x.canonical < y.canonical) ∧
        (y.octet < x.octet → y.canonical < x.canonical)) ↔
      ¬ConstructedBelow x y ∧ ¬ConstructedBelow y x := by
  have follows := shortX.octet_lt_iff shortY before
  have upward := not_constructedBelow_of_lt before
  have apart := shortX.octet_ne shortY (ne_of_lt before)
  have turned : ¬y.octet < x.octet ↔ x.octet < y.octet := by omega
  simp only [before, implies_true, true_and, not_lt_of_gt before, imp_false, turned, follows,
    upward, not_false_eq_true, and_true]

end

/-! ## Two components -/

/-- The kind of a component: the first one may be a SEQUENCE, the others are of type INTEGER. -/
def componentKind (constructed : Bool) (e : Nat) : BasicTypeChoiceId :=
  if constructed && e = 0 then .sequence else .integer

/-- A SEQUENCE or an INTEGER under the tag [0], and an INTEGER under the tag [1]. -/
def twoComponents (constructed : Bool) : Parsed where
  types e := ⟨some e, true, { choiceId := componentKind constructed e }, false, false⟩
  tagLists tl := [{ tclass := .cntx, form := .nullForm, code := tl, explicit := false }]
  namedTypeLists _ := [0, 1]

/-- The form of a SEQUENCE is constructed, that of an INTEGER is primitive. -/
def derForm (choiceId : BasicTypeChoiceId) : BerForm :=
  if choiceId = .sequence then .cons else .prim

/-- The tag of a component. -/
def componentTag (constructed : Bool) (e : Nat) : Tag where
  tclass := .cntx
  form := derForm (componentKind constructed e)
  code := e
  explicit := false

theorem sortable_twoComponents (constructed : Bool) :
    Sortable (twoComponents constructed) derForm 0 (fun e => [componentTag constructed e])
      (fun _ => false) := by
  have chain (e : Nat) : Chain (twoComponents constructed) e
      [{ tclass := .cntx, form := .nullForm, code := e, explicit := false }] e := by
    refine ⟨[e], .last ?_, rfl⟩
    by_cases isFirst : (constructed && decide (e = 0)) = true <;>
      simp [refersTo, twoComponents, componentKind, BasicType.isTypeRef]
  constructor
  · intro e _
    exact .chain (chain e) (.inl (List.cons_ne_nil _ _))
  · intro e _ x reaches
    -- A tagged type offers no alternatives.
    obtain ⟨y, offers, -⟩ := Relation.TransGen.head'_iff.mp reaches
    exact absurd offers (not_offers_of_tagged (chain e) (.inl (List.cons_ne_nil _ _)) y)

/-- Two primitive components come in the canonical order on a little-endian machine. -/
theorem emitsInOrder_iff_primitive :
    EmitsInOrder (twoComponents false) derForm false 0 (fun e => [componentTag false e])
      (fun _ => false) := by
  refine (emitsInOrder_iff _ _ false 0 _ _ (sortable_twoComponents false)).mpr
    ⟨fun _ e _ => ?_, ?_⟩
  · exact (by decide : 1 < 256)
  · refine List.pairwise_pair.mpr ⟨fun _ => ?_, fun wrong => ?_⟩
    · intro x insideX y insideY
      rw [List.mem_singleton.mp insideX, List.mem_singleton.mp insideY]
      decide
    · exact absurd wrong (by decide)

/-- Components whose outermost tags differ, with forms that are known and numbers below 2^21. -/
structure DistinctlyTagged (m : Parsed) (elmts : Nat) (tagsOf : Nat → List Tag)
    (stoleOf : Nat → Bool) : Prop where
  distinct : (m.namedTypeLists elmts).Pairwise fun a b =>
    ∀ x ∈ outermostTags (tagsOf a) (stoleOf a), ∀ y ∈ outermostTags (tagsOf b) (stoleOf b),
      x.canonical ≠ y.canonical
  plain : ∀ e ∈ m.namedTypeLists elmts, tagsOf e ≠ [] ∧ ∀ tag ∈ tagsOf e,
    tag.tclass ∈ [.univ, .appl, .cntx, .priv] ∧ tag.form ∈ [.prim, .cons] ∧
      0 ≤ tag.code ∧ tag.code < 2 ^ 21

/-- The INTEGER is put in front of the SEQUENCE that has the lower tag. -/
theorem not_emitsInOrder :
    ¬ ∀ (m : Parsed) (libTypesG : BasicTypeChoiceId → BerForm) (bigEndian : Bool) (elmts : Nat)
      (tagsOf : Nat → List Tag) (stoleOf : Nat → Bool),
      Sortable m libTypesG elmts tagsOf stoleOf → DistinctlyTagged m elmts tagsOf stoleOf →
        EmitsInOrder m libTypesG bigEndian elmts tagsOf stoleOf := by
  intro claim
  have sortable := sortable_twoComponents true
  have distinctly : DistinctlyTagged (twoComponents true) 0 (fun e => [componentTag true e])
      (fun _ => false) := by
    constructor
    · refine List.pairwise_pair.mpr fun x insideX y insideY => ?_
      rw [List.mem_singleton.mp insideX, List.mem_singleton.mp insideY]
      decide
    · decide
  have emits := claim _ _ false 0 _ _ sortable distinctly
  rw [emitsInOrder_iff_sorts false sortable, sorts_iff_wordsFollow] at emits
  obtain ⟨-, follows⟩ := List.pairwise_pair.mp emits.2
  have wrong := follows (by decide) _ (List.mem_singleton_self _) _
    (List.mem_singleton_self _)
  exact absurd wrong (by decide)

end Esnacc.Compiler
