import Esnacc.Lib.FirstFree
import Mathlib.Algebra.Group.Int.Defs
import Mathlib.Algebra.Group.Nat.Defs
import Mathlib.Data.List.Basic

/-! The numbers that the parser gives to the identifiers of ENUMERATED types. -/

namespace Esnacc.Compiler

open Lib

/-! ## Parsing -/

/-- Enumeration: an identifier, or a NamedNumber with a literal. -/
inductive Enumeration where
  | identifier (name : String)
  | namedNumber (name : String) (number : ℤ)
  deriving DecidableEq

/-- Enumerations: the list between the braces as the grammar derives it. -/
inductive Enumerations where
  | enumeration (e : Enumeration)
  | comma (es : Enumerations) (e : Enumeration)
  | ellipsis (es : Enumerations)

/-- SignedNumber: what a literal is kept as. -/
def signedLiteral (number : ℤ) : Option Int32 :=
  -- The scanner gives the address of the text for more than 32 bits, and an `int` keeps 32 of them.
  if number.natAbs ≤ 0xFFFFFFFF then some (.ofInt number) else none

/-- The actions of Enumeration: the name with its number, and the counter behind it. -/
def enumeration : Enumeration → StateT UInt32 Option (String × Int32)
  | .identifier name => do
    let enumCtr ← get
    set (enumCtr + 1)
    return (name, enumCtr.toInt32)
  | .namedNumber name number => do
    let integer ← (signedLiteral number : StateT UInt32 Option Int32)
    -- The sum is one of `int`, and nothing is known where that overflows.
    if integer.toInt + 1 < 2 ^ 31 then
      set (integer + 1).toUInt32
      return (name, integer)
    else failure

/-- The actions of Enumerations: the list so far. -/
def enumerations : Enumerations → StateT UInt32 Option (List (String × Int32))
  | .enumeration e => do return [← enumeration e]
  | .comma es e => do return (← enumerations es) ++ [← enumeration e]
  | .ellipsis es => enumerations es

/-- The action of EnumeratedType: the list of the type, and the counter behind it. -/
def enumeratedType (es : Enumerations) (enumCtr : UInt32) :
    Option (List (String × Int32)) × UInt32 :=
  (((enumerations es).run enumCtr).map Prod.fst, 0)

/-- The lists of the types of a module, one after the other. -/
def enumeratedTypes : List Enumerations → UInt32 → List (Option (List (String × Int32)))
  | [], _ => []
  | es :: rest, enumCtr =>
    (enumeratedType es enumCtr).1 :: enumeratedTypes rest (enumeratedType es enumCtr).2

/-! ## Numbering -/

/-- The items of a list. -/
def Enumerations.items : Enumerations → List Enumeration
  | enumeration e => [e]
  | comma es e => es.items ++ [e]
  | ellipsis es => es.items

def Enumeration.name : Enumeration → String
  | identifier name => name
  | namedNumber name _ => name

/-- The number that is given explicitly. -/
def Enumeration.number? : Enumeration → Option ℤ
  | identifier _ => none
  | namedNumber _ number => some number

/-- The numbers that are given explicitly in a list. -/
def explicitNumbers (items : List Enumeration) : List ℤ :=
  items.filterMap Enumeration.number?

/-- How many items have no number. -/
def unnumbered (items : List Enumeration) : ℕ :=
  items.countP fun e => e.number?.isNone

/-- The numbers that those without an explicit one received. -/
def receivedNumbers (items : List Enumeration) (numbers : List (String × Int32)) : List ℤ :=
  (items.zip numbers).filterMap fun p => if p.1.number?.isNone then some p.2.2.toInt else none

/-- A list is numbered as it should be. -/
structure NumberedRight (items : List Enumeration) (numbers : List (String × Int32)) : Prop where
  /-- Every item is there, and explicit numbers are kept. -/
  kept : List.Forall₂ (fun e x => x.1 = e.name ∧ ∀ n ∈ e.number?, x.2.toInt = n) items numbers
  distinct : (numbers.map Prod.snd).Nodup
  /-- The others get the lowest numbers that are not given explicitly, in order. -/
  received : receivedNumbers items numbers =
    (takeFree (explicitNumbers items) (unnumbered items) 0).map fun n : ℕ => (n : ℤ)

/-- The explicit number that was last given, or -1 where there is none. -/
def lastNumber (before : List Enumeration) : ℤ :=
  (explicitNumbers before).getLast?.getD (-1)

/-- How many items stand behind the last one with a number. -/
def sinceNumber (before : List Enumeration) : ℕ :=
  (before.reverse.takeWhile fun e => e.number?.isNone).length

/-- A list in which counting on from the last explicit number always meets the lowest free one. -/
structure MeetsLowest (items : List Enumeration) : Prop where
  explicit : ∀ n ∈ explicitNumbers items, -2 ^ 31 ≤ n ∧ n < 2 ^ 31 - 1
  next : ∀ before name after, items = before ++ .identifier name :: after →
    let next := lastNumber before + 1 + sinceNumber before
    0 ≤ next ∧ next < 2 ^ 31 ∧ next ∉ explicitNumbers items ∧
      freeBelow (explicitNumbers items) next.toNat = unnumbered before

/-! ## What the parser does -/

/-- The numbers of some items where the counter has a value in front of them. -/
@[grind =] def counted : UInt32 → List Enumeration → List (String × Int32)
  | _, [] => []
  | enumCtr, .identifier name :: rest => (name, enumCtr.toInt32) :: counted (enumCtr + 1) rest
  | _, .namedNumber name n :: rest =>
    (name, .ofInt n) :: counted (Int32.ofInt n + 1).toUInt32 rest

/-- The counter behind some items. -/
def counterBehind : UInt32 → List Enumeration → UInt32
  | enumCtr, [] => enumCtr
  | enumCtr, .identifier _ :: rest => counterBehind (enumCtr + 1) rest
  | _, .namedNumber _ n :: rest => counterBehind (Int32.ofInt n + 1).toUInt32 rest

theorem counted_append (enumCtr : UInt32) (items more : List Enumeration) :
    counted enumCtr (items ++ more) =
      counted enumCtr items ++ counted (counterBehind enumCtr items) more := by
  induction items generalizing enumCtr with
  | nil => rfl
  | cons e rest ih =>
    cases e with
    | identifier name => rw [List.cons_append, counted, counted, counterBehind, ih]; rfl
    | namedNumber name n => rw [List.cons_append, counted, counted, counterBehind, ih]; rfl

theorem counterBehind_append (enumCtr : UInt32) (items more : List Enumeration) :
    counterBehind enumCtr (items ++ more) = counterBehind (counterBehind enumCtr items) more := by
  induction items generalizing enumCtr with
  | nil => rfl
  | cons e rest ih =>
    cases e with
    | identifier name => rw [List.cons_append, counterBehind, counterBehind, ih]
    | namedNumber name n => rw [List.cons_append, counterBehind, counterBehind, ih]

/-- A literal of 32 bits that has a successor where it is kept. -/
def Readable (n : ℤ) : Prop :=
  n.natAbs ≤ 0xFFFFFFFF ∧ (Int32.ofInt n).toInt + 1 < 2 ^ 31

instance (n : ℤ) : Decidable (Readable n) :=
  inferInstanceAs (Decidable (_ ∧ _))

/-- One item is numbered by the counter, or not at all where its literal cannot be read. -/
theorem run_enumeration (e : Enumeration) (enumCtr : UInt32) :
    (enumeration e).run enumCtr =
      if ∀ n ∈ explicitNumbers [e], Readable n then
        (counted enumCtr [e]).head?.map fun x => (x, counterBehind enumCtr [e])
      else none := by
  cases e with
  | identifier name =>
    have none : ∀ n ∈ explicitNumbers [.identifier name], Readable n :=
      fun n there => absurd there List.not_mem_nil
    rw [if_pos none]
    rfl
  | namedNumber name n =>
    have only : (∀ m ∈ explicitNumbers [.namedNumber name n], Readable m) ↔ Readable n := by
      exact List.forall_mem_singleton
    by_cases short : n.natAbs ≤ 0xFFFFFFFF
    · by_cases next : (Int32.ofInt n).toInt + 1 < 2 ^ 31
      · rw [if_pos (only.mpr ⟨short, next⟩), enumeration, signedLiteral, if_pos short]
        change (if _ then _ else _ : StateT UInt32 Option (String × Int32)).run enumCtr = _
        rw [if_pos next]
        rfl
      · rw [if_neg fun readable => next (only.mp readable).2, enumeration, signedLiteral,
          if_pos short]
        change (if _ then _ else _ : StateT UInt32 Option (String × Int32)).run enumCtr = _
        rw [if_neg next]
        rfl
    · rw [if_neg fun readable => short (only.mp readable).1, enumeration, signedLiteral,
        if_neg short]
      rfl

/-- The items are numbered by the counter, or none of them where a literal cannot be read. -/
theorem run_enumerations (es : Enumerations) (enumCtr : UInt32) :
    (enumerations es).run enumCtr =
      if ∀ n ∈ explicitNumbers es.items, Readable n then
        some (counted enumCtr es.items, counterBehind enumCtr es.items)
      else none := by
  -- The induction is on the derivation; each list is that of the shorter one and one more item.
  have one : ∀ (e : Enumeration) (c : UInt32), ∃ x, counted c [e] = [x] := by
    intro e c
    cases e <;> exact ⟨_, rfl⟩
  induction es with
  | enumeration e =>
    obtain ⟨x, same⟩ := one e enumCtr
    rw [enumerations, StateT.run_bind, run_enumeration, Enumerations.items, same]
    split_ifs <;> rfl
  | comma es e ih =>
    obtain ⟨x, same⟩ := one e (counterBehind enumCtr es.items)
    have both : (∀ n ∈ explicitNumbers (es.items ++ [e]), Readable n) ↔
        (∀ n ∈ explicitNumbers es.items, Readable n) ∧
          ∀ n ∈ explicitNumbers [e], Readable n := by
      rw [explicitNumbers, List.filterMap_append, List.forall_mem_append]
      rfl
    rw [enumerations, StateT.run_bind, ih, Enumerations.items, counted_append,
      counterBehind_append]
    by_cases before : ∀ n ∈ explicitNumbers es.items, Readable n
    · rw [if_pos before, Option.bind_eq_bind, Option.bind_some, StateT.run_bind, run_enumeration]
      by_cases here : ∀ n ∈ explicitNumbers [e], Readable n
      · rw [if_pos here, if_pos (both.mpr ⟨before, here⟩), same]
        rfl
      · rw [if_neg here, if_neg fun all => here (both.mp all).2]
        rfl
    · rw [if_neg before, if_neg fun all => before (both.mp all).1]
      rfl
  | ellipsis es ih => exact ih

/-! ## Distinct numbers -/

/-- The numbers of a list are the explicit ones and those that the others received. -/
theorem perm_of_kept {items : List Enumeration} {numbers : List (String × Int32)}
    (kept : List.Forall₂ (fun e x => x.1 = e.name ∧ ∀ n ∈ e.number?, x.2.toInt = n)
      items numbers) :
    (numbers.map fun x => x.2.toInt).Perm
      (explicitNumbers items ++ receivedNumbers items numbers) := by
  induction kept with
  | nil => exact List.Perm.refl _
  | @cons e x items numbers here _ ih =>
    cases e with
    | identifier name =>
      have received : receivedNumbers (.identifier name :: items) (x :: numbers) =
          x.2.toInt :: receivedNumbers items numbers := rfl
      rw [received, List.map_cons]
      exact (ih.cons _).trans List.perm_middle.symm
    | namedNumber name n =>
      have same : x.2.toInt = n := here.2 n rfl
      rw [List.map_cons, same]
      exact ih.cons _

/-- Different explicit numbers and the lowest others are all different. -/
theorem distinct_of_received {items : List Enumeration} {numbers : List (String × Int32)}
    (kept : List.Forall₂ (fun e x => x.1 = e.name ∧ ∀ n ∈ e.number?, x.2.toInt = n)
      items numbers)
    (received : receivedNumbers items numbers =
      (takeFree (explicitNumbers items) (unnumbered items) 0).map fun n : ℕ => (n : ℤ))
    (different : (explicitNumbers items).Nodup) : (numbers.map Prod.snd).Nodup := by
  have all : (explicitNumbers items ++ receivedNumbers items numbers).Nodup := by
    rw [received, List.nodup_append]
    refine ⟨different, ?_, ?_⟩
    · exact ((takeFree_pairwise _ _).imp Nat.ne_of_lt).map _ fun _ _ ne same =>
        ne (Int.ofNat_inj.mp same)
    · rintro n isExplicit _ isFree rfl
      obtain ⟨m, taken, same⟩ := List.mem_map.mp isFree
      exact (mem_takeFree_iff.mp taken).1 (same ▸ isExplicit)
  have numbered := (perm_of_kept kept).nodup_iff.mpr all
  rw [← Function.comp_def Int32.toInt Prod.snd, ← List.map_map] at numbered
  exact numbered.of_map

/-! ## Counting on -/

/-- Counting on from a number meets the lowest free ones; some of these have been given before. -/
@[grind =] def CountsOn (used : List ℤ) : ℕ → ℤ → List Enumeration → Prop
  | _, _, [] => True
  | given, next, .identifier _ :: rest =>
    (0 ≤ next ∧ next < 2 ^ 31 ∧ next ∉ used ∧ freeBelow used next.toNat = given) ∧
      CountsOn used (given + 1) (next + 1) rest
  | given, _, .namedNumber _ n :: rest => CountsOn used given (n + 1) rest

theorem toInt_ofInt_toInt32 (c : ℤ) : (UInt32.ofInt c).toInt32.toInt = c.bmod (2 ^ 32) := by
  have nonneg : 0 ≤ c % 2 ^ 32 := Int.emod_nonneg c (by decide)
  have less : c % 2 ^ 32 < 2 ^ 32 := Int.emod_lt_of_pos c (by decide)
  have word : (UInt32.ofInt c).toNat = (c % 2 ^ 32).toNat := by
    rw [UInt32.ofInt, UInt32.toNat_ofNat']
    omega
  have read : (UInt32.ofInt c).toInt32.toInt = ((UInt32.ofInt c).toNat : ℤ).bmod (2 ^ 32) :=
    BitVec.toInt_eq_toNat_bmod _
  rw [read, word, Int.toNat_of_nonneg nonneg]
  exact Int.emod_bmod c (2 ^ 32)

theorem toUInt32_ofInt_add_one (n : ℤ) :
    (Int32.ofInt n + 1).toUInt32 = UInt32.ofInt (n + 1) := by
  have same : (UInt32.ofInt (n + 1)).toInt32 = Int32.ofInt n + 1 := by
    rw [← Int32.toInt_inj, toInt_ofInt_toInt32, Int32.toInt_add, Int32.toInt_ofInt]
    exact (Int.bmod_add_bmod ..).symm
  rw [← same]
  rfl

/-- A number is the next free one exactly if it is free and as many are below it. -/
theorem eq_nextFree_iff {used : List ℤ} {x start given : ℕ}
    (below : freeBelow used start = given)
    (behind : start = 0 ∨ ((start - 1 : ℕ) : ℤ) ∉ used) :
    x = nextFree used start ↔ (x : ℤ) ∉ used ∧ freeBelow used x = given := by
  obtain ⟨above, free, same, all⟩ : start ≤ nextFree used start ∧ _ := nextFree_spec start
  constructor
  · rintro rfl
    exact ⟨free, same.trans below⟩
  · rintro ⟨isFree, count⟩
    have least : start ≤ x := by
      by_contra before
      rcases behind with zero | last
      · omega
      · -- The number in front of the start is free and would count.
        have one := freeBelow_succ_of_notMem last
        have mono : freeBelow used x ≤ freeBelow used (start - 1) := freeBelow_mono (by omega)
        have back : start - 1 + 1 = start := by omega
        rw [back] at one
        omega
    rcases Nat.lt_trichotomy x (nextFree used start) with less | equal | more
    · exact absurd (all x least less) isFree
    · exact equal
    · have one := freeBelow_succ_of_notMem free
      have mono : freeBelow used (nextFree used start + 1) ≤ freeBelow used x :=
        freeBelow_mono more
      omega

/-- The numbers received by counting on are the lowest free ones exactly if they are met. -/
theorem receivedNumbers_counted_iff {used : List ℤ} {items : List Enumeration}
    (fits : ∀ n ∈ explicitNumbers items, -2 ^ 31 ≤ n ∧ n < 2 ^ 31 - 1) {c : ℤ}
    (least : -2 ^ 31 ≤ c) (most : c ≤ 2 ^ 31) {start given : ℕ}
    (below : freeBelow used start = given)
    (behind : start = 0 ∨ ((start - 1 : ℕ) : ℤ) ∉ used) :
    receivedNumbers items (counted (.ofInt c) items) =
        ((takeFree used (unnumbered items) start).map fun n : ℕ => (n : ℤ)) ↔
      CountsOn used given c items := by
  induction items generalizing c start given with
  | nil => exact iff_of_true rfl trivial
  | cons e rest ih =>
    cases e with
    | identifier name =>
      have received : receivedNumbers (.identifier name :: rest)
          (counted (.ofInt c) (.identifier name :: rest)) =
            c.bmod (2 ^ 32) :: receivedNumbers rest (counted (.ofInt (c + 1)) rest) := by
        rw [← toInt_ofInt_toInt32, UInt32.ofInt_add]
        rfl
      have one : unnumbered (.identifier name :: rest) = unnumbered rest + 1 := by
        rw [unnumbered, List.countP_cons_of_pos rfl, unnumbered]
      rw [received, one, takeFree, List.map_cons, List.cons.injEq, CountsOn]
      have first : c.bmod (2 ^ 32) = ((nextFree used start : ℕ) : ℤ) ↔
          0 ≤ c ∧ c < 2 ^ 31 ∧ c ∉ used ∧ freeBelow used c.toNat = given := by
        rw [Int.bmod]
        constructor
        · intro same
          have kept : 0 ≤ c ∧ c < 2 ^ 31 := by
            split_ifs at same <;> omega
          have number : c.toNat = nextFree used start := by
            split_ifs at same <;> omega
          obtain ⟨free, count⟩ := (eq_nextFree_iff below behind).mp number
          rw [Int.toNat_of_nonneg kept.1] at free
          exact ⟨kept.1, kept.2, free, count⟩
        · rintro ⟨nonneg, int, free, count⟩
          rw [← Int.toNat_of_nonneg nonneg] at free
          have number := (eq_nextFree_iff below behind).mpr ⟨free, count⟩
          rw [← number]
          split_ifs <;> omega
      rw [first]
      refine and_congr_right fun met => ?_
      obtain ⟨nonneg, int, free, count⟩ := met
      have number : c.toNat = nextFree used start := by
        refine (eq_nextFree_iff below behind).mpr ⟨?_, count⟩
        rwa [Int.toNat_of_nonneg nonneg]
      rw [← Int.toNat_of_nonneg nonneg] at free
      refine ih fits (by omega) (by omega) ?_ (.inr ?_)
      · rw [← number, freeBelow_succ_of_notMem free, count]
      · rwa [← number, Nat.add_sub_cancel]
    | namedNumber name n =>
      obtain ⟨above, less⟩ := fits n List.mem_cons_self
      have received : receivedNumbers (.namedNumber name n :: rest)
          (counted (.ofInt c) (.namedNumber name n :: rest)) =
            receivedNumbers rest (counted (.ofInt (n + 1)) rest) := by
        rw [counted, toUInt32_ofInt_add_one]
        rfl
      have none : unnumbered (.namedNumber name n :: rest) = unnumbered rest := by
        rw [unnumbered, List.countP_cons_of_neg (by exact Bool.false_ne_true), unnumbered]
      rw [received, none, CountsOn]
      exact ih (fun m there => fits m (List.mem_cons_of_mem n there)) (by omega) (by omega)
        below behind

/-! ## The condition -/

/-- Where the items go on from some that stand in front, they count on in each of their places. -/
theorem countsOn_iff (used : List ℤ) (before items : List Enumeration) :
    CountsOn used (unnumbered before) (lastNumber before + 1 + sinceNumber before) items ↔
      ∀ mid name after, items = mid ++ .identifier name :: after →
        let next := lastNumber (before ++ mid) + 1 + sinceNumber (before ++ mid)
        0 ≤ next ∧ next < 2 ^ 31 ∧ next ∉ used ∧
          freeBelow used next.toNat = unnumbered (before ++ mid) := by
  -- The induction is on the items; the first one joins those in front.
  induction items generalizing before with
  | nil =>
    refine iff_of_true trivial ?_
    intro mid name after nothing
    exact absurd nothing (List.append_ne_nil_of_right_ne_nil _ (List.cons_ne_nil _ _)).symm
  | cons e rest ih =>
    have joined : ∀ mid, before ++ [e] ++ mid = before ++ e :: mid :=
      fun mid => List.append_assoc before [e] mid
    have later := ih (before ++ [e])
    simp only [joined] at later
    cases e with
    | identifier name =>
      have one : unnumbered (before ++ [.identifier name]) = unnumbered before + 1 := by
        rw [unnumbered, List.countP_append, unnumbered]
        rfl
      have last : lastNumber (before ++ [.identifier name]) = lastNumber before := by
        rw [lastNumber, explicitNumbers, List.filterMap_append, lastNumber, explicitNumbers]
        exact congrArg (fun l : List ℤ => l.getLast?.getD (-1)) (List.append_nil _)
      have since : sinceNumber (before ++ [.identifier name]) = sinceNumber before + 1 := by
        rw [sinceNumber, List.reverse_append]
        rfl
      have next : lastNumber before + 1 + ((sinceNumber before + 1 : ℕ) : ℤ) =
          lastNumber before + 1 + sinceNumber before + 1 := by
        omega
      rw [one, last, since, next] at later
      rw [CountsOn, later]
      constructor
      · rintro ⟨here, behind⟩ mid name' after split
        cases mid with
        | nil =>
          rw [List.append_nil]
          exact here
        | cons f mid =>
          obtain ⟨rfl, tail⟩ := List.cons.inj split
          exact behind mid name' after tail
      · intro each
        constructor
        · have here := each [] name rest rfl
          rwa [List.append_nil] at here
        · intro mid name' after tail
          exact each (.identifier name :: mid) name' after (by rw [tail]; rfl)
    | namedNumber name n =>
      have same : unnumbered (before ++ [.namedNumber name n]) = unnumbered before := by
        rw [unnumbered, List.countP_append, unnumbered]
        rfl
      have last : lastNumber (before ++ [.namedNumber name n]) = n := by
        rw [lastNumber, explicitNumbers, List.filterMap_append]
        change ((List.filterMap _ _ ++ [n]).getLast?).getD (-1) = n
        rw [List.getLast?_concat]
        rfl
      have since : sinceNumber (before ++ [.namedNumber name n]) = 0 := by
        rw [sinceNumber, List.reverse_append]
        rfl
      rw [same, last, since, Int.natCast_zero, Int.add_zero] at later
      rw [CountsOn, later]
      constructor
      · intro behind mid name' after split
        cases mid with
        | nil => cases (List.cons.inj split).1
        | cons f mid =>
          obtain ⟨rfl, tail⟩ := List.cons.inj split
          exact behind mid name' after tail
      · intro each mid name' after tail
        exact each (.namedNumber name n :: mid) name' after (by rw [tail]; rfl)

/-- Explicit numbers that an `int` holds are kept. -/
theorem kept_iff (enumCtr : UInt32) (items : List Enumeration) :
    List.Forall₂ (fun e x => x.1 = e.name ∧ ∀ n ∈ e.number?, x.2.toInt = n) items
        (counted enumCtr items) ↔
      ∀ n ∈ explicitNumbers items, (Int32.ofInt n).toInt = n := by
  induction items generalizing enumCtr with
  | nil => exact iff_of_true .nil fun n there => absurd there List.not_mem_nil
  | cons e rest ih =>
    cases e with
    | identifier name =>
      rw [counted, List.forall₂_cons, ih]
      exact and_iff_right ⟨rfl, fun n there => absurd there (Option.not_mem_none n)⟩
    | namedNumber name m =>
      have both : explicitNumbers (.namedNumber name m :: rest) = m :: explicitNumbers rest := rfl
      rw [counted, List.forall₂_cons, ih, both, List.forall_mem_cons]
      refine and_congr_left fun _ => ?_
      constructor
      · rintro ⟨-, kept⟩
        exact kept m rfl
      · rintro same
        refine ⟨rfl, ?_⟩
        rintro n there
        cases Option.mem_some_iff.mp there
        exact same

theorem toInt_ofInt_eq_iff (n : ℤ) :
    (Int32.ofInt n).toInt = n ↔ -2 ^ 31 ≤ n ∧ n < 2 ^ 31 := by
  rw [Int32.toInt_ofInt]
  change n.bmod (2 ^ 32) = n ↔ _
  rw [Int.bmod]
  split_ifs <;> omega

/-- A list is numbered as it should be exactly if it can be counted. -/
theorem numberedRight_iff (es : Enumerations) (different : (explicitNumbers es.items).Nodup) :
    (∃ numbers, (enumeratedType es 0).1 = some numbers ∧ NumberedRight es.items numbers) ↔
      MeetsLowest es.items := by
  have ran := run_enumerations es 0
  have counts := countsOn_iff (explicitNumbers es.items) [] es.items
  simp only [List.nil_append] at counts
  have received : (∀ n ∈ explicitNumbers es.items, -2 ^ 31 ≤ n ∧ n < 2 ^ 31 - 1) →
      (receivedNumbers es.items (counted 0 es.items) =
          ((takeFree (explicitNumbers es.items) (unnumbered es.items) 0).map
            fun n : ℕ => (n : ℤ)) ↔
        CountsOn (explicitNumbers es.items) 0 0 es.items) :=
    fun fits => receivedNumbers_counted_iff (c := 0) fits (by decide) (by decide) rfl (.inl rfl)
  constructor
  · rintro ⟨numbers, given, right⟩
    rw [enumeratedType, ran] at given
    by_cases readable : ∀ n ∈ explicitNumbers es.items, Readable n
    · rw [if_pos readable] at given
      cases Option.some.inj given
      have fits : ∀ n ∈ explicitNumbers es.items, -2 ^ 31 ≤ n ∧ n < 2 ^ 31 - 1 := by
        intro n there
        have same := (kept_iff 0 es.items).mp right.kept n there
        have next := (readable n there).2
        have int := (toInt_ofInt_eq_iff n).mp same
        rw [same] at next
        omega
      exact ⟨fits, counts.mp ((received fits).mp right.received)⟩
    · rw [if_neg readable] at given
      cases given
  · rintro ⟨fits, next⟩
    have same : ∀ n ∈ explicitNumbers es.items, (Int32.ofInt n).toInt = n := by
      intro n there
      have int := fits n there
      exact (toInt_ofInt_eq_iff n).mpr (by omega)
    have readable : ∀ n ∈ explicitNumbers es.items, Readable n := by
      intro n there
      have int := fits n there
      have next : (Int32.ofInt n).toInt + 1 < 2 ^ 31 := by
        rw [same n there]
        omega
      exact ⟨by omega, next⟩
    have kept := (kept_iff 0 es.items).mpr same
    have lowest := (received fits).mpr (counts.mpr next)
    refine ⟨counted 0 es.items, ?_, kept, distinct_of_received kept lowest different, lowest⟩
    rw [enumeratedType, ran, if_pos readable]
    rfl

theorem enumeratedTypes_eq_map (types : List Enumerations) :
    enumeratedTypes types 0 = types.map fun es => (enumeratedType es 0).1 := by
  induction types with
  | nil => rfl
  | cons es rest ih =>
    rw [enumeratedTypes, List.map_cons, ← ih]
    rfl

/-- In every sequence of ENUMERATED types, those are numbered as they should be in which each item
without a number meets the lowest free one by counting on from the last explicit number. -/
theorem enumerated_numbered_iff (types : List Enumerations)
    (different : ∀ es ∈ types, (explicitNumbers es.items).Nodup) :
    List.Forall₂ (fun es list =>
        (∃ numbers, list = some numbers ∧ NumberedRight es.items numbers) ↔ MeetsLowest es.items)
      types (enumeratedTypes types 0) := by
  rw [enumeratedTypes_eq_map, List.forall₂_map_right_iff, List.forall₂_same]
  exact fun es there => numberedRight_iff es (different es there)

/-- In `{ a, b (-3), c }`, `c` gets -2. -/
theorem enumerated_numbered_iff_negative :
    List.Forall₂ (fun (es : Enumerations) list =>
        (∃ numbers, list = some numbers ∧ NumberedRight es.items numbers) ↔ MeetsLowest es.items)
      [.comma (.comma (.enumeration (.identifier "a")) (.namedNumber "b" (-3))) (.identifier "c")]
      [some [("a", 0), ("b", -3), ("c", -2)]] :=
  enumerated_numbered_iff
    [.comma (.comma (.enumeration (.identifier "a")) (.namedNumber "b" (-3))) (.identifier "c")]
    (by decide)

/-- In `{ a, b (0) }` both have the number 0. -/
theorem not_enumerated_numbered :
    ¬ ∀ types : List Enumerations, (∀ es ∈ types, (explicitNumbers es.items).Nodup) →
      List.Forall₂ (fun es list => ∃ numbers, list = some numbers ∧ NumberedRight es.items numbers)
        types (enumeratedTypes types 0) := by
  intro right
  have both := right [.comma (.enumeration (.identifier "a")) (.namedNumber "b" 0)] (by decide)
  obtain ⟨numbers, given, numbered⟩ := (List.forall₂_cons.mp both).1
  have same : numbers = [("a", 0), ("b", 0)] := (Option.some.inj given).symm
  have distinct := numbered.distinct
  rw [same] at distinct
  exact absurd distinct (by decide)

end Esnacc.Compiler
