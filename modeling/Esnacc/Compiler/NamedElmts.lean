import Esnacc.Compiler.GetTags
import Mathlib.Data.Finset.Card

/-! The named numbers that a value of a type may be given by, as the compiler gathers them. -/

namespace Esnacc.Compiler

/-- The current nodes of the lists of elements and of named numbers; behind the last one is NULL. -/
structure NamedElmtCursors where
  namedTypeLists : Nat → Nat
  namedNumberLists : Nat → Nat

/-- The cursors with that of a list of elements elsewhere. -/
def NamedElmtCursors.setNamedTypes (curr : NamedElmtCursors) (elmts place : Nat) :
    NamedElmtCursors :=
  { curr with namedTypeLists := Function.update curr.namedTypeLists elmts place }

/-- The cursors with that of a list of named numbers elsewhere. -/
def NamedElmtCursors.setNamedNumbers (curr : NamedElmtCursors) (numbers place : Nat) :
    NamedElmtCursors :=
  { curr with namedNumberLists := Function.update curr.namedNumberLists numbers place }

/-- Routines that move the cursors of lists; reading through NULL or without end is their end. -/
abbrev NamedElmtM := StateT NamedElmtCursors Option

section

variable (m : Parsed) (namedNumberLists : Nat → List Nat)

/-- The walk along references that notes the types it has been to. -/
def paranoidGetTypeLoop (type : Nat) : Nat → List Nat → Nat → Option Nat
  | 0, _, _ => none
  | fuel + 1, l, t =>
    let bt := (m.types t).basicType
    if bt.isTypeRef then
      match bt.link with
      | none => some type
      | some td => if td ∈ l then some type else paranoidGetTypeLoop type fuel (td :: l) td
    else some t

/-- The defining type that references lead to, or the type itself where they lead to none. -/
def paranoidGetType (fuel type : Nat) : Option Nat :=
  paranoidGetTypeLoop m type fuel [] type

/-- Go through a list of named numbers. -/
def forEachNamedNumber : Option Nat → NamedElmtM (List Nat)
  | none => return []
  | some numbers => do
    modify fun curr => curr.setNamedNumbers numbers (namedNumberLists numbers).length
    return namedNumberLists numbers

/-- The named elements of the alternatives of a CHOICE from the current one on, behind those gathered;
the step to the next alternative reads the current one. -/
def choiceNamedElmts (getAllNamedElmts : Nat → NamedElmtM (List Nat)) (choice : Nat) :
    Nat → List Nat → NamedElmtM (List Nat)
  | 0, _ => failure
  | turns + 1, retVal => do
    let curr ← get
    match (m.namedTypeLists choice)[curr.namedTypeLists choice]? with
    | none => return retVal
    | some e => do
      let ntElmtList ← getAllNamedElmts e
      let curr ← get
      if curr.namedTypeLists choice < (m.namedTypeLists choice).length then
        set (curr.setNamedTypes choice (curr.namedTypeLists choice + 1))
        choiceNamedElmts getAllNamedElmts choice turns (retVal ++ ntElmtList)
      else failure

/-- The named numbers of a type, or of all the alternatives of a CHOICE. -/
def getAllNamedElmtsOf : Nat → Nat → NamedElmtM (List Nat)
  | 0, _ => failure
  | fuel + 1, t => do
    let some definingType := paranoidGetType m fuel t | failure
    let bt := (m.types definingType).basicType
    match bt.choiceId with
    | .integer | .enumerated | .bitString => forEachNamedNumber namedNumberLists bt.elmts
    | .choice =>
      match bt.elmts with
      | none => return []
      | some choice => do
        modify fun curr => curr.setNamedTypes choice 0
        choiceNamedElmts m (getAllNamedElmtsOf fuel) choice fuel []
    | _ => return []

/-- The named numbers of a type, which may be NULL. -/
def getAllNamedElmts (fuel : Nat) : Option Nat → NamedElmtM (List Nat)
  | none => return []
  | some t => getAllNamedElmtsOf m namedNumberLists fuel t

end

/-! ## What is reached through alternatives and references -/

section

variable (m : Parsed)

/-- A reference to a type. -/
def Refers (t u : Nat) : Prop :=
  refersTo m t = some u

/-- A reference to a type, or a CHOICE with an alternative. -/
def Leads (t u : Nat) : Prop :=
  Refers m t u ∨ isChoice m t ∧ u ∈ alternatives m t

/-- An alternative of the CHOICE that a type refers to. -/
def Alternates (t e : Nat) : Prop :=
  ∃ c, Relation.ReflTransGen (Refers m) t c ∧ isChoice m c ∧ e ∈ alternatives m c

/-- Whether a type may have named numbers. -/
def isNumbered (t : Nat) : Prop :=
  (m.types t).basicType.choiceId ∈
    [BasicTypeChoiceId.integer, BasicTypeChoiceId.enumerated, BasicTypeChoiceId.bitString]

instance (t : Nat) : Decidable (isNumbered m t) :=
  inferInstanceAs (Decidable (_ ∈ _))

/-- The named numbers of a type. -/
def namedNumbers (namedNumberLists : Nat → List Nat) (t : Nat) : List Nat :=
  if isNumbered m t then
    match (m.types t).basicType.elmts with
    | none => []
    | some numbers => namedNumberLists numbers
  else []

/-- That a CHOICE with this list of alternatives is reached. -/
def GoesAlong (t choice : Nat) : Prop :=
  ∃ c, Relation.ReflTransGen (Leads m) t c ∧ isChoice m c ∧
    (m.types c).basicType.elmts = some choice

end

variable {m : Parsed} {namedNumberLists : Nat → List Nat}

theorem Refers.isTypeRef {t u : Nat} (refers : Refers m t u) :
    (m.types t).basicType.isTypeRef = true := by
  unfold Refers refersTo at refers
  by_contra notRef
  rw [if_neg notRef] at refers
  exact absurd refers (by simp)

theorem not_isChoice_of_isTypeRef {t : Nat} (isRef : (m.types t).basicType.isTypeRef = true) :
    ¬isChoice m t := by
  intro choice
  rw [BasicType.isTypeRef, choice] at isRef
  exact absurd isRef (by decide)

theorem namedNumbers_of_isTypeRef {t : Nat} (isRef : (m.types t).basicType.isTypeRef = true) :
    namedNumbers m namedNumberLists t = [] := by
  refine if_neg fun numbered => ?_
  unfold isNumbered at numbered
  simp only [List.mem_cons, List.not_mem_nil, or_false] at numbered
  unfold BasicType.isTypeRef at isRef
  rcases numbered with kind | kind | kind <;> rw [kind] at isRef <;> exact absurd isRef (by decide)

theorem Leads.refers {t u : Nat} (leads : Leads m t u)
    (isRef : (m.types t).basicType.isTypeRef = true) : Refers m t u := by
  rcases leads with refers | ⟨choice, -⟩
  · exact refers
  · exact absurd choice (not_isChoice_of_isTypeRef isRef)

theorem reaches_of_refers {t u : Nat} (refers : Relation.ReflTransGen (Refers m) t u) :
    Relation.ReflTransGen (Leads m) t u := by
  induction refers with
  | refl => exact .refl
  | tail _ step ih => exact ih.tail (.inl step)

theorem Alternates.reaches {t e : Nat} (alternates : Alternates m t e) :
    Relation.TransGen (Leads m) t e := by
  obtain ⟨c, refers, choice, isIn⟩ := alternates
  exact .tail' (reaches_of_refers refers) (.inr ⟨choice, isIn⟩)

theorem reaches_of_alternates {t e : Nat} (through : Relation.ReflTransGen (Alternates m) t e) :
    Relation.ReflTransGen (Leads m) t e := by
  induction through with
  | refl => exact .refl
  | tail _ alternates ih => exact ih.trans alternates.reaches.to_reflTransGen

theorem reaches_of_refers_end {t u w : Nat} (refers : Relation.ReflTransGen (Refers m) t u)
    (reaches : Relation.ReflTransGen (Leads m) t w) :
    (m.types w).basicType.isTypeRef = true ∨ Relation.ReflTransGen (Leads m) u w := by
  induction refers using Relation.ReflTransGen.head_induction_on with
  | refl => exact .inr reaches
  | head step _ ih =>
    cases reaches using Relation.ReflTransGen.head_induction_on with
    | refl => exact .inl step.isTypeRef
    | head leads rest _ =>
      have same := Option.some.inj (step.symm.trans (leads.refers step.isTypeRef))
      exact ih (same ▸ rest)

theorem isTypeRef_of_reaches {t : Nat} (endless : ∀ u, Relation.ReflTransGen (Refers m) t u →
    (m.types u).basicType.isTypeRef = true) {w : Nat}
    (reaches : Relation.ReflTransGen (Leads m) t w) :
    (m.types w).basicType.isTypeRef = true := by
  have refers : Relation.ReflTransGen (Refers m) t w := by
    induction reaches with
    | refl => exact .refl
    | tail _ leads ih => exact ih.tail (leads.refers (endless _ ih))
  exact endless w refers

/-! ## References to the defining type -/

/-- The defining type of a type: the end of its references, or the type itself where all that they
lead to are references. -/
def DefiningType (m : Parsed) (t u : Nat) : Prop :=
  Relation.ReflTransGen (Refers m) t u ∧ (m.types u).basicType.isTypeRef = false ∨
    u = t ∧ ∀ w, Relation.ReflTransGen (Refers m) t w → (m.types w).basicType.isTypeRef = true

/-- References that stay within noted types lead to nothing else. -/
theorem isTypeRef_of_noted {type t : Nat} {l : List Nat}
    (noted : ∀ x ∈ type :: l, x ≠ t → ∃ y ∈ l, Refers m x y)
    (isRef : (m.types t).basicType.isTypeRef = true)
    (back : ∀ y, Refers m t y → y ∈ l) {w : Nat}
    (refers : Relation.ReflTransGen (Refers m) type w) :
    (m.types w).basicType.isTypeRef = true := by
  have stays : w ∈ type :: l := by
    induction refers with
    | refl => exact List.mem_cons_self
    | @tail x y _ step ih =>
      by_cases same : x = t
      · exact List.mem_cons_of_mem type (back y (same ▸ step))
      · obtain ⟨z, isIn, step'⟩ := noted x ih same
        obtain rfl : y = z := Option.some.inj (step.symm.trans step')
        exact List.mem_cons_of_mem type isIn
  by_cases same : w = t
  · exact same ▸ isRef
  · obtain ⟨_, _, step⟩ := noted w stays same
    exact step.isTypeRef

/-- The walk along references ends at the defining type. -/
theorem paranoidGetTypeLoop_spec {type fuel t u : Nat} {l : List Nat}
    (got : paranoidGetTypeLoop m type fuel l t = some u) (isIn : t ∈ type :: l)
    (reached : Relation.ReflTransGen (Refers m) type t)
    (noted : ∀ x ∈ type :: l, x ≠ t → ∃ y ∈ l, Refers m x y) : DefiningType m type u := by
  induction fuel generalizing t l with
  | zero => exact absurd got (by simp [paranoidGetTypeLoop])
  | succ fuel ih =>
    rw [paranoidGetTypeLoop] at got
    by_cases isRef : (m.types t).basicType.isTypeRef = true
    · simp only [isRef, if_true] at got
      have refers (y : Nat) : Refers m t y ↔ (m.types t).basicType.link = some y := by
        unfold Refers refersTo
        rw [if_pos isRef]
      cases link : (m.types t).basicType.link with
      | none =>
        rw [link] at got
        obtain rfl : type = u := Option.some.inj got
        refine .inr ⟨rfl, fun w => isTypeRef_of_noted noted isRef fun y step => ?_⟩
        rw [refers, link] at step
        exact absurd step (by simp)
      | some td =>
        rw [link] at got
        have step : Refers m t td := (refers td).mpr link
        by_cases again : td ∈ l
        · simp only [again, if_true] at got
          obtain rfl : type = u := Option.some.inj got
          refine .inr ⟨rfl, fun w => isTypeRef_of_noted noted isRef fun y step' => ?_⟩
          exact Option.some.inj (step.symm.trans step') ▸ again
        · simp only [again, if_false] at got
          refine ih got (by simp) (reached.tail step) ?_
          intro x isIn' different
          -- Every noted type but the new one refers to a noted one.
          have before : x ∈ type :: l := by
            simp only [List.mem_cons] at isIn' ⊢
            tauto
          by_cases same : x = t
          · exact ⟨td, List.mem_cons_self, same ▸ step⟩
          · obtain ⟨y, yIn, step'⟩ := noted x before same
            exact ⟨y, List.mem_cons_of_mem td yIn, step'⟩
    · simp only [isRef, if_false, Bool.false_eq_true] at got
      obtain rfl : t = u := Option.some.inj got
      exact .inl ⟨reached, Bool.eq_false_iff.mpr isRef⟩

/-- What is got with some fuel is got with more. -/
theorem paranoidGetTypeLoop_mono {type fuel t u : Nat} {l : List Nat}
    (got : paranoidGetTypeLoop m type fuel l t = some u) {more : Nat} (atLeast : fuel ≤ more) :
    paranoidGetTypeLoop m type more l t = some u := by
  induction fuel generalizing t l more with
  | zero => exact absurd got (by simp [paranoidGetTypeLoop])
  | succ fuel ih =>
    obtain ⟨more, rfl⟩ : ∃ n, more = n + 1 := ⟨more - 1, by omega⟩
    rw [paranoidGetTypeLoop] at got ⊢
    by_cases isRef : (m.types t).basicType.isTypeRef = true
    · simp only [isRef, if_true] at got ⊢
      cases link : (m.types t).basicType.link with
      | none => simpa only [link] using got
      | some td =>
        simp only [link] at got ⊢
        by_cases again : td ∈ l
        · simpa only [again, if_true] using got
        · simp only [again, if_false] at got ⊢
          exact ih got (by omega)
    · simpa only [isRef, Bool.false_eq_true, if_false] using got

/-- In a finite graph the walk along references ends. -/
theorem exists_paranoidGetTypeLoop {nodes : Finset Nat}
    (closed : ∀ t ∈ nodes, ∀ u, Leads m t u → u ∈ nodes) {type fuel t : Nat} {l : List Nat}
    (inside : t ∈ nodes) (enough : (nodes \ l.toFinset).card < fuel) :
    ∃ u, paranoidGetTypeLoop m type fuel l t = some u := by
  induction fuel generalizing t l with
  | zero => omega
  | succ fuel ih =>
    rw [paranoidGetTypeLoop]
    by_cases isRef : (m.types t).basicType.isTypeRef = true
    · simp only [isRef, if_true]
      cases link : (m.types t).basicType.link with
      | none => exact ⟨type, rfl⟩
      | some td =>
        by_cases again : td ∈ l
        · exact ⟨type, by simp [again]⟩
        · have step : Refers m t td := by rw [Refers, refersTo, if_pos isRef, link]
          have next : td ∈ nodes := closed t inside td (.inl step)
          have fewer : (nodes \ (td :: l).toFinset).card < (nodes \ l.toFinset).card := by
            apply Finset.card_lt_card
            rw [Finset.ssubset_iff_of_subset (Finset.sdiff_subset_sdiff (Finset.Subset.refl nodes)
              (by simp))]
            exact ⟨td, by simp [next, again], by simp⟩
          simp only [again, if_false]
          exact ih next (by omega)
    · exact ⟨t, by simp [isRef]⟩

/-- In a finite graph a type has a defining type, which enough fuel finds. -/
theorem exists_paranoidGetType {nodes : Finset Nat}
    (closed : ∀ t ∈ nodes, ∀ u, Leads m t u → u ∈ nodes) {t : Nat} (inside : t ∈ nodes) :
    ∃ u enough, DefiningType m t u ∧ ∀ fuel,
      paranoidGetType m fuel t = none ∧ fuel < enough ∨ paranoidGetType m fuel t = some u := by
  obtain ⟨u, got⟩ : ∃ u, paranoidGetTypeLoop m t (nodes.card + 1) [] t = some u :=
    exists_paranoidGetTypeLoop closed inside (by simp)
  refine ⟨u, nodes.card + 1, ?_, ?_⟩
  · exact paranoidGetTypeLoop_spec got (by simp) .refl (by simp)
  · intro fuel
    by_cases enough : fuel < nodes.card + 1
    · cases early : paranoidGetType m fuel t with
      | none => exact .inl ⟨rfl, enough⟩
      | some v =>
        have same : some v = some u :=
          (paranoidGetTypeLoop_mono early (Nat.le_of_lt enough)).symm.trans got
        exact .inr same
    · exact .inr (paranoidGetTypeLoop_mono got (Nat.not_lt.mp enough))

end Esnacc.Compiler
