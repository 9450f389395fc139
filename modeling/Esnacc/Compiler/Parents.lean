import Esnacc.Lib.StateExcept
import Mathlib.Data.List.Basic
import Mathlib.Logic.Function.Basic

/-! The search for the type that directly contains another one, which does not follow references. -/

namespace Esnacc.Compiler.Parents

open Lib

/-! ## Source -/

/-- The kinds of types that the search tells apart. -/
inductive ChoiceId where
  | SET
  | SEQUENCE
  | CHOICE
  | SETOF
  | SEQUENCEOF
  | OCTETCONTAINING
  | BITCONTAINING
  | other
  deriving DecidableEq

/-- A list of elements. -/
inductive ElmtsKind where
  | set
  | sequence
  | choice

inductive ListOfKind where
  | setOf
  | sequenceOf

inductive ContainingKind where
  | octetContaining
  | bitContaining

/-- A type with its address, and what the union holds for its kind. -/
inductive TypeTree where
  | other (address : Nat)
  | elmts (address : Nat) (kind : ElmtsKind) (list : List TypeTree)
  | listOf (address : Nat) (kind : ListOfKind) (elmt : TypeTree)
  | containing (address : Nat) (kind : ContainingKind) (content : TypeTree)

namespace TypeTree

def address : TypeTree → Nat
  | other address | elmts address _ _ | listOf address _ _ | containing address _ _ => address

def choiceId : TypeTree → ChoiceId
  | other _ => .other
  | elmts _ .set _ => .SET
  | elmts _ .sequence _ => .SEQUENCE
  | elmts _ .choice _ => .CHOICE
  | listOf _ .setOf _ => .SETOF
  | listOf _ .sequenceOf _ => .SEQUENCEOF
  | containing _ .octetContaining _ => .OCTETCONTAINING
  | containing _ .bitContaining _ => .BITCONTAINING

end TypeTree

/-- How the search ends when it does not return. -/
inductive Stopped where
  /-- An alternative of the union was read that is not the one held. -/
  | misread
  | nullPointer
  | outOfTurns
  deriving DecidableEq

/-- The places in the lists at which their cursors stand, by the address of the type. -/
abbrev Cursors := Nat → Option Nat

abbrev SearchM := EStateM Stopped Cursors

/-- The elements in `a.set`; lists of elements have one type, so that this is `a.sequence` and
`a.choice` as well. -/
def aSet : TypeTree → SearchM (List TypeTree)
  | .elmts _ _ list => return list
  | _ => throw .misread

/-- The type in `a.setOf`, which is `a.sequenceOf` as well. -/
def aSetOf : TypeTree → SearchM TypeTree
  | .listOf _ _ elmt => return elmt
  | _ => throw .misread

/-- The type in `a.stringContaining`. -/
def aStringContaining : TypeTree → SearchM TypeTree
  | .containing _ _ content => return content
  | _ => throw .misread

/-- Set the cursor of a list. -/
def setCurr (al : Nat) (curr : Option Nat) : SearchM Unit :=
  modify fun cursors => Function.update cursors al curr

/-- A place of a list, or none behind its end. -/
def placeOf (list : List TypeTree) (i : Nat) : Option Nat :=
  if i < list.length then some i else none

/-- The turns of FOR_EACH_LIST_ELMT until its body returns from the search. -/
def forEachTurns (al : Nat) (list : List TypeTree) (body : TypeTree → SearchM (Option Nat)) :
    Nat → SearchM (Option Nat)
  | 0 => throw .outOfTurns
  | turns + 1 => do
    let some i := (← get) al | return none
    let some e := list[i]? | throw .nullPointer
    match ← body e with
    | some parent => return some parent
    | none =>
      -- The cursor goes on from where it stands behind the body.
      let some curr := (← get) al | throw .nullPointer
      setCurr al (placeOf list (curr + 1))
      forEachTurns al list body turns

/-- FOR_EACH_LIST_ELMT. -/
def forEach (al : Nat) (list : List TypeTree) (body : TypeTree → SearchM (Option Nat))
    (turns : Nat) : SearchM (Option Nat) := do
  setCurr al (placeOf list 0)
  forEachTurns al list body turns

/-- The test of the first pass: the child is an element or what one contains. -/
def isDirect (child : Nat) (e : TypeTree) : SearchM Bool := do
  if e.choiceId = .OCTETCONTAINING ∨ e.choiceId = .BITCONTAINING then
    if child = (← aStringContaining e).address then return true
  return child = e.address

/-- GetParentS: the address of the parent, if one is found; no type of a tree is a null pointer. -/
def getParentS (child : Nat) : Nat → TypeTree → SearchM (Option Nat)
  | 0, _ => throw .outOfTurns
  | turns + 1, ancestor => do
    if ancestor.choiceId = .other then return none
    else if ancestor.choiceId = .SETOF ∨ ancestor.choiceId = .SEQUENCEOF then
      if child = (← aSetOf ancestor).address then return some ancestor.address
      else getParentS child turns (← aSetOf ancestor)
    else
      let list ← aSet ancestor
      let tmp := (← get) ancestor.address
      let direct ← forEach ancestor.address list
        (fun e => do if ← isDirect child e then return some ancestor.address else return none) turns
      if direct.isSome then
        setCurr ancestor.address tmp
        return direct
      else
        let parent ← forEach ancestor.address list (getParentS child turns) turns
        setCurr ancestor.address tmp
        return parent

/-! ## What there is to find -/

namespace TypeTree

mutual

/-- For each occurrence of a type, the address of the nearest enclosing one that has elements, which
is the given one outside of the tree. -/
@[grind =] def enclosing (child : Nat) (outer : Option Nat) : TypeTree → List (Option Nat)
  | .other address => if child = address then [outer] else []
  | .elmts address _ list =>
    (if child = address then [outer] else []) ++ enclosingEach child (some address) list
  | .listOf address _ elmt =>
    (if child = address then [outer] else []) ++ enclosing child (some address) elmt
  | .containing address _ content =>
    (if child = address then [outer] else []) ++ enclosing child outer content

/-- The same for each tree of a list. -/
@[grind =] def enclosingEach (child : Nat) (outer : Option Nat) : List TypeTree → List (Option Nat)
  | [] => []
  | e :: rest => enclosing child outer e ++ enclosingEach child outer rest

end

/-- No type of a tree contains another one as a string. -/
inductive NoContaining : TypeTree → Prop
  | other (address : Nat) : NoContaining (.other address)
  | elmts (address : Nat) (kind : ElmtsKind) {list : List TypeTree}
      (each : ∀ e ∈ list, NoContaining e) : NoContaining (.elmts address kind list)
  | listOf (address : Nat) (kind : ListOfKind) {elmt : TypeTree} (one : NoContaining elmt) :
      NoContaining (.listOf address kind elmt)

/-- A type is an element or what an element contains. -/
def IsDirect (child : Nat) (e : TypeTree) : Prop :=
  child = e.address ∨ ∃ address kind content, e = .containing address kind content ∧
    child = content.address

/-- A type is met before any that contains another one as a string is searched. -/
inductive Findable (child : Nat) : TypeTree → Prop
  | direct (address : Nat) (kind : ElmtsKind) {list : List TypeTree} {e : TypeTree}
      (isElmt : e ∈ list) (isDirect : IsDirect child e) : Findable child (.elmts address kind list)
  | within (address : Nat) (kind : ElmtsKind) {before after : List TypeTree} {e : TypeTree}
      (plain : ∀ b ∈ before, NoContaining b) (findable : Findable child e) :
      Findable child (.elmts address kind (before ++ e :: after))
  | elmt (address : Nat) (kind : ListOfKind) {elmt : TypeTree} (isElmt : child = elmt.address) :
      Findable child (.listOf address kind elmt)
  | withinElmt (address : Nat) (kind : ListOfKind) {elmt : TypeTree}
      (findable : Findable child elmt) : Findable child (.listOf address kind elmt)

/-! ## Loops -/

/-- The first of some outcomes that is not that nothing was found; a misread is none. -/
@[grind =] def firstOf (r : TypeTree → Option (Option Nat)) : List TypeTree → Option (Option Nat)
  | [] => some none
  | e :: rest =>
    match r e with
    | some none => firstOf r rest
    | found => found

/-- A search has an outcome and leaves the cursors as they were, unless it misreads. -/
def Yields (x : SearchM (Option Nat)) : Option (Option Nat) → Prop
  | some found => ∀ cursors, x.run cursors = .ok found cursors
  | none => ∀ cursors, ∃ cursors', x.run cursors = .error .misread cursors'

/-- The turns over a list have the first outcome, and move the cursor of that list alone. -/
theorem run_forEachTurns {al : Nat} {list : List TypeTree} {body : TypeTree → SearchM (Option Nat)}
    {r : TypeTree → Option (Option Nat)} (each : ∀ e ∈ list, Yields (body e) (r e)) {turns i : Nat}
    (inside : i ≤ list.length) (most : list.length < turns + i) {cursors : Cursors}
    (stands : cursors al = placeOf list i) :
    match firstOf r (list.drop i) with
    | some found => ∃ curr, (forEachTurns al list body turns).run cursors =
        .ok found (Function.update cursors al curr)
    | none => ∃ cursors', (forEachTurns al list body turns).run cursors =
        .error .misread cursors' := by
  -- The induction is on the turns; the cursor stands where the body left it, at the same place.
  induction turns generalizing i cursors with
  | zero => omega
  | succ turns ih =>
    have got : (get : SearchM Cursors).run cursors = .ok cursors cursors := rfl
    by_cases last : i < list.length
    · have here : cursors al = some i := stands.trans (if_pos last)
      have found : list[i]? = some list[i] := List.getElem?_eq_getElem last
      have body' := each list[i] (List.getElem_mem last)
      have step : (forEachTurns al list body (turns + 1)).run cursors =
          (do
            match ← body list[i] with
            | some parent => return some parent
            | none =>
              let some curr := (← get) al | throw .nullPointer
              setCurr al (placeOf list (curr + 1))
              forEachTurns al list body turns : SearchM (Option Nat)).run cursors := by
        rw [forEachTurns, run_bind_of_ok got]
        simp only [here, found]
      rw [List.drop_eq_getElem_cons last, firstOf, step]
      cases outcome : r list[i] with
      | none =>
        rw [outcome] at body'
        obtain ⟨cursors', ran⟩ := body' cursors
        exact ⟨cursors', run_bind_eq_error.mpr (.inl ran)⟩
      | some parent =>
        rw [outcome] at body'
        have ran := body' cursors
        cases parent with
        | some parent =>
          refine ⟨cursors al, ?_⟩
          rw [run_bind_of_ok ran, Function.update_eq_self]
          rfl
        | none =>
          have moved : (setCurr al (placeOf list (i + 1))).run cursors =
              .ok () (Function.update cursors al (placeOf list (i + 1))) := rfl
          have rest := @ih (i + 1) last (by omega) (Function.update cursors al (placeOf list (i + 1)))
            (Function.update_self ..)
          dsimp only
          rw [run_bind_of_ok ran]
          dsimp only
          rw [run_bind_of_ok got]
          simp only [here]
          rw [run_bind_of_ok moved]
          simp only [Function.update_idem] at rest
          exact rest
    · have behind : cursors al = none := stands.trans (if_neg last)
      rw [List.drop_eq_nil_of_le (Nat.not_lt.mp last), firstOf]
      refine ⟨cursors al, ?_⟩
      rw [forEachTurns, run_bind_of_ok got, Function.update_eq_self]
      simp only [behind]
      rfl

/-- A loop over a list has the first outcome, and moves the cursor of that list alone. -/
theorem run_forEach {al : Nat} {list : List TypeTree} {body : TypeTree → SearchM (Option Nat)}
    {r : TypeTree → Option (Option Nat)} (each : ∀ e ∈ list, Yields (body e) (r e)) {turns : Nat}
    (most : list.length < turns) (cursors : Cursors) :
    match firstOf r list with
    | some found => ∃ curr, (forEach al list body turns).run cursors =
        .ok found (Function.update cursors al curr)
    | none => ∃ cursors', (forEach al list body turns).run cursors =
        .error .misread cursors' := by
  have started : (setCurr al (placeOf list 0)).run cursors =
      .ok () (Function.update cursors al (placeOf list 0)) := rfl
  have ran := run_forEachTurns each (Nat.zero_le _) (by omega)
    (Function.update_self al (placeOf list 0) cursors)
  simp only [Function.update_idem] at ran
  rw [forEach, run_bind_of_ok started]
  exact ran

/-! ## The outcome -/

/-- The child is an element or what one contains. -/
def direct (child : Nat) : TypeTree → Bool
  | .containing address _ content => child = content.address || child = address
  | e => child = e.address

theorem direct_iff (child : Nat) (e : TypeTree) : direct child e = true ↔ IsDirect child e := by
  cases e with
  | containing address kind content =>
    rw [direct, Bool.or_eq_true, decide_eq_true_eq, decide_eq_true_eq]
    constructor
    · rintro (inside | isElmt)
      · exact .inr ⟨address, kind, content, rfl, inside⟩
      · exact .inl isElmt
    · rintro (isElmt | ⟨_, _, _, same, inside⟩)
      · exact .inr isElmt
      · cases same
        exact .inl inside
  | other address => simp [direct, IsDirect]
  | elmts address kind list => simp [direct, IsDirect]
  | listOf address kind elmt => simp [direct, IsDirect]

mutual

/-- The outcome of the search. -/
@[grind =] def outcome (child : Nat) : TypeTree → Option (Option Nat)
  | .other _ => some none
  | .containing _ _ _ => none
  | .listOf address _ elmt =>
    if child = elmt.address then some (some address) else outcome child elmt
  | .elmts address _ list =>
    if list.any (direct child) then some (some address) else outcomeEach child list

/-- The first outcome of the search in each tree of a list. -/
@[grind =] def outcomeEach (child : Nat) : List TypeTree → Option (Option Nat)
  | [] => some none
  | e :: rest =>
    match outcome child e with
    | some none => outcomeEach child rest
    | found => found

end

theorem outcomeEach_eq (child : Nat) (list : List TypeTree) :
    outcomeEach child list = firstOf (outcome child) list := by
  induction list with
  | nil => rfl
  | cons e rest ih => rw [outcomeEach, firstOf, ih]

@[elab_as_elim]
theorem inductionOn {P : TypeTree → Prop} (other : ∀ address, P (.other address))
    (elmts : ∀ address kind list, (∀ e ∈ list, P e) → P (.elmts address kind list))
    (listOf : ∀ address kind elmt, P elmt → P (.listOf address kind elmt))
    (containing : ∀ address kind content, P content → P (.containing address kind content))
    (t : TypeTree) : P t :=
  @TypeTree.rec P (fun list => ∀ e ∈ list, P e) other elmts listOf containing
    (fun _ there => absurd there List.not_mem_nil)
    (fun _ _ first rest => List.forall_mem_cons.mpr ⟨first, rest⟩) t

/-- The first pass yields the type itself where the child is direct. -/
theorem isDirect_yields (child address : Nat) (e : TypeTree) :
    Yields (do if ← isDirect child e then return some address else return none)
      (some (if direct child e then some address else none)) := by
  intro cursors
  have ran : (isDirect child e).run cursors = .ok (direct child e) cursors := by
    cases e with
    | other a => rfl
    | elmts a kind list => cases kind <;> rfl
    | listOf a kind elmt => cases kind <;> rfl
    | containing a kind content =>
      have read : (isDirect child (.containing a kind content)).run cursors =
          (do
            if child = content.address then return true
            return child = a : SearchM Bool).run cursors := by
        cases kind <;> rfl
      rw [read, direct]
      by_cases inside : child = content.address
      · rw [if_pos inside, decide_eq_true inside]
        rfl
      · rw [if_neg inside, decide_eq_false inside]
        rfl
  rw [run_bind_of_ok ran]
  cases direct child e <;> rfl

theorem firstOf_direct (child address : Nat) (list : List TypeTree) :
    firstOf (fun e => some (if direct child e then some address else none)) list =
      some (if list.any (direct child) then some address else none) := by
  induction list with
  | nil => rfl
  | cons e rest ih =>
    rw [firstOf, List.any_cons]
    cases direct child e with
    | true => rfl
    | false => exact ih

/-- With enough turns, the search has its outcome and leaves all cursors as they were. -/
theorem getParentS_yields (child : Nat) (t : TypeTree) :
    ∃ enough, ∀ turns, enough ≤ turns → Yields (getParentS child turns t) (outcome child t) := by
  induction t using inductionOn with
  | other address =>
    refine ⟨1, fun turns most => ?_⟩
    obtain ⟨turns, rfl⟩ := Nat.exists_eq_add_of_le' most
    exact fun cursors => rfl
  | containing address kind content _ =>
    refine ⟨1, fun turns most => ?_⟩
    obtain ⟨turns, rfl⟩ := Nat.exists_eq_add_of_le' most
    intro cursors
    refine ⟨cursors, ?_⟩
    cases kind <;> rfl
  | listOf address kind elmt ih =>
    obtain ⟨enough, yields⟩ := ih
    refine ⟨enough + 1, fun turns most => ?_⟩
    obtain ⟨turns, rfl⟩ : ∃ k, turns = k + 1 := ⟨turns - 1, by omega⟩
    have step : ∀ cursors, (getParentS child (turns + 1) (.listOf address kind elmt)).run cursors =
        (if child = elmt.address then return some address
          else getParentS child turns elmt : SearchM (Option Nat)).run cursors := by
      intro cursors
      cases kind <;> rfl
    rw [outcome]
    by_cases isElmt : child = elmt.address
    · rw [if_pos isElmt]
      intro cursors
      rw [step, if_pos isElmt]
      rfl
    · have later := yields turns (by omega)
      rw [if_neg isElmt]
      cases found : outcome child elmt with
      | none =>
        rw [found] at later
        intro cursors
        rw [step, if_neg isElmt]
        exact later cursors
      | some found =>
        simp only [found] at later
        intro cursors
        rw [step, if_neg isElmt]
        exact later cursors
  | elmts address kind list ih =>
    obtain ⟨enough, yields⟩ := exists_enough ih
    refine ⟨enough + list.length + 2, fun turns most => ?_⟩
    obtain ⟨turns, rfl⟩ : ∃ k, turns = k + 1 := ⟨turns - 1, by omega⟩
    have step : ∀ cursors, (getParentS child (turns + 1) (.elmts address kind list)).run cursors =
        (do
          let direct ← forEach address list (fun e => do
            if ← isDirect child e then return some address else return none) turns
          if direct.isSome then
            setCurr address (cursors address)
            return direct
          else
            let parent ← forEach address list (getParentS child turns) turns
            setCurr address (cursors address)
            return parent : SearchM (Option Nat)).run cursors := by
      intro cursors
      cases kind <;> rfl
    -- Setting the cursor to where it stood undoes what a loop did to it.
    have restored : ∀ (cursors : Cursors) (curr : Option Nat),
        (setCurr address (cursors address)).run (Function.update cursors address curr) =
          .ok () cursors := by
      intro cursors curr
      change EStateM.Result.ok () (Function.update (Function.update cursors address curr) address
        (cursors address)) = _
      rw [Function.update_idem, Function.update_eq_self]
    have firstPass : ∀ cursors, ∃ curr, (forEach address list (fun e => do
        if ← isDirect child e then return some address else return none) turns).run cursors =
        .ok (if list.any (direct child) then some address else none)
          (Function.update cursors address curr) := by
      intro cursors
      have ran := @run_forEach address list _ _ (fun e _ => isDirect_yields child address e) turns
        (by omega) cursors
      rwa [firstOf_direct] at ran
    rw [outcome]
    by_cases found : list.any (direct child) = true
    · rw [if_pos found]
      intro cursors
      obtain ⟨curr, first⟩ := firstPass cursors
      rw [if_pos found] at first
      rw [step, run_bind_of_ok first, if_pos Option.isSome_some,
        run_bind_of_ok (restored cursors curr)]
      rfl
    · rw [if_neg found, outcomeEach_eq]
      have second := @run_forEach address list _ _ (yields turns (by omega)) turns (by omega)
      cases searched : firstOf (outcome child) list with
      | none =>
        intro cursors
        obtain ⟨curr, first⟩ := firstPass cursors
        rw [if_neg found] at first
        have ran := second (Function.update cursors address curr)
        rw [searched] at ran
        obtain ⟨cursors', stopped⟩ := ran
        refine ⟨cursors', ?_⟩
        rw [step, run_bind_of_ok first, if_neg (by decide)]
        exact run_bind_eq_error.mpr (.inl stopped)
      | some parent =>
        intro cursors
        obtain ⟨curr, first⟩ := firstPass cursors
        rw [if_neg found] at first
        have ran := second (Function.update cursors address curr)
        rw [searched] at ran
        obtain ⟨curr', ended⟩ := ran
        rw [Function.update_idem] at ended
        rw [step, run_bind_of_ok first, if_neg (by decide), run_bind_of_ok ended,
          run_bind_of_ok (restored cursors curr')]
        rfl

/-! ## What is found -/

theorem enclosingEach_eq (child : Nat) (outer : Option Nat) (list : List TypeTree) :
    enclosingEach child outer list = list.flatMap (enclosing child outer) := by
  induction list with
  | nil => rfl
  | cons e rest ih => rw [enclosingEach, List.flatMap_cons, ih]

/-- Inside of an enclosing type, every occurrence has a nearest one. -/
theorem none_notMem_enclosing (child q : Nat) (t : TypeTree) :
    none ∉ enclosing child (some q) t := by
  have here : ∀ address : Nat, none ∉ (if child = address then [some q] else []) := by
    intro address
    split_ifs <;> simp
  induction t using inductionOn generalizing q with
  | other address => exact here address
  | elmts address kind list ih =>
    rw [enclosing, enclosingEach_eq, List.mem_append, List.mem_flatMap]
    rintro (isIn | ⟨e, there, isIn⟩)
    · exact here address isIn
    · exact ih e there address (fun a => by split_ifs <;> simp) isIn
  | listOf address kind elmt ih =>
    rw [enclosing, List.mem_append]
    rintro (isIn | isIn)
    · exact here address isIn
    · exact ih address (fun a => by split_ifs <;> simp) isIn
  | containing address kind content ih =>
    rw [enclosing, List.mem_append]
    rintro (isIn | isIn)
    · exact here address isIn
    · exact ih q here isIn

/-- What encloses a tree is nearest to the occurrences that nothing in the tree encloses. -/
theorem enclosing_some (child p : Nat) (t : TypeTree) :
    enclosing child (some p) t = (enclosing child none t).map fun r => some (r.getD p) := by
  -- Inside of an enclosing type, it makes no difference what is outside.
  have idle : ∀ l : List (Option Nat), none ∉ l → l.map (fun r => some (r.getD p)) = l := by
    intro l some
    refine (List.map_congr_left fun r there => ?_).trans (List.map_id l)
    cases r with
    | none => exact absurd there some
    | some q => rfl
  have here : ∀ address : Nat, (if child = address then [some p] else []) =
      (if child = address then [none] else []).map fun r : Option Nat => some (r.getD p) := by
    intro address
    split_ifs <;> rfl
  induction t using inductionOn with
  | other address => exact here address
  | elmts address kind list ih =>
    have inner : none ∉ enclosingEach child (some address) list := by
      rw [enclosingEach_eq, List.mem_flatMap]
      rintro ⟨e, -, isIn⟩
      exact none_notMem_enclosing child address e isIn
    rw [enclosing, enclosing, List.map_append, idle _ inner, here]
  | listOf address kind elmt ih =>
    rw [enclosing, enclosing, List.map_append,
      idle _ (none_notMem_enclosing child address elmt), here]
  | containing address kind content ih =>
    rw [enclosing, enclosing, List.map_append, ih, here]

/-- A search without a misread only meets types that enclose every other one. -/
theorem none_notMem_of_outcome {child : Nat} {t : TypeTree} (reads : outcome child t ≠ none)
    (other : child ≠ t.address) : none ∉ enclosing child none t := by
  cases t with
  | other address =>
    have notHere : child ≠ address := other
    rw [enclosing, if_neg notHere]
    exact List.not_mem_nil
  | elmts address kind list =>
    have notHere : child ≠ address := other
    rw [enclosing, if_neg notHere, List.nil_append, enclosingEach_eq, List.mem_flatMap]
    rintro ⟨e, -, isIn⟩
    exact none_notMem_enclosing child address e isIn
  | listOf address kind elmt =>
    have notHere : child ≠ address := other
    rw [enclosing, if_neg notHere, List.nil_append]
    exact none_notMem_enclosing child address elmt
  | containing address kind content => exact absurd rfl reads

theorem mem_enclosing_self {child : Nat} {t : TypeTree} (same : child = t.address)
    (outer : Option Nat) : outer ∈ enclosing child outer t := by
  subst same
  cases t <;> simp [enclosing, TypeTree.address]

theorem mem_enclosing_of_direct {child : Nat} {e : TypeTree} (isDirect : IsDirect child e)
    (outer : Option Nat) : outer ∈ enclosing child outer e := by
  rcases isDirect with same | ⟨address, kind, content, rfl, same⟩
  · exact mem_enclosing_self same outer
  · rw [enclosing]
    exact List.mem_append_right _ (mem_enclosing_self same outer)

theorem length_enclosing_le {child address : Nat} {kind : ElmtsKind} {list : List TypeTree}
    {e : TypeTree} (isElmt : e ∈ list) :
    (enclosing child none e).length ≤ (enclosing child none (.elmts address kind list)).length := by
  obtain ⟨before, after, rfl⟩ := List.append_of_mem isElmt
  rw [enclosing, enclosingEach_eq, List.flatMap_append, List.flatMap_cons, enclosing_some child _ e]
  simp only [List.length_append, List.length_map]
  omega

theorem headD_of_mem {l : List (Option Nat)} (once : l.length ≤ 1) {x : Option Nat} (isIn : x ∈ l) :
    x = l.headD none := by
  match l, once with
  | [y], _ => exact List.mem_singleton.mp isIn

/-- The first outcome of some trees, by the trees in front. -/
theorem firstOf_eq_some_some {r : TypeTree → Option (Option Nat)} {list : List TypeTree} {q : Nat}
    (found : firstOf r list = some (some q)) :
    ∃ before e after, list = before ++ e :: after ∧ (∀ b ∈ before, r b = some none) ∧
      r e = some (some q) := by
  induction list with
  | nil => cases found
  | cons e rest ih =>
    rw [firstOf] at found
    cases outcome : r e with
    | none =>
      rw [outcome] at found
      cases found
    | some first =>
      cases first with
      | none =>
        rw [outcome] at found
        obtain ⟨before, e', after, rfl, none, last⟩ := ih found
        exact ⟨e :: before, e', after, rfl, List.forall_mem_cons.mpr ⟨outcome, none⟩, last⟩
      | some q' =>
        rw [outcome] at found
        cases found
        exact ⟨[], e, rest, rfl, fun _ there => absurd there List.not_mem_nil, outcome⟩

theorem firstOf_eq_some_none {r : TypeTree → Option (Option Nat)} {list : List TypeTree} :
    firstOf r list = some none ↔ ∀ e ∈ list, r e = some none := by
  induction list with
  | nil => exact iff_of_true rfl fun _ there => absurd there List.not_mem_nil
  | cons e rest ih =>
    rw [firstOf, List.forall_mem_cons, ← ih]
    cases outcome : r e with
    | none => simp
    | some first => cases first <;> simp

/-- Without a misread in some trees, there is none. -/
theorem firstOf_ne_none {r : TypeTree → Option (Option Nat)} {list : List TypeTree}
    (reads : ∀ e ∈ list, r e ≠ none) : firstOf r list ≠ none := by
  induction list with
  | nil => exact Option.some_ne_none _
  | cons e rest ih =>
    obtain ⟨first, others⟩ := List.forall_mem_cons.mp reads
    rw [firstOf]
    cases outcome : r e with
    | none => exact absurd outcome first
    | some found =>
      cases found with
      | none => exact ih others
      | some q => exact Option.some_ne_none _

/-- Behind trees without a misread, something is found. -/
theorem exists_firstOf {r : TypeTree → Option (Option Nat)} {before after : List TypeTree}
    {e : TypeTree} {q : Nat} (reads : ∀ b ∈ before, r b ≠ none) (found : r e = some (some q)) :
    ∃ q', firstOf r (before ++ e :: after) = some (some q') := by
  induction before with
  | nil =>
    refine ⟨q, ?_⟩
    rw [List.nil_append, firstOf, found]
  | cons b before ih =>
    obtain ⟨first, others⟩ := List.forall_mem_cons.mp reads
    rw [List.cons_append, firstOf]
    cases outcome : r b with
    | none => exact absurd outcome first
    | some found =>
      cases found with
      | none => exact ih others
      | some q' => exact ⟨q', rfl⟩

/-- The outcome is the nearest enclosing type of the only occurrence. -/
theorem outcome_eq {child : Nat} {t : TypeTree} (once : (enclosing child none t).length ≤ 1)
    {found : Option Nat} (ends : outcome child t = some found) :
    found = (enclosing child none t).headD none := by
  induction t using inductionOn generalizing found with
  | other address =>
    cases ends
    rw [enclosing]
    split_ifs <;> rfl
  | containing address kind content ih => cases ends
  | listOf address kind elmt ih =>
    have parts : enclosing child none (.listOf address kind elmt) =
        (if child = address then [none] else []) ++
          (enclosing child none elmt).map fun r => some (r.getD address) := by
      rw [enclosing, enclosing_some]
    rw [outcome] at ends
    by_cases isElmt : child = elmt.address
    · rw [if_pos isElmt] at ends
      cases ends
      refine headD_of_mem once ?_
      rw [parts]
      exact List.mem_append_right _
        (List.mem_map.mpr ⟨none, mem_enclosing_self isElmt none, rfl⟩)
    · rw [if_neg isElmt] at ends
      have fewer : (enclosing child none elmt).length ≤ 1 := by
        rw [parts, List.length_append, List.length_map] at once
        omega
      have inner := ih fewer ends
      have enclosed : none ∉ enclosing child none elmt :=
        none_notMem_of_outcome (by rw [ends]; exact Option.some_ne_none _) isElmt
      cases occurs : enclosing child none elmt with
      | nil =>
        rw [occurs] at inner
        rw [parts, occurs, inner]
        split_ifs <;> rfl
      | cons r rest =>
        rw [occurs] at inner enclosed
        cases r with
        | none => exact absurd List.mem_cons_self enclosed
        | some q =>
          rw [inner]
          refine headD_of_mem once ?_
          rw [parts, occurs]
          exact List.mem_append_right _ List.mem_cons_self
  | elmts address kind list ih =>
    have fewer : ∀ e ∈ list, (enclosing child none e).length ≤ 1 :=
      fun e isElmt => Nat.le_trans (length_enclosing_le isElmt) once
    have mem_of_elmt : ∀ e ∈ list, ∀ r ∈ enclosing child none e,
        some (r.getD address) ∈ enclosing child none (.elmts address kind list) := by
      intro e isElmt r occurs
      rw [enclosing, enclosingEach_eq]
      refine List.mem_append_right _ (List.mem_flatMap.mpr ⟨e, isElmt, ?_⟩)
      rw [enclosing_some]
      exact List.mem_map.mpr ⟨r, occurs, rfl⟩
    rw [outcome] at ends
    by_cases hit : list.any (direct child) = true
    · rw [if_pos hit] at ends
      cases ends
      obtain ⟨e, isElmt, isDirect⟩ := List.any_eq_true.mp hit
      exact headD_of_mem once (mem_of_elmt e isElmt none
        (mem_enclosing_of_direct ((direct_iff child e).mp isDirect) none))
    · rw [if_neg hit, outcomeEach_eq] at ends
      have others : ∀ e ∈ list, child ≠ e.address := by
        intro e isElmt same
        exact hit (List.any_eq_true.mpr ⟨e, isElmt, (direct_iff child e).mpr (.inl same)⟩)
      cases found with
      | none =>
        -- No element has an occurrence.
        have quiet := firstOf_eq_some_none.mp ends
        have empty : ∀ e ∈ list, enclosing child none e = [] := by
          intro e isElmt
          have inner := ih e isElmt (fewer e isElmt) (quiet e isElmt)
          have enclosed : none ∉ enclosing child none e :=
            none_notMem_of_outcome (by rw [quiet e isElmt]; exact Option.some_ne_none _)
              (others e isElmt)
          cases occurs : enclosing child none e with
          | nil => rfl
          | cons r rest =>
            rw [occurs] at inner enclosed
            exact absurd (inner ▸ List.mem_cons_self) enclosed
        have nothing : enclosingEach child (some address) list = [] := by
          rw [enclosingEach_eq, List.flatMap_eq_nil_iff]
          intro e isElmt
          rw [enclosing_some, empty e isElmt]
          rfl
        rw [enclosing, nothing, List.append_nil]
        split_ifs <;> rfl
      | some q =>
        obtain ⟨before, e, after, rfl, -, last⟩ := firstOf_eq_some_some ends
        have isElmt : e ∈ before ++ e :: after := List.mem_append_right _ List.mem_cons_self
        have inner := ih e isElmt (fewer e isElmt) last
        have occurs : some q ∈ enclosing child none e := by
          cases occurrences : enclosing child none e with
          | nil =>
            rw [occurrences] at inner
            cases inner
          | cons r rest =>
            rw [occurrences] at inner
            rw [inner]
            exact List.mem_cons_self
        exact headD_of_mem once (mem_of_elmt e isElmt (some q) occurs)

/-! ## When the search does not misread -/

/-- Where nothing is found without a misread, no type contains another one as a string. -/
theorem noContaining_of_outcome {child : Nat} {t : TypeTree}
    (ends : outcome child t = some none) : NoContaining t := by
  induction t using inductionOn with
  | other address => exact .other address
  | containing address kind content ih => cases ends
  | listOf address kind elmt ih =>
    rw [outcome] at ends
    split_ifs at ends with isElmt
    · cases ends
    · exact .listOf address kind (ih ends)
  | elmts address kind list ih =>
    rw [outcome] at ends
    split_ifs at ends with hit
    · cases ends
    · rw [outcomeEach_eq] at ends
      exact .elmts address kind fun e isElmt => ih e isElmt (firstOf_eq_some_none.mp ends e isElmt)

/-- What is found without a misread is met before types that contain another one. -/
theorem findable_of_outcome {child q : Nat} {t : TypeTree}
    (ends : outcome child t = some (some q)) : Findable child t := by
  induction t using inductionOn generalizing q with
  | other address => cases ends
  | containing address kind content ih => cases ends
  | listOf address kind elmt ih =>
    rw [outcome] at ends
    split_ifs at ends with isElmt
    · exact .elmt address kind isElmt
    · exact .withinElmt address kind (ih ends)
  | elmts address kind list ih =>
    rw [outcome] at ends
    split_ifs at ends with hit
    · obtain ⟨e, isElmt, isDirect⟩ := List.any_eq_true.mp hit
      exact .direct address kind isElmt ((direct_iff child e).mp isDirect)
    · rw [outcomeEach_eq] at ends
      obtain ⟨before, e, after, rfl, none, last⟩ := firstOf_eq_some_some ends
      refine .within address kind (fun b there => noContaining_of_outcome (none b there)) ?_
      exact ih e (List.mem_append_right _ List.mem_cons_self) last

/-- Where no type contains another one as a string, nothing is misread. -/
theorem NoContaining.outcome_ne_none {child : Nat} {t : TypeTree} (plain : NoContaining t) :
    outcome child t ≠ none := by
  induction plain with
  | other address => exact Option.some_ne_none _
  | listOf address kind _ ih =>
    rw [outcome]
    split_ifs
    · exact Option.some_ne_none _
    · exact ih
  | @elmts address kind list _ ih =>
    rw [outcome, outcomeEach_eq]
    split_ifs
    · exact Option.some_ne_none _
    · exact firstOf_ne_none ih

/-- What is met before types that contain another one is found. -/
theorem Findable.exists_outcome {child : Nat} {t : TypeTree} (findable : Findable child t) :
    ∃ q, outcome child t = some (some q) := by
  induction findable with
  | direct address kind isElmt isDirect =>
    refine ⟨address, ?_⟩
    rw [outcome, if_pos (List.any_eq_true.mpr ⟨_, isElmt, (direct_iff child _).mpr isDirect⟩)]
  | elmt address kind isElmt => exact ⟨address, by rw [outcome, if_pos isElmt]⟩
  | withinElmt address kind _ ih =>
    obtain ⟨q, found⟩ := ih
    rw [outcome]
    split_ifs
    · exact ⟨address, rfl⟩
    · exact ⟨q, found⟩
  | @within address kind before after e plain _ ih =>
    obtain ⟨q, found⟩ := ih
    rw [outcome, outcomeEach_eq]
    split_ifs
    · exact ⟨address, rfl⟩
    · exact exists_firstOf (fun b there => (plain b there).outcome_ne_none) found

/-- Nothing is misread exactly if no type contains another one as a string, or the child is met
before. -/
theorem outcome_ne_none_iff (child : Nat) (t : TypeTree) :
    outcome child t ≠ none ↔ t.NoContaining ∨ Findable child t := by
  constructor
  · intro reads
    cases ends : outcome child t with
    | none => exact absurd ends reads
    | some found =>
      cases found with
      | none => exact .inl (noContaining_of_outcome ends)
      | some q => exact .inr (findable_of_outcome ends)
  · rintro (plain | findable)
    · exact plain.outcome_ne_none
    · obtain ⟨q, found⟩ := findable.exists_outcome
      rw [found]
      exact Option.some_ne_none _

end TypeTree

open TypeTree

/-- The search for a type that occurs at most once in a tree returns its nearest enclosing type that
has elements, misreads nothing and leaves the cursors as they were. -/
def FindsParent (child : Nat) (t : TypeTree) (cursors : Cursors) : Prop :=
  ∃ enough, ∀ turns, enough ≤ turns →
    (getParentS child turns t).run cursors = .ok ((enclosing child none t).headD none) cursors

/-- The parent is found exactly if no type of the tree contains another one as a string, or if the
child is met before any such type is searched. -/
theorem findsParent_iff (child : Nat) (t : TypeTree)
    (once : (enclosing child none t).length ≤ 1) (cursors : Cursors) :
    FindsParent child t cursors ↔ t.NoContaining ∨ Findable child t := by
  obtain ⟨enough, yields⟩ := getParentS_yields child t
  rw [← outcome_ne_none_iff]
  cases ends : outcome child t with
  | none =>
    refine iff_of_false ?_ (not_not_intro rfl)
    rintro ⟨most, finds⟩
    have stops := yields (max enough most) (Nat.le_max_left _ _)
    rw [ends] at stops
    obtain ⟨cursors', stopped⟩ := stops cursors
    rw [finds (max enough most) (Nat.le_max_right _ _)] at stopped
    cases stopped
  | some found =>
    refine iff_of_true ⟨enough, fun turns most => ?_⟩ (Option.some_ne_none _)
    have returns := yields turns most
    rw [ends] at returns
    rw [← outcome_eq once ends]
    exact returns cursors

/-- In a SEQUENCE, its second element is found behind an OCTET STRING that contains another type. -/
theorem findsParent_iff_second :
    FindsParent 3 (.elmts 0 .sequence [.containing 1 .octetContaining (.other 2), .other 3])
        (fun _ => none) ↔
      NoContaining (.elmts 0 .sequence [.containing 1 .octetContaining (.other 2), .other 3]) ∨
        Findable 3 (.elmts 0 .sequence [.containing 1 .octetContaining (.other 2), .other 3]) :=
  findsParent_iff 3 _ (by decide) _

/-- An element of an element is not found behind an OCTET STRING that contains another type. -/
theorem not_findsParent :
    ¬ ∀ (child : Nat) (t : TypeTree) (cursors : Cursors),
      (enclosing child none t).length ≤ 1 → FindsParent child t cursors := by
  intro finds
  obtain ⟨enough, returns⟩ := finds 4 (.elmts 0 .sequence
    [.containing 1 .octetContaining (.other 2), .elmts 3 .sequence [.other 4]]) (fun _ => none)
    (by decide)
  have stopped := returns (enough + 4) (Nat.le_add_right _ _)
  cases stopped

end Esnacc.Compiler.Parents
