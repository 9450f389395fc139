import Mathlib.Data.List.Basic
import Mathlib.Tactic.Common

/-! Runs of an object that answers a sequence of calls, and simulations between such objects. -/

namespace Lib

variable {σ τ ι ο : Type*}

/-- The state after a sequence of calls and what each call returned. -/
def run (step : σ → ι → Option (σ × ο)) : σ → List ι → Option (σ × List ο)
  | s, [] => some (s, [])
  -- A call that never completes ends the run without a result.
  | s, call :: calls => do
    let (s, out) ← step s call
    let (s, outs) ← run step s calls
    return (s, out :: outs)

/-- Every call of a run meets a condition in the state it is made in. -/
def Along (step : σ → ι → Option (σ × ο)) (cond : σ → ι → Prop) : σ → List ι → Prop
  | _, [] => True
  | s, call :: calls =>
    cond s call ∧ ∀ s' out, step s call = some (s', out) → Along step cond s' calls

variable {step : σ → ι → Option (σ × ο)} {cond : σ → ι → Prop}

@[simp] theorem run_nil (s : σ) : run step s [] = some (s, []) := rfl

theorem run_cons (s : σ) (call : ι) (calls : List ι) :
    run step s (call :: calls) =
      (step s call).bind fun r => (run step r.1 calls).map fun q => (q.1, r.2 :: q.2) := by
  cases h : step s call with
  | none => simp [run, h]
  | some r =>
    obtain ⟨s', out⟩ := r
    cases h' : run step s' calls <;> simp [run, h, h']

/-- A run of one call more starts with a completed call and continues from its state. -/
theorem run_cons_eq_some {s s' : σ} {call : ι} {calls : List ι} {outs : List ο} :
    run step s (call :: calls) = some (s', outs) ↔
      ∃ mid out rest, step s call = some (mid, out) ∧ run step mid calls = some (s', rest) ∧
        outs = out :: rest := by
  rw [run_cons]
  constructor
  · intro ran
    obtain ⟨⟨mid, out⟩, stepped, rest⟩ := Option.bind_eq_some_iff.mp ran
    obtain ⟨⟨last, tail⟩, ranTail, same⟩ := Option.map_eq_some_iff.mp rest
    simp only [Prod.mk.injEq] at same
    obtain ⟨rfl, rfl⟩ := same
    exact ⟨mid, out, tail, stepped, ranTail, rfl⟩
  · rintro ⟨mid, out, rest, stepped, ran, rfl⟩
    simp [stepped, ran]

theorem run_ne_none_of_cons {s mid : σ} {call : ι} {calls : List ι} {out : ο}
    (stepped : step s call = some (mid, out)) (completes : run step s (call :: calls) ≠ none) :
    run step mid calls ≠ none := by
  intro stuck
  rw [run_cons, stepped, Option.bind_some, stuck] at completes
  exact completes rfl

theorem run_invariant {inv : σ → Prop}
    (preserved : ∀ s call s' out, inv s → step s call = some (s', out) → inv s')
    {s s' : σ} {calls : List ι} {outs : List ο} (start : inv s)
    (ran : run step s calls = some (s', outs)) : inv s' := by
  induction calls generalizing s outs with
  | nil =>
    simp only [run_nil, Option.some.injEq, Prod.mk.injEq] at ran
    exact ran.1 ▸ start
  | cons call calls ih =>
    obtain ⟨mid, out, rest, stepped, ran, -⟩ := run_cons_eq_some.mp ran
    exact ih (preserved s call mid out start stepped) ran

/--
A call-by-call simulation extends to whole runs.

The condition is asked of every state the left object passes through, and of nothing else.
-/
theorem run_simulates {stepT : τ → ι → Option (τ × ο)} {rel : σ → τ → Prop}
    (sim : ∀ s t call, rel s t → cond s call → ∃ s' t' out,
      step s call = some (s', out) ∧ stepT t call = some (t', out) ∧ rel s' t')
    {s : σ} {t : τ} {calls : List ι} (related : rel s t) (along : Along step cond s calls) :
    ∃ s' t' outs, run step s calls = some (s', outs) ∧ run stepT t calls = some (t', outs) ∧
      rel s' t' := by
  -- The induction is on the calls still to be made; the relation carries over each of them.
  induction calls generalizing s t with
  | nil => exact ⟨s, t, [], rfl, rfl, related⟩
  | cons call calls ih =>
    obtain ⟨here, later⟩ := along
    obtain ⟨s', t', out, stepped, steppedT, related'⟩ := sim s t call related here
    obtain ⟨s'', t'', outs, ran, ranT, related''⟩ := ih related' (later s' out stepped)
    exact ⟨s'', t'', out :: outs, run_cons_eq_some.mpr ⟨s', out, outs, stepped, ran, rfl⟩,
      run_cons_eq_some.mpr ⟨t', out, outs, steppedT, ranT, rfl⟩, related''⟩

/-- Every state of a run is good exactly if every call of it meets the condition that keeps states
good. -/
theorem run_states_iff {good : σ → Prop}
    (keeps : ∀ s call, good s → (cond s call ↔ ∀ s' out, step s call = some (s', out) → good s'))
    {s : σ} (start : good s) {calls : List ι} :
    (∀ k s' outs, run step s (calls.take k) = some (s', outs) → good s') ↔
      Along step cond s calls := by
  induction calls generalizing s with
  | nil =>
    refine iff_of_true (fun k s' outs ran => ?_) trivial
    rw [List.take_nil, run_nil] at ran
    cases ran
    exact start
  | cons call calls ih =>
    constructor
    · intro states
      have here : ∀ s' out, step s call = some (s', out) → good s' := by
        intro s' out stepped
        refine states 1 s' [out] ?_
        rw [List.take_succ_cons, List.take_zero]
        exact run_cons_eq_some.mpr ⟨s', out, [], stepped, rfl, rfl⟩
      refine ⟨(keeps s call start).mpr here, fun s' out stepped => ?_⟩
      refine (ih (here s' out stepped)).mp fun k s'' outs ran => ?_
      refine states (k + 1) s'' (out :: outs) ?_
      rw [List.take_succ_cons]
      exact run_cons_eq_some.mpr ⟨s', out, outs, stepped, ran, rfl⟩
    · rintro ⟨here, later⟩ k s' outs ran
      cases k with
      | zero =>
        cases ran
        exact start
      | succ k =>
        rw [List.take_succ_cons] at ran
        obtain ⟨mid, out, rest, stepped, ran, -⟩ := run_cons_eq_some.mp ran
        have next := (keeps s call start).mp here mid out stepped
        exact (ih next).mpr (later mid out stepped) k s' rest ran

theorem Along.and_forall {cond' : ι → Prop} {s : σ} {calls : List ι}
    (along : Along step cond s calls) (each : ∀ call ∈ calls, cond' call) :
    Along step (fun s call => cond s call ∧ cond' call) s calls := by
  induction calls generalizing s with
  | nil => trivial
  | cons call calls ih =>
    obtain ⟨here, later⟩ := along
    refine ⟨⟨here, each call List.mem_cons_self⟩, fun s' out stepped => ?_⟩
    exact ih (later s' out stepped) fun other listed => each other (List.mem_cons_of_mem _ listed)

/-- Two calls that both complete with the same result, in related states, or both do not. -/
def SameAnswer (rel : σ → τ → Prop) : Option (σ × ο) → Option (τ × ο) → Prop
  | none, none => True
  | some (s, out), some (t, out') => rel s t ∧ out = out'
  | _, _ => False

/-- Two objects whose related states answer every call alike return the same from every run. -/
theorem run_outputs_eq {stepT : τ → ι → Option (τ × ο)} {rel : σ → τ → Prop}
    (alike : ∀ s t call, rel s t → SameAnswer rel (step s call) (stepT t call))
    {s : σ} {t : τ} (related : rel s t) (calls : List ι) :
    (run step s calls).map Prod.snd = (run stepT t calls).map Prod.snd := by
  induction calls generalizing s t with
  | nil => rfl
  | cons call calls ih =>
    have answer := alike s t call related
    rw [run_cons, run_cons]
    cases left : step s call with
    | none =>
      cases right : stepT t call with
      | none => rfl
      | some => simp [left, right, SameAnswer] at answer
    | some reply =>
      cases right : stepT t call with
      | none => simp [left, right, SameAnswer] at answer
      | some replyT =>
        rw [left, right] at answer
        obtain ⟨related', same⟩ := answer
        have tail := congrArg (Option.map (reply.2 :: ·)) (ih related')
        simpa [same, Function.comp_def] using tail

end Lib
