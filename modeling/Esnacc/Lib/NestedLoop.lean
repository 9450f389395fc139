import Esnacc.Lib.StateExcept

/-! Loops whose turns may run the same loop again on an inner problem. -/

namespace Lib

/-- How one turn of a loop ends, given what the loop returns and what its next turn starts from. -/
inductive Turn (α κ : Type*) where
  /-- The loop is left with a result. -/
  | stop (result : α)
  /-- The loop goes on. -/
  | next (k : κ)
  /-- The loop runs on an inner problem first and goes on from its result. -/
  | call (inner : κ) (resume : α → κ)

universe u

variable {ε σ α κ : Type u}

/-- One loop: the test before each turn, the result when the test fails, and the turn itself. -/
structure Loop (ε σ α κ : Type u) where
  test : κ → Bool
  result : κ → α
  turn : κ → EStateM ε σ (Turn α κ)

namespace Loop

/-- Run a loop, with at most `fuel` turns one after another or inside one another. -/
def run (loop : Loop ε σ α κ) (exhausted : ε) : Nat → κ → EStateM ε σ α
  | 0, _ => throw exhausted
  | fuel + 1, k =>
    if loop.test k then do
      match ← loop.turn k with
      | .stop result => return result
      | .next k => loop.run exhausted fuel k
      | .call inner resume => do
        let result ← loop.run exhausted fuel inner
        loop.run exhausted fuel (resume result)
    else return loop.result k

/--
Every completed turn of a loop, inner loops included, relates the state it starts in to the
state it ends in.
-/
def EveryTurn (loop : Loop ε σ α κ) (exhausted : ε) (holds : κ → σ → σ → Prop) :
    Nat → κ → σ → Prop
  | 0, _, _ => True
  | fuel + 1, k, s =>
    loop.test k = true →
      match (loop.turn k).run s with
      | .ok (.stop _) s' => holds k s s'
      | .ok (.next k') s' => holds k s s' ∧ loop.EveryTurn exhausted holds fuel k' s'
      -- A turn with an inner loop ends where the inner loop ends.
      | .ok (.call inner resume) s' =>
        loop.EveryTurn exhausted holds fuel inner s' ∧
          ∀ result s'', (loop.run exhausted fuel inner).run s' = .ok result s'' →
            holds k s s'' ∧ loop.EveryTurn exhausted holds fuel (resume result) s''
      | .error _ _ => True

variable {loop : Loop ε σ α κ} {exhausted : ε} {holds : κ → σ → σ → Prop} {measure : σ → Nat}

theorem run_of_not_test {fuel : Nat} {k : κ} {s : σ} (fails : ¬ loop.test k = true) :
    (loop.run exhausted (fuel + 1) k).run s = .ok (loop.result k) s := by
  rw [run, if_neg fails, EStateM.run_pure]

/-- One turn of a loop, and what follows from how it ends. -/
theorem run_of_test {fuel : Nat} {k : κ} {s : σ} (passes : loop.test k = true) :
    (loop.run exhausted (fuel + 1) k).run s =
      match (loop.turn k).run s with
      | .ok (.stop result) s' => .ok result s'
      | .ok (.next k') s' => (loop.run exhausted fuel k').run s'
      | .ok (.call inner resume) s' =>
        (loop.run exhausted fuel inner >>= fun result =>
          loop.run exhausted fuel (resume result)).run s'
      | .error e s' => .error e s' := by
  rw [run, if_pos passes, EStateM.run_bind]
  cases (loop.turn k).run s with
  | error e s' => rfl
  | ok ended s' => cases ended <;> rfl

theorem run_respects {rel : σ → σ → Prop} (turns : ∀ k, Respects rel (loop.turn k)) (fuel : Nat)
    (k : κ) : Respects rel (loop.run exhausted fuel k) := by
  induction fuel generalizing k with
  | zero => exact Respects.throw exhausted
  | succ fuel ih =>
    rw [run]
    refine Respects.ite (Respects.bind (turns k) fun how => ?_) (Respects.pure _)
    cases how with
    | stop result => exact Respects.pure result
    | next k' => exact ih k'
    | call inner resume => exact Respects.bind (ih inner) fun result => ih (resume result)

theorem run_keeps {inv : σ → Prop} (turns : ∀ k, Keeps inv (loop.turn k)) (fuel : Nat) (k : κ) :
    Keeps inv (loop.run exhausted fuel k) := by
  induction fuel generalizing k with
  | zero => exact Keeps.throw exhausted
  | succ fuel ih =>
    rw [run]
    refine Keeps.ite (Keeps.bind (turns k) fun how => ?_) (Keeps.pure _)
    cases how with
    | stop result => exact Keeps.pure result
    | next k' => exact ih k'
    | call inner resume => exact Keeps.bind (ih inner) fun result => ih (resume result)

theorem everyTurn_of_not_test {fuel : Nat} {k : κ} {s : σ} (fails : ¬ loop.test k = true) :
    loop.EveryTurn exhausted holds fuel k s := by
  cases fuel with
  | zero => trivial
  | succ fuel =>
    intro passes
    exact absurd passes fails

theorem everyTurn_of_next {fuel : Nat} {k k' : κ} {s s' : σ}
    (ended : (loop.turn k).run s = .ok (.next k') s') (held : holds k s s')
    (later : loop.EveryTurn exhausted holds fuel k' s') :
    loop.EveryTurn exhausted holds (fuel + 1) k s := by
  intro _
  rw [ended]
  exact ⟨held, later⟩

/--
The turns of a loop lower a measure of the state: those that end the loop or run an inner one in any
case, the others exactly where the relation holds.
-/
structure Descends (loop : Loop ε σ α κ) (exhausted : ε) (holds : κ → σ → σ → Prop)
    (measure : σ → Nat) : Prop where
  stop : ∀ {k s result s'}, (loop.turn k).run s = .ok (.stop result) s' →
    measure s' < measure s ∧ holds k s s'
  next : ∀ {k k' s s'}, (loop.turn k).run s = .ok (.next k') s' →
    (holds k s s' ↔ measure s' < measure s)
  call : ∀ {k inner resume s s'}, (loop.turn k).run s = .ok (.call inner resume) s' →
    measure s' < measure s ∧ ∀ s'', holds k s s''
  fails : ∀ {k s s'}, (loop.turn k).run s ≠ .error exhausted s'

/-- A run whose every turn is related does not raise the measure. -/
theorem Descends.run_le (descends : loop.Descends exhausted holds measure) {fuel : Nat} {k : κ}
    {s s' : σ} {result : α} (every : loop.EveryTurn exhausted holds fuel k s)
    (done : (loop.run exhausted fuel k).run s = .ok result s') : measure s' ≤ measure s := by
  -- The induction is on the turns left, for inner runs as for later turns.
  induction fuel generalizing k s s' result with
  | zero => cases done
  | succ fuel ih =>
    by_cases passes : loop.test k = true
    · rw [run_of_test passes] at done
      have turn := every passes
      cases ended : (loop.turn k).run s with
      | error e t => simp [ended] at done
      | ok how t =>
        simp only [ended] at done turn
        cases how with
        | stop result =>
          cases done
          exact Nat.le_of_lt (descends.stop ended).1
        | next k' =>
          have lower := (descends.next ended).mp turn.1
          exact Nat.le_trans (ih turn.2 done) (Nat.le_of_lt lower)
        | call inner resume =>
          obtain ⟨result, u, ran, done⟩ := run_bind_eq_ok.mp done
          have lower := (descends.call ended).1
          have inside := ih turn.1 ran
          have after := ih (turn.2 result u ran).2 done
          omega
    · rw [run_of_not_test passes] at done
      cases done
      exact Nat.le_refl _

/-- The turns are related exactly where every one of them lowers the measure. -/
theorem Descends.everyTurn_iff (descends : loop.Descends exhausted holds measure) (fuel : Nat)
    (k : κ) (s : σ) :
    loop.EveryTurn exhausted holds fuel k s ↔
      loop.EveryTurn exhausted (fun _ s s' => measure s' < measure s) fuel k s := by
  induction fuel generalizing k s with
  | zero => exact Iff.rfl
  | succ fuel ih =>
    apply imp_congr_right
    intro passes
    cases ended : (loop.turn k).run s with
    | error e t => exact Iff.rfl
    | ok how t =>
      cases how with
      | stop result => exact iff_of_true (descends.stop ended).2 (descends.stop ended).1
      | next k' => exact and_congr (descends.next ended) (ih k' t)
      | call inner resume =>
        obtain ⟨lower, held⟩ := descends.call ended
        dsimp only
        rw [ih inner t]
        apply and_congr_right
        intro inside
        refine forall_congr' fun result => forall_congr' fun u => imp_congr_right fun ran => ?_
        -- The inner run has not raised the measure again.
        have kept := descends.run_le ((ih inner t).mpr inside) ran
        exact and_congr (iff_of_true (held u) (Nat.lt_of_le_of_lt kept lower)) (ih _ u)

/-- A loop whose every turn is related ends within as many turns as the measure allows. -/
theorem Descends.run_ne_exhausted (descends : loop.Descends exhausted holds measure) {fuel : Nat}
    {k : κ} {s : σ} (every : loop.EveryTurn exhausted holds fuel k s) (enough : measure s < fuel)
    (s' : σ) : (loop.run exhausted fuel k).run s ≠ .error exhausted s' := by
  induction fuel generalizing k s s' with
  | zero => omega
  | succ fuel ih =>
    intro failed
    by_cases passes : loop.test k = true
    · rw [run_of_test passes] at failed
      have turn := every passes
      cases ended : (loop.turn k).run s with
      | error e t =>
        simp only [ended, EStateM.Result.error.injEq] at failed
        obtain ⟨rfl, rfl⟩ := failed
        exact descends.fails ended
      | ok how t =>
        simp only [ended] at failed turn
        cases how with
        | stop result => cases failed
        | next k' =>
          have lower := (descends.next ended).mp turn.1
          exact ih turn.2 (by omega) s' failed
        | call inner resume =>
          have lower := (descends.call ended).1
          dsimp only at failed turn
          rw [EStateM.run_bind] at failed
          cases ran : (loop.run exhausted fuel inner).run t with
          | error e u =>
            simp only [ran, EStateM.Result.error.injEq] at failed
            obtain ⟨rfl, rfl⟩ := failed
            exact ih turn.1 (by omega) _ ran
          | ok result u =>
            simp only [ran] at failed
            have kept := descends.run_le turn.1 ran
            exact ih (turn.2 result u ran).2 (by omega) s' failed
    · rw [run_of_not_test passes] at failed
      cases failed

end Loop

end Lib
