import Mathlib.Tactic.Common

/-! Computations that change a state and may fail, taken apart and compared run by run. -/

namespace Lib

universe u

variable {ε σ α β : Type u}

theorem run_bind_eq_ok {x : EStateM ε σ α} {f : α → EStateM ε σ β} {s s' : σ} {r : β} :
    (x >>= f).run s = .ok r s' ↔ ∃ a t, x.run s = .ok a t ∧ (f a).run t = .ok r s' := by
  rw [EStateM.run_bind]
  cases x.run s <;> simp

theorem run_bind_eq_error {x : EStateM ε σ α} {f : α → EStateM ε σ β} {s s' : σ} {e : ε} :
    (x >>= f).run s = .error e s' ↔
      x.run s = .error e s' ∨ ∃ a t, x.run s = .ok a t ∧ (f a).run t = .error e s' := by
  rw [EStateM.run_bind]
  cases x.run s <;> simp

theorem run_bind_of_ok {x : EStateM ε σ α} {f : α → EStateM ε σ β} {s t : σ} {a : α}
    (ran : x.run s = .ok a t) : (x >>= f).run s = (f a).run t := by
  rw [EStateM.run_bind, ran]

theorem run_map_of_ok {x : EStateM ε σ α} {f : α → β} {s s' : σ} {a : α}
    (ran : x.run s = .ok a s') : (f <$> x).run s = .ok (f a) s' := by
  change (match x.run s with
    | .ok a s' => EStateM.Result.ok (f a) s'
    | .error e s' => .error e s') = _
  rw [ran]

theorem run_map_of_error {x : EStateM ε σ α} {f : α → β} {s s' : σ} {e : ε}
    (failed : x.run s = .error e s') : (f <$> x).run s = .error e s' := by
  change (match x.run s with
    | .ok a s' => EStateM.Result.ok (f a) s'
    | .error e s' => .error e s') = _
  rw [failed]

theorem ofExcept_ok (a : α) : (ofExcept (Except.ok a : Except ε α) : EStateM ε σ α) = pure a :=
  rfl

theorem ofExcept_map (f : α → β) (result : Except ε α) :
    (ofExcept (result.map f) : EStateM ε σ β) = (do return f (← ofExcept result)) := by
  cases result <;> rfl

theorem run_pure_eq_ok {v r : α} {s s' : σ} :
    (pure v : EStateM ε σ α).run s = .ok r s' ↔ s' = s ∧ r = v := by
  rw [EStateM.run_pure]
  constructor
  · intro same
    cases same
    exact ⟨rfl, rfl⟩
  · rintro ⟨rfl, rfl⟩
    rfl

/-! ## Runs from related states -/

/-- What a caller sees of a run: the value it returns or the way it fails. -/
def outcome : EStateM.Result ε σ α → Except ε α
  | .ok r _ => .ok r
  | .error e _ => .error e

/-- Two runs end alike: with the same value or the same failure, in related states. -/
def EndsAlike (rel : σ → σ → Prop) : EStateM.Result ε σ α → EStateM.Result ε σ α → Prop
  | .ok r s, .ok r' s' => r = r' ∧ rel s s'
  | .error e s, .error e' s' => e = e' ∧ rel s s'
  | _, _ => False

/-- A computation whose runs from related states end alike. -/
def Respects (rel : σ → σ → Prop) (x : EStateM ε σ α) : Prop :=
  ∀ ⦃s s'⦄, rel s s' → EndsAlike rel (x.run s) (x.run s')

variable {rel : σ → σ → Prop}

theorem EndsAlike.outcome_eq {x y : EStateM.Result ε σ α} (alike : EndsAlike rel x y) :
    outcome x = outcome y := by
  cases x with
  | ok r s =>
    cases y with
    | ok r' s' => exact congrArg Except.ok alike.1
    | error e' s' => exact alike.elim
  | error e s =>
    cases y with
    | ok r' s' => exact alike.elim
    | error e' s' => exact congrArg Except.error alike.1

theorem EndsAlike.mono {rel' : σ → σ → Prop} {x y : EStateM.Result ε σ α}
    (alike : EndsAlike rel x y) (weaker : ∀ s s', rel s s' → rel' s s') : EndsAlike rel' x y := by
  cases x with
  | ok r s =>
    cases y with
    | ok r' s' => exact ⟨alike.1, weaker s s' alike.2⟩
    | error e' s' => exact alike.elim
  | error e s =>
    cases y with
    | ok r' s' => exact alike.elim
    | error e' s' => exact ⟨alike.1, weaker s s' alike.2⟩

theorem Respects.pure (r : α) : Respects rel (pure r : EStateM ε σ α) := fun _ _ related =>
  ⟨rfl, related⟩

theorem Respects.throw (e : ε) : Respects rel (throw e : EStateM ε σ α) := fun _ _ related =>
  ⟨rfl, related⟩

/-- A sequence respects a relation that both its parts respect. -/
theorem Respects.bind {x : EStateM ε σ α} {f : α → EStateM ε σ β} (first : Respects rel x)
    (later : ∀ a, Respects rel (f a)) : Respects rel (x >>= f) := by
  intro s s' related
  have alike := first related
  rw [EStateM.run_bind, EStateM.run_bind]
  -- The second part runs only where the first one has returned.
  cases left : x.run s with
  | ok a t =>
    cases right : x.run s' with
    | ok a' t' =>
      rw [left, right] at alike
      obtain ⟨rfl, related'⟩ := alike
      exact later a related'
    | error e' t' => simp [left, right, EndsAlike] at alike
  | error e t =>
    cases right : x.run s' with
    | ok a' t' => simp [left, right, EndsAlike] at alike
    | error e' t' =>
      rw [left, right] at alike
      exact alike

theorem Respects.ite {c : Prop} [Decidable c] {x y : EStateM ε σ α} (pos : Respects rel x)
    (neg : Respects rel y) : Respects rel (if c then x else y) := by
  by_cases holds : c
  · rw [if_pos holds]
    exact pos
  · rw [if_neg holds]
    exact neg

/-! ## What a run keeps -/

/-- The state that a run ends in. -/
def lastState : EStateM.Result ε σ α → σ
  | .ok _ s => s
  | .error _ s => s

/-- A computation that keeps what holds of its state, whether it completes or fails. -/
def Keeps (inv : σ → Prop) (x : EStateM ε σ α) : Prop :=
  ∀ ⦃s⦄, inv s → inv (lastState (x.run s))

section

variable {inv : σ → Prop}

theorem Keeps.of_ok {x : EStateM ε σ α} {s t : σ} {r : α} (keeps : Keeps inv x) (holds : inv s)
    (ran : x.run s = .ok r t) : inv t := by
  have last := keeps holds
  rwa [ran] at last

theorem Keeps.pure (r : α) : Keeps inv (pure r : EStateM ε σ α) := fun _ holds => holds

theorem Keeps.throw (e : ε) : Keeps inv (throw e : EStateM ε σ α) := fun _ holds => holds

/-- A sequence keeps what both its parts keep. -/
theorem Keeps.bind {x : EStateM ε σ α} {f : α → EStateM ε σ β} (first : Keeps inv x)
    (later : ∀ a, Keeps inv (f a)) : Keeps inv (x >>= f) := by
  intro s holds
  have mid := first holds
  rw [EStateM.run_bind]
  cases ran : x.run s with
  | ok a t =>
    rw [ran] at mid
    exact later a mid
  | error e t =>
    rw [ran] at mid
    exact mid

theorem Keeps.ite {c : Prop} [Decidable c] {x y : EStateM ε σ α} (pos : Keeps inv x)
    (neg : Keeps inv y) : Keeps inv (if c then x else y) := by
  by_cases holds : c
  · rw [if_pos holds]
    exact pos
  · rw [if_neg holds]
    exact neg

end

/-! ## Runs that replace a value -/

variable {ι γ : Type u}

/-- Two runs that return a value look alike: both fail, or both return the same one. -/
def SameValue : EStateM.Result ε σ (α × β) → EStateM.Result ε σ (α × β) → Prop
  | .ok (v, _) _, .ok (v', _) _ => v = v'
  | .error _ _, .error _ _ => True
  | _, _ => False

/-- A computation that is given an old value returns one that does not depend on it. -/
def Replaces (x : ι → EStateM ε σ (α × β)) (s : σ) : Prop :=
  ∀ old old', SameValue ((x old).run s) ((x old').run s)

theorem SameValue.refl (r : EStateM.Result ε σ (α × β)) : SameValue r r := by
  cases r with
  | ok v s => exact rfl
  | error e s => trivial

theorem replaces_of_const (x : EStateM ε σ (α × β)) (s : σ) : Replaces (fun _ : ι => x) s :=
  fun _ _ => .refl _

/-- Behind what makes no use of the old value, it is replaced exactly where the rest replaces it. -/
theorem replaces_bind_iff {x : EStateM ε σ γ} {f : ι → γ → EStateM ε σ (α × β)} {s : σ} :
    Replaces (fun old => x >>= f old) s ↔
      ∀ a t, x.run s = .ok a t → Replaces (fun old => f old a) t := by
  unfold Replaces
  simp only [EStateM.run_bind]
  cases ran : x.run s with
  | ok a t =>
    constructor
    · intro alike b u same
      cases same
      exact alike
    · intro alike
      exact alike a t rfl
  | error e t =>
    constructor
    · intro _ a u same
      cases same
    · intro _ _ _
      trivial

theorem exists_enough {ι : Type*} {l : List ι} {p : ι → Nat → Prop}
    (each : ∀ x ∈ l, ∃ enough, ∀ turns, enough ≤ turns → p x turns) :
    ∃ enough, ∀ turns, enough ≤ turns → ∀ x ∈ l, p x turns := by
  induction l with
  | nil => exact ⟨0, fun _ _ x there => absurd there List.not_mem_nil⟩
  | cons x rest ih =>
    obtain ⟨first, here⟩ := each x List.mem_cons_self
    obtain ⟨others, there⟩ := ih fun y isIn => each y (List.mem_cons_of_mem x isIn)
    refine ⟨max first others, fun turns most => List.forall_mem_cons.mpr ⟨?_, ?_⟩⟩
    · exact here turns (Nat.le_trans (Nat.le_max_left _ _) most)
    · exact there turns (Nat.le_trans (Nat.le_max_right _ _) most)

end Lib
