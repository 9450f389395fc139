import Esnacc.Lib.StateExcept

/-! Readers that take the words of a language from a tape of octets, and count them. -/

namespace Lib

variable {ε σ N α β : Type}

/-- A tape: the octets still to be read in a state, the states that can be read, and how a count of
octets goes on. -/
structure Tape (σ N : Type) where
  unread : σ → List UInt8
  valid : σ → Prop
  advance : N → Nat → N
  advance_zero : ∀ n, advance n 0 = n
  advance_add : ∀ n j k, advance (advance n j) k = advance n (j + k)

/-- A reader completes exactly on the words of a language, takes them from the tape and counts their
octets. -/
structure Tape.Recognises (T : Tape σ N) (f : N → EStateM ε σ (α × N))
    (lang : List UInt8 → α → Prop) : Prop where
  accepts : ∀ {s : σ} {w rest : List UInt8} {x : α}, T.valid s → T.unread s = w ++ rest →
    lang w x → ∀ n, ∃ s', (f n).run s = .ok (x, T.advance n w.length) s' ∧ T.valid s' ∧
      T.unread s' = rest
  sound : ∀ {s s' : σ} {n m : N} {x : α}, T.valid s → (f n).run s = .ok (x, m) s' →
    T.valid s' ∧ ∃ w, lang w x ∧ T.unread s = w ++ T.unread s' ∧ m = T.advance n w.length

/-- The words that a reader completes on, wherever they stand on a tape. -/
def Tape.Words (T : Tape σ N) (f : N → EStateM ε σ (α × N)) (w : List UInt8) (x : α) : Prop :=
  (∃ s rest, T.valid s ∧ T.unread s = w ++ rest) ∧
    ∀ s rest, T.valid s → T.unread s = w ++ rest → ∀ n, ∃ s',
      (f n).run s = .ok (x, T.advance n w.length) s' ∧ T.valid s' ∧ T.unread s' = rest

/-- A reader takes words of its own and counts them. -/
abbrev Tape.TakesWords (T : Tape σ N) (f : N → EStateM ε σ (α × N)) : Prop :=
  T.Recognises f (T.Words f)

namespace Tape.Recognises

variable {T : Tape σ N} {f : N → EStateM ε σ (α × N)} {lang lang' : List UInt8 → α → Prop}

theorem takesWords (reads : T.Recognises f lang) : T.TakesWords f where
  accepts valid tape word n := word.2 _ _ valid tape n
  sound valid ran := by
    obtain ⟨valid', w, inLang, tape, count⟩ := reads.sound valid ran
    exact ⟨valid', w, ⟨⟨_, _, valid, tape⟩,
      fun s rest valid tape n => reads.accepts valid tape inLang n⟩, tape, count⟩

theorem congr (reads : T.Recognises f lang) (same : ∀ w x, lang' w x ↔ lang w x) :
    T.Recognises f lang' where
  accepts valid tape inLang n := reads.accepts valid tape ((same _ _).1 inLang) n
  sound valid ran := by
    obtain ⟨valid', w, inLang, tape, count⟩ := reads.sound valid ran
    exact ⟨valid', w, (same _ _).2 inLang, tape, count⟩

theorem pure (T : Tape σ N) (y : α) :
    T.Recognises (fun n => (return (y, n) : EStateM ε σ (α × N))) fun w x => w = [] ∧ x = y where
  accepts := by
    rintro s w rest x valid tape ⟨rfl, rfl⟩ n
    exact ⟨s, by rw [List.length_nil, T.advance_zero]; rfl, valid, tape⟩
  sound := by
    intro s s' n m x valid ran
    obtain ⟨rfl, same⟩ := run_pure_eq_ok.1 ran
    obtain ⟨rfl, rfl⟩ := Prod.mk.inj same
    exact ⟨valid, [], ⟨rfl, rfl⟩, rfl, (T.advance_zero _).symm⟩

theorem throw (T : Tape σ N) (e : ε) :
    T.Recognises (fun _ => (MonadExcept.throw e : EStateM ε σ (α × N))) fun _ _ => False where
  accepts := by
    rintro s w rest x valid tape ⟨⟩
  sound := by
    intro s s' n m x valid ran
    cases ran

/-- One reader after the other takes a word of each. -/
theorem bind {g : α → N → EStateM ε σ (β × N)} {more : α → List UInt8 → β → Prop}
    (first : T.Recognises f lang) (later : ∀ x, T.Recognises (g x) (more x)) :
    T.Recognises (fun n => f n >>= fun p => g p.1 p.2) fun w y =>
      ∃ c d x, w = c ++ d ∧ lang c x ∧ more x d y where
  accepts := by
    rintro s w rest y valid tape ⟨c, d, x, rfl, inLang, inMore⟩ n
    rw [List.append_assoc] at tape
    obtain ⟨mid, ran, valid', left⟩ := first.accepts valid tape inLang n
    obtain ⟨s', ranLater, valid'', last⟩ := (later x).accepts valid' left inMore
      (T.advance n c.length)
    refine ⟨s', ?_, valid'', last⟩
    rw [run_bind_of_ok ran, ranLater, T.advance_add, List.length_append]
  sound := by
    intro s s' n m y valid ran
    obtain ⟨⟨x, k⟩, mid, ranFirst, ranLater⟩ := run_bind_eq_ok.1 ran
    obtain ⟨valid', c, inLang, tape, count⟩ := first.sound valid ranFirst
    obtain ⟨valid'', d, inMore, left, countLater⟩ := (later x).sound valid' ranLater
    refine ⟨valid'', c ++ d, ⟨c, d, x, rfl, inLang, inMore⟩, ?_, ?_⟩
    · rw [tape, left, List.append_assoc]
    · rw [countLater, count, T.advance_add, List.length_append]

theorem test {p : Prop} [Decidable p] {g : N → EStateM ε σ (α × N)}
    (holds : p → T.Recognises f lang) (fails : ¬ p → T.Recognises g lang') :
    T.Recognises (fun n => if p then f n else g n) fun w x =>
      if p then lang w x else lang' w x := by
  by_cases case : p
  · simp only [if_pos case]
    exact holds case
  · simp only [if_neg case]
    exact fails case

/-- Two words that the tape starts with are the same. -/
theorem unique (reads : T.Recognises f lang) (n : N) {s : σ} (valid : T.valid s)
    {w w' rest rest' : List UInt8} {x x' : α} (tape : T.unread s = w ++ rest)
    (tape' : T.unread s = w' ++ rest') (inLang : lang w x) (inLang' : lang w' x') :
    w = w' ∧ rest = rest' ∧ x = x' := by
  -- Both are taken by the same run.
  obtain ⟨t, ran, -, left⟩ := reads.accepts valid tape inLang n
  obtain ⟨t', ran', -, left'⟩ := reads.accepts valid tape' inLang' n
  rw [ran, EStateM.Result.ok.injEq, Prod.mk.injEq] at ran'
  obtain ⟨⟨rfl, -⟩, rfl⟩ := ran'
  have sameRest : rest = rest' := left.symm.trans left'
  subst sameRest
  exact ⟨List.append_cancel_right (tape.symm.trans tape'), rfl, rfl⟩

end Tape.Recognises

/-- A reader that goes on from a count completes exactly behind the words of a language that bring
the count to a goal. -/
structure Tape.Fills (T : Tape σ N) (goal n : N) (f : EStateM ε σ α) (lang : List UInt8 → Prop)
    (done : α → Prop) : Prop where
  accepts : ∀ {s : σ} {w rest : List UInt8}, T.valid s → T.unread s = w ++ rest → lang w →
    T.advance n w.length = goal → ∃ x s', f.run s = .ok x s' ∧ done x
  sound : ∀ {s s' : σ} {x : α}, T.valid s → f.run s = .ok x s' → done x ∧ T.valid s' ∧
    ∃ w, lang w ∧ T.unread s = w ++ T.unread s' ∧ T.advance n w.length = goal

namespace Tape.Fills

variable {T : Tape σ N} {goal n : N} {f : EStateM ε σ α} {lang lang' : List UInt8 → Prop}
  {done : α → Prop}

theorem congr (fills : T.Fills goal n f lang done) (same : ∀ w, lang' w ↔ lang w) :
    T.Fills goal n f lang' done where
  accepts valid tape inLang := fills.accepts valid tape ((same _).1 inLang)
  sound valid ran := by
    obtain ⟨isDone, valid', w, inLang, tape, count⟩ := fills.sound valid ran
    exact ⟨isDone, valid', w, (same _).2 inLang, tape, count⟩

theorem throw (T : Tape σ N) (goal n : N) (e : ε) (done : α → Prop) :
    T.Fills goal n (MonadExcept.throw e : EStateM ε σ α) (fun _ => False) done where
  accepts _ _ inLang := inLang.elim
  sound _ ran := by cases ran

/-- A reader that completes where the count has come to its goal. -/
theorem finish {p : Prop} [Decidable p] {x : α} {e : ε} (left : p ↔ n ≠ goal)
    (isDone : n = goal → done x) :
    T.Fills goal n (if p then MonadExcept.throw e else pure x : EStateM ε σ α) (fun w => w = [])
      done where
  accepts := by
    rintro s w rest valid tape rfl count
    rw [List.length_nil, T.advance_zero] at count
    rw [if_neg fun h => left.1 h count]
    exact ⟨x, s, rfl, isDone count⟩
  sound := by
    intro s s' y valid ran
    by_cases more : p
    · rw [if_pos more] at ran
      cases ran
    · rw [if_neg more] at ran
      have ends : n = goal := not_not.1 fun h => more (left.2 h)
      obtain ⟨rfl, rfl⟩ := run_pure_eq_ok.1 ran
      exact ⟨isDone ends, valid, [], rfl, rfl, by rw [List.length_nil, T.advance_zero, ends]⟩

/-- What was read counts towards the goal. -/
theorem bind {g : N → EStateM ε σ (β × N)} {first : List UInt8 → β → Prop}
    {h : β → N → EStateM ε σ α} {later : β → List UInt8 → Prop} (reads : T.Recognises g first)
    (fills : ∀ x n, T.Fills goal n (h x n) (later x) done) (n : N) :
    T.Fills goal n (g n >>= fun p => h p.1 p.2)
      (fun w => ∃ c d x, w = c ++ d ∧ first c x ∧ later x d) done where
  accepts := by
    rintro s w rest valid tape ⟨c, d, x, rfl, inFirst, inLater⟩ count
    rw [List.append_assoc] at tape
    rw [List.length_append, ← T.advance_add] at count
    obtain ⟨mid, ran, valid', left⟩ := reads.accepts valid tape inFirst n
    obtain ⟨y, s', ranLater, isDone⟩ := (fills x _).accepts valid' left inLater count
    exact ⟨y, s', by rw [run_bind_of_ok ran, ranLater], isDone⟩
  sound := by
    intro s s' y valid ran
    obtain ⟨⟨x, k⟩, mid, ranFirst, ranLater⟩ := run_bind_eq_ok.1 ran
    obtain ⟨valid', c, inFirst, tape, rfl⟩ := reads.sound valid ranFirst
    obtain ⟨isDone, valid'', d, inLater, left, count⟩ := (fills x _).sound valid' ranLater
    refine ⟨isDone, valid'', c ++ d, ⟨c, d, x, rfl, inFirst, inLater⟩, ?_, ?_⟩
    · rw [tape, left, List.append_assoc]
    · rw [List.length_append, ← T.advance_add, count]

end Tape.Fills

/-! ## Single words -/

/-- A reader takes a word from wherever it stands on a tape, and counts it. -/
def Tape.Takes (T : Tape σ N) (f : N → EStateM ε σ (α × N)) (w : List UInt8) (x : α) : Prop :=
  ∀ s rest, T.valid s → T.unread s = w ++ rest → ∀ n, ∃ s',
    (f n).run s = .ok (x, T.advance n w.length) s' ∧ T.valid s' ∧ T.unread s' = rest

/-- A reader that goes on from a count completes with a value behind a word that brings the count to a
goal. -/
def Tape.Reaches (T : Tape σ N) (goal n : N) (f : EStateM ε σ α) (w : List UInt8) (x : α) : Prop :=
  ∀ s rest, T.valid s → T.unread s = w ++ rest → T.advance n w.length = goal → ∃ s',
    f.run s = .ok x s' ∧ T.valid s' ∧ T.unread s' = rest

section

variable {T : Tape σ N} {f : N → EStateM ε σ (α × N)} {w : List UInt8} {x : α}

theorem Tape.Recognises.takes {lang : List UInt8 → α → Prop} (reads : T.Recognises f lang)
    (inLang : lang w x) : T.Takes f w x :=
  fun _ _ valid tape n => reads.accepts valid tape inLang n

theorem Tape.Takes.reaches {goal n : N} {h : α → N → EStateM ε σ β} {d : List UInt8} {y : β}
    (takes : T.Takes f w x) (later : T.Reaches goal (T.advance n w.length)
      (h x (T.advance n w.length)) d y) :
    T.Reaches goal n (f n >>= fun p => h p.1 p.2) (w ++ d) y := by
  intro s rest valid tape count
  rw [List.append_assoc] at tape
  rw [List.length_append, ← T.advance_add] at count
  obtain ⟨mid, ran, valid', left⟩ := takes s (d ++ rest) valid tape n
  obtain ⟨s', ranLater, done⟩ := later mid rest valid' left count
  exact ⟨s', by rw [run_bind_of_ok ran, ranLater], done⟩

end

end Lib
