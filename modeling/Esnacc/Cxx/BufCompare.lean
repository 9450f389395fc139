import Esnacc.Cxx.SetOf

/-! Comparing two C++ buffers octet by octet. -/

namespace Esnacc.Cxx

open Lib

/-- Compare two buffers for equality; the turns allow for every octet of the left one. -/
def equalTurns : Nat → AsnBuf → AsnBuf → Except Thrown (Bool × AsnBuf × AsnBuf)
  | 0, _, _ => throw .fault
  | turns + 1, lhs, rhs => do
    let (ch1, lhs) ← bumpCards lhs.passed lhs.ahead
    let (ch2, rhs) ← bumpCards rhs.passed rhs.ahead
    -- The left buffer is asked twice whether it has ended, and the right one is not asked.
    if ch1 = none ∧ ch1 = none then return (true, lhs, rhs)
    else if ch1 ≠ ch2 then return (false, lhs, rhs)
    else equalTurns turns lhs rhs

/-- Whether two buffers are equal, which are both set to be read from their starts again. -/
def equalTo (lhs rhs : AsnBuf) : Except Thrown (Bool × AsnBuf × AsnBuf) := do
  let lhs := lhs.resetMode
  let rhs := rhs.resetMode
  let (equal, lhs, rhs) ← equalTurns (lhs.unread.length + 1) lhs rhs
  return (equal, lhs.resetMode, rhs.resetMode)

/-! ## What reading leaves -/

theorem AsnRvsBuf.buffered_setg {c d : AsnRvsBuf} {octet : UInt8}
    (found : c.buffered = some (octet, d)) : d.setg d.octets.length = c.setg c.octets.length := by
  rw [buffered] at found
  cases area : c.get with
  | none =>
    rw [area] at found
    cases found
  | some area' =>
    rw [area] at found
    obtain ⟨first, -, same⟩ := Option.map_eq_some_iff.mp found
    cases same
    rfl

theorem AsnRvsBuf.underflow_setg {c d : AsnRvsBuf} {octet : Option UInt8}
    (ran : c.underflow = .ok (octet, d)) : d.setg d.octets.length = c.setg c.octets.length := by
  rw [underflow] at ran
  split at ran
  · cases ran
    rfl
  · split at ran
    · cases ran
    · cases ran
      rfl

/-- Reading moves nothing of a card but the place to read. -/
theorem AsnRvsBuf.sbumpc_setg {c d : AsnRvsBuf} {octet : Option UInt8}
    (ran : c.sbumpc = .ok (octet, d)) : d.setg d.octets.length = c.setg c.octets.length := by
  rw [sbumpc] at ran
  cases found : c.buffered with
  | some next =>
    rw [found] at ran
    cases ran
    exact buffered_setg found
  | none =>
    rw [found] at ran
    cases under : c.underflow with
    | error thrown =>
      rw [under] at ran
      cases ran
    | ok next =>
      obtain ⟨octet, e⟩ := next
      have same := underflow_setg under
      rw [under] at ran
      cases octet <;> cases ran <;> exact same

theorem AsnBuf.resetMode_eq (b : AsnBuf) :
    b.resetMode = ⟨[], b.deck.map fun c => c.setg c.octets.length⟩ := by
  rw [resetMode]
  exact congrArg _ (List.map_congr_left fun c _ => c.seekpos_zero)

theorem AsnBuf.resetMode_resetMode (b : AsnBuf) : b.resetMode.resetMode = b.resetMode := by
  rw [resetMode_eq, resetMode_eq b, deck, List.nil_append, List.map_map]
  rfl

/-- Reading an octet leaves what a reset makes of the cards. -/
theorem bumpCards_resetMode {passed cards : List AsnRvsBuf} {answer : Option UInt8} {b : AsnBuf}
    (ran : bumpCards passed cards = .ok (answer, b)) :
    b.resetMode = AsnBuf.resetMode ⟨passed, cards⟩ := by
  induction cards generalizing passed with
  | nil =>
    cases ran
    rfl
  | cons c rest ih =>
    rw [bumpCards] at ran
    cases bumped : c.sbumpc with
    | error thrown =>
      rw [bumped] at ran
      cases ran
    | ok next =>
      obtain ⟨octet, d⟩ := next
      have same := AsnRvsBuf.sbumpc_setg bumped
      rw [bumped] at ran
      have moved :
          AsnBuf.resetMode ⟨passed ++ [d], rest⟩ = AsnBuf.resetMode ⟨passed, c :: rest⟩ := by
        simp [AsnBuf.resetMode_eq, AsnBuf.deck, same]
      rw [← moved]
      cases octet with
      | none => exact ih ran
      | some octet =>
        cases ran
        simp [AsnBuf.resetMode_eq, AsnBuf.deck]

/-! ## The verdicts -/

/-- A buffer that reading has begun on, so that no card is read past its end. -/
def AsnBuf.Begun (b : AsnBuf) : Prop :=
  b.Reading ∧ ∀ c ∈ b.ahead, c.get ≠ none

/-- A comparison answers a question on the octets, and leaves both buffers but for a reset. -/
def Answers (ran : Except Thrown (Bool × AsnBuf × AsnBuf)) (lhs rhs : AsnBuf) (question : Prop) :
    Prop :=
  ∃ answer lhs' rhs', ran = .ok (answer, lhs', rhs') ∧ (answer = true ↔ question) ∧
    lhs'.resetMode = lhs.resetMode ∧ rhs'.resetMode = rhs.resetMode

theorem AsnBuf.Begun.bump {b : AsnBuf} (begun : b.Begun) :
    ∃ b' : AsnBuf, bumpCards b.passed b.ahead = .ok (b.unread.head?, b') ∧
      b'.unread = b.unread.tail ∧ b'.Begun ∧ b'.resetMode = b.resetMode := by
  obtain ⟨b', ran, rest, onward⟩ :=
    bumpCards_spec begun.1 (entered_of_begun begun.2 1) b.passed
  exact ⟨b', ran, rest, ⟨onward.reading, onward.begun begun.2⟩, bumpCards_resetMode ran⟩

/-- Two buffers are found equal where the left one's octets begin those of the right one. -/
theorem equalTurns_answers {turns : Nat} {lhs rhs : AsnBuf} (begun : lhs.Begun)
    (begunRight : rhs.Begun) (enough : lhs.unread.length < turns) :
    Answers (equalTurns turns lhs rhs) lhs rhs (lhs.unread <+: rhs.unread) := by
  induction turns generalizing lhs rhs with
  | zero => omega
  | succ turns ih =>
    obtain ⟨left, ran, rest, begun', reset⟩ := begun.bump
    obtain ⟨right, ranRight, restRight, begunRight', resetRight⟩ := begunRight.bump
    rw [equalTurns, ran, ranRight]
    dsimp only [Bind.bind, Except.bind]
    cases unread : lhs.unread with
    | nil => exact ⟨true, left, right, rfl, by simp, reset, resetRight⟩
    | cons ch1 octets =>
      cases unreadRight : rhs.unread with
      | nil => exact ⟨false, left, right, rfl, by simp, reset, resetRight⟩
      | cons ch2 others =>
        rw [List.head?_cons, List.head?_cons, if_neg (by simp)]
        by_cases differ : some ch1 ≠ some ch2
        · rw [if_pos differ]
          refine ⟨false, left, right, rfl, ?_, reset, resetRight⟩
          rw [List.cons_prefix_cons]
          exact iff_of_false nofun fun both => differ (congrArg some both.1)
        · rw [if_neg differ]
          obtain rfl : ch1 = ch2 := by simpa using differ
          rw [unread, List.tail_cons] at rest
          rw [unreadRight, List.tail_cons] at restRight
          rw [unread, List.length_cons] at enough
          obtain ⟨answer, lhs', rhs', ranRest, same, reset', resetRight'⟩ :=
            ih begun' begunRight' (by rw [rest]; omega)
          rw [rest, restRight] at same
          refine ⟨answer, lhs', rhs', ranRest, same.trans ?_, reset'.trans reset,
            resetRight'.trans resetRight⟩
          rw [List.cons_prefix_cons]
          exact (and_iff_right rfl).symm

/-- One buffer is found less where its octets are, or where they are the same and there are some. -/
theorem lessTurns_answers {turns : Nat} (firstTime : Bool) {lhs rhs : AsnBuf} (begun : lhs.Begun)
    (begunRight : rhs.Begun) (enough : lhs.unread.length < turns) :
    Answers (lessTurns turns firstTime lhs rhs) lhs rhs
      (lhs.unread < rhs.unread ∨
        lhs.unread = rhs.unread ∧ (firstTime = true → lhs.unread ≠ [])) := by
  induction turns generalizing firstTime lhs rhs with
  | zero => omega
  | succ turns ih =>
    obtain ⟨left, ran, rest, begun', reset⟩ := begun.bump
    obtain ⟨right, ranRight, restRight, begunRight', resetRight⟩ := begunRight.bump
    rw [lessTurns, ran, ranRight]
    dsimp only [Bind.bind, Except.bind]
    cases unread : lhs.unread with
    | nil =>
      cases unreadRight : rhs.unread with
      | nil =>
        refine ⟨!firstTime, left, right, rfl, ?_, reset, resetRight⟩
        cases firstTime <;> simp
      | cons ch2 others => exact ⟨true, left, right, rfl, by simp, reset, resetRight⟩
    | cons ch1 octets =>
      cases unreadRight : rhs.unread with
      | nil => exact ⟨false, left, right, rfl, by simp, reset, resetRight⟩
      | cons ch2 others =>
        simp only [List.head?_cons]
        by_cases above : ch2 < ch1
        · rw [if_pos above]
          refine ⟨false, left, right, rfl, ?_, reset, resetRight⟩
          rw [List.cons_lt_cons_iff, List.cons.injEq]
          refine iff_of_false (fun no => by cases no) ?_
          rintro ((below | ⟨rfl, -⟩) | ⟨⟨rfl, -⟩, -⟩)
          · exact UInt8.lt_asymm above below
          · exact UInt8.lt_irrefl _ above
          · exact UInt8.lt_irrefl _ above
        · rw [if_neg above]
          by_cases below : ch1 < ch2
          · rw [if_pos below]
            refine ⟨true, left, right, rfl, ?_, reset, resetRight⟩
            rw [List.cons_lt_cons_iff]
            exact iff_of_true rfl (.inl (.inl below))
          · -- The octets are equal, so that those behind them decide.
            rw [if_neg below]
            obtain rfl : ch1 = ch2 :=
              UInt8.le_antisymm (UInt8.not_lt.mp above) (UInt8.not_lt.mp below)
            rw [unread, List.tail_cons] at rest
            rw [unreadRight, List.tail_cons] at restRight
            rw [unread, List.length_cons] at enough
            obtain ⟨answer, lhs', rhs', ranRest, same, reset', resetRight'⟩ :=
              ih false begun' begunRight' (by rw [rest]; omega)
            rw [rest, restRight] at same
            refine ⟨answer, lhs', rhs', ranRest, same.trans ?_, reset'.trans reset,
              resetRight'.trans resetRight⟩
            rw [List.cons_lt_cons_iff, List.cons.injEq]
            simp [UInt8.lt_irrefl]

/-! ## Comparing bytes -/

/-- The operators answer for the octets of two buffers, and leave both reset. -/
structure ComparesBytes (lhs rhs : AsnBuf) : Prop where
  equal : ∃ equal, equalTo lhs rhs = .ok (equal, lhs.resetMode, rhs.resetMode) ∧
    (equal = true ↔ lhs.data = rhs.data)
  less : ∃ less, lessThan lhs rhs = .ok (less, lhs.resetMode, rhs.resetMode) ∧
    (less = true ↔ lhs.data < rhs.data)

theorem AsnBuf.begun_resetMode (b : AsnBuf) : b.resetMode.Begun :=
  b.resetMode_rewound.begun

theorem AsnBuf.unread_resetMode (b : AsnBuf) : b.resetMode.unread = b.data := by
  rw [b.resetMode_rewound.unread, b.data_resetMode]

theorem equalTo_eq (lhs rhs : AsnBuf) :
    ∃ equal, equalTo lhs rhs = .ok (equal, lhs.resetMode, rhs.resetMode) ∧
      (equal = true ↔ lhs.data <+: rhs.data) := by
  obtain ⟨equal, lhs', rhs', ran, answer, reset, resetRight⟩ :=
    equalTurns_answers lhs.begun_resetMode rhs.begun_resetMode (Nat.lt_succ_self _)
  rw [lhs.unread_resetMode, rhs.unread_resetMode] at answer
  refine ⟨equal, ?_, answer⟩
  rw [equalTo, ran]
  change Except.ok (equal, lhs'.resetMode, rhs'.resetMode) = _
  rw [reset, resetRight, AsnBuf.resetMode_resetMode, AsnBuf.resetMode_resetMode]

theorem lessThan_eq (lhs rhs : AsnBuf) :
    ∃ less, lessThan lhs rhs = .ok (less, lhs.resetMode, rhs.resetMode) ∧
      (less = true ↔ lhs.data < rhs.data ∨ lhs.data = rhs.data ∧ lhs.data ≠ []) := by
  obtain ⟨less, lhs', rhs', ran, answer, reset, resetRight⟩ :=
    lessTurns_answers true lhs.begun_resetMode rhs.begun_resetMode (Nat.lt_succ_self _)
  rw [lhs.unread_resetMode, rhs.unread_resetMode] at answer
  refine ⟨less, ?_, answer.trans (by simp)⟩
  rw [lessThan, ran]
  change Except.ok (less, lhs'.resetMode, rhs'.resetMode) = _
  rw [reset, resetRight, AsnBuf.resetMode_resetMode, AsnBuf.resetMode_resetMode]

/--
The operators answer for the octets exactly where those of the left buffer do not begin those of
the right one, or there are none.
-/
theorem comparesBytes_iff (lhs rhs : AsnBuf) :
    ComparesBytes lhs rhs ↔ (lhs.data <+: rhs.data → rhs.data = []) := by
  obtain ⟨equal, ranEqual, whenEqual⟩ := equalTo_eq lhs rhs
  obtain ⟨less, ranLess, whenLess⟩ := lessThan_eq lhs rhs
  constructor
  · rintro ⟨⟨equal', ran, answer⟩, less', ran', answer'⟩ begins
    cases (Prod.mk.inj (Except.ok.inj (ran.symm.trans ranEqual))).1
    cases (Prod.mk.inj (Except.ok.inj (ran'.symm.trans ranLess))).1
    -- The same octets are found equal and not less, so there are none.
    have same := answer.mp (whenEqual.mpr begins)
    by_contra some_octet
    have before := answer'.mp (whenLess.mpr (.inr ⟨same, same ▸ some_octet⟩))
    rw [same] at before
    exact List.lt_irrefl _ before
  · intro apart
    refine ⟨⟨equal, ranEqual, whenEqual.trans ⟨fun begins => ?_, fun same => ?_⟩⟩,
      less, ranLess, whenLess.trans ⟨fun either => ?_, .inl⟩⟩
    · have none := apart begins
      rw [none] at begins
      exact (List.prefix_nil.mp begins).trans none.symm
    · exact ⟨[], by rw [List.append_nil, same]⟩
    · rcases either with before | ⟨same, some_octet⟩
      · exact before
      · have begins : lhs.data <+: rhs.data := ⟨[], by rw [List.append_nil, same]⟩
        exact absurd (same.trans (apart begins)) some_octet

/-- A buffer without octets is found equal to one with an octet. -/
theorem not_comparesBytes : ¬ ∀ lhs rhs : AsnBuf, ComparesBytes lhs rhs := by
  intro all
  have compares := all .empty (.ofSeg [5])
  obtain ⟨equal, ran, answer⟩ := compares.equal
  obtain ⟨equal', ran', answer'⟩ := equalTo_eq .empty (.ofSeg [5])
  cases (Prod.mk.inj (Except.ok.inj (ran.symm.trans ran'))).1
  exact absurd (answer.mp (answer'.mpr (by decide))) (by decide)

end Esnacc.Cxx
