import Esnacc.Cxx.AsnBuf

/-! What each routine that reads from a deck of cards takes from the octets still to come. -/

namespace Esnacc.Cxx

open Lib

/-- The octets of some cards that are still to come. -/
def unreadOf (cards : List AsnRvsBuf) : List UInt8 :=
  cards.flatMap AsnRvsBuf.unread

/-- The octets of a buffer that are still to come. -/
@[grind =] def AsnBuf.unread (b : AsnBuf) : List UInt8 :=
  unreadOf b.ahead

@[simp] theorem unreadOf_nil : unreadOf [] = [] := rfl

@[simp] theorem unreadOf_cons (c : AsnRvsBuf) (cards : List AsnRvsBuf) :
    unreadOf (c :: cards) = c.unread ++ unreadOf cards := rfl

/-- Every card that is met on the way to a number of octets has data or was begun. -/
def Entered : List AsnRvsBuf → Nat → Prop
  | _, 0 => True
  | [], _ => True
  | c :: rest, n => c.Ready ∧ Entered rest (n - c.unread.length)

/-- The cards that are left after a read: the first one moved on, those behind it as they were. -/
structure Onward (cards cards' : List AsnRvsBuf) : Prop where
  reading : ∀ c' ∈ cards', c'.Reading
  kept : ∀ c' ∈ cards', ∃ c ∈ cards, c'.octets = c.octets ∧ (c.get ≠ none → c'.get ≠ none)
  behind : ∀ c' ∈ cards'.tail, ∃ c ∈ cards.tail, c'.unread = c.unread

theorem Onward.refl {cards : List AsnRvsBuf} (reading : ∀ c ∈ cards, c.Reading) :
    Onward cards cards where
  reading := reading
  kept := fun c listed => ⟨c, listed, rfl, id⟩
  behind := fun c listed => ⟨c, listed, rfl⟩

theorem Onward.cons {c : AsnRvsBuf} {rest cards' : List AsnRvsBuf} (onward : Onward rest cards') :
    Onward (c :: rest) cards' where
  reading := onward.reading
  kept := by
    intro c' listed
    obtain ⟨d, among, same⟩ := onward.kept c' listed
    exact ⟨d, List.mem_cons_of_mem c among, same⟩
  behind := by
    intro c' listed
    obtain ⟨d, among, same⟩ := onward.behind c' listed
    exact ⟨d, List.mem_of_mem_tail among, same⟩

/-- Moving on in the first card. -/
theorem Onward.head {c c' : AsnRvsBuf} {rest : List AsnRvsBuf} {unread : List UInt8}
    (at_ : c.At unread c') (reading : ∀ d ∈ rest, d.Reading) : Onward (c :: rest) (c' :: rest) where
  reading := by
    intro d listed
    rcases List.mem_cons.mp listed with rfl | listed
    · exact at_.reading
    · exact reading d listed
  kept := by
    intro d listed
    rcases List.mem_cons.mp listed with rfl | listed
    · exact ⟨c, List.mem_cons_self, at_.octets, fun _ => at_.begun⟩
    · exact ⟨d, List.mem_cons_of_mem c listed, rfl, id⟩
  behind := fun d listed => ⟨d, listed, rfl⟩

theorem Onward.trans {cards mid cards' : List AsnRvsBuf} (first : Onward cards mid)
    (second : Onward mid cards') : Onward cards cards' where
  reading := second.reading
  kept := by
    intro c' listed
    obtain ⟨d, among, octets', begun'⟩ := second.kept c' listed
    obtain ⟨c, there, octets, begun⟩ := first.kept d among
    exact ⟨c, there, octets'.trans octets, begun' ∘ begun⟩
  behind := by
    intro c' listed
    obtain ⟨d, among, same'⟩ := second.behind c' listed
    obtain ⟨c, there, same⟩ := first.behind d among
    exact ⟨c, there, same'.trans same⟩

theorem AsnRvsBuf.Ready.begun {c : AsnRvsBuf} (ready : c.Ready) (unread : c.unread = []) :
    c.get ≠ none := by
  rcases ready with begun | data
  · exact begun
  · intro fresh
    apply data
    rw [← unread, AsnRvsBuf.unread, fresh]

/-- The next octet of some cards is the first one still to come. -/
theorem bumpCards_spec {cards : List AsnRvsBuf} (reading : ∀ c ∈ cards, c.Reading)
    (entered : Entered cards 1) (passed : List AsnRvsBuf) :
    ∃ b', bumpCards passed cards = .ok ((unreadOf cards).head?, b') ∧
      b'.unread = (unreadOf cards).tail ∧ Onward cards b'.ahead := by
  -- The induction is on the cards; those without octets to come are passed.
  induction cards generalizing passed with
  | nil => exact ⟨⟨passed, []⟩, rfl, rfl, .refl reading⟩
  | cons c rest ih =>
    obtain ⟨ready, later⟩ := entered
    have here := reading c List.mem_cons_self
    have there : ∀ d ∈ rest, d.Reading := fun d listed => reading d (List.mem_cons_of_mem c listed)
    cases unread : c.unread with
    | nil =>
      have entered : Entered rest 1 := by
        simpa [unread] using later
      obtain ⟨b', ran, left, onward⟩ := ih there entered (passed ++ [c])
      refine ⟨b', ?_, ?_, onward.cons⟩
      · rw [bumpCards, AsnRvsBuf.sbumpc_nil here (ready.begun unread) unread, unreadOf_cons, unread]
        exact ran
      · rw [left, unreadOf_cons, unread]
        rfl
    | cons octet octets =>
      obtain ⟨c', ran, at_⟩ := AsnRvsBuf.sbumpc_cons here unread
      refine ⟨⟨passed, c' :: rest⟩, ?_, ?_, .head at_ there⟩
      · rw [bumpCards, ran, unreadOf_cons, unread]
        rfl
      · rw [AsnBuf.unread, unreadOf_cons, at_.unread, unreadOf_cons, unread]
        rfl

/-- The octets read from some cards are the first ones still to come, as far as there are any. -/
theorem segCards_spec {cards : List AsnRvsBuf} (reading : ∀ c ∈ cards, c.Reading) {n : Nat}
    (entered : Entered cards n) (passed : List AsnRvsBuf) :
    ∃ b', segCards passed cards n =
        .ok (((unreadOf cards).take n, n - (unreadOf cards).length), b') ∧
      b'.unread = (unreadOf cards).drop n ∧ Onward cards b'.ahead := by
  induction cards generalizing passed n with
  | nil =>
    refine ⟨⟨passed, []⟩, ?_, by simp [AsnBuf.unread], .refl reading⟩
    cases n with
    | zero => rfl
    | succ n => rfl
  | cons c rest ih =>
    cases n with
    | zero =>
      refine ⟨⟨passed, c :: rest⟩, ?_, rfl, .refl reading⟩
      rw [segCards, List.take_zero, Nat.zero_sub]
      rfl
    | succ n =>
      obtain ⟨ready, later⟩ := entered
      have here := reading c List.mem_cons_self
      have there : ∀ d ∈ rest, d.Reading :=
        fun d listed => reading d (List.mem_cons_of_mem c listed)
      obtain ⟨c', ran, at_⟩ := AsnRvsBuf.sgetn_ready here ready (Nat.succ_pos n)
      have turn : segCards passed (c :: rest) (n + 1) = (do
          let r ← c.sgetn (n + 1)
          if r.1.length = n + 1 then return ((r.1, 0), ⟨passed, r.2 :: rest⟩)
          else
            let t ← segCards (passed ++ [r.2]) rest (n + 1 - r.1.length)
            return ((r.1 ++ t.1.1, t.1.2), t.2)) := rfl
      rw [turn, ran]
      dsimp only [Bind.bind, Except.bind]
      by_cases enough : (c.unread.take (n + 1)).length = n + 1
      · -- The card has all the octets.
        have within : n + 1 ≤ c.unread.length := by
          rw [List.length_take] at enough
          omega
        rw [if_pos enough]
        refine ⟨⟨passed, c' :: rest⟩, ?_, ?_, .head at_ there⟩
        · rw [unreadOf_cons, List.take_append_of_le_length within, List.length_append,
            Nat.sub_eq_zero_of_le (by omega)]
          rfl
        · rw [AsnBuf.unread, unreadOf_cons, at_.unread, unreadOf_cons,
            List.drop_append_of_le_length within]
      · -- The card is used up, and the rest comes from the cards behind it.
        have short : c.unread.length ≤ n + 1 := by
          rw [List.length_take] at enough
          omega
        have all : c.unread.take (n + 1) = c.unread := List.take_of_length_le short
        rw [if_neg enough, all]
        obtain ⟨b', ranRest, left, onward⟩ := ih there later (passed ++ [c'])
        refine ⟨b', ?_, ?_, onward.cons⟩
        · rw [ranRest, unreadOf_cons, List.take_append, all, List.length_append]
          dsimp only
          rw [Nat.sub_sub]
          rfl
        · rw [left, unreadOf_cons, List.drop_append, List.drop_of_length_le short, List.nil_append]

/-- Skipping passes the first octets still to come, as far as there are any. -/
theorem skipCards_spec {cards : List AsnRvsBuf} (reading : ∀ c ∈ cards, c.Reading) (n : Nat)
    (passed : List AsnRvsBuf) :
    ∃ b', skipCards passed cards n = (n - (unreadOf cards).length, b') ∧
      b'.unread = (unreadOf cards).drop n ∧ Onward cards b'.ahead := by
  induction cards generalizing passed n with
  | nil =>
    refine ⟨⟨passed, []⟩, ?_, by simp [AsnBuf.unread], .refl reading⟩
    cases n <;> simp [skipCards]
  | cons c rest ih =>
    have here := reading c List.mem_cons_self
    have there : ∀ d ∈ rest, d.Reading :=
      fun d listed => reading d (List.mem_cons_of_mem c listed)
    by_cases none : n = 0
    · subst none
      exact ⟨⟨passed, c :: rest⟩, by simp [skipCards], rfl, .refl reading⟩
    · obtain ⟨mid, measured, at_⟩ := AsnRvsBuf.length_eq here
      rw [skipCards, measured]
      · dsimp only
        by_cases short : c.unread.length < n
        · -- The card is passed.
          rw [if_pos short, AsnRvsBuf.seekoff_end]
          obtain ⟨b', ran, left, onward⟩ := ih there (n - c.unread.length) (passed ++ [mid.setg 0])
          refine ⟨b', ?_, ?_, onward.cons⟩
          · rw [ran, unreadOf_cons, List.length_append, Nat.sub_sub]
          · have passes : c.unread.drop n = [] := List.drop_of_length_le (Nat.le_of_lt short)
            rw [left, unreadOf_cons, List.drop_append, passes, List.nil_append]
        · -- The skip ends inside the card.
          have within : n ≤ mid.unread.length := by
            rw [at_.unread]
            omega
          have split := (List.take_append_drop n mid.unread).symm
          have moved := at_.reading.setg_at split
          rw [if_neg short, AsnRvsBuf.seekoff_cur at_.reading within (.inl at_.begun)]
          have last : c.At (c.unread.drop n) (mid.setg (mid.unread.length - n)) := by
            rw [← at_.unread, ← List.length_drop]
            exact ⟨moved.reading, moved.begun, at_.octets, moved.unread⟩
          refine ⟨⟨passed, mid.setg (mid.unread.length - n) :: rest⟩, ?_, ?_, .head last there⟩
          · have nothing : n - (c.unread.length + (unreadOf rest).length) = 0 := by
              omega
            rw [unreadOf_cons, List.length_append, nothing]
          · rw [AsnBuf.unread, unreadOf_cons, last.unread, unreadOf_cons,
              List.drop_append_of_le_length (by omega)]
      · simpa using none

theorem toInt_posOf {n : Nat} (small : n < 2 ^ 31) : (posOf (some n)).toInt = n := by
  have word : (UInt64.ofNat n).toNat = n := by
    rw [UInt64.toNat_ofNat']
    omega
  rw [posOf, toInt_intOf_of_lt (by omega), word]

theorem ulongOf_posOf_sub {m n : Nat} (small : n < 2 ^ 31) (within : m ≤ n) :
    ulongOf (posOf (some n) - posOf (some m)) = UInt64.ofNat (n - m) := by
  have left := toInt_posOf small
  have right := toInt_posOf (Nat.lt_of_le_of_lt within small)
  have difference : (posOf (some n) - posOf (some m)).toInt = ((n - m : Nat) : Int) := by
    rw [Int32.toInt_sub, left, right]
    exact (Int.bmod_eq_of_le (by omega) (by omega)).trans (by omega)
  apply UInt64.toNat_inj.mp
  have wide := toNat_ulongOf_of_nonneg (i := posOf (some n) - posOf (some m)) (by omega)
  rw [UInt64.toNat_ofNat']
  omega

/-- A card that an `int` can measure is left where it was, with its place set. -/
theorem measure_spec {c : AsnRvsBuf} (reading : c.Reading) (small : c.octets.length < 2 ^ 31) :
    ∃ c', measure c = (UInt64.ofNat c.unread.length, c') ∧ c.At c.unread c' := by
  have within := reading.length_unread_le
  have current := AsnRvsBuf.seekoff_cur reading (n := 0) (Nat.zero_le _) (.inr rfl)
  simp only [Int.natCast_zero, Nat.sub_zero] at current
  have place := toInt_posOf (show c.octets.length - c.unread.length < 2 ^ 31 by omega)
  have found : posOf (some (c.octets.length - c.unread.length)) ≠ -1 := by
    intro absent
    rw [absent] at place
    have negative : (-1 : Int32).toInt = -1 := rfl
    omega
  have last : c.octets.length - (c.octets.length - c.unread.length) = c.unread.length := by
    omega
  have back := (c.setg 0).seekpos_natCast (Nat.sub_le c.octets.length c.unread.length)
  rw [AsnRvsBuf.octets_setg, AsnRvsBuf.setg_setg, last] at back
  refine ⟨c.setg c.unread.length, ?_, reading.setg_at (f := []) rfl⟩
  rw [measure, current]
  dsimp only
  rw [if_neg found, place, AsnRvsBuf.seekoff_end]
  dsimp only
  rw [AsnRvsBuf.setg_setg, back, AsnRvsBuf.octets_setg,
    ulongOf_posOf_sub small (Nat.sub_le _ _), last]

theorem exists_of_forall₂ {α β : Type} {r : α → β → Prop} {as : List α} {bs : List β}
    (each : List.Forall₂ r as bs) : ∀ b ∈ bs, ∃ a ∈ as, r a b := by
  induction each with
  | nil => simp
  | cons related _ ih =>
    intro b listed
    rcases List.mem_cons.mp listed with rfl | listed
    · exact ⟨_, List.mem_cons_self, related⟩
    · obtain ⟨a, among, there⟩ := ih b listed
      exact ⟨a, List.mem_cons_of_mem _ among, there⟩

/-- Cards of which each one stands where it stood are the cards left after reading nothing. -/
theorem Onward.of_forall₂ {cards cards' : List AsnRvsBuf}
    (each : List.Forall₂ (fun c c' => c.At c.unread c') cards cards') : Onward cards cards' where
  reading := by
    intro c' listed
    obtain ⟨c, -, at_⟩ := exists_of_forall₂ each _ listed
    exact at_.reading
  kept := by
    intro c' listed
    obtain ⟨c, among, at_⟩ := exists_of_forall₂ each _ listed
    exact ⟨c, among, at_.octets, fun _ => at_.begun⟩
  behind := by
    cases each with
    | nil => simp
    | cons _ rest =>
      intro c' listed
      obtain ⟨c, among, at_⟩ := exists_of_forall₂ rest _ listed
      exact ⟨c, among, at_.unread⟩

/-- Cards that an `int` can measure are measured, and each is left where it was. -/
theorem lengthCards_spec {cards : List AsnRvsBuf} (reading : ∀ c ∈ cards, c.Reading)
    (small : ∀ c ∈ cards, c.octets.length < 2 ^ 31) :
    ∃ cards', lengthCards cards = (UInt64.ofNat (unreadOf cards).length, cards') ∧
      unreadOf cards' = unreadOf cards ∧
      List.Forall₂ (fun c c' => c.At c.unread c') cards cards' := by
  induction cards with
  | nil => exact ⟨[], rfl, rfl, .nil⟩
  | cons c rest ih =>
    obtain ⟨c', measured, at_⟩ :=
      measure_spec (reading c List.mem_cons_self) (small c List.mem_cons_self)
    obtain ⟨rest', ran, same, each⟩ := ih
      (fun d listed => reading d (List.mem_cons_of_mem c listed))
      fun d listed => small d (List.mem_cons_of_mem c listed)
    refine ⟨c' :: rest', ?_, ?_, .cons at_ each⟩
    · rw [lengthCards, measured, ran, unreadOf_cons, List.length_append, UInt64.ofNat_add]
    · rw [unreadOf_cons, unreadOf_cons, at_.unread, same]

/-! ## The routines -/

/-- The cards still to come are only read. -/
def AsnBuf.Reading (b : AsnBuf) : Prop :=
  ∀ c ∈ b.ahead, c.Reading

/-- A routine ends in a given way, and in a buffer with the given octets still to come. -/
@[grind =] def Acts {α : Type} (x : BufM α) (b : AsnBuf) (result : Except Thrown α × List UInt8) : Prop :=
  ∃ b', x.run b = (match result.1 with
      | .ok r => .ok r b'
      | .error thrown => .error thrown b') ∧
    b'.unread = result.2 ∧ Onward b.ahead b'.ahead

theorem getByteNoEx_acts {b : AsnBuf} (reading : b.Reading) (entered : Entered b.ahead 1) :
    Acts getByteNoEx b (.ok b.unread.head?, b.unread.tail) := by
  obtain ⟨b', ran, left, onward⟩ := bumpCards_spec reading entered b.passed
  exact ⟨b', run_onBuf_of_ok ran, left, onward⟩

/-- The octet that comes next in flat octets, or the exception at their end. -/
def flatGetByte : List UInt8 → Except Thrown UInt8 × List UInt8
  | [] => (.error pastEnd, [])
  | octet :: rest => (.ok octet, rest)

theorem getByte_acts {b : AsnBuf} (reading : b.Reading) (entered : Entered b.ahead 1) :
    Acts getByte b (flatGetByte b.unread) := by
  obtain ⟨b', ran, left, onward⟩ := getByteNoEx_acts reading entered
  refine ⟨b', ?_, ?_, onward⟩
  · rw [getByte, run_bind_of_ok ran]
    cases b.unread <;> rfl
  · rw [left]
    cases b.unread <;> rfl

/-- The first octets of flat octets, or the exception where there are too few. -/
@[grind =] def flatGetSeg (rest : List UInt8) (n : Nat) : Except Thrown (List UInt8) × List UInt8 :=
  if rest.length < n then (.error pastEnd, []) else (.ok (rest.take n), rest.drop n)

theorem getSeg_acts {b : AsnBuf} (reading : b.Reading) {segLen : Int64}
    (entered : Entered b.ahead segLen.toInt.toNat) :
    Acts (getSeg segLen) b (flatGetSeg b.unread segLen.toInt.toNat) := by
  obtain ⟨b', ran, left, onward⟩ := segCards_spec reading entered b.passed
  have segs : (onBuf fun b => segCards b.passed b.ahead segLen.toInt.toNat).run b =
      .ok (b.unread.take segLen.toInt.toNat, segLen.toInt.toNat - b.unread.length) b' :=
    run_onBuf_of_ok ran
  refine ⟨b', ?_, ?_, onward⟩
  · rw [getSeg, run_bind_of_ok segs, flatGetSeg]
    dsimp only
    by_cases short : b.unread.length < segLen.toInt.toNat
    · rw [if_pos (by omega), if_pos short]
      rfl
    · rw [if_neg (by omega), if_neg short]
      rfl
  · rw [flatGetSeg, left]
    by_cases short : b.unread.length < segLen.toInt.toNat
    · rw [if_pos short]
      exact List.drop_of_length_le (Nat.le_of_lt short)
    · rw [if_neg short]
      rfl

/-- Skipping flat octets, or the exception where there are too few. -/
def flatSkip (rest : List UInt8) (n : Nat) : Except Thrown Unit × List UInt8 :=
  if rest.length < n then (.error (bufferException "Skipped past end of buffer"), [])
  else (.ok (), rest.drop n)

theorem skip_acts {b : AsnBuf} (reading : b.Reading) (n : Nat) :
    Acts (skip n) b (flatSkip b.unread n) := by
  obtain ⟨b', ran, left, onward⟩ := skipCards_spec reading n b.passed
  have skips : (onBuf fun b => .ok (skipCards b.passed b.ahead n)).run b =
      .ok (n - b.unread.length) b' :=
    run_onBuf_of_ok (congrArg Except.ok ran)
  refine ⟨b', ?_, ?_, onward⟩
  · rw [skip, run_bind_of_ok skips, flatSkip]
    by_cases short : b.unread.length < n
    · rw [if_pos (by omega), if_pos short]
      rfl
    · rw [if_neg (by omega), if_neg short]
      rfl
  · rw [flatSkip, left]
    by_cases short : b.unread.length < n
    · rw [if_pos short]
      exact List.drop_of_length_le (Nat.le_of_lt short)
    · rw [if_neg short]
      rfl

/-- Cards that an `int` can measure. -/
def Small (cards : List AsnRvsBuf) : Prop :=
  ∀ c ∈ cards, c.octets.length < 2 ^ 31

theorem length_acts {b : AsnBuf} (reading : b.Reading) (small : Small b.ahead) :
    ∃ b', length.run b = .ok (UInt64.ofNat b.unread.length) b' ∧ b'.unread = b.unread ∧
      Onward b.ahead b'.ahead ∧ ∀ c ∈ b'.ahead, c.get ≠ none := by
  obtain ⟨cards, ran, same, each⟩ := lengthCards_spec reading small
  refine ⟨{ b with ahead := cards }, ?_, same, .of_forall₂ each, ?_⟩
  · rw [length, run_bind_of_ok (EStateM.run_get b), ran]
    rfl
  · intro c listed
    obtain ⟨_, _, at_⟩ := exists_of_forall₂ each c listed
    exact at_.begun

theorem entered_of_begun {cards : List AsnRvsBuf} (begun : ∀ c ∈ cards, c.get ≠ none) (n : Nat) :
    Entered cards n := by
  induction cards generalizing n with
  | nil => cases n <;> trivial
  | cons c rest ih =>
    cases n with
    | zero => trivial
    | succ n =>
      exact ⟨.inl (begun c List.mem_cons_self),
        ih (fun d listed => begun d (List.mem_cons_of_mem c listed)) _⟩

theorem Onward.begun {cards cards' : List AsnRvsBuf} (onward : Onward cards cards')
    (begun : ∀ c ∈ cards, c.get ≠ none) : ∀ c ∈ cards', c.get ≠ none := by
  intro c' listed
  obtain ⟨c, among, -, still⟩ := onward.kept c' listed
  exact still (begun c among)

theorem getBytes_acts {b : AsnBuf} (reading : b.Reading) (begun : ∀ c ∈ b.ahead, c.get ≠ none)
    (n : Nat) : Acts (getBytes n) b (flatGetSeg b.unread n) := by
  induction n generalizing b with
  | zero => exact ⟨b, rfl, rfl, .refl reading⟩
  | succ n ih =>
    obtain ⟨mid, ran, left, onward⟩ := getByte_acts reading (entered_of_begun begun 1)
    cases unread : b.unread with
    | nil =>
      rw [unread] at ran left
      refine ⟨mid, ?_, left, onward⟩
      rw [getBytes, EStateM.run_bind, ran]
      rfl
    | cons octet rest =>
      rw [unread] at ran left
      obtain ⟨b', later, last, onward'⟩ := ih onward.reading (onward.begun begun)
      have tail : mid.unread = rest := left
      rw [tail] at later last
      refine ⟨b', ?_, ?_, onward.trans onward'⟩
      · rw [getBytes, run_bind_of_ok ran, EStateM.run_bind, later]
        simp only [flatGetSeg, List.length_cons, Nat.add_lt_add_iff_right]
        by_cases short : rest.length < n
        · simp only [if_pos short]
        · simp only [if_neg short]
          rfl
      · rw [last]
        simp only [flatGetSeg, List.length_cons, Nat.add_lt_add_iff_right]
        by_cases short : rest.length < n
        · simp only [if_pos short]
        · simp only [if_neg short]
          rfl

/-- The first octets of flat octets, all of them for the number 0. -/
def flatGetSegStr (rest : List UInt8) (segLen : Int64) :
    Except Thrown (List UInt8) × List UInt8 :=
  let all := UInt64.ofNat rest.length
  let segLen := if segLen = 0 then all.toInt64 else segLen
  if all < segLen.toUInt64 then
    (.error (bufferException "GetSeg attempt to read past end of data"), rest)
  else flatGetSeg rest segLen.toInt.toNat

theorem Onward.small {cards cards' : List AsnRvsBuf} (onward : Onward cards cards')
    (small : Small cards) : Small cards' := by
  intro c' listed
  obtain ⟨c, among, same, -⟩ := onward.kept c' listed
  rw [same]
  exact small c among

theorem getSegStr_acts {b : AsnBuf} (reading : b.Reading) (small : Small b.ahead)
    (segLen : Int64) : Acts (getSegStr segLen) b (flatGetSegStr b.unread segLen) := by
  -- Where the number is 0, the length is measured once more.
  have asked : ∃ mid, (if segLen = 0 then (do return (← length).toInt64) else return segLen :
        BufM Int64).run b =
        .ok (if segLen = 0 then (UInt64.ofNat b.unread.length).toInt64 else segLen) mid ∧
      mid.unread = b.unread ∧ Onward b.ahead mid.ahead := by
    by_cases zero : segLen = 0
    · obtain ⟨mid, ran, left, onward, -⟩ := length_acts reading small
      refine ⟨mid, ?_, left, onward⟩
      rw [if_pos zero, if_pos zero, run_bind_of_ok ran]
      rfl
    · refine ⟨b, ?_, rfl, .refl reading⟩
      rw [if_neg zero, if_neg zero]
      rfl
  obtain ⟨mid, ran, left, onward⟩ := asked
  obtain ⟨b', ranLength, same, onward', begun⟩ :=
    length_acts onward.reading (onward.small small)
  rw [left] at ranLength same
  rw [flatGetSegStr]
  by_cases more : UInt64.ofNat b.unread.length <
      (if segLen = 0 then (UInt64.ofNat b.unread.length).toInt64 else segLen).toUInt64
  · rw [if_pos more]
    refine ⟨b', ?_, same, onward.trans onward'⟩
    rw [getSegStr, run_bind_of_ok ran, run_bind_of_ok ranLength, if_pos more]
    rfl
  · rw [if_neg more]
    obtain ⟨last, ranBytes, rest, onward''⟩ := getBytes_acts onward'.reading begun
      (if segLen = 0 then (UInt64.ofNat b.unread.length).toInt64 else segLen).toInt.toNat
    rw [same] at ranBytes rest
    refine ⟨last, ?_, rest, (onward.trans onward').trans onward''⟩
    rw [getSegStr, run_bind_of_ok ran, run_bind_of_ok ranLength, if_neg more, ranBytes]

/-- The octet that comes next in flat octets, which is left there. -/
def flatPeekByte : List UInt8 → Except Thrown UInt8 × List UInt8
  | [] => (.error pastEnd, [])
  | octet :: rest => (.ok octet, octet :: rest)

/-- The card that is current has octets, or the next one has, or no octets are to come at all. -/
def Peekable : List AsnRvsBuf → Prop
  | [] => True
  | c :: rest =>
    c.Ready ∧ (c.unread = [] →
      match rest with
      | [] => True
      | d :: _ => d.Ready ∧ (d.unread = [] → unreadOf rest = []))

theorem peekByte_acts {b : AsnBuf} (reading : b.Reading) (peekable : Peekable b.ahead) :
    Acts peekByte b (flatPeekByte b.unread) := by
  rw [AsnBuf.unread]
  cases ahead : b.ahead with
  | nil =>
    refine ⟨b, ?_, by simp [AsnBuf.unread, ahead, flatPeekByte], .refl reading⟩
    rw [peekByte, run_bind_of_ok (EStateM.run_get b), ahead]
    rfl
  | cons c rest =>
    rw [ahead] at peekable
    obtain ⟨ready, next⟩ := peekable
    have here : c.Reading := reading c (ahead ▸ List.mem_cons_self)
    have there : ∀ d ∈ rest, d.Reading :=
      fun d listed => reading d (ahead ▸ List.mem_cons_of_mem c listed)
    cases unread : c.unread with
    | cons octet octets =>
      obtain ⟨c', ran, at_⟩ := AsnRvsBuf.sgetc_cons here unread
      refine ⟨{ b with ahead := c' :: rest }, ?_, ?_, ?_⟩
      · rw [peekByte, run_bind_of_ok (EStateM.run_get b), ahead]
        dsimp only
        rw [ran, unreadOf_cons, unread]
        rfl
      · simp [AsnBuf.unread, at_.unread, unread, flatPeekByte]
      · rw [ahead]
        exact .head at_ there
    | nil =>
      have ended := AsnRvsBuf.sgetc_nil here (ready.begun unread) unread
      have follows := next unread
      rw [unreadOf_cons, unread, List.nil_append]
      cases rest with
      | nil =>
        refine ⟨⟨b.passed ++ [c], []⟩, ?_, rfl, ?_⟩
        · rw [peekByte, run_bind_of_ok (EStateM.run_get b), ahead]
          dsimp only
          rw [ended]
          rfl
        · rw [ahead]
          exact .cons (.refl there)
      | cons d rest =>
        obtain ⟨readyNext, none⟩ := follows
        have readingNext := there d List.mem_cons_self
        have behind : ∀ e ∈ rest, e.Reading :=
          fun e listed => there e (List.mem_cons_of_mem d listed)
        cases unreadNext : d.unread with
        | cons octet octets =>
          obtain ⟨d', ran, at_⟩ := AsnRvsBuf.sgetc_cons readingNext unreadNext
          refine ⟨⟨b.passed ++ [c], d' :: rest⟩, ?_, ?_, ?_⟩
          · rw [peekByte, run_bind_of_ok (EStateM.run_get b), ahead]
            dsimp only
            rw [ended]
            change EStateM.run (ofExcept d.sgetc >>= _) _ = _
            rw [ran, unreadOf_cons, unreadNext]
            rfl
          · simp [AsnBuf.unread, at_.unread, unreadNext, flatPeekByte]
          · rw [ahead]
            exact .cons (.head at_ behind)
        | nil =>
          -- No octets follow at all, so that the exception is the right answer.
          have endedNext :=
            AsnRvsBuf.sgetc_nil readingNext (readyNext.begun unreadNext) unreadNext
          have nothing := none unreadNext
          rw [nothing]
          refine ⟨⟨b.passed ++ [c], d :: rest⟩, ?_, nothing, ?_⟩
          · rw [peekByte, run_bind_of_ok (EStateM.run_get b), ahead]
            dsimp only
            rw [ended]
            change EStateM.run (ofExcept d.sgetc >>= _) _ = _
            rw [endedNext]
            rfl
          · rw [ahead]
            exact .cons (.refl there)

end Esnacc.Cxx
