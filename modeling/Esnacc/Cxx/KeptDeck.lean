import Esnacc.Cxx.BerHeader
import Esnacc.Cxx.CardOctets
import Esnacc.Cxx.Contents
import Esnacc.Cxx.SoundReads

/-! Reading keeps the octets of all cards, so that a buffer can go back to where it was read from. -/

namespace Esnacc.Cxx

open Lib

/-! ## Reading -/

/-- The cards of a buffer hold given octets, whether they are passed or not. -/
def AsnBuf.Holds (data : List (List UInt8)) (b : AsnBuf) : Prop :=
  b.deck.map AsnRvsBuf.octets = data

section

variable {data : List (List UInt8)}

theorem keeps_onBuf {α : Type} {f : AsnBuf → Except Thrown (α × AsnBuf)}
    (same : ∀ b r b', f b = .ok (r, b') →
      b'.deck.map AsnRvsBuf.octets = b.deck.map AsnRvsBuf.octets) :
    Keeps (AsnBuf.Holds data) (onBuf f) := by
  intro b holds
  change AsnBuf.Holds data (lastState (onBuf f b))
  rw [onBuf]
  cases result : f b with
  | error thrown => exact holds
  | ok next => exact (same b next.1 next.2 result).trans holds

theorem keeps_getByte : Keeps (AsnBuf.Holds data) getByte := by
  refine (keeps_onBuf fun b r b' ran => bumpCards_octets ran).bind fun octet => ?_
  cases octet with
  | none => exact .throw pastEnd
  | some octet => exact .pure octet

theorem keeps_getSeg (segLen : Int64) : Keeps (AsnBuf.Holds data) (getSeg segLen) := by
  refine (keeps_onBuf fun b r b' ran => segCards_octets ran).bind fun read => ?_
  exact .ite (.throw pastEnd) (.pure read.1)

theorem keeps_length : Keeps (AsnBuf.Holds data) length := by
  intro b holds
  change ({ b with ahead := (lengthCards b.ahead).2 } : AsnBuf).deck.map AsnRvsBuf.octets = data
  rw [AsnBuf.deck, List.map_append, lengthCards_octets, ← List.map_append]
  exact holds

theorem keeps_getNewSeg (segLen : Int64) : Keeps (AsnBuf.Holds data) (getNewSeg segLen) := by
  intro b holds
  change AsnBuf.Holds data (lastState (getNewSeg segLen b))
  rw [getNewSeg]
  by_cases negative : segLen < 0
  · rw [if_pos negative]
    exact holds
  · rw [if_neg negative]
    have read := keeps_getSeg segLen holds
    -- Where the data end, the array is given up and the reading stays where it ended.
    cases ran : (getSeg segLen).run b with
    | ok seg b' =>
      rw [ran] at read
      exact read
    | error thrown b' =>
      rw [ran] at read
      dsimp only
      by_cases ends : thrown = pastEnd
      · rw [if_pos ends]
        exact read
      · rw [if_neg ends]
        exact read

theorem keeps_moreTag (left : Nat) (tagId : AsnTag) (n : AsnLen) :
    Keeps (AsnBuf.Holds data) (moreTag left tagId n) := by
  induction left generalizing tagId n with
  | zero => exact .throw _
  | succ left ih => exact keeps_getByte.bind fun _ => .ite (ih _ _) (.pure _)

theorem keeps_bDecTag (n : AsnLen) : Keeps (AsnBuf.Holds data) (bDecTag n) :=
  keeps_getByte.bind fun _ => .ite (keeps_moreTag 3 _ _) (.pure _)

theorem keeps_lenOctets (lenBytes : Nat) (len : AsnLen) :
    Keeps (AsnBuf.Holds data) (lenOctets lenBytes len) := by
  induction lenBytes generalizing len with
  | zero => exact .pure len
  | succ lenBytes ih => exact keeps_getByte.bind fun _ => ih _

theorem keeps_bDecLen (n : AsnLen) : Keeps (AsnBuf.Holds data) (bDecLen n) :=
  keeps_getByte.bind fun _ => .ite (.pure _) (.ite (.pure _) (.ite (.throw _)
    ((keeps_lenOctets _ _).bind fun _ => .pure _)))

theorem keeps_fillTurn (baseTag : AsnTag) (st : Collector) (node : RefNode) :
    Keeps (AsnBuf.Holds data) (fillTurn baseTag st node) := by
  refine (keeps_bDecTag _).bind fun _ => .ite ?_ (.ite ?_ (.ite ?_ (.throw _)))
  · exact keeps_getByte.bind fun _ => .ite (.pure _) (.throw _)
  · refine (keeps_bDecLen _).bind fun _ => .ite (.throw _) (keeps_length.bind fun _ => ?_)
    exact .ite (.throw _) ((keeps_getNewSeg _).bind fun _ => .pure _)
  · exact (keeps_bDecLen _).bind fun _ => .ite (.throw _) (.pure _)

theorem keeps_fillTurns (baseTag : AsnTag) (turns : Nat) (st : Collector) :
    Keeps (AsnBuf.Holds data) (fillTurns baseTag turns st) := by
  induction turns generalizing st with
  | zero => exact .throw _
  | succ turns ih =>
    have turn : Keeps (AsnBuf.Holds data) (nextTurn baseTag st) := by
      rw [nextTurn]
      cases st.refList[st.curr]? with
      | none => exact .pure _
      | some node => exact .ite (keeps_fillTurn baseTag st node) (.pure _)
    refine turn.bind fun _ => .ite ?_ (ih _)
    exact .ite (.pure _) (ih _)

theorem keeps_fill (turns : Nat) (baseTag : AsnTag) (elmtLen n : AsnLen) :
    Keeps (AsnBuf.Holds data) (fill turns baseTag elmtLen n) :=
  (keeps_fillTurns baseTag turns _).bind fun _ => .pure _

theorem keeps_catching {α : Type} {x : BufM α} (keeps : Keeps (AsnBuf.Holds data) x)
    (text : String) : Keeps (AsnBuf.Holds data) (catching x text) := by
  intro b holds
  change AsnBuf.Holds data (lastState (catching x text b))
  have last := keeps holds
  rw [catching]
  cases ran : x.run b with
  | ok r b' =>
    rw [ran] at last
    exact last
  | error thrown b' =>
    rw [ran] at last
    dsimp only
    by_cases other : thrown = .fault ∨ thrown = .outOfTurns
    · rw [if_pos other]
      exact last
    · rw [if_neg other]
      exact last

theorem keeps_grabLen (turns : Nat) (len : AsnLen) :
    Keeps (AsnBuf.Holds data) (grabLen turns len) :=
  .ite ((keeps_catching (keeps_fill turns 0 len 0) _).bind fun _ => .pure _)
    (keeps_length.bind fun _ => .ite (.throw _) (.pure _))

end

/-! ## Going back -/

/-- No card behind the one that is read has been read from. -/
def AsnBuf.InOrder (b : AsnBuf) : Prop :=
  ∀ c ∈ b.ahead.tail, c.unread = c.octets

theorem AsnRvsBuf.seekpos_zero_at (c : AsnRvsBuf) : c.At c.octets (c.seekpos 0).2 := by
  have start := c.setg_at (Nat.le_refl c.octets.length)
  rwa [Nat.sub_self, List.drop_zero, ← c.seekpos_zero] at start

/-- Cards that hold the octets of others and are set to their start. -/
theorem unreadOf_reset {cards cards' : List AsnRvsBuf}
    (same : cards'.map AsnRvsBuf.octets = cards.map AsnRvsBuf.octets)
    (whole : ∀ c ∈ cards, c.unread = c.octets) :
    unreadOf (cards'.map fun c => (c.seekpos 0).2) = unreadOf cards := by
  rw [unreadOf, unreadOf, List.flatMap_map]
  have start : ∀ c : AsnRvsBuf, (c.seekpos 0).2.unread = c.octets := fun c =>
    c.seekpos_zero_at.unread
  have flat : ∀ cards : List AsnRvsBuf, cards.flatMap AsnRvsBuf.octets =
      (cards.map AsnRvsBuf.octets).flatten := fun cards => List.flatMap_def
  simp only [start]
  rw [flat, same, ← flat]
  exact (List.flatMap_congr whole).symm

section

variable {b : AsnBuf} {c : AsnRvsBuf} {behind : List AsnRvsBuf}

/-- The place that is read from is found, and all octets are still to come. -/
theorem getReadLoc_acts (sound : b.Sound) (ahead : b.ahead = c :: behind) :
    Acts getReadLoc b
      (.ok ⟨b.passed.length, c.octets.length - c.unread.length⟩, b.unread) := by
  have reading : c.Reading := sound.reading c (by simp [ahead])
  have current := AsnRvsBuf.seekoff_cur reading (n := 0) (Nat.zero_le _) (.inr rfl)
  simp only [Int.natCast_zero, Nat.sub_zero] at current
  have at_ : c.At c.unread (c.setg c.unread.length) := reading.setg_at (f := []) rfl
  refine ⟨{ b with ahead := c.setg c.unread.length :: behind }, ?_, ?_, ?_⟩
  · rw [getReadLoc, run_bind_of_ok (EStateM.run_get b), ahead]
    simp only [current]
    rfl
  · rw [AsnBuf.unread, AsnBuf.unread, ahead, unreadOf_cons, unreadOf_cons, at_.unread]
  · rw [ahead]
    exact .head at_ fun d listed => sound.reading d (by simp [ahead, listed])

theorem keeps_getReadLoc {data : List (List UInt8)} : Keeps (AsnBuf.Holds data) getReadLoc := by
  intro b holds
  rw [getReadLoc, run_bind_of_ok (EStateM.run_get b)]
  cases ahead : b.ahead with
  | nil => exact holds
  | cons c rest =>
    change ({ b with ahead := (c.seekoff 0 .cur).2 :: rest } : AsnBuf).deck.map
      AsnRvsBuf.octets = data
    rw [AsnBuf.Holds, AsnBuf.deck, ahead] at holds
    simpa [AsnBuf.deck, AsnRvsBuf.seekoff_octets] using holds

/-- From a buffer that holds the same octets, reading goes back to the place it was at. -/
theorem setReadLoc_spec (sound : b.Sound) (ahead : b.ahead = c :: behind) (inOrder : b.InOrder)
    {b' : AsnBuf} (holds : b'.Holds (b.deck.map AsnRvsBuf.octets)) :
    ∃ b'', (setReadLoc ⟨b.passed.length, c.octets.length - c.unread.length⟩).run b' =
      .ok () b'' ∧ b''.unread = b.unread ∧ b''.Sound := by
  have reading : c.Reading := sound.reading c (by simp [ahead])
  -- The cards from the current one on are found at the same place of the deck.
  have tails : (b'.deck.drop b.passed.length).map AsnRvsBuf.octets =
      (c :: behind).map AsnRvsBuf.octets := by
    rw [List.map_drop, show b'.deck.map AsnRvsBuf.octets = b.deck.map AsnRvsBuf.octets from holds,
      ← List.map_drop, AsnBuf.deck, ahead, List.drop_left]
  obtain ⟨c', behind', cards, octets, others⟩ : ∃ c' behind',
      b'.deck.drop b.passed.length = c' :: behind' ∧ c'.octets = c.octets ∧
        behind'.map AsnRvsBuf.octets = behind.map AsnRvsBuf.octets := by
    cases cards : b'.deck.drop b.passed.length with
    | nil =>
      rw [cards] at tails
      cases tails
    | cons c' behind' =>
      rw [cards] at tails
      exact ⟨c', behind', rfl, (List.cons.inj tails).1, (List.cons.inj tails).2⟩
  have sizes : b.passed.length < b'.deck.length := by
    have some := congrArg List.length cards
    rw [List.length_drop, List.length_cons] at some
    omega
  have within := reading.length_unread_le
  have place : ((c'.seekpos 0).2.seekpos
      ((c.octets.length - c.unread.length : Nat) : Int)).2 = c'.setg c.unread.length := by
    rw [AsnRvsBuf.seekpos_zero, AsnRvsBuf.seekpos_natCast _ (by
      rw [AsnRvsBuf.octets_setg, octets]
      omega), AsnRvsBuf.octets_setg, AsnRvsBuf.setg_setg, octets, Nat.sub_sub_self within]
  have at_ : c'.At c.unread (c'.setg c.unread.length) := by
    have moved := c'.setg_at (octets ▸ within)
    have stays : (c.setg c.unread.length).unread = c.unread := (reading.setg_at (f := []) rfl).unread
    have same := (c.setg_at within).unread
    rw [stays] at same
    rwa [octets, ← same] at moved
  have found : b'.resetMode.deck.drop b.passed.length =
      (c'.seekpos 0).2 :: behind'.map fun d => (d.seekpos 0).2 := by
    rw [AsnBuf.resetMode, AsnBuf.deck, List.nil_append, ← List.map_drop, cards, List.map_cons]
  have again : (AsnBuf.mk (b'.resetMode.deck.take b.passed.length)
      (c'.setg c.unread.length :: behind'.map fun d => (d.seekpos 0).2)).unread = b.unread := by
    rw [AsnBuf.unread, AsnBuf.unread, ahead, unreadOf_cons, unreadOf_cons, at_.unread,
      unreadOf_reset others fun d listed => inOrder d (by rw [ahead]; exact listed)]
  refine ⟨⟨b'.resetMode.deck.take b.passed.length,
    c'.setg c.unread.length :: behind'.map fun d => (d.seekpos 0).2⟩, ?_, again, ?_⟩
  · rw [setReadLoc, run_bind_of_ok (EStateM.run_get b')]
    rw [if_neg (by dsimp only; omega)]
    dsimp only
    rw [found]
    dsimp only
    rw [place]
    rfl
  · -- Every card was set to a place, and holds what a card of the first buffer holds.
    have each : ∀ e ∈ c'.setg c.unread.length :: behind'.map fun d => (d.seekpos 0).2,
        e.Reading ∧ e.get ≠ none ∧ e.octets.length < 2 ^ 31 := by
      intro e listed
      rcases List.mem_cons.mp listed with rfl | listed
      · have small := sound.small c (by simp [ahead])
        exact ⟨at_.reading, at_.begun, by rw [at_.octets, octets]; exact small⟩
      · obtain ⟨d, among, rfl⟩ := List.mem_map.mp listed
        have start := d.seekpos_zero_at
        have known : d.octets ∈ behind.map AsnRvsBuf.octets := by
          rw [← others]
          exact List.mem_map_of_mem among
        obtain ⟨f, there, same⟩ := List.mem_map.mp known
        have small := sound.small f (by simp [ahead, there])
        exact ⟨start.reading, start.begun, by rw [start.octets, ← same]; exact small⟩
    exact ⟨fun e listed => (each e listed).1, fun e listed => .inl (each e listed).2.1,
      fun e listed => (each e listed).2.2, by rw [again]; exact sound.fits⟩

end

/-! ## Routines that read on -/

/-- A routine reads on through the cards and keeps their octets. -/
structure KeepsDeck {α : Type} (x : BufM α) : Prop where
  inOrder : Keeps AsnBuf.InOrder x
  holds : ∀ data, Keeps (AsnBuf.Holds data) x

namespace KeepsDeck

variable {α γ : Type}

theorem pure (r : α) : KeepsDeck (Pure.pure r : BufM α) :=
  ⟨.pure r, fun _ => .pure r⟩

theorem throw (thrown : Thrown) : KeepsDeck (MonadExcept.throw thrown : BufM α) :=
  ⟨.throw thrown, fun _ => .throw thrown⟩

theorem bind {x : BufM α} {f : α → BufM γ} (first : KeepsDeck x) (later : ∀ a, KeepsDeck (f a)) :
    KeepsDeck (x >>= f) :=
  ⟨first.inOrder.bind fun a => (later a).inOrder,
    fun data => (first.holds data).bind fun a => (later a).holds data⟩

theorem ite {c : Prop} [Decidable c] {x y : BufM α} (pos : KeepsDeck x) (neg : KeepsDeck y) :
    KeepsDeck (if c then x else y) :=
  ⟨.ite pos.inOrder neg.inOrder, fun data => .ite (pos.holds data) (neg.holds data)⟩

end KeepsDeck

/-- The cards behind the current one are some of those that were. -/
theorem bumpCards_behind {passed cards : List AsnRvsBuf} {answer : Option UInt8} {b : AsnBuf}
    (ran : bumpCards passed cards = .ok (answer, b)) : ∀ c ∈ b.ahead.tail, c ∈ cards.tail := by
  induction cards generalizing passed with
  | nil =>
    cases ran
    simp
  | cons c rest ih =>
    rw [bumpCards] at ran
    cases bumped : c.sbumpc with
    | error thrown =>
      rw [bumped] at ran
      cases ran
    | ok next =>
      obtain ⟨octet, d⟩ := next
      rw [bumped] at ran
      cases octet with
      | none => exact fun e isIn => List.mem_of_mem_tail (ih ran e isIn)
      | some octet =>
        cases ran
        exact fun e isIn => isIn

theorem keepsDeck_getByte : KeepsDeck getByte where
  inOrder := by
    have bump : Keeps AsnBuf.InOrder getByteNoEx := by
      intro b inOrder
      change AsnBuf.InOrder (lastState (onBuf (fun b => bumpCards b.passed b.ahead) b))
      rw [onBuf]
      cases ran : bumpCards b.passed b.ahead with
      | error thrown => exact inOrder
      | ok next => exact fun c isIn => inOrder c (bumpCards_behind ran c isIn)
    refine bump.bind fun octet => ?_
    cases octet with
    | none => exact .throw pastEnd
    | some octet => exact .pure octet
  holds _ := keeps_getByte

theorem keepsDeck_moreTag (left : Nat) (tagId : AsnTag) (n : AsnLen) :
    KeepsDeck (moreTag left tagId n) := by
  induction left generalizing tagId n with
  | zero => exact .throw _
  | succ left ih => exact keepsDeck_getByte.bind fun _ => .ite (ih _ _) (.pure _)

theorem keepsDeck_bDecTag (n : AsnLen) : KeepsDeck (bDecTag n) :=
  keepsDeck_getByte.bind fun _ => .ite (keepsDeck_moreTag 3 _ _) (.pure _)

theorem keepsDeck_lenOctets (lenBytes : Nat) (len : AsnLen) :
    KeepsDeck (lenOctets lenBytes len) := by
  induction lenBytes generalizing len with
  | zero => exact .pure len
  | succ lenBytes ih => exact keepsDeck_getByte.bind fun _ => ih _

theorem keepsDeck_bDecLen (n : AsnLen) : KeepsDeck (bDecLen n) :=
  keepsDeck_getByte.bind fun _ => .ite (.pure _) (.ite (.pure _) (.ite (.throw _)
    ((keepsDeck_lenOctets _ _).bind fun _ => .pure _)))

theorem keepsDeck_bDecEoc (n : AsnLen) : KeepsDeck (bDecEoc n) :=
  keepsDeck_getByte.bind fun _ => .ite (.throw _)
    (keepsDeck_getByte.bind fun _ => .ite (.throw _) (.pure _))

theorem keepsDeck_getReadLoc : KeepsDeck getReadLoc where
  inOrder b inOrder := by
    rw [getReadLoc, run_bind_of_ok (EStateM.run_get b)]
    cases ahead : b.ahead with
    | nil => exact inOrder
    | cons c rest => exact fun d isIn => inOrder d (by rw [ahead]; exact isIn)
  holds _ := keeps_getReadLoc

end Esnacc.Cxx
