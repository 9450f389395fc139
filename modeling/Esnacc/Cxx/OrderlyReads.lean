import Esnacc.Cxx.GenContents

/-! Reads that leave the cards behind the current one as they are. -/

namespace Esnacc.Cxx

open Lib

/-- All cards have octets, and those behind the current one have not been read from. -/
structure AsnBuf.Orderly (b : AsnBuf) : Prop where
  inOrder : b.InOrder
  full : ∀ octets ∈ b.deck.map AsnRvsBuf.octets, octets ≠ []

theorem KeepsDeck.orderly {α : Type} {x : BufM α} (keeps : KeepsDeck x) {b b' : AsnBuf} {r : α}
    (orderly : b.Orderly) (ran : x.run b = .ok r b') : b'.Orderly where
  inOrder := keeps.inOrder.of_ok orderly.inOrder ran
  full := by
    have same : b'.Holds (b.deck.map AsnRvsBuf.octets) := (keeps.holds _).of_ok rfl ran
    rw [show b'.deck.map AsnRvsBuf.octets = _ from same]
    exact orderly.full

theorem keepsDeck_closeEoc (len n : AsnLen) : KeepsDeck (closeEoc len n) :=
  .ite ((keepsDeck_bDecEoc n).bind fun _ => .pure _) (.pure _)

/-- The routine behind a component's tags only reads on. -/
def ElmtDecoder.ReadsOn {β : Type} : ElmtDecoder β → Prop
  | .content bDecContent | .choice bDecContent => ∀ tag1 len n, KeepsDeck (bDecContent tag1 len n)
  | .any bDec | .octetContaining bDec | .bitContaining bDec => ∀ n, KeepsDeck (bDec n)

section

variable {β : Type}

theorem ElmtDecoder.ReadsOn.decode {decoder : ElmtDecoder β} (readsOn : decoder.ReadsOn)
    (tag1 : AsnTag) (len n : AsnLen) : KeepsDeck (decoder.decode tag1 len n) := by
  cases decoder with
  | content bDecContent => exact readsOn tag1 len n
  | choice bDecContent => exact readsOn tag1 len n
  | any bDec => exact (readsOn n).bind fun _ => (keepsDeck_closeEoc len _).bind fun _ => .pure _
  | octetContaining bDec => exact readsOn n
  | bitContaining bDec => exact keepsDeck_getByte.bind fun _ => .throw _

theorem keepsDeck_bDecInner (typeName : String) {decoder : ElmtDecoder β}
    (readsOn : decoder.ReadsOn) (tags : List (Option ElmtTag)) (tag1 : AsnTag) (len n : AsnLen) :
    KeepsDeck (bDecInner typeName decoder tags tag1 len n) := by
  induction tags generalizing tag1 len n with
  | nil => exact (readsOn.decode tag1 len n).bind fun _ => .pure _
  | cons t rest ih =>
    refine (keepsDeck_bDecTag n).bind fun _ => .ite ?_ (.throw _)
    refine (keepsDeck_bDecLen _).bind fun _ => (ih _ _ _).bind fun _ => ?_
    exact (keepsDeck_closeEoc len _).bind fun _ => .pure _

theorem Elmt.keepsDeck_decode (typeName : String) {e : Elmt β} (readsOn : e.decoder.ReadsOn)
    (tag1 : AsnTag) (n : AsnLen) : KeepsDeck (e.decode typeName tag1 n) :=
  (keepsDeck_bDecLen n).bind fun _ => keepsDeck_bDecInner typeName readsOn e.innerTags tag1 _ _

end

/-! ## Looking at an octet -/

/-- In a buffer whose cards are in order, an octet can be looked at. -/
theorem AsnBuf.Orderly.peekable {b : AsnBuf} (orderly : b.Orderly) (sound : b.Sound) :
    Peekable b.ahead := by
  cases ahead : b.ahead with
  | nil => trivial
  | cons c rest =>
    refine ⟨sound.ready c (by simp [ahead]), fun _ => ?_⟩
    cases behind : rest with
    | nil => trivial
    | cons d rest' =>
      have later : d ∈ b.ahead.tail := by simp [ahead, behind]
      refine ⟨sound.ready d (List.mem_of_mem_tail later), fun none => ?_⟩
      -- The next card has octets, and none of them was read.
      have some := orderly.full d.octets
        (List.mem_map_of_mem (List.mem_append_right _ (List.mem_of_mem_tail later)))
      exact absurd ((orderly.inOrder d later).symm.trans none) some

theorem AsnRvsBuf.sgetc_octets {c c' : AsnRvsBuf} {answer : Option UInt8}
    (ran : c.sgetc = .ok (answer, c')) : c'.octets = c.octets := by
  rw [sgetc] at ran
  cases found : c.buffered with
  | some next =>
    rw [found] at ran
    cases ran
    rfl
  | none =>
    rw [found] at ran
    exact underflow_octets ran

/-- A buffer with the same octets in its deck, the cards behind the current one as they were. -/
def SameDeck (b b' : AsnBuf) : Prop :=
  b'.deck.map AsnRvsBuf.octets = b.deck.map AsnRvsBuf.octets ∧
    ∀ c ∈ b'.ahead.tail, c ∈ b.ahead.tail

theorem SameDeck.refl (b : AsnBuf) : SameDeck b b :=
  ⟨rfl, fun _ isIn => isIn⟩

section

variable {b : AsnBuf} {c c' : AsnRvsBuf} {rest : List AsnRvsBuf}

theorem SameDeck.here (ahead : b.ahead = c :: rest) (same : c'.octets = c.octets) :
    SameDeck b ⟨b.passed, c' :: rest⟩ :=
  ⟨by simp [AsnBuf.deck, ahead, same], fun d isIn => by rw [ahead]; exact isIn⟩

theorem SameDeck.last (ahead : b.ahead = [c]) (same : c'.octets = c.octets) :
    SameDeck b ⟨b.passed ++ [c'], []⟩ :=
  ⟨by simp [AsnBuf.deck, ahead, same], fun d isIn => by cases isIn⟩

theorem SameDeck.next {d d' : AsnRvsBuf} (ahead : b.ahead = c :: d :: rest)
    (same : c'.octets = c.octets) (same' : d'.octets = d.octets) :
    SameDeck b ⟨b.passed ++ [c'], d' :: rest⟩ :=
  ⟨by simp [AsnBuf.deck, ahead, same, same'], fun e isIn => by
    rw [ahead]
    exact List.mem_cons_of_mem d isIn⟩

end

/-- Looking at an octet reads on by a card at most. -/
theorem sameDeck_peekByte (b : AsnBuf) : SameDeck b (lastState (peekByte.run b)) := by
  rw [peekByte, run_bind_of_ok (EStateM.run_get b)]
  cases ahead : b.ahead with
  | nil => exact .refl b
  | cons c rest =>
    dsimp only
    cases looked : c.sgetc with
    | error thrown => exact .refl b
    | ok next =>
      obtain ⟨octet, c'⟩ := next
      have same := AsnRvsBuf.sgetc_octets looked
      rw [ofExcept_ok]
      cases octet with
      | some octet => exact .here ahead same
      | none =>
        cases rest with
        | nil => exact .last ahead same
        | cons d rest =>
          change SameDeck b (lastState ((ofExcept d.sgetc >>= _ : BufM UInt8).run
            ⟨b.passed ++ [c'], d :: rest⟩))
          cases looked' : d.sgetc with
          | error thrown => exact .next ahead same rfl
          | ok next =>
            obtain ⟨octet, d'⟩ := next
            have same' := AsnRvsBuf.sgetc_octets looked'
            rw [ofExcept_ok]
            cases octet with
            | some octet => exact .next ahead same same'
            | none => exact .next ahead same same'

theorem keepsDeck_peekByte : KeepsDeck peekByte where
  inOrder b inOrder c isIn := inOrder c ((sameDeck_peekByte b).2 c isIn)
  holds _ b holds := (sameDeck_peekByte b).1.trans holds

theorem peekByte_orderly {b : AsnBuf} (steady : b.Steady) (orderly : b.Orderly) {octet : UInt8}
    {rest : List UInt8} (tape : b.unread = octet :: rest) :
    ∃ b', peekByte.run b = .ok octet b' ∧ b'.Steady ∧ b'.Orderly ∧ b'.unread = b.unread := by
  obtain ⟨b', ran, left, onward⟩ := peekByte_acts steady.sound.reading (orderly.peekable steady.sound)
  rw [tape] at ran left
  have same : b'.unread = b.unread := by rw [left, tape]; rfl
  have orderly' := keepsDeck_peekByte.orderly orderly ran
  exact ⟨b', ran, ⟨steady.sound.onward onward (Nat.le_of_eq (congrArg List.length same)),
    orderly'.inOrder⟩, orderly', same⟩

/-- An octet that is looked at is the next one. -/
theorem peekByte_sound {b b' : AsnBuf} (steady : b.Steady) (orderly : b.Orderly) {octet : UInt8}
    (ran : peekByte.run b = .ok octet b') :
    b'.Steady ∧ b'.Orderly ∧ b'.unread = b.unread ∧ b.unread.head? = some octet := by
  cases tape : b.unread with
  | nil =>
    obtain ⟨b'', ran', -⟩ := peekByte_acts steady.sound.reading (orderly.peekable steady.sound)
    rw [tape] at ran'
    rw [ran'] at ran
    cases ran
  | cons c rest =>
    obtain ⟨b'', ran', steady', orderly', same⟩ := peekByte_orderly steady orderly tape
    rw [ran'] at ran
    cases ran
    exact ⟨steady', orderly', same.trans tape, rfl⟩

/-! ## Going back -/

/-- Going back leaves all other cards at their start. -/
theorem orderly_setReadLoc {b b' : AsnBuf} {bl : AsnBufLoc} (orderly : b.Orderly)
    (ran : (setReadLoc bl).run b = .ok () b') : b'.Orderly := by
  rw [setReadLoc, run_bind_of_ok (EStateM.run_get b)] at ran
  by_cases outside : b.deck.length < bl.card
  · rw [if_pos outside] at ran
    cases ran
  · rw [if_neg outside] at ran
    dsimp only [bind, EStateM.bind] at ran
    have full : ∀ d ∈ b.resetMode.deck, d.octets ≠ [] ∧ d.unread = d.octets := by
      intro d isIn
      obtain ⟨e, among, rfl⟩ := List.mem_map.1 isIn
      have start := e.seekpos_zero_at
      rw [start.unread, start.octets]
      exact ⟨orderly.full e.octets (List.mem_map_of_mem among), rfl⟩
    cases found : b.resetMode.deck.drop bl.card with
    | nil =>
      rw [found] at ran
      cases ran
    | cons c rest =>
      rw [found] at ran
      cases ran
      have isIn : ∀ d ∈ c :: rest, d ∈ b.resetMode.deck := fun d listed =>
        List.mem_of_mem_drop (found ▸ listed)
      constructor
      · exact fun d listed => (full d (isIn d (List.mem_cons_of_mem c listed))).2
      · intro octets listed
        obtain ⟨d, among, rfl⟩ := List.mem_map.1 listed
        rcases List.mem_append.1 among with before | here
        · exact (full d (List.mem_of_mem_take before)).1
        · rcases List.mem_cons.1 here with rfl | behind
          · rw [AsnRvsBuf.seekpos, AsnRvsBuf.seekoff_octets]
            exact (full c (isIn c List.mem_cons_self)).1
          · exact (full d (isIn d (List.mem_cons_of_mem c behind))).1

/-- A tag and a length that were read are still to come where reading goes back. -/
theorem setReadLoc_header {b b1 b2 b3 : AsnBuf} (steady : b.Steady) (orderly : b.Orderly)
    {readLoc : AsnBufLoc} {tag1 : AsnTag} {len n m k : AsnLen}
    (located : getReadLoc.run b = .ok readLoc b1) (tagged : (bDecTag n).run b1 = .ok (tag1, m) b2)
    (measured : (bDecLen m).run b2 = .ok (len, k) b3) :
    ∃ b', (setReadLoc readLoc).run b3 = .ok () b' ∧ b'.Steady ∧ b'.Orderly ∧
      b'.unread = b.unread := by
  cases ahead : b.ahead with
  | nil =>
    rw [getReadLoc, run_bind_of_ok (EStateM.run_get b), ahead] at located
    cases located
  | cons c behind =>
    obtain ⟨b1', located', -⟩ := getReadLoc_acts steady.sound ahead
    rw [located'] at located
    cases located
    have holds1 : b1.Holds (b.deck.map AsnRvsBuf.octets) := keeps_getReadLoc.of_ok rfl located'
    have holds2 := (keeps_bDecTag n).of_ok holds1 tagged
    have holds3 := (keeps_bDecLen m).of_ok holds2 measured
    have orderly1 := keepsDeck_getReadLoc.orderly orderly located'
    have orderly3 := (keepsDeck_bDecLen m).orderly
      ((keepsDeck_bDecTag n).orderly orderly1 tagged) measured
    obtain ⟨b', ran, same, sound'⟩ := setReadLoc_spec steady.sound ahead orderly.inOrder holds3
    have orderly' := orderly_setReadLoc orderly3 ran
    exact ⟨b', ran, ⟨sound', orderly'.inOrder⟩, orderly', same⟩

end Esnacc.Cxx
