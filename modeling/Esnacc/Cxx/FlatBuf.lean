import Esnacc.Cxx.BufReads
import Esnacc.Lib.Run

/-! The C++ buffer answers as one flat string of octets would. -/

namespace Esnacc.Cxx

open Lib

/-- A call that reads from a buffer. -/
inductive DeckCall where
  | getByte
  | getUByteNoEx
  | getSeg (segLen : Int64)
  | getSegStr (segLen : Int64)
  | peekByte
  | skip (skipBytes : Nat)
  | length
  deriving DecidableEq

/-- What a call returns. -/
inductive DeckAnswer where
  | octet (octet : UInt8)
  | octetNoEx (octet : Option UInt8)
  | seg (octets : List UInt8)
  | number (n : UInt64)
  | done
  deriving DecidableEq

/-- Make a call on a deck of cards. -/
def deckCall : DeckCall → BufM DeckAnswer
  | .getByte => return .octet (← getByte)
  | .getUByteNoEx => return .octetNoEx (← getByteNoEx)
  | .getSeg segLen => return .seg (← getSeg segLen)
  | .getSegStr segLen => return .seg (← getSegStr segLen)
  | .peekByte => return .octet (← peekByte)
  | .skip skipBytes => do
    skip skipBytes
    return .done
  | .length => return .number (← length)

/-- Make a call on flat octets. -/
def flatCall (rest : List UInt8) : DeckCall → Except Thrown DeckAnswer × List UInt8
  | .getByte => ((flatGetByte rest).1.map .octet, (flatGetByte rest).2)
  | .getUByteNoEx => (.ok (.octetNoEx rest.head?), rest.tail)
  | .getSeg segLen =>
    let result := flatGetSeg rest segLen.toInt.toNat
    (result.1.map .seg, result.2)
  | .getSegStr segLen => ((flatGetSegStr rest segLen).1.map .seg, (flatGetSegStr rest segLen).2)
  | .peekByte => ((flatPeekByte rest).1.map .octet, (flatPeekByte rest).2)
  | .skip skipBytes =>
    ((flatSkip rest skipBytes).1.map fun _ => .done, (flatSkip rest skipBytes).2)
  | .length => (.ok (.number (UInt64.ofNat rest.length)), rest)

/-- The deck after a call, and its answer or what it throws. -/
def deckStep (b : AsnBuf) (call : DeckCall) : Option (AsnBuf × Except Thrown DeckAnswer) :=
  match (deckCall call).run b with
  | .ok answer b' => some (b', .ok answer)
  | .error thrown b' => some (b', .error thrown)

/-- The flat octets after a call, and its answer or what it throws. -/
def flatStep (rest : List UInt8) (call : DeckCall) :
    Option (List UInt8 × Except Thrown DeckAnswer) :=
  some ((flatCall rest call).2, (flatCall rest call).1)

/-- The cards that a call meets let it answer as flat octets do. -/
def MeetsFlat (b : AsnBuf) : DeckCall → Prop
  | .getByte | .getUByteNoEx => Entered b.ahead 1
  | .getSeg segLen => Entered b.ahead segLen.toInt.toNat
  | .peekByte => Peekable b.ahead
  | .skip _ => True
  | .getSegStr _ | .length => Small b.ahead

theorem Acts.map {α β : Type} {x : BufM α} {b : AsnBuf} {result : Except Thrown α × List UInt8}
    (acts : Acts x b result) (f : α → β) :
    Acts (do return f (← x)) b (result.1.map f, result.2) := by
  obtain ⟨b', ran, left, onward⟩ := acts
  refine ⟨b', ?_, left, onward⟩
  rw [EStateM.run_bind, ran]
  cases result.1 <;> rfl

/-- A call answers as it does on the octets still to come. -/
theorem deckCall_acts {b : AsnBuf} (reading : b.Reading) {call : DeckCall}
    (meets : MeetsFlat b call) : Acts (deckCall call) b (flatCall b.unread call) := by
  cases call with
  | getByte => exact (getByte_acts reading meets).map _
  | getUByteNoEx => exact (getByteNoEx_acts reading meets).map _
  | getSeg segLen => exact (getSeg_acts reading meets).map _
  | getSegStr segLen => exact (getSegStr_acts reading meets segLen).map _
  | peekByte => exact (peekByte_acts reading meets).map _
  | skip skipBytes => exact (skip_acts reading skipBytes).map _
  | length =>
    obtain ⟨b', ran, left, onward, -⟩ := length_acts reading meets
    refine ⟨b', ?_, left, onward⟩
    rw [deckCall, run_bind_of_ok ran]
    rfl

theorem deckStep_flat {b : AsnBuf} (reading : b.Reading) {call : DeckCall}
    (meets : MeetsFlat b call) :
    ∃ b', deckStep b call = some (b', (flatCall b.unread call).1) ∧
      b'.unread = (flatCall b.unread call).2 ∧ Onward b.ahead b'.ahead := by
  obtain ⟨b', ran, left, onward⟩ := deckCall_acts reading meets
  refine ⟨b', ?_, left, onward⟩
  rw [deckStep, ran]
  cases (flatCall b.unread call).1 <;> rfl

/-- A run whose calls all meet cards that let them answers as the flat octets do. -/
theorem run_deck_flat {b : AsnBuf} (reading : b.Reading) {calls : List DeckCall}
    (meets : Along deckStep MeetsFlat b calls) :
    ∃ b' outs, run deckStep b calls = some (b', outs) ∧
      run flatStep b.unread calls = some (b'.unread, outs) := by
  have sim : ∀ (s : AsnBuf) (t : List UInt8) (call : DeckCall), s.Reading ∧ s.unread = t →
      MeetsFlat s call → ∃ s' t' out, deckStep s call = some (s', out) ∧
        flatStep t call = some (t', out) ∧ s'.Reading ∧ s'.unread = t' := by
    rintro s t call ⟨here, rfl⟩ met
    obtain ⟨s', step, left, onward⟩ := deckStep_flat here met
    exact ⟨s', s'.unread, _, step, by rw [flatStep, left], onward.reading, rfl⟩
  obtain ⟨b', rest, outs, ran, ranFlat, -, rfl⟩ := run_simulates sim ⟨reading, rfl⟩ meets
  exact ⟨b', outs, ran, ranFlat⟩

/-! ## Buffers that were written -/

/-- A call that writes to a buffer. -/
inductive PutCall where
  | putByteRvs (octet : UInt8)
  | putSegRvs (seg : List UInt8)

/-- The octets that a call writes. -/
def PutCall.octets : PutCall → List UInt8
  | .putByteRvs octet => [octet]
  | .putSegRvs seg => seg

/-- The buffer after a call that writes. -/
def putStep (b : AsnBuf) : PutCall → Option (AsnBuf × Unit)
  | .putByteRvs octet => (b.putByteRvs octet).toOption.map fun b => (b, ())
  | .putSegRvs seg => (b.putSegRvs seg).toOption.map fun b => (b, ())

/-- The octets that a sequence of calls writes: the last segment comes first. -/
def flatOf (puts : List PutCall) : List UInt8 :=
  puts.reverse.flatMap PutCall.octets

/-- A card that was only written to. -/
structure AsnRvsBuf.Fresh (c : AsnRvsBuf) : Prop where
  get : c.get = none
  size : c.room + c.octets.length = 4096

/-- A buffer that was only written to, with the octets written. -/
structure AsnBuf.Written (b : AsnBuf) (data : List UInt8) : Prop where
  passed : b.passed = []
  fresh : ∀ c ∈ b.ahead, c.Fresh
  full : ∀ c ∈ b.ahead.tail, c.octets ≠ []
  data : b.ahead.flatMap AsnRvsBuf.octets = data

theorem AsnBuf.empty_written : empty.Written [] :=
  ⟨rfl, by simp [empty], by simp [empty], rfl⟩

theorem AsnRvsBuf.new_fresh : new.Fresh :=
  ⟨rfl, rfl⟩

theorem AsnBuf.Written.of_cons {c : AsnRvsBuf} {rest : List AsnRvsBuf} {data : List UInt8}
    (written : (AsnBuf.mk [] (c :: rest)).Written data) :
    c.Fresh ∧ (∀ d ∈ rest, d.Fresh) ∧ (∀ d ∈ rest, d.octets ≠ []) ∧
      c.octets ++ rest.flatMap AsnRvsBuf.octets = data :=
  ⟨written.fresh c List.mem_cons_self,
    fun d listed => written.fresh d (List.mem_cons_of_mem c listed), written.full, written.data⟩

/-- Octets put in front of those of the current card. -/
theorem AsnBuf.Written.put {c c' : AsnRvsBuf} {rest : List AsnRvsBuf} {data seg : List UInt8}
    (written : (AsnBuf.mk [] (c :: rest)).Written data) (fresh : c'.Fresh)
    (octets : c'.octets = seg ++ c.octets) :
    (AsnBuf.mk [] (c' :: rest)).Written (seg ++ data) := by
  obtain ⟨-, others, full, same⟩ := written.of_cons
  refine ⟨rfl, ?_, full, ?_⟩
  · intro d listed
    rcases List.mem_cons.mp listed with rfl | listed
    · exact fresh
    · exact others d listed
  · change c'.octets ++ rest.flatMap AsnRvsBuf.octets = _
    rw [octets, List.append_assoc, same]

/-- A new card in front of one that has data. -/
theorem AsnBuf.Written.new {c : AsnRvsBuf} {rest : List AsnRvsBuf} {data : List UInt8}
    (written : (AsnBuf.mk [] (c :: rest)).Written data) (full : c.octets ≠ []) :
    (AsnBuf.mk [] (.new :: c :: rest)).Written data := by
  obtain ⟨fresh, others, behind, same⟩ := written.of_cons
  refine ⟨rfl, ?_, ?_, ?_⟩
  · intro d listed
    rcases List.mem_cons.mp listed with rfl | listed
    · exact AsnRvsBuf.new_fresh
    · exact written.fresh d listed
  · intro d listed
    rcases List.mem_cons.mp listed with rfl | listed
    · exact full
    · exact behind d listed
  · exact same

theorem AsnBuf.Written.withCard {b : AsnBuf} {data : List UInt8} (written : b.Written data) :
    ∃ c rest, b.withCard = ⟨[], c :: rest⟩ ∧ (AsnBuf.mk [] (c :: rest)).Written data := by
  obtain ⟨passed, ahead⟩ := b
  obtain rfl : passed = [] := written.passed
  cases ahead with
  | nil =>
    obtain rfl : [] = data := written.data
    exact ⟨.new, [], rfl, rfl, by simp [AsnRvsBuf.new_fresh], by simp, rfl⟩
  | cons c rest => exact ⟨c, rest, by simp [AsnBuf.withCard, deck], written⟩

/-- Putting an octet puts it in front. -/
theorem AsnBuf.Written.putByteRvs {b : AsnBuf} {data : List UInt8} (written : b.Written data)
    (octet : UInt8) : ∃ b', b.putByteRvs octet = .ok b' ∧ b'.Written (octet :: data) := by
  obtain ⟨c, rest, card, start⟩ := written.withCard
  obtain ⟨fresh, -, -, -⟩ := start.of_cons
  have size := fresh.size
  rw [AsnBuf.putByteRvs, card]
  dsimp only
  by_cases room : 0 < c.room
  · refine ⟨_, by rw [AsnRvsBuf.sputc, if_pos room]; rfl, ?_⟩
    have put : (AsnBuf.mk [] ({ c with room := c.room - 1, octets := octet :: c.octets } ::
        rest)).Written ([octet] ++ data) := by
      refine start.put ⟨fresh.get, ?_⟩ rfl
      simp only [List.length_cons]
      omega
    exact put
  · -- The card is full, so that the octet goes to a new one.
    have full : c.octets ≠ [] := by
      intro none
      rw [none] at size
      simp only [List.length_nil] at size
      omega
    have put : (AsnBuf.mk [] ((AsnRvsBuf.new.sputc octet).2 :: c :: rest)).Written
        ([octet] ++ data) :=
      (start.new full).put ⟨rfl, rfl⟩ rfl
    exact ⟨_, by rw [AsnRvsBuf.sputc, if_neg room]; rfl, put⟩

/-- Enough turns put what is left of a segment in front. -/
theorem AsnBuf.Written.putTurns {c : AsnRvsBuf} {rest : List AsnRvsBuf} {data seg : List UInt8}
    (written : (AsnBuf.mk [] (c :: rest)).Written data) {turns : Nat}
    (enough : seg.length + (if c.room = 0 then 1 else 0) ≤ turns) :
    ∃ b', (AsnBuf.mk [] (c :: rest)).putTurns seg turns = .ok b' ∧ b'.Written (seg ++ data) := by
  -- The induction is on the turns; every card takes the last octets that it has room for.
  induction turns generalizing c rest data seg with
  | zero =>
    obtain rfl : seg = [] := List.eq_nil_of_length_eq_zero (by omega)
    exact ⟨_, rfl, written⟩
  | succ turns ih =>
    obtain ⟨fresh, -, -, -⟩ := written.of_cons
    have size := fresh.size
    rw [AsnBuf.putTurns]
    by_cases none : seg = []
    · rw [if_pos none, none]
      exact ⟨_, rfl, written⟩
    · rw [if_neg none]
      dsimp only
      by_cases fits : seg.length ≤ c.room
      · rw [AsnRvsBuf.sputn, if_pos fits]
        dsimp only
        rw [Nat.sub_self, List.take_zero, if_pos rfl]
        refine ⟨_, rfl, written.put ⟨fresh.get, ?_⟩ rfl⟩
        simp only [List.length_append]
        omega
      · rw [AsnRvsBuf.sputn, if_neg fits]
        dsimp only
        have left : seg.take (seg.length - c.room) ≠ [] := by
          intro nothing
          have short := congrArg List.length nothing
          simp only [List.length_take, List.length_nil] at short
          omega
        rw [if_neg left]
        have tail : (seg.drop (seg.length - c.room)).length = c.room := by
          simp only [List.length_drop]
          omega
        have put : (AsnBuf.mk [] ({ c with
            room := 0, octets := seg.drop (seg.length - c.room) ++ c.octets } :: rest)).Written
            (seg.drop (seg.length - c.room) ++ data) := by
          refine written.put ⟨fresh.get, ?_⟩ rfl
          simp only [List.length_append, tail]
          omega
        have full : seg.drop (seg.length - c.room) ++ c.octets ≠ [] := by
          intro nothing
          have lengths := congrArg List.length nothing
          simp only [List.length_append, tail, List.length_nil] at lengths
          omega
        -- The new card has room, so that this turn is made up for.
        have still : (seg.take (seg.length - c.room)).length +
            (if AsnRvsBuf.new.room = 0 then 1 else 0) ≤ turns := by
          rw [if_neg (by decide), List.length_take]
          split at enough <;> omega
        obtain ⟨b', ran, done⟩ := ih (put.new full) still
        refine ⟨b', ran, ?_⟩
        rw [← List.append_assoc, List.take_append_drop] at done
        exact done

theorem AsnBuf.Written.putSegRvs {b : AsnBuf} {data : List UInt8} (written : b.Written data)
    (seg : List UInt8) : ∃ b', b.putSegRvs seg = .ok b' ∧ b'.Written (seg ++ data) := by
  obtain ⟨c, rest, card, start⟩ := written.withCard
  rw [AsnBuf.putSegRvs, card]
  apply start.putTurns
  split <;> omega

/-- A sequence of writes to an empty buffer puts the segments in front of each other. -/
theorem run_puts {b : AsnBuf} {data : List UInt8} (written : b.Written data)
    (puts : List PutCall) :
    ∃ b' outs, run putStep b puts = some (b', outs) ∧ b'.Written (flatOf puts ++ data) := by
  induction puts generalizing b data with
  | nil => exact ⟨b, [], rfl, written⟩
  | cons put puts ih =>
    obtain ⟨mid, step, wrote⟩ : ∃ mid, putStep b put = some (mid, ()) ∧
        mid.Written (put.octets ++ data) := by
      cases put with
      | putByteRvs octet =>
        obtain ⟨mid, ran, wrote⟩ := written.putByteRvs octet
        exact ⟨mid, by rw [putStep, ran]; rfl, wrote⟩
      | putSegRvs seg =>
        obtain ⟨mid, ran, wrote⟩ := written.putSegRvs seg
        exact ⟨mid, by rw [putStep, ran]; rfl, wrote⟩
    obtain ⟨b', outs, ran, last⟩ := ih wrote
    refine ⟨b', () :: outs, run_cons_eq_some.mpr ⟨mid, (), outs, step, ran, rfl⟩, ?_⟩
    rw [flatOf, List.reverse_cons, List.flatMap_append, List.flatMap_singleton,
      List.append_assoc]
    exact last

/-- A buffer being read whose cards are small, and have octets to come behind the current one. -/
structure AsnBuf.Readable (b : AsnBuf) : Prop where
  reading : b.Reading
  begun : ∀ c ∈ b.ahead, c.get ≠ none
  small : Small b.ahead
  behind : ∀ c ∈ b.ahead.tail, c.unread ≠ []

/-- A buffer that was written and set to be read has all that was written still to come. -/
theorem AsnBuf.Written.resetMode {b : AsnBuf} {data : List UInt8} (written : b.Written data) :
    b.resetMode.Readable ∧ b.resetMode.unread = data := by
  obtain ⟨passed, ahead⟩ := b
  obtain rfl : passed = [] := written.passed
  have cards : (AsnBuf.mk [] ahead).resetMode.ahead =
      ahead.map fun c => c.setg c.octets.length := by
    rw [AsnBuf.resetMode, AsnBuf.deck, List.nil_append]
    exact List.map_congr_left fun c _ => c.seekpos_zero
  have at_ : ∀ c : AsnRvsBuf, c.At c.octets (c.setg c.octets.length) := by
    intro c
    have all := c.setg_at (Nat.le_refl c.octets.length)
    rwa [Nat.sub_self, List.drop_zero] at all
  constructor
  · have listed : ∀ d ∈ (AsnBuf.mk [] ahead).resetMode.ahead, ∃ c ∈ ahead, c.At c.octets d := by
      intro d among
      rw [cards] at among
      obtain ⟨c, there, rfl⟩ := List.mem_map.mp among
      exact ⟨c, there, at_ c⟩
    constructor
    case reading =>
      intro d among
      obtain ⟨c, -, place⟩ := listed d among
      exact place.reading
    case begun =>
      intro d among
      obtain ⟨c, -, place⟩ := listed d among
      exact place.begun
    case small =>
      intro d among
      obtain ⟨c, there, place⟩ := listed d among
      have size := (written.fresh c there).size
      rw [place.octets]
      omega
    case behind =>
      intro d among
      rw [cards, ← List.map_tail] at among
      obtain ⟨c, there, rfl⟩ := List.mem_map.mp among
      rw [(at_ c).unread]
      exact written.full c there
  · rw [AsnBuf.unread, cards, ← written.data]
    rw [unreadOf, List.flatMap_map]
    exact List.flatMap_congr fun c _ => (at_ c).unread

/-- Every call on such a buffer meets cards that let it answer as flat octets do. -/
theorem AsnBuf.Readable.meetsFlat {b : AsnBuf} (readable : b.Readable) (call : DeckCall) :
    MeetsFlat b call := by
  cases call with
  | getByte => exact entered_of_begun readable.begun 1
  | getUByteNoEx => exact entered_of_begun readable.begun 1
  | getSeg segLen => exact entered_of_begun readable.begun _
  | getSegStr segLen => exact readable.small
  | peekByte =>
    have begun := readable.begun
    have behind := readable.behind
    change Peekable b.ahead
    cases ahead : b.ahead with
    | nil => trivial
    | cons c rest =>
      rw [ahead] at begun behind
      refine ⟨.inl (begun c List.mem_cons_self), fun _ => ?_⟩
      cases rest with
      | nil => trivial
      | cons d rest =>
        refine ⟨.inl (begun d (by simp)), fun none => ?_⟩
        exact absurd none (behind d List.mem_cons_self)
  | skip skipBytes => trivial
  | length => exact readable.small

theorem AsnBuf.Readable.onward {b b' : AsnBuf} (readable : b.Readable)
    (onward : Onward b.ahead b'.ahead) : b'.Readable where
  reading := onward.reading
  begun := onward.begun readable.begun
  small := onward.small readable.small
  behind := by
    intro c' listed
    obtain ⟨c, among, same⟩ := onward.behind c' listed
    rw [same]
    exact readable.behind c among

theorem AsnBuf.Readable.along {b : AsnBuf} (readable : b.Readable) (calls : List DeckCall) :
    Along deckStep MeetsFlat b calls := by
  induction calls generalizing b with
  | nil => trivial
  | cons call calls ih =>
    have met := readable.meetsFlat call
    refine ⟨met, fun b' answer step => ?_⟩
    obtain ⟨mid, ran, -, onward⟩ := deckStep_flat readable.reading met
    rw [ran, Option.some.injEq, Prod.mk.injEq] at step
    exact ih (step.1 ▸ readable.onward onward)

/--
A buffer answers as the flat octets of its cards do.

A buffer that was written answers every run of calls so; a deck of any cards, each at any place,
answers every run so whose calls all meet cards that let them.
-/
theorem asnBuf_is_flat (puts : List PutCall) (b : AsnBuf) (reading : b.Reading)
    (calls : List DeckCall) (meets : Along deckStep MeetsFlat b calls) :
    (∃ written outs, run putStep .empty puts = some (written, outs) ∧ ∀ calls,
      ∃ b' answers, run deckStep written.resetMode calls = some (b', answers) ∧
        run flatStep (flatOf puts) calls = some (b'.unread, answers)) ∧
    ∃ b' answers, run deckStep b calls = some (b', answers) ∧
      run flatStep b.unread calls = some (b'.unread, answers) := by
  refine ⟨?_, run_deck_flat reading meets⟩
  obtain ⟨written, outs, ran, wrote⟩ := run_puts AsnBuf.empty_written puts
  rw [List.append_nil] at wrote
  obtain ⟨readable, data⟩ := wrote.resetMode
  refine ⟨written, outs, ran, fun calls => ?_⟩
  rw [← data]
  exact run_deck_flat readable.reading (readable.along calls)

/-- A deck of three cards, of which the second one is empty, set to be read. -/
def emptyCardBetween : AsnBuf :=
  AsnBuf.resetMode ⟨[], [.ofSeg [1], .ofSeg [], .ofSeg [2]]⟩

theorem emptyCardBetween_reading : emptyCardBetween.Reading := by
  have cards : emptyCardBetween.ahead =
      [(AsnRvsBuf.ofSeg [1]).setg 1, (AsnRvsBuf.ofSeg []).setg 0, (AsnRvsBuf.ofSeg [2]).setg 1] :=
    rfl
  intro c listed
  rw [cards] at listed
  simp only [List.mem_cons, List.not_mem_nil, or_false] at listed
  rcases listed with rfl | rfl | rfl
  all_goals exact ((AsnRvsBuf.ofSeg _).setg_at (Nat.le_refl _)).reading

/-- Octets read across an empty card. -/
theorem asnBuf_is_flat_empty_card :
    (∃ written outs, run putStep .empty [.putSegRvs [3, 4], .putByteRvs 2] = some (written, outs) ∧
      ∀ calls, ∃ b' answers, run deckStep written.resetMode calls = some (b', answers) ∧
        run flatStep (flatOf [.putSegRvs [3, 4], .putByteRvs 2]) calls =
          some (b'.unread, answers)) ∧
    ∃ b' answers, run deckStep emptyCardBetween [.peekByte, .getSeg 2] = some (b', answers) ∧
      run flatStep emptyCardBetween.unread [.peekByte, .getSeg 2] = some (b'.unread, answers) := by
  refine asnBuf_is_flat _ emptyCardBetween emptyCardBetween_reading _ ⟨?_, ?_⟩
  · exact ⟨.inl (by decide), fun none => absurd none (by decide)⟩
  · intro b' answer step
    cases step
    refine ⟨⟨.inl (by decide), .inl (by decide), .inl (by decide), trivial⟩, fun _ _ _ => trivial⟩

/-- After the octet in front of an empty card, a look finds nothing, although an octet follows. -/
theorem peekByte_stops_at_empty_card :
    ¬∀ (b : AsnBuf) (calls : List DeckCall), b.Reading →
      ∃ b' answers, run deckStep b calls = some (b', answers) ∧
        run flatStep b.unread calls = some (b'.unread, answers) := by
  intro always
  obtain ⟨b', answers, ran, ranFlat⟩ :=
    always emptyCardBetween [.getByte, .peekByte] emptyCardBetween_reading
  have deck : run deckStep emptyCardBetween [.getByte, .peekByte] =
      some (⟨[(AsnRvsBuf.ofSeg [1]).setg 0], [(AsnRvsBuf.ofSeg []).setg 0,
        (AsnRvsBuf.ofSeg [2]).setg 1]⟩, [.ok (.octet 1), .error pastEnd]) := rfl
  have flat : run flatStep emptyCardBetween.unread [.getByte, .peekByte] =
      some ([2], [.ok (.octet 1), .ok (.octet 2)]) := rfl
  rw [deck] at ran
  rw [flat] at ranFlat
  cases ran
  cases ranFlat

end Esnacc.Cxx
