import Esnacc.Cxx.TagWords
import Esnacc.Lib.BigEndian

/-! Putting the header of an element back, with the numbers of its octets guessed from its words. -/

namespace Esnacc.Cxx

open Lib

/-- Go back over the octet of a card that was read last, if there is one. -/
def AsnRvsBuf.sungetc (c : AsnRvsBuf) : Bool × AsnRvsBuf :=
  match c.get with
  | none => (false, c)
  | some area =>
    if area.gptr < area.eback then
      (true, { c with get := some { area with gptr := area.gptr + 1 } })
    else (false, c)

/-- Go back over some octets; every turn goes back over one of them or over a card. -/
def unGetTurns : Nat → Nat → BufM Unit
  | _, 0 => return ()
  | 0, _ + 1 => throw .outOfTurns
  | turns + 1, left + 1 => do
    let b ← get
    match b.ahead with
    -- The end of the deck has no card to ask.
    | [] => throw .fault
    | c :: rest =>
      match c.sungetc with
      | (true, c) =>
        set { b with ahead := c :: rest }
        unGetTurns turns left
      | (false, c) =>
        match b.passed.getLast? with
        | none => throw (bufferException "Failed putting bytes back")
        | some d =>
          set (⟨b.passed.dropLast, d :: c :: rest⟩ : AsnBuf)
          unGetTurns turns (left + 1)

/-- Go back over a number of octets. -/
def unGetBytes (lBytesToPutBack : Nat) : BufM Unit := do
  let b ← get
  unGetTurns (b.passed.length + lBytesToPutBack) lBytesToPutBack

/-- The number of octets that a tag is taken to have. -/
def bytesInTag (tag : AsnTag) : Nat :=
  if tag &&& 0x00FFFFFF = 0 then 1
  else if tag &&& 0x0000FFFF = 0 then 2
  else if tag &&& 0x000000FF = 0 then 3
  else 4

/-- The number of octets that a length is taken to have. -/
def bytesInLen (len : AsnLen) : Nat :=
  if len < 128 then 1
  else if len < 256 then 2
  else if len < 65536 then 3
  -- The next power of 256 is 16777216.
  else if len < 16777126 then 4
  else 5

/-- Read an element of which the header was read: the header is put back, and all is copied. -/
def AsnAny.bDecContent (turns : Nat) (tag : AsnTag) (len bytesDecoded : AsnLen) :
    BufM (AsnBuf × AsnLen) := do
  let lBytesToUnget := bytesInLen len + bytesInTag tag
  unGetBytes lBytesToUnget
  grabAny turns .empty bytesDecoded

/-! ## Going back -/

/-- The octets of a card that reading has passed. -/
def AsnRvsBuf.gone (c : AsnRvsBuf) : List UInt8 :=
  c.octets.take (c.octets.length - c.unread.length)

theorem AsnRvsBuf.Reading.gone_append {c : AsnRvsBuf} (reading : c.Reading) :
    c.gone ++ c.unread = c.octets := by
  cases begun : c.get with
  | none => simp [gone, unread, begun]
  | some area =>
    obtain ⟨drop, size⟩ := reading.unread_eq begun
    rw [gone, size, drop, List.take_append_drop]

/-- Going back over the octet that was read last makes it come again. -/
theorem AsnRvsBuf.Reading.sungetc_append {c : AsnRvsBuf} (reading : c.Reading) {front : List UInt8}
    {octet : UInt8} (gone : c.gone = front ++ [octet]) :
    c.sungetc = (true, c.setg (c.unread.length + 1)) ∧
      (c.setg (c.unread.length + 1)).Reading ∧
      (c.setg (c.unread.length + 1)).gone = front ∧
      (c.setg (c.unread.length + 1)).unread = octet :: c.unread := by
  have whole := reading.gone_append
  rw [gone, List.append_assoc] at whole
  -- The card is at that place as if it had been read up to it from its start.
  have fresh : AsnRvsBuf.unread { c with get := none } = front ++ octet :: c.unread := whole.symm
  have at_ := AsnRvsBuf.Reading.setg_at (fun area absent => by cases absent) fresh
  have back : (c.setg (c.unread.length + 1)).unread = octet :: c.unread := at_.unread
  refine ⟨?_, at_.reading, ?_, back⟩
  · cases begun : c.get with
    | none => simp [AsnRvsBuf.gone, unread, begun] at gone
    | some area =>
      have start := (reading area begun).1
      have size := (reading.unread_eq begun).2
      have more := congrArg List.length whole
      simp only [List.length_append, List.length_cons] at more
      rw [sungetc, begun]
      dsimp only
      rw [if_pos (by omega), setg, start, size]
  · have again := at_.reading.gone_append
    rw [at_.unread] at again
    have same : (c.setg (octet :: c.unread).length).gone ++ octet :: c.unread =
        front ++ octet :: c.unread := again.trans whole.symm
    exact List.append_cancel_right same

/-- Where no octet is passed, a card says so and stays as it is. -/
theorem AsnRvsBuf.Reading.sungetc_nil {c : AsnRvsBuf} (reading : c.Reading) (gone : c.gone = []) :
    c.sungetc = (false, c) := by
  rw [sungetc]
  cases begun : c.get with
  | none => rfl
  | some area =>
    obtain ⟨start, within⟩ := reading area begun
    have size := (reading.unread_eq begun).2
    have whole := congrArg List.length reading.gone_append
    rw [gone, List.nil_append] at whole
    dsimp only
    rw [if_neg (by omega)]

/-- A card that reading has passed: all its octets are gone. -/
def AsnRvsBuf.UsedUp (c : AsnRvsBuf) : Prop :=
  c.Reading ∧ c.unread = []

theorem AsnRvsBuf.UsedUp.gone_eq {c : AsnRvsBuf} (usedUp : c.UsedUp) : c.gone = c.octets := by
  have whole := usedUp.1.gone_append
  rwa [usedUp.2, List.append_nil] at whole

/-- The octets that lie between cards in front and those of a card still to come. -/
def goneOf (mids : List AsnRvsBuf) (c : AsnRvsBuf) : List UInt8 :=
  mids.flatMap AsnRvsBuf.octets ++ c.gone

/-- Octets that lie behind the cards in front are put back. -/
theorem unGetTurns_spec (passed : List AsnRvsBuf) {turns : Nat} {front w : List UInt8}
    {mids behind : List AsnRvsBuf} {c : AsnRvsBuf} (usedUp : ∀ d ∈ mids, d.UsedUp)
    (reading : c.Reading) (gone : goneOf mids c = front ++ w)
    (enough : mids.length + w.length ≤ turns) :
    ∃ b, (unGetTurns turns w.length).run ⟨passed ++ mids, c :: behind⟩ = .ok () b ∧
      b.unread = w ++ (c.unread ++ unreadOf behind) := by
  -- The induction is on the turns; each one goes back over the last octet or the last card.
  induction turns generalizing w mids c behind with
  | zero =>
    obtain rfl : w = [] := List.length_eq_zero_iff.1 (by omega)
    exact ⟨_, rfl, rfl⟩
  | succ turns ih =>
    rcases List.eq_nil_or_concat w with rfl | ⟨w, octet, rfl⟩
    · exact ⟨_, rfl, rfl⟩
    · rw [List.concat_eq_append] at gone enough ⊢
      rw [List.length_append, List.length_singleton] at enough ⊢
      rw [unGetTurns, run_bind_of_ok (EStateM.run_get _)]
      dsimp only
      rcases List.eq_nil_or_concat c.gone with none | ⟨here, last, some⟩
      · -- The card has no octet to put back, and the one in front of it is gone back to.
        rcases List.eq_nil_or_concat mids with rfl | ⟨mids, d, rfl⟩
        · rw [goneOf, none] at gone
          simp at gone
        · rw [List.concat_eq_append] at usedUp gone enough ⊢
          have lastUsed : d.UsedUp := usedUp d (by simp)
          have earlier : goneOf mids d = front ++ (w ++ [octet]) := by
            rw [← gone, goneOf, goneOf, none, lastUsed.gone_eq]
            simp
          rw [List.length_append, List.length_singleton] at enough
          have fewer : mids.length + (w ++ [octet]).length ≤ turns := by
            rw [List.length_append, List.length_singleton]
            omega
          obtain ⟨b, ran, left⟩ := ih (fun e isIn => usedUp e (List.mem_append_left _ isIn))
            lastUsed.1 earlier fewer
          rw [List.length_append, List.length_singleton] at ran
          refine ⟨b, ?_, ?_⟩
          · simp only [reading.sungetc_nil none, ← List.append_assoc, List.getLast?_concat,
              List.dropLast_concat]
            exact ran
          · rw [left, lastUsed.2, unreadOf_cons, List.nil_append]
      · -- The octet comes again.
        rw [List.concat_eq_append] at some
        have ends : goneOf mids c = mids.flatMap AsnRvsBuf.octets ++ here ++ [last] := by
          rw [goneOf, some, List.append_assoc]
        rw [ends, ← List.append_assoc] at gone
        obtain ⟨before, same⟩ := List.append_inj' gone rfl
        obtain rfl := List.singleton_inj.1 same
        obtain ⟨back, reading', gone', unread'⟩ := reading.sungetc_append some
        have earlier : goneOf mids (c.setg (c.unread.length + 1)) = front ++ w := by
          rw [goneOf, gone', before]
        obtain ⟨b, ran, left⟩ := ih usedUp reading' earlier (by omega)
        refine ⟨b, ?_, ?_⟩
        · simp only [back]
          exact ran
        · rw [left, unread', List.append_assoc]
          rfl

/-! ## What lies behind reading -/

/-- From a buffer, reading has passed the given octets and stands at a card. -/
def Behind (b b' : AsnBuf) (w : List UInt8) : Prop :=
  ∃ mids c behind front, b' = ⟨b.passed ++ mids, c :: behind⟩ ∧ (∀ d ∈ mids, d.UsedUp) ∧
    c.Reading ∧ goneOf mids c = front ++ w

theorem Behind.refl {b : AsnBuf} (reading : b.Reading) (some : b.unread ≠ []) : Behind b b [] := by
  cases cards : b.ahead with
  | nil => exact absurd (by rw [AsnBuf.unread, cards]; rfl) some
  | cons c rest =>
    refine ⟨[], c, rest, goneOf [] c, ?_, by simp, reading c (by rw [cards]; simp), by simp⟩
    rw [List.append_nil, ← cards]

/-- The next octet of some cards lies behind reading then. -/
theorem bumpCards_behind_gone {base mids cards : List AsnRvsBuf} {w front : List UInt8}
    {octet : UInt8} {b' : AsnBuf}
    (ran : bumpCards (base ++ mids) cards = .ok (some octet, b'))
    (usedUp : ∀ d ∈ mids, d.UsedUp) (reading : ∀ d ∈ cards, d.Reading)
    (ready : ∀ d ∈ cards, d.Ready) (inOrder : ∀ d ∈ cards.tail, d.unread = d.octets)
    (gone : mids.flatMap AsnRvsBuf.octets ++ (cards.head?.map AsnRvsBuf.gone).getD [] =
      front ++ w) :
    ∃ mids' c behind, b' = ⟨base ++ mids', c :: behind⟩ ∧ (∀ d ∈ mids', d.UsedUp) ∧
      c.Reading ∧ goneOf mids' c = front ++ (w ++ [octet]) := by
  -- The induction is on the cards; those without octets to come are passed.
  induction cards generalizing mids with
  | nil => cases ran
  | cons c rest ih =>
    have here := reading c List.mem_cons_self
    have whole := here.gone_append
    rw [List.head?_cons, Option.map_some, Option.getD_some] at gone
    rw [bumpCards] at ran
    cases unread : c.unread with
    | nil =>
      have begun := (ready c List.mem_cons_self).begun unread
      rw [AsnRvsBuf.sbumpc_nil here begun unread] at ran
      have more : ∀ d ∈ mids ++ [c], d.UsedUp := by
        intro d isIn
        rcases List.mem_append.1 isIn with earlier | last
        · exact usedUp d earlier
        · obtain rfl := List.mem_singleton.1 last
          exact ⟨here, unread⟩
      -- The card behind it has all its octets to come.
      have fresh : (rest.head?.map AsnRvsBuf.gone).getD [] = [] := by
        cases rest with
        | nil => rfl
        | cons d rest =>
          rw [List.head?_cons, Option.map_some, Option.getD_some, AsnRvsBuf.gone,
            inOrder d List.mem_cons_self, Nat.sub_self, List.take_zero]
      have onward : bumpCards (base ++ (mids ++ [c])) rest = .ok (some octet, b') := by
        rw [← List.append_assoc]
        exact ran
      refine ih onward more
        (fun d isIn => reading d (List.mem_cons_of_mem c isIn))
        (fun d isIn => ready d (List.mem_cons_of_mem c isIn))
        (fun d isIn => inOrder d (List.mem_of_mem_tail isIn)) ?_
      rw [unread, List.append_nil] at whole
      rw [fresh, List.append_nil, List.flatMap_append, List.flatMap_singleton, ← whole]
      exact gone
    | cons first octets =>
      obtain ⟨c', bumped, at_⟩ := AsnRvsBuf.sbumpc_cons here unread
      rw [bumped] at ran
      cases ran
      refine ⟨mids, c', rest, rfl, usedUp, at_.reading, ?_⟩
      have after := at_.reading.gone_append
      rw [at_.unread, at_.octets, ← whole, unread] at after
      have longer : c'.gone = c.gone ++ [octet] := by
        have same : c'.gone ++ octets = c.gone ++ [octet] ++ octets := by
          rw [after]
          simp
        exact List.append_cancel_right same
      rw [goneOf, longer, ← List.append_assoc, gone, List.append_assoc]

theorem behind_getByte {b mid b' : AsnBuf} {w : List UInt8} {octet : UInt8}
    (behind : Behind b mid w) (steady : mid.Steady)
    (ran : getByte.run mid = .ok octet b') : Behind b b' (w ++ [octet]) := by
  obtain ⟨mids, c, rest, front, rfl, usedUp, -, gone⟩ := behind
  obtain ⟨answer, last, bumped, ran⟩ := run_bind_eq_ok.1 ran
  -- The reader fails where the cards have no octet.
  cases answer with
  | none => cases ran
  | some octet' =>
    cases ran
    have cards : bumpCards (b.passed ++ mids) (c :: rest) = .ok (some octet, b') := by
      change onBuf (fun b => bumpCards b.passed b.ahead) _ = _ at bumped
      rw [onBuf] at bumped
      cases result : bumpCards (b.passed ++ mids) (c :: rest) with
      | error thrown =>
        dsimp only at bumped
        rw [result] at bumped
        cases bumped
      | ok next =>
        obtain ⟨answer, last⟩ := next
        dsimp only at bumped
        rw [result] at bumped
        cases bumped
        rfl
    obtain ⟨mids', c', rest', same, usedUp', reading', gone'⟩ := bumpCards_behind_gone cards usedUp
      steady.sound.reading steady.sound.ready steady.inOrder gone
    exact ⟨mids', c', rest', front, same, usedUp', reading', gone'⟩

/-- What a routine takes lies behind reading then. -/
def LeavesBehind {α : Type} (x : BufM α) : Prop :=
  ∀ ⦃b mid : AsnBuf⦄ ⦃w : List UInt8⦄ ⦃r : α⦄ ⦃b' : AsnBuf⦄, Behind b mid w → mid.Steady →
    x.run mid = .ok r b' →
      ∃ taken, Behind b b' (w ++ taken) ∧ mid.unread = taken ++ b'.unread ∧ b'.Steady

namespace LeavesBehind

variable {α γ : Type}

theorem pure (r : α) : LeavesBehind (Pure.pure r : BufM α) := by
  intro b mid w r' b' behind steady ran
  obtain ⟨rfl, -⟩ := run_pure_eq_ok.1 ran
  exact ⟨[], by rwa [List.append_nil], rfl, steady⟩

theorem throw (thrown : Thrown) : LeavesBehind (MonadExcept.throw thrown : BufM α) := by
  intro b mid w r b' _ _ ran
  cases ran

theorem bind {x : BufM α} {f : α → BufM γ} (start : LeavesBehind x)
    (later : ∀ a, LeavesBehind (f a)) : LeavesBehind (x >>= f) := by
  intro b mid w r b' behind steady ran
  obtain ⟨a, between, read, ran⟩ := run_bind_eq_ok.1 ran
  obtain ⟨taken, behind', tape, steady'⟩ := start behind steady read
  obtain ⟨taken', behind'', tape', steady''⟩ := later a behind' steady' ran
  refine ⟨taken ++ taken', ?_, ?_, steady''⟩
  · rwa [← List.append_assoc]
  · rw [tape, tape', List.append_assoc]

theorem ite {c : Prop} [Decidable c] {x y : BufM α} (pos : LeavesBehind x)
    (neg : LeavesBehind y) : LeavesBehind (if c then x else y) := by
  by_cases holds : c
  · rw [if_pos holds]
    exact pos
  · rw [if_neg holds]
    exact neg

end LeavesBehind

theorem leavesBehind_getByte : LeavesBehind getByte := by
  intro b mid w octet b' behind steady ran
  have one : (countedByte 0).run mid = .ok (octet, 0 + 1) b' := by
    rw [countedByte, run_bind_of_ok ran]
    rfl
  obtain ⟨steady', taken, rfl, tape, -⟩ := countedByte_recognises.sound steady one
  exact ⟨[octet], behind_getByte behind steady ran, tape, steady'⟩

theorem leavesBehind_moreTag (left : Nat) (tagId : AsnTag) (n : AsnLen) :
    LeavesBehind (moreTag left tagId n) := by
  induction left generalizing tagId n with
  | zero => exact .throw _
  | succ left ih => exact leavesBehind_getByte.bind fun _ => .ite (ih _ _) (.pure _)

theorem leavesBehind_bDecTag (n : AsnLen) : LeavesBehind (bDecTag n) :=
  leavesBehind_getByte.bind fun _ => .ite (leavesBehind_moreTag 3 _ _) (.pure _)

theorem leavesBehind_lenOctets (lenBytes : Nat) (len : AsnLen) :
    LeavesBehind (lenOctets lenBytes len) := by
  induction lenBytes generalizing len with
  | zero => exact .pure len
  | succ lenBytes ih => exact leavesBehind_getByte.bind fun _ => ih _

theorem leavesBehind_bDecLen (n : AsnLen) : LeavesBehind (bDecLen n) :=
  leavesBehind_getByte.bind fun _ => .ite (.pure _) (.ite (.pure _) (.ite (.throw _)
    ((leavesBehind_lenOctets _ _).bind fun _ => .pure _)))

theorem Behind.unGetBytes {b b' : AsnBuf} {w : List UInt8} (behind : Behind b b' w) :
    ∃ b'', (unGetBytes w.length).run b' = .ok () b'' ∧ b''.unread = w ++ b'.unread := by
  obtain ⟨mids, c, rest, front, rfl, usedUp, reading, gone⟩ := behind
  rw [Cxx.unGetBytes, run_bind_of_ok (EStateM.run_get _)]
  exact unGetTurns_spec b.passed usedUp reading gone
    (by rw [List.length_append]; omega)

/-! ## The numbers of octets that are guessed -/

/-- A tag shows how many octets it has: it has one, or the last one is not zero. -/
def TagShows (t : List UInt8) : Prop :=
  t.length = 1 ∨ t.getLast? ≠ some 0

/-- A definite length shows how many octets it has. -/
def LenShows : List UInt8 → Prop
  | [] => False
  | c :: more =>
    match more.length with
    | 0 => c < 0x80
    | 1 => 128 ≤ ofOctets more
    | 2 => 256 ≤ ofOctets more
    | 3 => 65536 ≤ ofOctets more ∧ ofOctets more < 16777126
    | 4 => 16777126 ≤ ofOctets more
    | _ => False

/-- The guess for a tag in numbers. -/
theorem bytesInTag_eq (tag : AsnTag) :
    bytesInTag tag =
      if tag.toNat % 16777216 = 0 then 1
      else if tag.toNat % 65536 = 0 then 2
      else if tag.toNat % 256 = 0 then 3
      else 4 := by
  -- A mask of low bits takes a remainder.
  have mask : ∀ (k : Nat) (low : UInt32), low.toNat = 2 ^ k - 1 →
      (tag &&& low = 0 ↔ tag.toNat % 2 ^ k = 0) := by
    intro k low ones
    rw [← UInt32.toNat_inj, UInt32.toNat_and, ones, Nat.and_two_pow_sub_one_eq_mod,
      UInt32.toNat_zero]
  have three := mask 24 0x00FFFFFF rfl
  have two := mask 16 0x0000FFFF rfl
  have one := mask 8 0x000000FF rfl
  simp only [bytesInTag, three, two, one, Nat.reducePow]

theorem toNat_fourOctets (a b c d : UInt8) :
    (fourOctets a b c d).toNat % 256 = d.toNat ∧
      (fourOctets a b c d).toNat / 256 % 256 = c.toNat ∧
      (fourOctets a b c d).toNat / 65536 % 256 = b.toNat := by
  obtain ⟨fourth, third, second, -⟩ := fourOctets_octets a b c d
  refine ⟨?_, ?_, ?_⟩
  · rw [← congrArg UInt8.toNat fourth, UInt32.toNat_toUInt8]
  · rw [← congrArg UInt8.toNat third, UInt32.toNat_toUInt8, UInt32.toNat_shiftRight]
    exact congrArg (· % 256) (Nat.shiftRight_eq_div_pow _ 8).symm
  · rw [← congrArg UInt8.toNat second, UInt32.toNat_toUInt8, UInt32.toNat_shiftRight]
    exact congrArg (· % 256) (Nat.shiftRight_eq_div_pow _ 16).symm

/-- The octets of a tag are counted right exactly where it shows how many they are. -/
theorem bytesInTag_tagWord {t : List UInt8} (isTag : IsTag t) (few : t.length ≤ 4) :
    bytesInTag (tagWord t) = t.length ↔ TagShows t := by
  have word : ∀ a b c d : UInt8, fourOctets a b c d = a.toUInt32 <<< 24 ||| b.toUInt32 <<< 16 |||
      c.toUInt32 <<< 8 ||| d.toUInt32 := fun _ _ _ _ => rfl
  have zero : ∀ c : UInt8, c = 0 ↔ c.toNat = 0 := fun c => UInt8.toNat_inj.symm
  have high : ∀ c : UInt8, c &&& 0x80 ≠ 0 → c.toNat ≠ 0 := by
    intro c top none
    rw [(zero c).2 none] at top
    exact top rfl
  rw [bytesInTag_eq]
  rcases isTag with ⟨first, rfl, -⟩ | ⟨first, more, last, rfl, -, goesOn, -⟩
  · -- The octets behind the first one of the word are zero.
    have same : tagWord [first] = fourOctets first 0 0 0 := by
      simp [tagWord, moreWord, word]
    obtain ⟨d, c, b⟩ := toNat_fourOctets first 0 0 0
    rw [← same] at d c b
    have none : (0 : UInt8).toNat = 0 := rfl
    rw [if_pos (by omega)]
    simp [TagShows]
  · have shows : TagShows (first :: (more ++ [last])) ↔ last.toNat ≠ 0 := by
      rw [TagShows, ← List.cons_append, List.getLast?_concat]
      simp [zero]
    rw [shows, List.length_cons, List.length_append, List.length_singleton]
    rw [List.length_cons, List.length_append, List.length_singleton] at few
    have none : (0 : UInt8).toNat = 0 := rfl
    rcases more with _ | ⟨m, _ | ⟨m', _ | ⟨m'', more⟩⟩⟩
    · have same : tagWord (first :: ([] ++ [last])) = fourOctets first last 0 0 := by
        simp [tagWord, moreWord, word]
      obtain ⟨d, c, b⟩ := toNat_fourOctets first last 0 0
      rw [← same] at d c b
      rw [List.length_nil]
      split_ifs <;> omega
    · have same : tagWord (first :: ([m] ++ [last])) = fourOctets first m last 0 := by
        simp [tagWord, moreWord, word]
      obtain ⟨d, c, b⟩ := toNat_fourOctets first m last 0
      rw [← same] at d c b
      have some := high m (goesOn m (by simp))
      rw [List.length_singleton]
      split_ifs <;> omega
    · have same : tagWord (first :: ([m, m'] ++ [last])) = fourOctets first m m' last := by
        simp [tagWord, moreWord, word]
      obtain ⟨d, c, b⟩ := toNat_fourOctets first m m' last
      rw [← same] at d c b
      have some := high m' (goesOn m' (by simp))
      rw [List.length_cons, List.length_singleton]
      split_ifs <;> omega
    · simp only [List.length_cons] at few
      omega

theorem bytesInLen_eq (len : AsnLen) :
    bytesInLen len =
      if len.toNat < 128 then 1
      else if len.toNat < 256 then 2
      else if len.toNat < 65536 then 3
      else if len.toNat < 16777126 then 4
      else 5 := by
  simp only [bytesInLen, UInt64.lt_iff_toNat_lt, UInt64.reduceToNat]

/-- The octets of a length are counted right exactly where it shows how many they are. -/
theorem bytesInLen_lenOctets {l : List UInt8} {len : AsnLen} (lenOctets : LenOctets l len) :
    bytesInLen len = l.length ↔ LenShows l := by
  rw [bytesInLen_eq]
  rcases lenOctets with ⟨rfl, rfl⟩ | ⟨m, isLength, few, rfl⟩
  · -- The word for an indefinite length is the largest one.
    have top : INDEFINITE_LEN.toNat = 18446744073709551615 := rfl
    have long : ¬ LenShows [0x80] := by
      change ¬ (0x80 : UInt8) < 0x80
      decide
    rw [top]
    simp [long]
  · have small : m < 256 ^ 8 := isLength.lt (k := 8) (by omega) few
    have number : (UInt64.ofNat m).toNat = m := by
      rw [UInt64.toNat_ofNat']
      omega
    rw [number]
    rcases isLength with ⟨c, rfl, short, rfl⟩ | ⟨c, more, rfl, above, below, count, rfl⟩
    · have less : c.toNat < 128 := UInt8.lt_iff_toNat_lt.1 short
      simp [LenShows, less, short]
    · have bound := ofOctets_lt more
      rw [List.length_cons] at few ⊢
      have some : more.length ≠ 0 := by
        have more := UInt8.lt_iff_toNat_lt.1 above
        have top : (0x80 : UInt8).toNat = 128 := rfl
        omega
      rw [LenShows]
      -- The cases are the numbers of octets behind the first one.
      rcases size : more.length with _ | _ | _ | _ | _ | k
      all_goals
        rw [size] at bound few
        simp only [Nat.reduceAdd, Nat.reducePow] at bound few ⊢
        split_ifs <;> first | omega | (rw [iff_false]; omega)

/-! ## The header as a whole -/

/-- The numbers of octets are guessed right, and reading goes back to the start of the tag. -/
structure PutsBack (b b1 b2 : AsnBuf) (tag : AsnTag) (len : AsnLen) : Prop where
  tagBytes : b.unread.length = bytesInTag tag + b1.unread.length
  lenBytes : b1.unread.length = bytesInLen len + b2.unread.length
  returns : ∃ b3, (unGetBytes (bytesInLen len + bytesInTag tag)).run b2 = .ok () b3 ∧
    b3.unread = b.unread

/-- A header that is read is put back whole exactly where its tag and its length show their size. -/
theorem putsBack_iff {b b1 b2 : AsnBuf} {n n1 n2 : AsnLen} {tag : AsnTag} {len : AsnLen}
    {t l : List UInt8} (steady : b.Steady) (tagRead : (bDecTag n).run b = .ok (tag, n1) b1)
    (lenRead : (bDecLen n1).run b1 = .ok (len, n2) b2) (tagOctets : b.unread = t ++ b1.unread)
    (lenOctets : b1.unread = l ++ b2.unread) :
    PutsBack b b1 b2 tag len ↔ TagShows t ∧ LenShows l := by
  -- The octets are those of a tag and of a length with the words that were read.
  obtain ⟨steady1, t', ⟨isTag, few, word⟩, tape, -⟩ := bDecTag_recognises.sound steady tagRead
  obtain rfl : t' = t := List.append_cancel_right (tape.symm.trans tagOctets)
  obtain ⟨steady2, l', length, tape', -⟩ := bDecLen_recognises.sound steady1 lenRead
  obtain rfl : l' = l := List.append_cancel_right (tape'.symm.trans lenOctets)
  have tagIff := bytesInTag_tagWord isTag few
  have lenIff := bytesInLen_lenOctets length
  rw [← word] at tagIff
  have tagSize := congrArg List.length tagOctets
  have lenSize := congrArg List.length lenOctets
  rw [List.length_append] at tagSize lenSize
  constructor
  · intro putsBack
    have tagBytes := putsBack.tagBytes
    have lenBytes := putsBack.lenBytes
    exact ⟨tagIff.1 (by omega), lenIff.1 (by omega)⟩
  · rintro ⟨tagShows, lenShows⟩
    have tagBytes := tagIff.2 tagShows
    have lenBytes := lenIff.2 lenShows
    refine ⟨by omega, by omega, ?_⟩
    -- All that was read lies behind reading, and as many octets are put back.
    have some : b.unread ≠ [] := by
      rw [tagOctets]
      exact List.append_ne_nil_of_left_ne_nil isTag.ne_nil _
    obtain ⟨w, behind, left, -⟩ := leavesBehind_bDecTag n (Behind.refl steady.sound.reading some)
      steady tagRead
    obtain ⟨w', behind', left', -⟩ := leavesBehind_bDecLen n1 behind steady1 lenRead
    obtain rfl : w = t' := List.append_cancel_right (left.symm.trans tagOctets)
    obtain rfl : w' = l' := List.append_cancel_right (left'.symm.trans lenOctets)
    obtain ⟨b3, ran, again⟩ := behind'.unGetBytes
    rw [List.nil_append] at ran again
    refine ⟨b3, ?_, ?_⟩
    · rw [lenBytes, tagBytes, Nat.add_comm, ← List.length_append]
      exact ran
    · rw [again, tagOctets, lenOctets, List.append_assoc]

theorem AsnBuf.ofSeg_steady {seg : List UInt8} (some : seg ≠ []) (small : seg.length < 2 ^ 31) :
    (AsnBuf.ofSeg seg).Steady :=
  ⟨AsnBuf.ofSeg_sound some small, fun _ listed => by cases listed⟩

/-- The header of an integer of one octet is put back. -/
theorem putsBack_iff_short :
    PutsBack (.ofSeg [2, 1, 5]) ⟨[], [⟨0, [2, 1, 5], some ⟨3, 2⟩⟩]⟩
        ⟨[], [⟨0, [2, 1, 5], some ⟨3, 1⟩⟩]⟩ 0x02000000 1 ↔
      TagShows [2] ∧ LenShows [1] :=
  putsBack_iff (n := 0) (AsnBuf.ofSeg_steady (by decide) (by decide)) rfl rfl rfl rfl

/-- Of an indefinite length, one octet is read and five are put back. -/
theorem not_putsBack :
    ¬ ∀ (b b1 b2 : AsnBuf) (n n1 n2 : AsnLen) (tag : AsnTag) (len : AsnLen), b.Steady →
      (bDecTag n).run b = .ok (tag, n1) b1 → (bDecLen n1).run b1 = .ok (len, n2) b2 →
        PutsBack b b1 b2 tag len := by
  intro all
  have putsBack := all (.ofSeg [0x30, 0x80, 0, 0]) ⟨[], [⟨0, [0x30, 0x80, 0, 0], some ⟨4, 3⟩⟩]⟩
    ⟨[], [⟨0, [0x30, 0x80, 0, 0], some ⟨4, 2⟩⟩]⟩ 0 1 2 0x30000000 INDEFINITE_LEN
    (AsnBuf.ofSeg_steady (by decide) (by decide)) rfl rfl
  have five : bytesInLen INDEFINITE_LEN = 5 := rfl
  have lenBytes := putsBack.lenBytes
  rw [five] at lenBytes
  exact absurd lenBytes (by decide)

end Esnacc.Cxx
