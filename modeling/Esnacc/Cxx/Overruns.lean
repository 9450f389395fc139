import Esnacc.Cxx.Collecting

/-! Pieces that claim to extend past the element that contains them, and when the collector throws. -/

namespace Esnacc.Cxx

open Lib

/--
Octets up to a header that claims more than is left of the element it is in.

The elements around it are constructed pieces behind pieces that are well formed.
-/
inductive Overrun where
  | piece (before : Pieces) (constructed : Bool) (len : List UInt8) (m : Nat)
  | definite (before : Pieces) (len : List UInt8) (m : Nat) (inner : Overrun)
  | indefinite (before : Pieces) (inner : Overrun)

namespace Overrun

/-- The octets up to the header and with it. -/
@[grind =] def encode : Overrun → List UInt8
  | piece before constructed len _ => before.encode ++ (if constructed then 0x24 else 4) :: len
  | definite before len _ inner => before.encode ++ 0x24 :: (len ++ inner.encode)
  | indefinite before inner => before.encode ++ 0x24 :: 0x80 :: inner.encode

/-- In an element, a header starts that claims more octets than the element has. -/
def WellFormed (form : Option Nat) : Overrun → Prop
  | piece before _ len m =>
    before.WellFormed ∧ IsLength len m ∧ ∃ l, form = some l ∧ before.encode.length < l ∧
      l < before.encode.length + (1 + len.length) + m
  | definite before len m inner =>
    before.WellFormed ∧ IsLength len m ∧
      (∀ l, form = some l → before.encode.length + (1 + len.length) + m ≤ l) ∧
      inner.WellFormed (some m)
  | indefinite before inner =>
    before.WellFormed ∧ (∀ l, form = some l → before.encode.length + 2 ≤ l) ∧
      inner.WellFormed none

/-- No length reaches the one that stands for the indefinite form, with what is in front of it. -/
def Countable : Overrun → Prop
  | piece before constructed len m =>
    constructed = true → before.encode.length + (1 + len.length) + m < 2 ^ 64 - 1
  | definite _ _ m inner => m < 2 ^ 64 - 1 ∧ inner.Countable
  | indefinite _ inner => inner.Countable

/--
The overruns that the collector refuses, where given octets follow.

The pieces in front, at every depth, are primitive, or else the collector throws in them; and the
header is of a constructed piece, or of a primitive one for which octets are missing.
-/
def Caught (data : List UInt8) : Overrun → Prop
  | piece before constructed len m =>
    before.MeetsLong ∨ before.Flat ∧ (9 < len.length ∨ constructed = true ∨ data.length < m)
  | definite before len _ inner =>
    before.MeetsLong ∨ before.Flat ∧ (9 < len.length ∨ inner.Caught data)
  | indefinite before inner => before.MeetsLong ∨ before.Flat ∧ inner.Caught data

end Overrun

section

variable {b : AsnBuf} {form : Option Nat} {passed : Nat} {len data : List UInt8} {m : Nat}

/-- A constructed piece that extends past its element is refused. -/
theorem refuses_oversized (frames : List RefNode) (strDeck : List StringPair) (turns : Nat)
    {l : Nat} (sound : b.Sound) (isLength : IsLength len m) (short : len.length ≤ 9)
    (unread : b.unread = 0x24 :: (len ++ data)) (before : passed < l)
    (beyond : l < passed + (1 + len.length) + m)
    (countable : passed + (1 + len.length) + m < 2 ^ 64 - 1) :
    Refuses (fillTurns OCTETSTRING_TAG_CODE (turns + 1)
      (.at_ frames (nodeOf (some l) passed) strDeck)) b := by
  have within : Inside (some l) l := by
    rintro l ⟨⟩
    omega
  have measured : ∀ b' : AsnBuf, b'.Sound → b'.unread = len ++ data →
      Acts (bDecLen ((nodeOf (some l) passed).count + 1)) b'
        (.ok (UInt64.ofNat m, UInt64.ofNat (passed + (1 + len.length))), data) := by
    intro b' sound' left
    have acts := bDecLen_isLength (n := (nodeOf (some l) passed).count + 1) sound' isLength short
      left
    have counted : (nodeOf (some l) passed).count + 1 + UInt64.ofNat len.length =
        UInt64.ofNat (passed + (1 + len.length)) := by
      rw [UInt64.ofNat_add, UInt64.ofNat_add, UInt64.add_assoc]
      rfl
    rwa [counted] at acts
  have past : (nodeOf (some l) passed).length <
      UInt64.ofNat m + UInt64.ofNat (passed + (1 + len.length)) := by
    rw [← UInt64.ofNat_add, UInt64.lt_iff_toNat_lt, toNat_ofNat_of_lt (by omega)]
    change (UInt64.ofNat l).toNat < _
    rw [toNat_ofNat_of_lt (by omega)]
    omega
  obtain ⟨b', failed, -⟩ := fillTurn_oversized OCTETSTRING_TAG_CODE frames
    (nodeOf (some l) passed) strDeck sound (by decide) unread (by decide) (by decide) (by decide)
    measured (by simp) (ofNat_ne_indefinite (by omega)) past
  exact ⟨_, b', fillTurns_of_error (within.more before) failed turns, by decide⟩

theorem refuses_missing (frames : List RefNode) (strDeck : List StringPair) (turns : Nat)
    (sound : b.Sound) (isLength : IsLength len m) (short : len.length ≤ 9) (unread : b.unread = 4 :: (len ++ data))
    (more : (nodeOf form passed).more = true)
    (missing : data.length < m) :
    Refuses (fillTurns OCTETSTRING_TAG_CODE (turns + 1)
      (.at_ frames (nodeOf form passed) strDeck)) b := by
  have word : m < 256 ^ 8 := isLength.lt (by decide) short
  obtain ⟨text, b', failed, -⟩ := fillTurn_missing OCTETSTRING_TAG_CODE frames
    (nodeOf form passed) strDeck sound isTag_four (by decide) isLength short unread
    (fun both => absurd both.1 (by decide)) (.inl (by decide)) missing word
  exact ⟨_, b', fillTurns_of_error more failed turns, by simp⟩

/-- A primitive piece that has all its octets, but extends past its element, ends the collector. -/
theorem completes_past_end (frames : List RefNode) (strDeck : List StringPair) (turns : Nat)
    {l : Nat} (sound : b.Sound) (isLength : IsLength len m) (short : len.length ≤ 9)
    (unread : b.unread = 4 :: (len ++ data)) (before : passed < l)
    (countable : l < 2 ^ 64 - 1) (beyond : l < passed + (1 + len.length) + m)
    (room : passed + b.unread.length < 2 ^ 64) (there : m ≤ data.length) :
    Completes (fillTurns OCTETSTRING_TAG_CODE (turns + 2)
      (.at_ frames (nodeOf (some l) passed) strDeck)) b := by
  have within : Inside (some l) l := by
    rintro l ⟨⟩
    omega
  have octets : (data.take m).length = m := List.length_take_of_le there
  rw [unread] at room
  simp only [List.length_cons, List.length_append] at room
  have measured : IsLength len (data.take m).length := by
    rwa [octets]
  have unread' : b.unread = 4 :: (len ++ (data.take m ++ data.drop m)) := by
    rw [List.take_append_drop, unread]
  have reaches := reaches_primitive frames passed strDeck sound measured short unread'
    (within.more before)
  refine reaches.completes (by omega) fun b' sound' _ => ?_
  exact completes_at_end sound' (by omega)
    (.inl ⟨l, rfl, by omega, countable, by omega⟩)

end

/-- Behind pieces, it is what follows that is refused, unless the collector ends in them. -/
theorem Pieces.refuses_iff {before : Pieces} {Q : Prop} (wellFormed : before.WellFormed)
    {b : AsnBuf} {frames : List RefNode} {form : Option Nat} {strDeck : List StringPair}
    {turns : Nat} {tail : List UInt8} (sound : b.Sound) (unread : b.unread = before.encode ++ tail)
    (inside : Inside form before.encode.length) (enough : b.unread.length < turns)
    (later : ∀ (b' : AsnBuf) (strDeck : List StringPair) (turns : Nat), b'.Sound →
      b'.unread = tail → b'.unread.length < turns →
      (Refuses (fillTurns OCTETSTRING_TAG_CODE turns
        (.at_ frames (nodeOf form before.encode.length) strDeck)) b' ↔ Q)) :
    Refuses (fillTurns OCTETSTRING_TAG_CODE turns (.at_ frames (nodeOf form 0) strDeck)) b ↔
      before.MeetsLong ∨ before.Flat ∧ Q := by
  rw [← Nat.zero_add before.encode.length] at inside
  have size := congrArg List.length unread
  rw [List.length_append] at size
  by_cases flat : before.Flat
  · -- Flat pieces are all passed.
    obtain ⟨used, few, reaches⟩ := reaches_flat wellFormed flat frames strDeck sound unread inside
    obtain ⟨b', sound', left, same⟩ := reaches.run_eq (by omega : used ≤ turns)
    rw [Nat.zero_add] at same
    have behind := later b' (strDeck ++ before.pairs) (turns - used) sound' left
      (by rw [left]; omega)
    rw [Refuses, same]
    constructor
    · intro refuses
      exact .inr ⟨flat, behind.mp refuses⟩
    · rintro (meets | ⟨-, known⟩)
      · exact absurd meets flat.not_meetsLong
      · exact behind.mpr known
  · obtain ⟨refuses, completes⟩ := ends_of_not_flat wellFormed flat frames strDeck sound
      unread inside (by omega : before.encode.length < turns)
    by_cases meets : before.MeetsLong
    · exact ⟨fun _ => .inl meets, fun _ => refuses meets⟩
    · refine ⟨fun refused => absurd refused (completes meets).not_refuses, ?_⟩
      rintro (met | ⟨all, -⟩)
      · exact absurd met meets
      · exact absurd all flat

/-- The collector throws at an overrun, or in front of it, exactly where it is caught. -/
theorem Overrun.refuses_iff {o : Overrun} {form : Option Nat} (wellFormed : o.WellFormed form)
    (known : ∀ l, form = some l → l < 2 ^ 64 - 1) (countable : o.Countable) {b : AsnBuf}
    (frames : List RefNode) (strDeck : List StringPair) {turns : Nat} {data : List UInt8}
    (sound : b.Sound) (unread : b.unread = o.encode ++ data) (enough : b.unread.length < turns) :
    Refuses (fillTurns OCTETSTRING_TAG_CODE turns (.at_ frames (nodeOf form 0) strDeck)) b ↔
      o.Caught data := by
  have fits := sound.fits
  -- The induction is on the elements around the header.
  induction o generalizing b form frames strDeck turns with
  | piece before constructed len m =>
    obtain ⟨pieces, isLength, l, rfl, starts, beyond⟩ := wellFormed
    have top := known l rfl
    have within : Inside (some l) l := by
      rintro l ⟨⟩
      omega
    rw [encode, List.append_assoc] at unread
    refine Pieces.refuses_iff pieces sound unread (within.mono (Nat.le_of_lt starts)) enough
      fun b' strDeck turns sound' left enough' => ?_
    obtain ⟨turns, rfl⟩ := Nat.exists_eq_succ_of_ne_zero (Nat.ne_of_gt (Nat.zero_lt_of_lt enough'))
    have more : (nodeOf (some l) before.encode.length).more = true :=
      within.more starts
    have size := congrArg List.length unread
    simp only [List.length_append, List.length_cons] at size
    by_cases long : 9 < len.length
    · refine ⟨fun _ => .inl long, fun _ => ?_⟩
      refine refuses_long frames _ strDeck sound' ?_ isLength long left more turns
      cases constructed <;> simp
    · have short : len.length ≤ 9 := Nat.le_of_not_lt long
      cases constructed with
      | true =>
        refine ⟨fun _ => .inr (.inl rfl), fun _ => ?_⟩
        exact refuses_oversized frames strDeck turns sound' isLength short left starts beyond
          (countable rfl)
      | false =>
        by_cases missing : data.length < m
        · refine ⟨fun _ => .inr (.inr missing), fun _ => ?_⟩
          exact refuses_missing frames strDeck turns sound' isLength short left more missing
        · -- All octets are there, and behind them the collector is done with the element.
          have size' := congrArg List.length left
          simp only [List.length_append, List.length_cons] at size'
          obtain ⟨turns, rfl⟩ : ∃ k, turns = k + 1 := ⟨turns - 1, by omega⟩
          have completes := completes_past_end frames strDeck turns sound' isLength short left
            starts top beyond (by omega) (by omega)
          refine ⟨fun refused => absurd refused completes.not_refuses, ?_⟩
          rintro (above | constructed | short)
          · exact absurd above long
          · cases constructed
          · exact absurd short missing
  | definite before len m inner ih =>
    obtain ⟨pieces, isLength, fitsIn, wellFormed⟩ := wellFormed
    have within : Inside form (before.encode.length + (1 + len.length) + m) := fun l same =>
      ⟨fitsIn l same, known l same⟩
    rw [encode, List.append_assoc] at unread
    refine Pieces.refuses_iff pieces sound unread (within.mono (by omega)) enough
      fun b' strDeck turns sound' left enough' => ?_
    have left' : b'.unread = 0x24 :: (len ++ (inner.encode ++ data)) := by
      rw [left, List.cons_append, List.append_assoc]
    have size' := congrArg List.length left'
    simp only [List.length_append, List.length_cons] at size'
    obtain ⟨turns, rfl⟩ := Nat.exists_eq_succ_of_ne_zero (Nat.ne_of_gt (Nat.zero_lt_of_lt enough'))
    by_cases long : 9 < len.length
    · refine ⟨fun _ => .inl long, fun _ => ?_⟩
      have positive := isLength.length_pos
      exact refuses_long frames _ strDeck sound' (.inr rfl) isLength long left'
        (within.more (by omega)) turns
    · have short : len.length ≤ 9 := Nat.le_of_not_lt long
      obtain ⟨b1, sound1, left1, same1⟩ := reaches_definite frames before.encode.length strDeck
        sound' isLength short left' within
      have fewer : b1.unread.length < turns := by
        rw [left1, List.length_append]
        omega
      have entered := ih wellFormed (by rintro l ⟨⟩; exact countable.1) countable.2
        (frames ++ [nodeOf form (before.encode.length + (1 + len.length))]) strDeck sound1 left1
        fewer sound1.fits
      rw [Refuses, same1 turns]
      refine entered.trans ⟨.inr, ?_⟩
      rintro (above | caught)
      · exact absurd above long
      · exact caught
  | indefinite before inner ih =>
    obtain ⟨pieces, fitsIn, wellFormed⟩ := wellFormed
    have within : Inside form (before.encode.length + 2) := fun l same =>
      ⟨fitsIn l same, known l same⟩
    rw [encode, List.append_assoc] at unread
    refine Pieces.refuses_iff pieces sound unread (within.mono (by omega)) enough
      fun b' strDeck turns sound' left enough' => ?_
    have left' : b'.unread = 0x24 :: 0x80 :: (inner.encode ++ data) := left
    have size' := congrArg List.length left'
    simp only [List.length_append, List.length_cons] at size'
    obtain ⟨turns, rfl⟩ := Nat.exists_eq_succ_of_ne_zero (Nat.ne_of_gt (Nat.zero_lt_of_lt enough'))
    obtain ⟨b1, sound1, left1, same1⟩ := reaches_indefinite frames before.encode.length strDeck
      sound' left' within
    have fewer : b1.unread.length < turns := by
      rw [left1, List.length_append]
      omega
    have entered := ih wellFormed (by rintro l ⟨⟩) countable
      (frames ++ [nodeOf form (before.encode.length + 2)]) strDeck sound1 left1 fewer sound1.fits
    rw [Refuses, same1 turns]
    exact entered

end Esnacc.Cxx
