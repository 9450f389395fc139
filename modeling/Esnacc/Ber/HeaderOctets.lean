import Esnacc.Ber.Headers
import Esnacc.Lib.BerForms
import Esnacc.Lib.Recognises

/-! The octets that tags and lengths are read from, in every buffer that reads in order. -/

namespace Esnacc

open Lib

/-! ## Octets of tags -/

/-- The octets that are read behind the first one of a long tag, where `room` of them fit the word;
the last that fits is read whether or not it announces another. -/
def TagRest : Nat → List UInt8 → Prop
  | 0, w => w = []
  | room + 1, w => ∃ c rest, w = c :: rest ∧ if c &&& 0x80 ≠ 0 then TagRest room rest else rest = []

/-- The word of a tag with the octets behind its first one in their places. -/
def tagWordFrom : Nat → AsnTag → List UInt8 → AsnTag
  | room + 1, tagId, c :: rest =>
    tagWordFrom room (tagId ||| c.toUInt32 <<< UInt32.ofNat (8 * room)) rest
  | _, tagId, _ => tagId

/-- The octets that are read for a tag, with the word that they make. -/
def TagRead (w : List UInt8) (tag : AsnTag) : Prop :=
  ∃ first more, w = first :: more ∧ tag = tagWordFrom 3 (first.toUInt32 <<< 24) more ∧
    if first &&& 0x1F = 0x1F then TagRest 3 more else more = []

/-- The octets that are read for a length, with the word that they make. -/
def LenRead (w : List UInt8) (len : AsnLen) : Prop :=
  w = [0x80] ∧ len = INDEFINITE_LEN ∨
    ∃ m, IsLength w m ∧ w.length ≤ 9 ∧ len = UInt64.ofNat m

theorem longTag_iff (c : UInt8) :
    c.toUInt32 <<< 24 &&& LONG_TAG = LONG_TAG ↔ c &&& 0x1F = 0x1F := by
  have all : ∀ k : Fin 256, (UInt8.ofNat k).toUInt32 <<< 24 &&& LONG_TAG = LONG_TAG ↔
      UInt8.ofNat k &&& 0x1F = 0x1F := by
    decide +kernel
  have here := all ⟨c.toNat, c.toNat_lt⟩
  rwa [show UInt8.ofNat (⟨c.toNat, c.toNat_lt⟩ : Fin 256) = c from UInt8.ofNat_toNat] at here

theorem add_one_add_ofNat (n : UInt64) (k : Nat) :
    n + 1 + UInt64.ofNat k = n + UInt64.ofNat (k + 1) := by
  rw [UInt64.add_assoc, Nat.add_comm k, UInt64.ofNat_add 1]
  rfl

section

variable {β : Type} [GenBuf β] {inv : β → Prop} {handles : UInt64 → Prop}
  {unread : β → List UInt8}

/-- The buffer of a decoder as a tape, as long as no read has failed. -/
def decTape (inv : β → Prop) (unread : β → List UInt8) : Tape (DecState β) AsnLen where
  unread s := unread s.buf
  valid s := inv s.buf ∧ GenBuf.readError s.buf = false
  advance n k := n + UInt64.ofNat k
  advance_zero := UInt64.add_zero
  advance_add := add_ofNat_add

theorem InOrder.getByte_held (inOrder : InOrder inv handles unread) {s : DecState β} {c : UInt8}
    {rest : List UInt8} (valid : (decTape inv unread).valid s) (held : unread s.buf = c :: rest) :
    (GenBuf.getByte s.buf).1 = c ∧
      (decTape inv unread).valid { s with buf := (GenBuf.getByte s.buf).2 } ∧
      unread (GenBuf.getByte s.buf).2 = rest := by
  obtain ⟨b', read, holds, left, clear⟩ := inOrder.getByte_cons valid.1 held
  rw [read]
  exact ⟨rfl, ⟨holds, clear.trans valid.2⟩, left⟩

theorem InOrder.held_of_clear (inOrder : InOrder inv handles unread) {b : β} (holds : inv b)
    {k : Nat} (clear : GenBuf.readError (Esnacc.afterOctets (k + 1) b) = false) :
    ∃ c rest, unread b = c :: rest ∧ GenBuf.readError b = false := by
  obtain ⟨-, -, error⟩ := inOrder.afterOctets (k + 1) holds
  rw [clear] at error
  simp only [Bool.false_eq, Bool.or_eq_false_iff, decide_eq_false_iff_not, Nat.not_lt] at error
  cases held : unread b with
  | nil =>
    rw [held, List.length_nil] at error
    omega
  | cons c rest => exact ⟨c, rest, rfl, error.1⟩

/-! ## Tags -/

/-- The loop over the octets of a long tag reads those that are there. -/
theorem InOrder.bDecTagLoop_held (inOrder : InOrder inv handles unread) {room : Nat}
    (tagId : AsnTag) (n : AsnLen) {s : DecState β} {w rest : List UInt8}
    (valid : (decTape inv unread).valid s) (held : unread s.buf = w ++ rest)
    (taken : TagRest room w) :
    ∃ i s', i ≤ 5 ∧ (bDecTagLoop room tagId n).run s =
        .ok (i, tagWordFrom room tagId w, n + UInt64.ofNat w.length) s' ∧
      (decTape inv unread).valid s' ∧ unread s'.buf = rest := by
  -- The induction is on the octets that still fit the word.
  induction room generalizing tagId n s w with
  | zero =>
    obtain rfl : w = [] := taken
    refine ⟨5, s, Nat.le_refl 5, ?_, valid, held⟩
    rw [List.length_nil, show n + UInt64.ofNat 0 = n from UInt64.add_zero n]
    rfl
  | succ room ih =>
    obtain ⟨c, more, rfl, ends⟩ := taken
    obtain ⟨octet, valid', left⟩ := inOrder.getByte_held valid held
    rw [bDecTagLoop, EStateM.run_bind, run_bufGetByte]
    simp only [octet]
    by_cases goesOn : c &&& 0x80 ≠ 0
    · rw [if_pos goesOn] at ends
      obtain ⟨i, s', few, ran, valid'', left'⟩ :=
        ih (tagId ||| c.toUInt32 <<< UInt32.ofNat (8 * room)) (n + 1) valid' left ends
      refine ⟨i, s', few, ?_, valid'', left'⟩
      rw [if_pos (bne_iff_ne.mpr goesOn), ran, List.length_cons, add_one_add_ofNat]
      rfl
    · rw [if_neg goesOn] at ends
      subst ends
      refine ⟨5 - room, _, Nat.sub_le 5 room, ?_, valid', left⟩
      rw [if_neg (fun top => goesOn (bne_iff_ne.mp top))]
      cases room <;> rfl

/-- The loop that ends without an error has read the octets of a tag. -/
theorem InOrder.bDecTagLoop_read (inOrder : InOrder inv handles unread) {room i : Nat}
    {tagId tag : AsnTag} {n m : AsnLen} {s s' : DecState β} (holds : inv s.buf)
    (ran : (bDecTagLoop room tagId n).run s = .ok (i, tag, m) s')
    (clear : GenBuf.readError s'.buf = false) :
    (decTape inv unread).valid s' ∧ GenBuf.readError s.buf = false ∧ ∃ w, TagRest room w ∧
      unread s.buf = w ++ unread s'.buf ∧ tag = tagWordFrom room tagId w ∧
      m = n + UInt64.ofNat w.length := by
  induction room generalizing tagId n s with
  | zero =>
    cases ran
    exact ⟨⟨holds, clear⟩, clear, [], rfl, rfl, rfl, (UInt64.add_zero _).symm⟩
  | succ room ih =>
    -- No later octet is read without this one.
    obtain ⟨k, same⟩ := bDecTagLoop_eq_ok ran
    rw [bDecTagLoop, EStateM.run_bind, run_bufGetByte] at ran
    dsimp only at ran
    by_cases goesOn : (GenBuf.getByte s.buf).1 &&& 0x80 ≠ 0
    · rw [if_pos (bne_iff_ne.mpr goesOn)] at ran
      obtain ⟨j, later⟩ := bDecTagLoop_eq_ok ran
      have read : GenBuf.readError (Esnacc.afterOctets (j + 1) s.buf) = false := by
        rw [later] at clear
        exact clear
      obtain ⟨c, rest, held, noError⟩ := inOrder.held_of_clear holds read
      obtain ⟨octet, valid', left⟩ := inOrder.getByte_held ⟨holds, noError⟩ held
      rw [octet] at goesOn ran
      obtain ⟨valid'', -, w, taken, tape, word, count⟩ := ih valid'.1 ran
      refine ⟨valid'', noError, c :: w, ⟨c, w, rfl, by rwa [if_pos goesOn]⟩, ?_, word, ?_⟩
      · rw [held, ← left, tape]
        rfl
      · rw [count, List.length_cons, add_one_add_ofNat]
    · rw [if_neg (fun top => goesOn (bne_iff_ne.mp top))] at ran
      obtain ⟨rfl, result⟩ := run_pure_eq_ok.mp ran
      obtain ⟨-, rest⟩ := Prod.mk.inj result
      obtain ⟨rfl, rfl⟩ := Prod.mk.inj rest
      obtain ⟨c, rest, held, noError⟩ := inOrder.held_of_clear (k := 0) holds clear
      obtain ⟨octet, valid', left⟩ := inOrder.getByte_held ⟨holds, noError⟩ held
      rw [octet] at goesOn
      refine ⟨valid', noError, [c], ⟨c, [], rfl, by rw [if_neg goesOn]⟩, ?_, ?_, rfl⟩
      · rw [held, ← left]
        rfl
      · rw [octet]
        cases room <;> rfl

theorem InOrder.bDecTag_recognises (inOrder : InOrder inv handles unread) :
    (decTape inv unread).Recognises bDecTag TagRead where
  accepts := by
    rintro s w rest tag valid tape ⟨first, more, rfl, rfl, ends⟩ n
    obtain ⟨octet, valid', left⟩ := inOrder.getByte_held valid tape
    -- The place the loop leaves is never above five, so nothing is refused.
    obtain ⟨i, s', few, ran, valid'', left'⟩ : ∃ i s', i ≤ 5 ∧
        (if first.toUInt32 <<< 24 &&& LONG_TAG == LONG_TAG then
          bDecTagLoop 3 (first.toUInt32 <<< 24) (n + 1)
        else pure (2, first.toUInt32 <<< 24, n + 1) : Dec β _).run
          { s with buf := (GenBuf.getByte s.buf).2 } =
          .ok (i, tagWordFrom 3 (first.toUInt32 <<< 24) more,
            n + UInt64.ofNat (first :: more).length) s' ∧
        (decTape inv unread).valid s' ∧ unread s'.buf = rest := by
      by_cases long : first &&& 0x1F = 0x1F
      · rw [if_pos long] at ends
        obtain ⟨i, s', few, ran, valid'', left'⟩ := inOrder.bDecTagLoop_held
          (first.toUInt32 <<< 24) (n + 1) valid' left ends
        refine ⟨i, s', few, ?_, valid'', left'⟩
        rw [if_pos (beq_iff_eq.mpr ((longTag_iff first).mpr long)), ran, List.length_cons,
          add_one_add_ofNat]
      · rw [if_neg long] at ends
        subst ends
        refine ⟨2, _, by omega, ?_, valid', left⟩
        rw [if_neg (fun same => long ((longTag_iff first).mp (beq_iff_eq.mp same)))]
        rfl
    refine ⟨s', ?_, valid'', left'⟩
    rw [bDecTag, EStateM.run_bind, run_bufGetByte]
    simp only [octet]
    rw [run_bind_of_ok ran]
    dsimp only
    rw [if_neg (by omega), checked_eq_ok]
    exact ⟨rfl, valid''.2, rfl⟩
  sound := by
    intro s s' n m tag valid ran
    rw [bDecTag, EStateM.run_bind, run_bufGetByte] at ran
    dsimp only at ran
    obtain ⟨⟨i, word, count⟩, mid, looped, ran⟩ := run_bind_eq_ok.mp ran
    dsimp only at ran
    split at ran
    · simp at ran
    obtain ⟨rfl, clear, result⟩ := checked_eq_ok.mp ran
    obtain ⟨rfl, rfl⟩ := Prod.mk.inj result
    by_cases long : (GenBuf.getByte s.buf).1 &&& 0x1F = 0x1F
    · rw [if_pos (beq_iff_eq.mpr ((longTag_iff _).mpr long))] at looped
      have holds' := (inOrder.afterOctets 1 valid.1).1
      obtain ⟨valid', noError, w, taken, tape, rfl, rfl⟩ :=
        inOrder.bDecTagLoop_read (s := { s with buf := (GenBuf.getByte s.buf).2 }) holds' looped clear
      obtain ⟨c, rest, held, -⟩ := inOrder.held_of_clear (k := 0) valid.1 noError
      obtain ⟨octet, -, left⟩ := inOrder.getByte_held valid held
      rw [octet] at long ⊢
      refine ⟨valid', c :: w, ⟨c, w, rfl, rfl, by rwa [if_pos long]⟩, ?_, ?_⟩
      · change unread s.buf = _
        rw [held, ← left, show unread (GenBuf.getByte s.buf).2 = _ from tape]
        rfl
      · change _ = n + UInt64.ofNat _
        rw [List.length_cons, add_one_add_ofNat]
    · rw [if_neg (fun same => long ((longTag_iff _).mp (beq_iff_eq.mp same)))] at looped
      obtain ⟨rfl, result⟩ := run_pure_eq_ok.mp looped
      obtain ⟨-, rest⟩ := Prod.mk.inj result
      obtain ⟨rfl, rfl⟩ := Prod.mk.inj rest
      obtain ⟨c, rest, held, -⟩ := inOrder.held_of_clear (k := 0) valid.1 clear
      obtain ⟨octet, valid', left⟩ := inOrder.getByte_held valid held
      rw [octet] at long ⊢
      refine ⟨valid', [c], ⟨c, [], rfl, rfl, by rw [if_neg long]⟩, ?_, rfl⟩
      change unread s.buf = _
      rw [held, ← left]
      rfl

/-! ## Lengths -/

/-- Octets that are there are shifted into a word, and write a number behind the one it holds. -/
theorem InOrder.shiftOctetsIn_held (inOrder : InOrder inv handles unread) {w rest : List UInt8}
    {s : DecState β} (val : UInt64) (valid : (decTape inv unread).valid s)
    (held : unread s.buf = w ++ rest) :
    ∃ s', (shiftOctetsIn w.length val).run s =
        .ok (UInt64.ofNat (val.toNat * 256 ^ w.length + ofOctets w)) s' ∧
      (decTape inv unread).valid s' ∧ unread s'.buf = rest := by
  induction w generalizing val s with
  | nil =>
    refine ⟨s, ?_, valid, held⟩
    rw [List.length_nil, Nat.pow_zero, Nat.mul_one, ofOctets_nil, Nat.add_zero, UInt64.ofNat_toNat]
    rfl
  | cons c w ih =>
    obtain ⟨octet, valid', left⟩ := inOrder.getByte_held valid held
    obtain ⟨s', ran, valid'', left'⟩ := ih (val <<< 8 ||| c.toUInt64) valid' left
    refine ⟨s', ?_, valid'', left'⟩
    rw [List.length_cons, shiftOctetsIn, EStateM.run_bind, run_bufGetByte]
    simp only [octet]
    rw [ran, ofNat_digits_behind]

/-- Octets shifted into a word without an error were there. -/
theorem InOrder.shiftOctetsIn_read (inOrder : InOrder inv handles unread) {k : Nat}
    {val len : UInt64} {s s' : DecState β} (valid : (decTape inv unread).valid s)
    (ran : (shiftOctetsIn k val).run s = .ok len s')
    (clear : GenBuf.readError s'.buf = false) :
    (decTape inv unread).valid s' ∧ ∃ w, w.length = k ∧ unread s.buf = w ++ unread s'.buf ∧
      len = UInt64.ofNat (val.toNat * 256 ^ k + ofOctets w) := by
  obtain ⟨val', completed⟩ := run_shiftOctetsIn k val s
  have enough : k ≤ (unread s.buf).length := by
    rw [ran] at completed
    obtain ⟨rfl, rfl⟩ := EStateM.Result.ok.inj completed
    have taken := inOrder.length_of_clear valid.1 k clear
    omega
  have size : ((unread s.buf).take k).length = k := by rw [List.length_take, Nat.min_eq_left enough]
  obtain ⟨t, held, valid', left⟩ := inOrder.shiftOctetsIn_held val valid
    (List.take_append_drop k (unread s.buf)).symm
  rw [size, ran] at held
  obtain ⟨rfl, rfl⟩ := EStateM.Result.ok.inj held
  exact ⟨valid', _, size, by rw [left, List.take_append_drop], rfl⟩

/-- The first octet of a long length holds the number of those behind it. -/
theorem isLength_long {first : UInt8} {more : List UInt8} (short : ¬ first < 128)
    (definite : first ≠ 0x80) (few : (first &&& 0x7f).toNat ≤ 8)
    (size : more.length = (first &&& 0x7f).toNat) :
    IsLength (first :: more) (ofOctets more) ∧ (first :: more).length ≤ 9 := by
  have masked : (first &&& 0x7f).toNat = first.toNat % 128 :=
    Nat.and_two_pow_sub_one_eq_mod first.toNat 7
  have top : (0x80 : UInt8).toNat = 128 := rfl
  have all : (0xFF : UInt8).toNat = 255 := rfl
  have notShort : ¬ first.toNat < 128 := fun h => short (UInt8.lt_iff_toNat_lt.2 h)
  have notEndless : first.toNat ≠ 128 := fun h => definite (UInt8.toNat_inj.1 h)
  have byte := first.toNat_lt
  rw [masked] at few size
  refine ⟨.inr ⟨first, more, rfl, ?_, ?_, ?_, rfl⟩, ?_⟩
  · rw [UInt8.lt_iff_toNat_lt]
    omega
  · rw [UInt8.lt_iff_toNat_lt]
    omega
  · omega
  · rw [List.length_cons]
    omega

theorem InOrder.bDecLen_recognises (inOrder : InOrder inv handles unread) :
    (decTape inv unread).Recognises bDecLen LenRead where
  accepts := by
    intro s w rest len valid tape read n
    have notShort : ∀ c : UInt8, ¬ c < 0x80 → ¬ c < 128 := fun _ => id
    rcases read with ⟨rfl, rfl⟩ | ⟨m, ⟨c, rfl, short, rfl⟩ | ⟨c, more, rfl, above, below, count, rfl⟩,
      few, rfl⟩
    · obtain ⟨octet, valid', left⟩ := inOrder.getByte_held valid tape
      refine ⟨_, ?_, valid', left⟩
      simp only [bDecLen, EStateM.run_bind, run_bufGetByte, run_bufReadError, valid'.2, octet]
      rfl
    · obtain ⟨octet, valid', left⟩ := inOrder.getByte_held valid tape
      refine ⟨_, ?_, valid', left⟩
      simp only [bDecLen, EStateM.run_bind, run_bufGetByte, run_bufReadError, valid'.2, octet,
        Bool.false_eq_true, if_false, show c < 128 from short, if_true, EStateM.run_pure]
      rw [UInt64.ofNat_uInt8ToNat]
      rfl
    · obtain ⟨octet, valid', left⟩ := inOrder.getByte_held valid tape
      obtain ⟨long, definite, number⟩ := longForm_first above below count
      obtain ⟨s', ran, valid'', left'⟩ := inOrder.shiftOctetsIn_held 0 valid' left
      rw [List.length_cons] at few
      refine ⟨s', ?_, valid'', left'⟩
      have fits : ¬ more.length > 8 := by omega
      simp only [bDecLen, EStateM.run_bind, run_bufGetByte, run_bufReadError, valid'.2, octet,
        Bool.false_eq_true, if_false, notShort c long, beq_iff_eq, definite, number, fits, ran,
        valid''.2, EStateM.run_pure]
      rw [UInt64.toNat_zero, Nat.zero_mul, Nat.zero_add, add_one_add_ofNat]
      rfl
  sound := by
    intro s s' n m len valid ran
    rw [bDecLen, EStateM.run_bind, run_bufGetByte] at ran
    dsimp only at ran
    rw [EStateM.run_bind, run_bufReadError] at ran
    dsimp only at ran
    split at ran
    · simp at ran
    rename_i noError
    have noError' : GenBuf.readError (GenBuf.getByte s.buf).2 = false := by simpa using noError
    obtain ⟨c, rest, held, -⟩ := inOrder.held_of_clear (k := 0) valid.1 noError'
    obtain ⟨octet, valid', left⟩ := inOrder.getByte_held valid held
    rw [octet] at ran
    have tape : unread s.buf = [c] ++ unread (GenBuf.getByte s.buf).2 := by
      rw [held, ← left]
      rfl
    by_cases short : c < 128
    · rw [if_pos short] at ran
      obtain ⟨rfl, result⟩ := run_pure_eq_ok.mp ran
      obtain ⟨rfl, rfl⟩ := Prod.mk.inj result
      exact ⟨valid', [c], .inr ⟨c.toNat, isLength_short short, by simp,
        (UInt64.ofNat_uInt8ToNat c).symm⟩, tape, rfl⟩
    rw [if_neg short] at ran
    by_cases endless : c = 0x80
    · rw [if_pos (beq_iff_eq.mpr endless)] at ran
      obtain ⟨rfl, result⟩ := run_pure_eq_ok.mp ran
      obtain ⟨rfl, rfl⟩ := Prod.mk.inj result
      exact ⟨valid', [c], .inl ⟨by rw [endless], rfl⟩, tape, rfl⟩
    rw [if_neg (fun same => endless (beq_iff_eq.mp same))] at ran
    by_cases many : (c &&& 0x7f).toNat > 8
    · rw [if_pos many] at ran
      simp at ran
    rw [if_neg many] at ran
    obtain ⟨val, mid, shifted, ran⟩ := run_bind_eq_ok.mp ran
    obtain ⟨rfl, clear, result⟩ := checked_eq_ok.mp ran
    obtain ⟨rfl, rfl⟩ := Prod.mk.inj result
    obtain ⟨valid'', w, size, tape', value⟩ := inOrder.shiftOctetsIn_read valid' shifted clear
    obtain ⟨isLength, few⟩ := isLength_long short endless (Nat.le_of_not_lt many) size
    refine ⟨valid'', c :: w, .inr ⟨_, isLength, few, ?_⟩, ?_, ?_⟩
    · rw [value, UInt64.toNat_zero, Nat.zero_mul, Nat.zero_add]
    · change unread s.buf = _
      rw [tape, show unread (GenBuf.getByte s.buf).2 = _ from tape']
      rfl
    · change _ = n + UInt64.ofNat _
      rw [← size, List.length_cons, add_one_add_ofNat]

/-- The distinguished rules read the lengths of the basic rules that are not indefinite. -/
theorem dDecLen_eq_ok {n m len : AsnLen} {s s' : DecState β} :
    (dDecLen n).run s = .ok (len, m) s' ↔
      (bDecLen n).run s = .ok (len, m) s' ∧ (GenBuf.getByte s.buf).1 ≠ 0x80 := by
  rw [dDecLen, bDecLen, EStateM.run_bind, run_bufGetByte, EStateM.run_bind, run_bufGetByte]
  dsimp only
  generalize (GenBuf.getByte s.buf).1 = c
  generalize ({ s with buf := (GenBuf.getByte s.buf).2 } : DecState β) = t
  rw [EStateM.run_bind, run_bufReadError, EStateM.run_bind, run_bufReadError]
  dsimp only
  by_cases failed : GenBuf.readError t.buf = true
  · simp [failed]
  rw [if_neg failed, if_neg failed]
  by_cases short : c < 128
  · have definite : c ≠ 0x80 := fun same => absurd (same ▸ short) (by decide)
    rw [if_pos short, if_pos short, and_iff_left definite]
  rw [if_neg short, if_neg short]
  by_cases endless : c = 0x80
  · simp [endless]
  have definite : ¬ (c == 0x80) = true := fun same => endless (beq_iff_eq.mp same)
  rw [if_neg definite, if_neg definite, and_iff_left endless]
  by_cases many : (c &&& 0x7f).toNat > 8
  · rw [if_pos many, if_pos many]
    simp
  rw [if_neg many, if_neg many, run_bind_eq_ok, run_bind_eq_ok]
  simp only [checked_eq_ok]

/-- The octets that are read for a length under the distinguished rules. -/
def DerLenRead (w : List UInt8) (len : AsnLen) : Prop :=
  ∃ m, IsLength w m ∧ w.length ≤ 9 ∧ len = UInt64.ofNat m

theorem InOrder.dDecLen_recognises (inOrder : InOrder inv handles unread) :
    (decTape inv unread).Recognises dDecLen DerLenRead where
  accepts := by
    intro s w rest len valid tape read n
    obtain ⟨s', ran, done⟩ := inOrder.bDecLen_recognises.accepts valid tape (.inr read) n
    obtain ⟨m, isLength, -, -⟩ := read
    refine ⟨s', dDecLen_eq_ok.mpr ⟨ran, ?_⟩, done⟩
    -- The octet of the indefinite form begins no length that writes a number.
    rcases isLength with ⟨c, rfl, short, -⟩ | ⟨c, more, rfl, above, -⟩
    · obtain ⟨octet, -⟩ := inOrder.getByte_held valid tape
      rw [octet]
      rintro rfl
      exact absurd short (by decide)
    · obtain ⟨octet, -⟩ := inOrder.getByte_held valid tape
      rw [octet]
      rintro rfl
      exact absurd above (by decide)
  sound := by
    intro s s' n m len valid ran
    obtain ⟨ran', definite⟩ := dDecLen_eq_ok.mp ran
    obtain ⟨valid', w, read, tape, count⟩ := inOrder.bDecLen_recognises.sound valid ran'
    rcases read with ⟨rfl, -⟩ | read
    · exact absurd (inOrder.getByte_held valid tape).1 definite
    · exact ⟨valid', w, read, tape, count⟩

end

end Esnacc
