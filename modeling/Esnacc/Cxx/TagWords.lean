import Esnacc.Lib.Recognises
import Esnacc.Cxx.HeaderReads
import Esnacc.Cxx.KeptDeck

/-! The octets of tags, lengths and ends of contents that the C++ library reads. -/

namespace Esnacc.Cxx

open Lib

/-- A buffer that can be read on, and gone back in. -/
structure AsnBuf.Steady (b : AsnBuf) : Prop where
  sound : b.Sound
  inOrder : b.InOrder

/-- The buffer as a tape, with the counts of its octets. -/
def asnTape : Tape AsnBuf AsnLen where
  unread := AsnBuf.unread
  valid := AsnBuf.Steady
  advance n k := n + UInt64.ofNat k
  advance_zero := UInt64.add_zero
  advance_add := add_ofNat_add

theorem Acts.completes {α : Type} {x : BufM α} {b : AsnBuf} {r : α} {rest : List UInt8}
    (acts : Acts x b (.ok r, rest)) (keeps : KeepsDeck x) (steady : b.Steady)
    (shrinks : rest.length ≤ b.unread.length) :
    ∃ b', x.run b = .ok r b' ∧ b'.Steady ∧ b'.unread = rest := by
  obtain ⟨b', ran, left, onward⟩ := acts
  exact ⟨b', ran, ⟨steady.sound.onward onward (left ▸ shrinks),
    keeps.inOrder.of_ok steady.inOrder ran⟩, left⟩

theorem AsnBuf.Steady.getByte_cons {b : AsnBuf} (steady : b.Steady) {c : UInt8}
    {rest : List UInt8} (tape : b.unread = c :: rest) :
    ∃ b', getByte.run b = .ok c b' ∧ b'.Steady ∧ b'.unread = rest :=
  (steady.sound.getByte_cons tape).completes keepsDeck_getByte steady (by rw [tape]; simp)

theorem toNat_advance {n : AsnLen} {k : Nat} (small : n.toNat + k < 2 ^ 64) :
    (asnTape.advance n k).toNat = n.toNat + k := by
  change (n + UInt64.ofNat k).toNat = _
  rw [UInt64.toNat_add, UInt64.toNat_ofNat_of_lt' (by rw [UInt64.size]; omega),
    Nat.mod_eq_of_lt small]

theorem advance_zero_eq {elmtLen0 : AsnLen} {b : AsnBuf} (steady : b.Steady)
    {w rest : List UInt8} (tape : b.unread = w ++ rest) :
    asnTape.advance 0 w.length = elmtLen0 ↔ w.length = elmtLen0.toNat := by
  have fits := steady.sound.fits
  rw [tape, List.length_append] at fits
  have count : (asnTape.advance 0 w.length).toNat = w.length := by
    rw [toNat_advance (by rw [UInt64.toNat_zero]; omega), UInt64.toNat_zero, Nat.zero_add]
  rw [← UInt64.toNat_inj, count]

/-! ## Single octets -/

/-- Read an octet and count it. -/
@[grind =] def countedByte (n : AsnLen) : BufM (UInt8 × AsnLen) := do
  let c ← getByte
  return (c, n + 1)

theorem countedByte_recognises : asnTape.Recognises countedByte fun w c => w = [c] where
  accepts := by
    rintro b w rest c steady tape rfl n
    obtain ⟨b', ran, steady', left⟩ := steady.getByte_cons tape
    exact ⟨b', by rw [countedByte, run_bind_of_ok ran]; rfl, steady', left⟩
  sound := by
    intro b b' n m c steady ran
    obtain ⟨octet, mid, read, rest⟩ := run_bind_eq_ok.1 ran
    cases rest
    obtain ⟨takes, first⟩ := getByte_takes steady.sound read
    refine ⟨⟨takes.sound, keepsDeck_getByte.inOrder.of_ok steady.inOrder read⟩, [c], rfl, ?_, rfl⟩
    change b.unread = [c] ++ b'.unread
    rw [takes.unread]
    cases unread : b.unread with
    | nil => simp [unread] at first
    | cons d rest =>
      rw [unread, List.head?_cons, Option.some.injEq] at first
      simp [first]

/-! ## Tags -/

/-- The octets of a tag that fit a word, with the word that they make. -/
def TagOctets (w : List UInt8) (tag : AsnTag) : Prop :=
  IsTag w ∧ w.length ≤ 4 ∧ tag = tagWord w

/-- What completes behind the first octet of a long tag. -/
theorem moreTag_sound {left : Nat} {tagId tag : AsnTag} {n m : AsnLen} {b b' : AsnBuf}
    (steady : b.Steady) (ran : (moreTag left tagId n).run b = .ok (tag, m) b') :
    b'.Steady ∧ ∃ more last, (∀ c ∈ more, c &&& 0x80 ≠ 0) ∧ last &&& 0x80 = 0 ∧
      more.length < left ∧ b.unread = more ++ last :: b'.unread ∧
      tag = moreWord left tagId (more ++ [last]) ∧
      m = n + UInt64.ofNat (more.length + 1) := by
  -- The induction is on the octets that still fit the word.
  induction left generalizing b tagId n with
  | zero => cases ran
  | succ left ih =>
    rw [moreTag] at ran
    obtain ⟨c, mid, read, ran⟩ := run_bind_eq_ok.1 ran
    have one : (countedByte n).run b = .ok (c, n + 1) mid := by
      rw [countedByte, run_bind_of_ok read]
      rfl
    obtain ⟨steady', w, rfl, tape, -⟩ := countedByte_recognises.sound steady one
    by_cases goesOn : c &&& 0x80 ≠ 0
    · simp only [if_pos goesOn] at ran
      obtain ⟨steady'', more, last, top, ends, few, left', word, count⟩ := ih steady' ran
      refine ⟨steady'', c :: more, last, ?_, ends, by simpa using few, ?_, word, ?_⟩
      · intro d isIn
        rcases List.mem_cons.1 isIn with rfl | later
        · exact goesOn
        · exact top d later
      · change b.unread = [c] ++ mid.unread at tape
        rw [tape, left']
        rfl
      · rw [count, List.length_cons, UInt64.add_assoc, Nat.add_comm (more.length + 1),
          UInt64.ofNat_add 1]
        rfl
    · simp only [if_neg goesOn] at ran
      obtain ⟨rfl, same⟩ := run_pure_eq_ok.1 ran
      obtain ⟨rfl, rfl⟩ := Prod.mk.inj same
      refine ⟨steady', [], c, by simp, not_not.1 goesOn, by simp, tape, ?_, rfl⟩
      cases left <;> rfl

theorem bDecTag_recognises : asnTape.Recognises bDecTag TagOctets where
  accepts := by
    rintro b w rest tag steady tape ⟨isTag, few, rfl⟩ n
    exact (bDecTag_isTag steady.sound isTag few tape).completes (keepsDeck_bDecTag n) steady
      (by rw [show b.unread = _ from tape]; simp)
  sound := by
    intro b b' n m tag steady ran
    rw [bDecTag] at ran
    obtain ⟨first, mid, read, ran⟩ := run_bind_eq_ok.1 ran
    have one : (countedByte n).run b = .ok (first, n + 1) mid := by
      rw [countedByte, run_bind_of_ok read]
      rfl
    obtain ⟨steady', w, rfl, tape, -⟩ := countedByte_recognises.sound steady one
    by_cases long : first &&& 0x1F = 0x1F
    · simp only [if_pos long] at ran
      obtain ⟨steady'', more, last, top, ends, few, left, word, count⟩ := moreTag_sound steady' ran
      refine ⟨steady'', first :: (more ++ [last]), ⟨.inr ⟨first, more, last, rfl, long, top, ends⟩,
        ?_, word⟩, ?_, ?_⟩
      · rw [List.length_cons, List.length_append, List.length_singleton]
        omega
      · change b.unread = [first] ++ mid.unread at tape
        change b.unread = _ ++ b'.unread
        rw [tape, left]
        simp
      · change m = n + UInt64.ofNat _
        rw [count, List.length_cons, List.length_append, List.length_singleton, UInt64.add_assoc,
          Nat.add_comm (more.length + 1), UInt64.ofNat_add 1]
        rfl
    · simp only [if_neg long] at ran
      obtain ⟨rfl, same⟩ := run_pure_eq_ok.1 ran
      obtain ⟨rfl, rfl⟩ := Prod.mk.inj same
      exact ⟨steady', [first], ⟨.inl ⟨first, rfl, long⟩, by simp, rfl⟩, tape, rfl⟩

/-! ## Lengths -/

/-- The octets of a length that fits a word, with the word that they make. -/
def LenOctets (w : List UInt8) (len : AsnLen) : Prop :=
  w = [0x80] ∧ len = INDEFINITE_LEN ∨
    ∃ m, IsLength w m ∧ w.length ≤ 9 ∧ len = UInt64.ofNat m

/-- What completes behind the first octet of a long length. -/
theorem lenOctets_sound {lenBytes : Nat} {start len : AsnLen} {b b' : AsnBuf}
    (steady : b.Steady)
    (ran : (lenOctets lenBytes start).run b = .ok len b') :
    b'.Steady ∧ ∃ more, more.length = lenBytes ∧ b.unread = more ++ b'.unread ∧
      len = UInt64.ofNat (start.toNat * 256 ^ more.length + ofOctets more) := by
  -- As many octets are there as were read.
  have takes := lenOctets_takes steady.sound ran
  have enough : (b.unread.take lenBytes).length = lenBytes := by
    rw [List.length_take, Nat.min_eq_left takes.within]
  have tape : b.unread = b.unread.take lenBytes ++ b'.unread := by
    rw [takes.unread, List.take_append_drop]
  have acts := lenOctets_acts steady.sound start tape
  rw [enough] at acts
  have value := (acts.eq_of_ok ran).1
  refine ⟨⟨takes.sound, (keepsDeck_lenOctets _ _).inOrder.of_ok steady.inOrder ran⟩,
    b.unread.take lenBytes, enough, tape, ?_⟩
  simp only [Except.ok.injEq] at value
  rw [enough]
  exact value.symm

theorem bDecLen_recognises : asnTape.Recognises bDecLen LenOctets where
  accepts := by
    rintro b w rest len steady tape inLang n
    have shrinks : rest.length ≤ b.unread.length := by rw [show b.unread = _ from tape]; simp
    rcases inLang with ⟨rfl, rfl⟩ | ⟨m, isLength, few, rfl⟩
    · exact (bDecLen_indefinite steady.sound tape).completes (keepsDeck_bDecLen n) steady shrinks
    · exact (bDecLen_isLength steady.sound isLength few tape).completes (keepsDeck_bDecLen n)
        steady shrinks
  sound := by
    intro b b' n m len steady ran
    rw [bDecLen] at ran
    obtain ⟨first, mid, read, ran⟩ := run_bind_eq_ok.1 ran
    have one : (countedByte n).run b = .ok (first, n + 1) mid := by
      rw [countedByte, run_bind_of_ok read]
      rfl
    obtain ⟨steady', w, rfl, tape, -⟩ := countedByte_recognises.sound steady one
    by_cases short : first < 0x80
    · simp only [if_pos short] at ran
      obtain ⟨rfl, same⟩ := run_pure_eq_ok.1 ran
      obtain ⟨rfl, rfl⟩ := Prod.mk.inj same
      refine ⟨steady', [first], .inr ⟨first.toNat, isLength_short short, by simp, ?_⟩, tape, rfl⟩
      exact (UInt64.ofNat_uInt8ToNat first).symm
    · by_cases endless : first = 0x80
      · simp only [if_neg short, if_pos endless] at ran
        obtain ⟨rfl, same⟩ := run_pure_eq_ok.1 ran
        obtain ⟨rfl, rfl⟩ := Prod.mk.inj same
        exact ⟨steady', [first], .inl ⟨by rw [endless], rfl⟩, tape, rfl⟩
      · simp only [if_neg short, if_neg endless] at ran
        by_cases many : 8 < (first &&& 0x7F).toNat
        · rw [if_pos many] at ran
          cases ran
        · rw [if_neg many] at ran
          obtain ⟨value, last, readMore, ran⟩ := run_bind_eq_ok.1 ran
          cases ran
          obtain ⟨steady'', more, size, left, word⟩ := lenOctets_sound steady' readMore
          have masked : (first &&& 0x7F).toNat = first.toNat % 128 :=
            Nat.and_two_pow_sub_one_eq_mod first.toNat 7
          have top : (0x80 : UInt8).toNat = 128 := rfl
          have all : (0xFF : UInt8).toNat = 255 := rfl
          have notShort : ¬ first.toNat < 128 := fun h => short (UInt8.lt_iff_toNat_lt.2 h)
          have notEndless : first.toNat ≠ 128 := fun h => endless (UInt8.toNat_inj.1 h)
          have byte := first.toNat_lt
          rw [masked] at many size
          have isLength : IsLength (first :: more) (ofOctets more) := by
            refine .inr ⟨first, more, rfl, ?_, ?_, ?_, rfl⟩
            · rw [UInt8.lt_iff_toNat_lt]
              omega
            · rw [UInt8.lt_iff_toNat_lt]
              omega
            · omega
          refine ⟨steady'', first :: more, .inr ⟨_, isLength, ?_, ?_⟩, ?_, ?_⟩
          · rw [List.length_cons]
            omega
          · rw [word, UInt64.toNat_zero, Nat.zero_mul, Nat.zero_add]
          · change b.unread = [first] ++ mid.unread at tape
            change b.unread = _ ++ b'.unread
            rw [tape, left]
            rfl
          · change _ = n + UInt64.ofNat _
            rw [masked, ← size, List.length_cons, UInt64.add_assoc, Nat.add_comm,
              UInt64.ofNat_add]
            rfl

/-! ## Ends of contents -/

/-- The two octets at the end of contents. -/
def EocOctets (w : List UInt8) (_ : Unit) : Prop :=
  w = [0, 0]

/-- Read the end of contents and count it. -/
def countedEoc (n : AsnLen) : BufM (Unit × AsnLen) := do
  let n ← bDecEoc n
  return ((), n)

theorem bDecEoc_completes {b : AsnBuf} (steady : b.Steady) {rest : List UInt8}
    (tape : b.unread = 0 :: 0 :: rest) (n : AsnLen) :
    ∃ b', (bDecEoc n).run b = .ok (asnTape.advance n 2) b' ∧ b'.Steady ∧ b'.unread = rest := by
  obtain ⟨mid, read, steady', left⟩ := steady.getByte_cons tape
  obtain ⟨b', read', steady'', left'⟩ := steady'.getByte_cons left
  refine ⟨b', ?_, steady'', left'⟩
  rw [bDecEoc, run_bind_of_ok read]
  change EStateM.run (getByte >>= _) mid = _
  rw [run_bind_of_ok read']
  rfl

theorem bDec2ndEocOctet_completes {b : AsnBuf} (steady : b.Steady) {rest : List UInt8}
    (tape : b.unread = 0 :: rest) (n : AsnLen) :
    ∃ b', (bDec2ndEocOctet n).run b = .ok (asnTape.advance n 1) b' ∧ b'.Steady ∧
      b'.unread = rest := by
  obtain ⟨b', read, steady', left⟩ := steady.getByte_cons tape
  refine ⟨b', ?_, steady', left⟩
  rw [bDec2ndEocOctet, run_bind_of_ok read]
  rfl

theorem countedEoc_recognises : asnTape.Recognises countedEoc EocOctets where
  accepts := by
    rintro b w rest ⟨⟩ steady tape rfl n
    obtain ⟨b', ended, steady', left⟩ := bDecEoc_completes steady tape n
    exact ⟨b', by rw [countedEoc, run_bind_of_ok ended]; rfl, steady', left⟩
  sound := by
    intro b b' n m x steady ran
    rw [countedEoc] at ran
    obtain ⟨k, end', both, ran⟩ := run_bind_eq_ok.1 ran
    cases ran
    have inOrder := (keepsDeck_bDecEoc n).inOrder.of_ok steady.inOrder both
    rw [bDecEoc] at both
    obtain ⟨first, mid, read, both⟩ := run_bind_eq_ok.1 both
    obtain ⟨takes, head⟩ := getByte_takes steady.sound read
    by_cases zero : first ≠ 0
    · rw [if_pos zero] at both
      cases both
    · rw [if_neg zero] at both
      obtain ⟨second, last, read', both⟩ := run_bind_eq_ok.1 both
      obtain ⟨takes', head'⟩ := getByte_takes takes.sound read'
      by_cases zero' : second ≠ 0
      · rw [if_pos zero'] at both
        cases both
      · rw [if_neg zero'] at both
        cases both
        rw [not_not.1 zero] at head
        rw [not_not.1 zero'] at head'
        refine ⟨⟨takes'.sound, inOrder⟩, [0, 0], rfl, ?_, rfl⟩
        change b.unread = [0, 0] ++ b'.unread
        rw [takes'.unread, takes.unread]
        rw [takes.unread] at head'
        cases unread : b.unread with
        | nil => simp [unread] at head
        | cons c rest =>
          cases rest with
          | nil => simp [unread] at head'
          | cons d rest =>
            simp only [unread, List.head?_cons, List.drop_succ_cons, List.drop_zero,
              Option.some.injEq] at head head' ⊢
            rw [head, head']
            rfl

end Esnacc.Cxx
