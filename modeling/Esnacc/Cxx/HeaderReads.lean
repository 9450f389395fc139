import Esnacc.Cxx.SoundReads
import Esnacc.Lib.BerForms

/-! What the tags and lengths that are read take from the buffer. -/

namespace Esnacc.Cxx

open Lib

/-- A read takes some octets and adds their number to a count. -/
def Counts (b b' : AsnBuf) (n n' : AsnLen) : Prop :=
  ∃ k, Takes b b' k ∧ n' = n + UInt64.ofNat k

section

variable {b b' mid : AsnBuf}

theorem Counts.refl (sound : b.Sound) (n : AsnLen) : Counts b b n n :=
  ⟨0, .refl sound, (UInt64.add_zero n).symm⟩

theorem Counts.trans {n m n' : AsnLen} (first : Counts b mid n m) (second : Counts mid b' m n') :
    Counts b b' n n' := by
  obtain ⟨j, takes, rfl⟩ := first
  obtain ⟨k, takes', rfl⟩ := second
  exact ⟨j + k, takes.trans takes', by rw [UInt64.ofNat_add, UInt64.add_assoc]⟩

theorem Counts.sound {n n' : AsnLen} (counts : Counts b b' n n') : b'.Sound := by
  obtain ⟨k, takes, -⟩ := counts
  exact takes.sound

theorem moreTag_counts (sound : b.Sound) {left : Nat} {tagId tag : AsnTag} {n n' : AsnLen}
    (ran : (moreTag left tagId n).run b = .ok (tag, n') b') : Counts b b' n n' := by
  -- The induction is on the octets that still fit the word.
  induction left generalizing b tagId n with
  | zero => cases ran
  | succ left ih =>
    rw [moreTag] at ran
    obtain ⟨tagByte, mid, read, rest⟩ := run_bind_eq_ok.mp ran
    have first : Counts b mid n (n + 1) := ⟨1, (getByte_takes sound read).1, rfl⟩
    by_cases goesOn : tagByte &&& 0x80 ≠ 0
    · simp only [if_pos goesOn] at rest
      exact first.trans (ih first.sound rest)
    · simp only [if_neg goesOn] at rest
      cases rest
      exact first

/-- A tag that is read is counted. -/
theorem bDecTag_counts (sound : b.Sound) {tag : AsnTag} {n n' : AsnLen}
    (ran : (bDecTag n).run b = .ok (tag, n') b') : Counts b b' n n' := by
  rw [bDecTag] at ran
  obtain ⟨tagByte, mid, read, rest⟩ := run_bind_eq_ok.mp ran
  have first : Counts b mid n (n + 1) := ⟨1, (getByte_takes sound read).1, rfl⟩
  by_cases long : tagByte &&& 0x1F = 0x1F
  · simp only [if_pos long] at rest
    exact first.trans (moreTag_counts first.sound rest)
  · simp only [if_neg long] at rest
    obtain ⟨rfl, same⟩ := run_pure_eq_ok.mp rest
    rw [(Prod.mk.inj same).2]
    exact first

theorem lenOctets_takes (sound : b.Sound) {lenBytes : Nat} {start len : AsnLen}
    (ran : (lenOctets lenBytes start).run b = .ok len b') : Takes b b' lenBytes := by
  induction lenBytes generalizing b start with
  | zero =>
    cases ran
    exact .refl sound
  | succ lenBytes ih =>
    rw [lenOctets] at ran
    obtain ⟨byte, mid, read, rest⟩ := run_bind_eq_ok.mp ran
    have first := (getByte_takes sound read).1
    have all := first.trans (ih first.sound rest)
    rwa [Nat.add_comm] at all

/-- A length that is read is counted. -/
theorem bDecLen_counts (sound : b.Sound) {len n n' : AsnLen}
    (ran : (bDecLen n).run b = .ok (len, n') b') : Counts b b' n n' := by
  rw [bDecLen] at ran
  obtain ⟨byte, mid, read, rest⟩ := run_bind_eq_ok.mp ran
  have first : Counts b mid n (n + 1) := ⟨1, (getByte_takes sound read).1, rfl⟩
  by_cases short : byte < 0x80
  · simp only [if_pos short] at rest
    cases rest
    exact first
  · simp only [if_neg short] at rest
    by_cases endless : byte = 0x80
    · simp only [if_pos endless] at rest
      cases rest
      exact first
    · simp only [if_neg endless] at rest
      by_cases large : 8 < (byte &&& 0x7F).toNat
      · simp only [if_pos large] at rest
        cases rest
      · simp only [if_neg large] at rest
        obtain ⟨value, last, octets, done⟩ := run_bind_eq_ok.mp rest
        cases done
        exact first.trans ⟨_, lenOctets_takes first.sound octets, rfl⟩

end

/-! ## Headers that are well formed -/

section

variable {b : AsnBuf} {n : AsnLen} {rest : List UInt8}

theorem bDecTag_short (sound : b.Sound) {c : UInt8} (short : c &&& 0x1F ≠ 0x1F)
    (unread : b.unread = c :: rest) :
    Acts (bDecTag n) b (.ok (c.toUInt32 <<< 24, n + 1), rest) := by
  rw [bDecTag]
  refine (sound.getByte_cons unread).bind sound (by simp [unread]) fun b' sound' left => ?_
  simp only [if_neg short]
  rw [← left]
  exact Acts.pure sound' _

/-- The word of the octets of a tag behind those that are in it, with the octets that still fit. -/
def moreWord : Nat → AsnTag → List UInt8 → AsnTag
  | left + 1, tagId, c :: more => moreWord left (tagId ||| c.toUInt32 <<< UInt32.ofNat (left * 8)) more
  | _, tagId, _ => tagId

/-- The word of a tag. -/
def tagWord : List UInt8 → AsnTag
  | [] => 0
  | first :: more => moreWord 3 (first.toUInt32 <<< 24) more

theorem moreTag_acts (sound : b.Sound) (left : Nat) (tagId : AsnTag) {more : List UInt8}
    {last : UInt8} (goesOn : ∀ c ∈ more, c &&& 0x80 ≠ 0) (ends : last &&& 0x80 = 0)
    (fits : more.length < left) (unread : b.unread = more ++ last :: rest) :
    Acts (moreTag left tagId n) b
      (.ok (moreWord left tagId (more ++ [last]), n + UInt64.ofNat (more.length + 1)), rest) := by
  -- The induction is on the octets in front of the last one.
  induction more generalizing b left tagId n with
  | nil =>
    obtain ⟨left, rfl⟩ := Nat.exists_eq_succ_of_ne_zero (Nat.ne_of_gt fits)
    rw [moreTag]
    refine (sound.getByte_cons unread).bind sound (by simp [unread]) fun b' sound' gone => ?_
    have stops : ¬ last &&& 0x80 ≠ 0 := not_not.mpr ends
    have word : moreWord (left + 1) tagId ([] ++ [last]) =
        tagId ||| last.toUInt32 <<< UInt32.ofNat (left * 8) := by
      cases left <;> rfl
    simp only [if_neg stops]
    rw [← gone, word]
    exact Acts.pure sound' _
  | cons c more ih =>
    obtain ⟨left, rfl⟩ := Nat.exists_eq_succ_of_ne_zero (Nat.ne_of_gt (Nat.zero_lt_of_lt fits))
    rw [List.length_cons] at fits
    rw [moreTag]
    refine (sound.getByte_cons unread).bind sound (by simp [unread]) fun b' sound' gone => ?_
    have top : c &&& 0x80 ≠ 0 := goesOn c List.mem_cons_self
    simp only [if_pos top]
    have later := ih (n := n + 1) sound' left (tagId ||| c.toUInt32 <<< UInt32.ofNat (left * 8))
      (fun d listed => goesOn d (List.mem_cons_of_mem c listed)) (Nat.lt_of_succ_lt_succ fits) gone
    have counted : n + 1 + UInt64.ofNat (more.length + 1) =
        n + UInt64.ofNat ((c :: more).length + 1) := by
      rw [List.length_cons, UInt64.add_assoc, Nat.add_comm (more.length + 1), UInt64.ofNat_add 1]
      rfl
    rw [counted] at later
    exact later

/-- A tag of at most four octets is read. -/
theorem bDecTag_isTag (sound : b.Sound) {tag : List UInt8} (isTag : IsTag tag)
    (fits : tag.length ≤ 4) (unread : b.unread = tag ++ rest) :
    Acts (bDecTag n) b (.ok (tagWord tag, n + UInt64.ofNat tag.length), rest) := by
  rcases isTag with ⟨first, rfl, short⟩ | ⟨first, more, last, rfl, long, goesOn, ends⟩
  · exact bDecTag_short sound short unread
  · rw [bDecTag]
    rw [List.length_cons, List.length_append, List.length_singleton] at fits
    rw [List.cons_append, List.append_assoc] at unread
    refine (sound.getByte_cons unread).bind sound (by simp [unread]) fun b' sound' left => ?_
    simp only [if_pos long]
    have later := moreTag_acts (n := n + 1) sound' 3 (first.toUInt32 <<< 24) goesOn ends
      (by omega) left
    have counted : n + 1 + UInt64.ofNat (more.length + 1) =
        n + UInt64.ofNat (first :: (more ++ [last])).length := by
      rw [List.length_cons, List.length_append, List.length_singleton, UInt64.add_assoc,
        Nat.add_comm (more.length + 1), UInt64.ofNat_add 1]
      rfl
    rw [counted] at later
    exact later

/-- Octets shifted into a word write a number behind the one it holds. -/
theorem lenOctets_acts (sound : b.Sound) (start : AsnLen) {octets : List UInt8}
    (unread : b.unread = octets ++ rest) :
    Acts (lenOctets octets.length start) b
      (.ok (UInt64.ofNat (start.toNat * 256 ^ octets.length + ofOctets octets)), rest) := by
  induction octets generalizing b start with
  | nil =>
    have same : UInt64.ofNat (start.toNat * 256 ^ 0 + 0) = start := by
      rw [Nat.pow_zero, Nat.mul_one, Nat.add_zero, UInt64.ofNat_toNat]
    rw [List.length_nil, ofOctets_nil, same, ← show b.unread = rest from unread]
    exact Acts.pure sound start
  | cons c octets ih =>
    rw [List.length_cons, lenOctets]
    refine (sound.getByte_cons unread).bind sound (by simp [unread]) fun b' sound' left => ?_
    have later := ih sound' (start <<< 8 ||| c.toUInt64) left
    rw [ofNat_digits_behind] at later
    exact later

/-- A length of at most eight octets behind the first one is read. -/
theorem bDecLen_isLength (sound : b.Sound) {len : List UInt8} {m : Nat} (isLength : IsLength len m)
    (fits : len.length ≤ 9) (unread : b.unread = len ++ rest) :
    Acts (bDecLen n) b (.ok (UInt64.ofNat m, n + UInt64.ofNat len.length), rest) := by
  rw [bDecLen]
  rcases isLength with ⟨c, rfl, short, rfl⟩ | ⟨c, more, rfl, above, below, count, rfl⟩
  · rw [List.singleton_append] at unread
    refine (sound.getByte_cons unread).bind sound (by simp [unread]) fun b' sound' left => ?_
    simp only [if_pos short]
    rw [← left]
    have same : c.toUInt64 = UInt64.ofNat c.toNat := (UInt64.ofNat_uInt8ToNat c).symm
    rw [same]
    exact Acts.pure sound' _
  · rw [List.cons_append] at unread
    obtain ⟨notShort, notEndless, number⟩ := longForm_first above below count
    refine (sound.getByte_cons unread).bind sound (by simp [unread]) fun b' sound' left => ?_
    rw [List.length_cons] at fits
    simp only [if_neg notShort, if_neg notEndless, number]
    rw [if_neg (by omega)]
    refine (lenOctets_acts sound' 0 left).bind sound' (by simp [left])
      fun last soundLast rested => ?_
    have value : UInt64.ofNat ((0 : AsnLen).toNat * 256 ^ more.length + ofOctets more) =
        UInt64.ofNat (ofOctets more) := by
      rw [UInt64.toNat_zero, Nat.zero_mul, Nat.zero_add]
    have counted : n + 1 + UInt64.ofNat more.length =
        n + UInt64.ofNat (c :: more).length := by
      rw [List.length_cons, UInt64.add_assoc, Nat.add_comm, UInt64.ofNat_add]
      rfl
    rw [value, counted, ← rested]
    exact Acts.pure soundLast _

/-- A length of more octets is refused. -/
theorem bDecLen_long (sound : b.Sound) {len : List UInt8} {m : Nat} (isLength : IsLength len m)
    (large : 9 < len.length) (unread : b.unread = len ++ rest) :
    ∃ left, Acts (bDecLen n) b (.error (boundsException "length overflow"), left) := by
  rcases isLength with ⟨c, rfl, -⟩ | ⟨c, more, rfl, above, below, count, -⟩
  · rw [List.length_singleton] at large
    omega
  · rw [List.cons_append] at unread
    obtain ⟨notShort, notEndless, number⟩ := longForm_first above below count
    refine ⟨more ++ rest, ?_⟩
    rw [bDecLen]
    refine (sound.getByte_cons unread).bind sound (by simp [unread]) fun b' sound' left => ?_
    rw [List.length_cons] at large
    simp only [if_neg notShort, if_neg notEndless, number]
    rw [if_pos (by omega), ← left]
    exact Acts.throw sound' _

theorem bDecLen_indefinite (sound : b.Sound) (unread : b.unread = 0x80 :: rest) :
    Acts (bDecLen n) b (.ok (INDEFINITE_LEN, n + 1), rest) := by
  rw [bDecLen]
  refine (sound.getByte_cons unread).bind sound (by simp [unread]) fun b' sound' left => ?_
  rw [if_neg (by decide), if_pos rfl, ← left]
  exact Acts.pure sound' _

end

end Esnacc.Cxx
