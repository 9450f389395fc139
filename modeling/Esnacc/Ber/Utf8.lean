import Esnacc.Ber.Primitives
import Esnacc.Lib.TailOctets

/-! UTF-8: checking octets, and converting between them and wide characters. -/

namespace Esnacc

open Lib

abbrev UTF8String := AsnOcts

/-- A `wchar_t` of 32 bits, the sign of which matters in one test only. -/
abbrev WChar := UInt32

/-- What the first octets of characters of one size share, and the largest such character. -/
structure MaskValue where
  mask : UInt8
  value : UInt8
  maxCharValue : UInt64

def MAX_UTF8_OCTS_PER_CHAR : Nat := 6

def gUTF8Masks : List MaskValue :=
  [⟨0x80, 0x00, 0x0000007F⟩, ⟨0xE0, 0xC0, 0x000007FF⟩, ⟨0xF0, 0xE0, 0x0000FFFF⟩,
    ⟨0xF8, 0xF0, 0x0001FFFF⟩, ⟨0xFC, 0xF8, 0x03FFFFFF⟩, ⟨0xFE, 0xFC, 0x07FFFFFF⟩]

/-- How many octets follow the first one of a character, or the number of sizes for another octet. -/
def followingOctets (c : UInt8) : Nat :=
  gUTF8Masks.findIdx fun m => m.mask &&& c == m.value

/-- How many octets follow the first one for a character, or the number of sizes for a larger one. -/
def followingOf (w : WChar) : Nat :=
  gUTF8Masks.findIdx fun m => w.toUInt64 ≤ m.maxCharValue

/-- The octet at an index. -/
def octAt (octs : List UInt8) (i : Nat) : Except Exit UInt8 :=
  match octs[i]? with
  | some c => .ok c
  | none => .error .fault

/-! ## Checking -/

/-- The loop over the octets behind a first one. -/
def checkFollowing (octs : List UInt8) : Nat → UInt64 → Except Exit (Bool × UInt64)
  | 0, i => return (true, i)
  | j + 1, i => do
    let c ← octAt octs i.toNat
    if c &&& 0xC0 != 0x80 then return (false, i + 1) else checkFollowing octs j (i + 1)

/-- The loop over the characters of a string. -/
def checkChars (octs : UTF8String) : Nat → UInt64 → Except Exit Bool
  | 0, _ => throw .outOfTurns
  | turns + 1, i =>
    if i < octs.octetLen then do
      let j := followingOctets (← octAt octs.octs i.toNat)
      if j == MAX_UTF8_OCTS_PER_CHAR || i + UInt64.ofNat j ≥ octs.octetLen then return false
      else
        let (valid, i) ← checkFollowing octs.octs j (i + 1)
        if valid then checkChars octs turns i else return false
    else return true

/-- Check a string; a turn passes an octet at least. -/
def isValidUTF8String (octs : UTF8String) : Except Exit Bool :=
  checkChars octs (octs.octs.length + 1) 0

/-! ## Converting to wide characters -/

/-- The octet at an index of a string, or the NUL behind it. -/
def charAt (utf8Str : List UInt8) (i : UInt32) : Except Exit UInt8 :=
  octAt (utf8Str ++ [0]) i.toNat

/-- The loop that adds the bits of the octets behind a first one. -/
def addFollowing (utf8Str : List UInt8) : Nat → UInt32 → WChar → Except Exit (Option WChar × UInt32)
  | 0, i, w => return (some w, i)
  | j + 1, i, w => do
    let c ← charAt utf8Str i
    if c &&& 0xC0 != 0x80 then return (none, i)
    else addFollowing utf8Str j (i + 1) (w <<< 6 ||| (c &&& 0x3F).toUInt32)

/-- The loop over the characters of a string, with those converted so far. -/
def decodeChars (utf8Str : List UInt8) (len : UInt32) :
    Nat → UInt32 → List WChar → Except Exit (Int32 × Option (List WChar))
  | 0, _, _ => throw .outOfTurns
  | turns + 1, i, outStr =>
    if i < len then do
      let c ← charAt utf8Str i
      let j := followingOctets c
      match gUTF8Masks[j]? with
      | none => return (-3, none)
      | some m =>
        if i + UInt32.ofNat j ≥ len then return (-3, none)
        else
          -- A `wchar_t` of 32 bits supports characters of every size.
          let (w, i) ← addFollowing utf8Str j (i + 1) (~~~m.mask &&& c).toUInt32
          match w with
          | none => return (-3, none)
          | some w => decodeChars utf8Str len turns i (outStr ++ [w])
    else return (0, some outStr)

/-- Convert a string, given up to its NUL, to wide characters. -/
def cvtUTF8towchar (utf8Str : List UInt8) : Except Exit (Int32 × Option (List WChar)) :=
  decodeChars utf8Str (UInt32.ofNat utf8Str.length) (utf8Str.length + 1) 0 []

/-! ## Converting from wide characters -/

/-- Store an octet in the allocated ones. -/
@[grind =] def putOct (buf : List UInt8) (i : UInt32) (c : UInt8) : Except Exit (List UInt8) :=
  if i.toNat < buf.length then .ok (buf.set i.toNat c) else .error .fault

/-- The loop that fills the octets behind a first one from right to left. -/
def fillFollowing (x : UInt32) : Nat → WChar → List UInt8 → Except Exit (WChar × List UInt8)
  | 0, temp_wchar, buf => return (temp_wchar, buf)
  | y + 1, temp_wchar, buf => do
    let buf ← putOct buf (x + UInt32.ofNat (y + 1)) (0x80 ||| temp_wchar &&& 0x3F).toUInt8
    fillFollowing x y (temp_wchar >>> 6) buf

/-- The loop over the wide characters. -/
def encodeChars (inStr : List WChar) :
    Nat → UInt32 → UInt32 → List UInt8 → Except Exit (Int32 × Option (List UInt8))
  | 0, _, _, _ => throw .outOfTurns
  | turns + 1, i, x, buf =>
    match inStr[i.toNat]? with
    | none => return (0, some (buf.takeWhile (· != 0)))
    | some temp_wchar =>
      if temp_wchar.toInt32 < 0 then return (-3, none)
      else
        let j := followingOf temp_wchar
        match gUTF8Masks[j]? with
        | none => return (-3, none)
        | some m => do
          let (temp_wchar, buf) ← fillFollowing x j temp_wchar buf
          let buf ← putOct buf x (m.value ||| ~~~m.mask &&& temp_wchar.toUInt8)
          encodeChars inStr turns (i + 1) (x + 1 + UInt32.ofNat j) buf

/--
Convert wide characters up to their NUL to a string, which is read up to its NUL.

The index of the loop is an `unsigned int`, so it makes any number of turns for enough characters.
-/
def cvtWchar2UTF8 (turns : Nat) (inStr : List WChar) :
    Except Exit (Int32 × Option (List UInt8)) :=
  let inStr := inStr.takeWhile (· != 0)
  let size := UInt64.ofNat inStr.length * (4 / 2 * 3) + 1
  encodeChars inStr turns 0 0 (List.replicate size.toNat 0)

/-! ## Sequences -/

/-- The bits that a first octet carries. -/
def leadBits (c : UInt8) : Nat :=
  match gUTF8Masks[followingOctets c]? with
  | some m => (~~~m.mask &&& c).toNat
  | none => 0

/-- The octets of one character: a first one, and as many behind it as it asks for. -/
def IsSequence (s : List UInt8) : Prop :=
  ∃ c l, s = c :: l ∧ followingOctets c = l.length ∧ l.length < 6 ∧ ∀ d ∈ l, IsTail d

/-- The character that the octets stand for. -/
def charOf : List UInt8 → Nat
  | [] => 0
  | c :: l => l.foldl addSixBits (leadBits c)

/-- Octets that are those of characters. -/
def IsUtf8 (octs : List UInt8) : Prop :=
  ∃ seqs : List (List UInt8), (∀ s ∈ seqs, IsSequence s) ∧ octs = seqs.flatten

/-- What the table says of a first octet. -/
structure LeadOctet (c : UInt8) (m : MaskValue) : Prop where
  entry : gUTF8Masks[followingOctets c]? = some m
  bits : (~~~m.mask &&& c).toNat = leadBits c
  octet : m.value ||| ~~~m.mask &&& UInt8.ofNat (leadBits c) = c
  small : (leadBits c + 1) * 64 ^ followingOctets c ≤ 2 ^ 31

theorem leadOctet {c : UInt8} (lead : followingOctets c < 6) : ∃ m, LeadOctet c m := by
  have each : ∀ c : Fin 256, followingOctets (.ofFin c) < 6 →
      ((gUTF8Masks[followingOctets (.ofFin c)]?).map fun m =>
        decide ((~~~m.mask &&& UInt8.ofFin c).toNat = leadBits (.ofFin c) ∧
          m.value ||| ~~~m.mask &&& UInt8.ofNat (leadBits (.ofFin c)) = .ofFin c ∧
          (leadBits (.ofFin c) + 1) * 64 ^ followingOctets (.ofFin c) ≤ 2 ^ 31)) = some true := by
    decide +kernel
  obtain ⟨m, entry, facts⟩ := Option.map_eq_some_iff.mp (each c.toFin lead)
  obtain ⟨bits, octet, small⟩ := of_decide_eq_true facts
  exact ⟨m, entry, bits, octet, small⟩

theorem isTail_each (c : Fin 256) :
    (IsTail (.ofFin c) → followingOctets (.ofFin c) = 6) ∧
      (UInt8.ofFin c &&& 0xC0 = 0x80 ↔ IsTail (.ofFin c)) := by
  revert c
  decide +kernel

theorem followingOctets_of_isTail {c : UInt8} (tail : IsTail c) : followingOctets c = 6 :=
  (isTail_each c.toFin).1 tail

theorem and_tail_mask {c : UInt8} : c &&& 0xC0 = 0x80 ↔ IsTail c :=
  (isTail_each c.toFin).2

theorem IsSequence.ne_nil {s : List UInt8} (seq : IsSequence s) : s ≠ [] := by
  obtain ⟨c, l, rfl, -⟩ := seq
  exact List.cons_ne_nil _ _

theorem IsSequence.charOf_lt {s : List UInt8} (seq : IsSequence s) : charOf s < 2 ^ 31 := by
  obtain ⟨c, l, rfl, count, few, tails⟩ := seq
  obtain ⟨m, lead⟩ := leadOctet (show followingOctets c < 6 by omega)
  have quotient := (foldl_addSixBits tails (leadBits c)).2
  have small := lead.small
  have positive : 0 < 64 ^ l.length := Nat.pow_pos (by decide)
  rw [count] at small
  exact Nat.lt_of_lt_of_le
    (Nat.lt_mul_of_div_lt (Nat.lt_succ_of_le quotient.le) positive) small

theorem IsSequence.eq_of_prefix :
    ∀ s ∈ {s : List UInt8 | IsSequence s}, ∀ t ∈ {s : List UInt8 | IsSequence s}, s <+: t → s = t := by
  rintro _ ⟨c, l, rfl, count, -⟩ _ ⟨c', l', rfl, count', -⟩ begins
  obtain ⟨rfl, behind⟩ := List.cons_prefix_cons.mp begins
  rw [behind.eq_of_length (count.symm.trans count')]

theorem isSequence_uniquelyDecodable :
    InformationTheory.UniquelyDecodable {s : List UInt8 | IsSequence s} := by
  apply uniquelyDecodable_of_prefixFree
  · intro empty
    exact IsSequence.ne_nil empty rfl
  · exact IsSequence.eq_of_prefix

theorem IsSequence.not_isTail {c : UInt8} {l : List UInt8} (seq : IsSequence (c :: l)) :
    ¬ IsTail c := by
  intro tail
  obtain ⟨c', l', same, count, few, -⟩ := seq
  cases same
  rw [followingOctets_of_isTail tail] at count
  omega

/-! ## What is accepted -/

section

variable {octs : List UInt8} {i i' : UInt64} {j : Nat}

theorem octAt_eq_ok {i : Nat} {c : UInt8} : octAt octs i = .ok c ↔ octs[i]? = some c := by
  rw [octAt]
  cases octs[i]? <;> simp

/-- Octets that are checked are tails, and they are there. -/
theorem checkFollowing_eq_ok (whole : octs.length < 2 ^ 64) :
    checkFollowing octs j i = .ok (true, i') ↔
      (i.toNat + j ≤ octs.length ∨ j = 0) ∧ (∀ d ∈ (octs.drop i.toNat).take j, IsTail d) ∧
        i' = i + UInt64.ofNat j := by
  induction j generalizing i with
  | zero => simp [checkFollowing, pure, Except.pure, eq_comm]
  | succ j ih =>
    rw [checkFollowing]
    cases there : octs[i.toNat]? with
    | none =>
      have outside := List.getElem?_eq_none_iff.mp there
      simp [octAt, there, bind, Except.bind]
      omega
    | some c =>
      obtain ⟨inside, value⟩ := List.getElem?_eq_some_iff.mp there
      have next : (i + 1).toNat = i.toNat + 1 := by
        rw [UInt64.toNat_add]
        change (i.toNat + 1) % 2 ^ 64 = _
        omega
      have split : (octs.drop i.toNat).take (j + 1) = c :: (octs.drop (i.toNat + 1)).take j := by
        rw [List.drop_eq_getElem_cons inside, List.take_succ_cons, value]
      have index : i + 1 + UInt64.ofNat j = i + UInt64.ofNat (j + 1) := by
        rw [UInt64.ofNat_add, UInt64.add_assoc, UInt64.add_comm 1]
        rfl
      rw [octAt_eq_ok.mpr there, split, List.forall_mem_cons]
      change (if c &&& 0xC0 != 0x80 then (pure (false, i + 1) : Except Exit _)
        else checkFollowing octs j (i + 1)) = _ ↔ _
      by_cases tail : IsTail c
      · rw [if_neg (by simpa using and_tail_mask.mpr tail), ih, next, index]
        have room : (i.toNat + 1 + j ≤ octs.length ∨ j = 0) ↔
            (i.toNat + (j + 1) ≤ octs.length ∨ j + 1 = 0) := by omega
        simp only [room, tail, true_and]
      · rw [if_pos (by simpa [and_tail_mask] using tail)]
        simp [tail, pure, Except.pure]

theorem followingOctets_le (c : UInt8) : followingOctets c ≤ 6 :=
  List.findIdx_le_length

/-- One turn of the check passes the octets of one character. -/
theorem checkChars_turn {octs : UTF8String} (whole : octs.octs.length = octs.octetLen.toNat)
    (turns : Nat) {i : UInt64} (inside : i < octs.octetLen) :
    checkChars octs (turns + 1) i = .ok true ↔ ∃ s rest, octs.octs.drop i.toNat = s ++ rest ∧
      IsSequence s ∧ checkChars octs turns (i + UInt64.ofNat s.length) = .ok true := by
  have bound := UInt64.toNat_lt octs.octetLen
  have within : i.toNat < octs.octs.length := by
    rw [whole]
    exact inside
  obtain ⟨c, there⟩ : ∃ c, octs.octs[i.toNat]? = some c := ⟨_, List.getElem?_eq_getElem within⟩
  have split : octs.octs.drop i.toNat = c :: octs.octs.drop (i.toNat + 1) := by
    rw [List.drop_eq_getElem_cons within]
    rw [List.getElem?_eq_getElem within, Option.some.injEq] at there
    rw [there]
  have next : (i + 1).toNat = i.toNat + 1 := by
    rw [UInt64.toNat_add]
    change (i.toNat + 1) % 2 ^ 64 = _
    omega
  have most := followingOctets_le c
  have word : (UInt64.ofNat (followingOctets c)).toNat = followingOctets c :=
    UInt64.toNat_ofNat_of_lt' (by rw [UInt64.size]; omega)
  rw [checkChars, if_pos inside, octAt_eq_ok.mpr there, split]
  change (if followingOctets c == MAX_UTF8_OCTS_PER_CHAR ||
      i + UInt64.ofNat (followingOctets c) ≥ octs.octetLen then (pure false : Except Exit Bool)
    else checkFollowing octs.octs (followingOctets c) (i + 1) >>= fun r =>
      if r.1 then checkChars octs turns r.2 else pure false) = _ ↔ _
  by_cases ends : (followingOctets c == MAX_UTF8_OCTS_PER_CHAR ||
      i + UInt64.ofNat (followingOctets c) ≥ octs.octetLen) = true
  · rw [if_pos ends]
    refine iff_of_false (by simp [pure, Except.pure]) ?_
    rintro ⟨_, rest, same, ⟨c', l, rfl, count, few, -⟩, -⟩
    rw [List.cons_append, List.cons.injEq] at same
    obtain ⟨rfl, behind⟩ := same
    have lengths := congrArg List.length behind
    rw [List.length_drop, List.length_append] at lengths
    rw [Bool.or_eq_true, beq_iff_eq, decide_eq_true_eq, ge_iff_le, UInt64.le_iff_toNat_le,
      UInt64.toNat_add, word] at ends
    rcases ends with none | outside
    · rw [MAX_UTF8_OCTS_PER_CHAR] at none
      omega
    · omega
  · rw [if_neg ends]
    rw [Bool.or_eq_true, beq_iff_eq, MAX_UTF8_OCTS_PER_CHAR, not_or] at ends
    have index : i + 1 + UInt64.ofNat (followingOctets c) =
        i + UInt64.ofNat (followingOctets c + 1) := by
      rw [UInt64.ofNat_add, UInt64.add_assoc, UInt64.add_comm 1]
      rfl
    constructor
    · intro accepted
      cases checked : checkFollowing octs.octs (followingOctets c) (i + 1) with
      | error e =>
        rw [checked] at accepted
        cases accepted
      | ok r =>
        obtain ⟨valid, i'⟩ := r
        rw [checked] at accepted
        cases valid with
        | false => cases accepted
        | true =>
          obtain ⟨room, tails, rfl⟩ := (checkFollowing_eq_ok (by omega)).mp checked
          rw [next] at room tails
          have count : ((octs.octs.drop (i.toNat + 1)).take (followingOctets c)).length =
              followingOctets c := by
            rw [List.length_take, List.length_drop]
            omega
          refine ⟨c :: (octs.octs.drop (i.toNat + 1)).take (followingOctets c), _,
            by rw [List.cons_append, List.take_append_drop],
            ⟨c, _, rfl, count.symm, by omega, tails⟩, ?_⟩
          rw [List.length_cons, count, ← index]
          exact accepted
    · rintro ⟨_, rest, same, ⟨c', l, rfl, count, few, tails⟩, accepted⟩
      rw [List.cons_append, List.cons.injEq] at same
      obtain ⟨rfl, behind⟩ := same
      have lengths := congrArg List.length behind
      rw [List.length_drop, List.length_append] at lengths
      have checked : checkFollowing octs.octs l.length (i + 1) =
          .ok (true, i + 1 + UInt64.ofNat l.length) :=
        (checkFollowing_eq_ok (by omega)).mpr
          ⟨by omega, by rwa [next, behind, List.take_left], rfl⟩
      rw [count, checked]
      rw [List.length_cons, ← count, ← index, count] at accepted
      exact accepted

theorem isUtf8_iff {octs : List UInt8} (some : octs ≠ []) :
    IsUtf8 octs ↔ ∃ s rest, octs = s ++ rest ∧ IsSequence s ∧ IsUtf8 rest := by
  constructor
  · rintro ⟨seqs, each, rfl⟩
    cases seqs with
    | nil => exact absurd rfl some
    | cons s seqs =>
      exact ⟨s, _, rfl, each s List.mem_cons_self, seqs,
        fun s' among => each s' (List.mem_cons_of_mem _ among), rfl⟩
  · rintro ⟨s, _, rfl, first, seqs, each, rfl⟩
    exact ⟨s :: seqs, List.forall_mem_cons.mpr ⟨first, each⟩, rfl⟩

/-- The check accepts the rest of a string exactly when it is the octets of characters. -/
theorem checkChars_iff {octs : UTF8String} (whole : octs.octs.length = octs.octetLen.toNat)
    {turns : Nat} {i : UInt64} (inside : i.toNat ≤ octs.octs.length)
    (granted : octs.octs.length - i.toNat < turns) :
    checkChars octs turns i = .ok true ↔ IsUtf8 (octs.octs.drop i.toNat) := by
  induction turns generalizing i with
  | zero => omega
  | succ turns ih =>
    by_cases more : i < octs.octetLen
    · have within : i.toNat < octs.octs.length := by
        rw [whole]
        exact more
      have some_octet : octs.octs.drop i.toNat ≠ [] := by
        intro none
        have lengths := congrArg List.length none
        rw [List.length_drop, List.length_nil] at lengths
        omega
      have bound := UInt64.toNat_lt octs.octetLen
      rw [checkChars_turn whole turns more, isUtf8_iff some_octet]
      -- What is behind a character is what the next turn starts with.
      refine exists_congr fun s => exists_congr fun rest => and_congr_right fun split =>
        and_congr_right fun seq => ?_
      have lengths := congrArg List.length split
      rw [List.length_drop, List.length_append] at lengths
      have positive := List.length_pos_iff.mpr seq.ne_nil
      have index : (i + UInt64.ofNat s.length).toNat = i.toNat + s.length := by
        rw [UInt64.toNat_add, UInt64.toNat_ofNat']
        omega
      have behind : octs.octs.drop (i.toNat + s.length) = rest := by
        rw [← List.drop_drop, split, List.drop_left]
      rw [ih (by omega) (by omega), index, behind]
    · have ended : octs.octs.length ≤ i.toNat := by
        rw [whole]
        exact Nat.le_of_not_lt more
      rw [checkChars, if_neg more, List.drop_of_length_le ended]
      exact iff_of_true rfl ⟨[], fun _ among => absurd among List.not_mem_nil, rfl⟩

theorem isValidUTF8String_iff {octs : List UInt8} (whole : octs.length < 2 ^ 64) :
    isValidUTF8String ⟨UInt64.ofNat octs.length, octs⟩ = .ok true ↔ IsUtf8 octs := by
  have count : (UInt64.ofNat octs.length).toNat = octs.length :=
    UInt64.toNat_ofNat_of_lt' whole
  exact checkChars_iff count.symm (Nat.zero_le _) (Nat.lt_succ_self _)

end

/-! ## What is converted -/

section

variable {utf8Str : List UInt8} {len i i' : UInt32} {j : Nat}

theorem shiftLeft_or_tail (n : Nat) (c : UInt8) :
    UInt32.ofNat n <<< 6 ||| (c &&& 0x3F).toUInt32 = UInt32.ofNat (addSixBits n c) := by
  have low : (c &&& 0x3F).toNat = c.toNat % 64 := Nat.and_two_pow_sub_one_eq_mod c.toNat 6
  have high : (UInt32.ofNat n <<< 6).toNat = (n % 2 ^ 26) <<< 6 := by
    rw [UInt32.toNat_shiftLeft, UInt32.toNat_ofNat']
    change (n % 2 ^ 32) <<< 6 % 2 ^ 32 = _
    rw [Nat.shiftLeft_eq, Nat.shiftLeft_eq]
    omega
  apply UInt32.toNat_inj.mp
  rw [UInt32.toNat_or, UInt8.toNat_toUInt32, low, high,
    ← Nat.shiftLeft_add_eq_or_of_lt (i := 6) (by omega), UInt32.toNat_ofNat', addSixBits,
    Nat.shiftLeft_eq]
  omega

theorem charAt_isTail {c : UInt8} (there : charAt utf8Str i = .ok c) (tail : IsTail c) :
    utf8Str[i.toNat]? = some c := by
  rw [charAt, octAt_eq_ok] at there
  by_cases inside : i.toNat < utf8Str.length
  · rwa [List.getElem?_append_left inside] at there
  · -- The octet behind the string is NUL.
    rw [List.getElem?_append_right (by omega)] at there
    have zero : c = 0 := by
      cases index : i.toNat - utf8Str.length with
      | zero =>
        rw [index] at there
        exact (Option.some.inj there).symm
      | succ => simp [index] at there
    rw [zero] at tail
    exact absurd tail (by decide)

/-- Bits are added from tails that are there, and never from the first octet again. -/
theorem addFollowing_eq_ok (apart : ∀ c, utf8Str[0]? = some c → ¬ IsTail c) {n : Nat} {w : WChar}
    (added : addFollowing utf8Str j i (UInt32.ofNat n) = .ok (some w, i')) :
    (i.toNat + j ≤ utf8Str.length ∨ j = 0) ∧ i.toNat + j ≤ 2 ^ 32 ∧
      (∀ d ∈ (utf8Str.drop i.toNat).take j, IsTail d) ∧ i' = i + UInt32.ofNat j ∧
      w = UInt32.ofNat (((utf8Str.drop i.toNat).take j).foldl addSixBits n) := by
  induction j generalizing i n with
  | zero =>
    simp only [addFollowing, pure, Except.pure, Except.ok.injEq, Prod.mk.injEq,
      Option.some.injEq] at added
    have bound := UInt32.toNat_lt i
    obtain ⟨rfl, rfl⟩ := added
    exact ⟨.inr rfl, by omega, by simp, by simp, rfl⟩
  | succ j ih =>
    rw [addFollowing] at added
    cases there : charAt utf8Str i with
    | error e =>
      rw [there] at added
      cases added
    | ok c =>
      rw [there] at added
      change (if c &&& 0xC0 != 0x80 then (pure (none, i) : Except Exit _)
        else addFollowing utf8Str j (i + 1) _) = _ at added
      by_cases tail : IsTail c
      · rw [if_neg (by simpa using and_tail_mask.mpr tail), shiftLeft_or_tail] at added
        have octet := charAt_isTail there tail
        obtain ⟨inside, value⟩ := List.getElem?_eq_some_iff.mp octet
        have split : (utf8Str.drop i.toNat).take (j + 1) =
            c :: (utf8Str.drop (i.toNat + 1)).take j := by
          rw [List.drop_eq_getElem_cons inside, List.take_succ_cons, value]
        have bound := UInt32.toNat_lt i
        have word : (i + 1).toNat = (i.toNat + 1) % 2 ^ 32 := UInt32.toNat_add ..
        obtain ⟨room, within, tails, rfl, rfl⟩ := ih added
        have index : i + 1 + UInt32.ofNat j = i + UInt32.ofNat (j + 1) := by
          rw [UInt32.ofNat_add, UInt32.add_assoc, UInt32.add_comm 1]
          rfl
        by_cases wraps : i.toNat + 1 = 2 ^ 32
        · -- The next index would be that of the first octet.
          rw [wraps, Nat.mod_self] at word
          rw [word] at room tails
          cases j with
          | zero =>
            rw [split, index]
            exact ⟨by omega, by omega, List.forall_mem_cons.mpr ⟨tail, by simp⟩, rfl, rfl⟩
          | succ j =>
            cases utf8Str with
            | nil => simp at inside
            | cons first others =>
              exact absurd (tails first List.mem_cons_self) (apart first rfl)
        · rw [Nat.mod_eq_of_lt (by omega)] at word
          rw [word] at room within tails ⊢
          rw [split, index]
          exact ⟨by omega, by omega, List.forall_mem_cons.mpr ⟨tail, tails⟩, rfl, rfl⟩
      · rw [if_pos (by simpa [and_tail_mask] using tail)] at added
        cases added

/-- Tails that are there are added. -/
theorem addFollowing_of_tails {l rest : List UInt8} (tails : ∀ d ∈ l, IsTail d)
    (split : utf8Str.drop i.toNat = l ++ rest) (within : i.toNat + l.length < 2 ^ 32) (n : Nat) :
    addFollowing utf8Str l.length i (UInt32.ofNat n) =
      .ok (some (UInt32.ofNat (l.foldl addSixBits n)), i + UInt32.ofNat l.length) := by
  induction l generalizing i n with
  | nil => simp [addFollowing, pure, Except.pure]
  | cons c l ih =>
    obtain ⟨tail, tails⟩ := List.forall_mem_cons.mp tails
    have octet : utf8Str[i.toNat]? = some c := by
      have first := congrArg (fun o => o[0]?) split
      rw [List.getElem?_drop] at first
      exact first
    have inside : i.toNat < utf8Str.length := (List.getElem?_eq_some_iff.mp octet).1
    have there : charAt utf8Str i = .ok c := by
      rw [charAt, octAt_eq_ok, List.getElem?_append_left inside, octet]
    have word : (i + 1).toNat = i.toNat + 1 := by
      rw [UInt32.toNat_add]
      change (i.toNat + 1) % 2 ^ 32 = _
      rw [List.length_cons] at within
      omega
    have behind : utf8Str.drop (i + 1).toNat = l ++ rest := by
      rw [word, ← List.drop_drop, split, List.cons_append, List.drop_succ_cons, List.drop_zero]
    have index : i + 1 + UInt32.ofNat l.length = i + UInt32.ofNat (l.length + 1) := by
      rw [UInt32.ofNat_add, UInt32.add_assoc, UInt32.add_comm 1]
      rfl
    rw [List.length_cons] at within
    rw [List.length_cons, addFollowing, there]
    change (if c &&& 0xC0 != 0x80 then (pure (none, i) : Except Exit _)
      else addFollowing utf8Str l.length (i + 1) _) = _
    rw [if_neg (by simpa using and_tail_mask.mpr tail), shiftLeft_or_tail,
      ih tails behind (by omega), index]
    rfl

/-- One turn of the conversion passes the octets of one character. -/
theorem decodeChars_turn (apart : ∀ c, utf8Str[0]? = some c → ¬ IsTail c)
    (covered : len.toNat ≤ utf8Str.length) (turns : Nat) (inside : i < len)
    {outStr w : List WChar} :
    decodeChars utf8Str len (turns + 1) i outStr = .ok (0, some w) ↔
      ∃ s rest, (utf8Str.take len.toNat).drop i.toNat = s ++ rest ∧ IsSequence s ∧
        decodeChars utf8Str len turns (i + UInt32.ofNat s.length)
          (outStr ++ [UInt32.ofNat (charOf s)]) = .ok (0, some w) := by
  have bound := UInt32.toNat_lt len
  have less : i.toNat < len.toNat := inside
  obtain ⟨c, octet⟩ : ∃ c, utf8Str[i.toNat]? = some c :=
    ⟨_, List.getElem?_eq_getElem (by omega)⟩
  obtain ⟨_, value⟩ := List.getElem?_eq_some_iff.mp octet
  have there : charAt utf8Str i = .ok c := by
    rw [charAt, octAt_eq_ok, List.getElem?_append_left (by omega), octet]
  have word : (i + 1).toNat = i.toNat + 1 := by
    rw [UInt32.toNat_add]
    change (i.toNat + 1) % 2 ^ 32 = _
    omega
  have split : (utf8Str.take len.toNat).drop i.toNat =
      c :: (utf8Str.take len.toNat).drop (i.toNat + 1) := by
    have within : i.toNat < (utf8Str.take len.toNat).length := by
      rw [List.length_take]
      omega
    rw [List.drop_eq_getElem_cons within, List.getElem_take, value]
  have most := followingOctets_le c
  have count : (UInt32.ofNat (followingOctets c)).toNat = followingOctets c :=
    UInt32.toNat_ofNat_of_lt' (by rw [UInt32.size]; omega)
  rw [decodeChars, if_pos inside, there, split]
  change (match gUTF8Masks[followingOctets c]? with
    | none => (pure (-3, none) : Except Exit (Int32 × Option (List WChar)))
    | some m =>
      if i + UInt32.ofNat (followingOctets c) ≥ len then pure (-3, none)
      else addFollowing utf8Str (followingOctets c) (i + 1) (~~~m.mask &&& c).toUInt32 >>= fun r =>
        match r.1 with
        | none => pure (-3, none)
        | some w => decodeChars utf8Str len turns r.2 (outStr ++ [w])) = _ ↔ _
  by_cases lead : followingOctets c < 6
  · obtain ⟨m, first⟩ := leadOctet lead
    have start : (~~~m.mask &&& c).toUInt32 = UInt32.ofNat (leadBits c) := by
      apply UInt32.toNat_inj.mp
      have small := first.bits ▸ UInt8.toNat_lt (~~~m.mask &&& c)
      rw [UInt8.toNat_toUInt32, first.bits, UInt32.toNat_ofNat_of_lt' (by
        rw [UInt32.size]
        omega)]
    rw [first.entry]
    dsimp only
    rw [start]
    by_cases ends : i + UInt32.ofNat (followingOctets c) ≥ len
    · rw [if_pos ends]
      refine iff_of_false (by simp [pure, Except.pure]) ?_
      rintro ⟨_, rest, same, ⟨c', l, rfl, few, -⟩, -⟩
      rw [List.cons_append, List.cons.injEq] at same
      obtain ⟨rfl, behind⟩ := same
      have lengths := congrArg List.length behind
      rw [List.length_drop, List.length_take, List.length_append] at lengths
      rw [ge_iff_le, UInt32.le_iff_toNat_le, UInt32.toNat_add, count] at ends
      omega
    · rw [if_neg ends]
      rw [ge_iff_le, UInt32.le_iff_toNat_le, UInt32.toNat_add, count] at ends
      have index : i + 1 + UInt32.ofNat (followingOctets c) =
          i + UInt32.ofNat (followingOctets c + 1) := by
        rw [UInt32.ofNat_add, UInt32.add_assoc, UInt32.add_comm 1]
        rfl
      constructor
      · intro converted
        cases added : addFollowing utf8Str (followingOctets c) (i + 1)
            (UInt32.ofNat (leadBits c)) with
        | error e =>
          rw [added] at converted
          cases converted
        | ok r =>
          obtain ⟨char, i'⟩ := r
          rw [added] at converted
          cases char with
          | none => cases converted
          | some char =>
            obtain ⟨room, within, tails, rfl, rfl⟩ := addFollowing_eq_ok apart added
            rw [word] at room within tails converted
            have covers : ((utf8Str.take len.toNat).drop (i.toNat + 1)).take (followingOctets c) =
                (utf8Str.drop (i.toNat + 1)).take (followingOctets c) := by
              rw [List.drop_take, List.take_take, min_eq_left (by omega)]
            have long : ((utf8Str.drop (i.toNat + 1)).take (followingOctets c)).length =
                followingOctets c := by
              rw [List.length_take, List.length_drop]
              omega
            refine ⟨c :: (utf8Str.drop (i.toNat + 1)).take (followingOctets c), _,
              by rw [List.cons_append, ← covers, List.take_append_drop],
              ⟨c, _, rfl, long.symm, by omega, tails⟩, ?_⟩
            rw [List.length_cons, long, ← index]
            exact converted
      · rintro ⟨_, rest, same, ⟨c', l, rfl, few, less, tails⟩, converted⟩
        rw [List.cons_append, List.cons.injEq] at same
        obtain ⟨rfl, behind⟩ := same
        have lengths := congrArg List.length behind
        rw [List.length_drop, List.length_take, List.length_append] at lengths
        have whole : utf8Str.drop (i + 1).toNat = l ++ (rest ++ utf8Str.drop len.toNat) := by
          rw [word, ← List.append_assoc, ← behind, ← List.drop_append_of_le_length,
            List.take_append_drop]
          rw [List.length_take]
          omega
        have added := addFollowing_of_tails tails whole (by omega) (leadBits c)
        rw [few, added]
        rw [List.length_cons, ← few, ← index, few] at converted
        exact converted
  · have none : gUTF8Masks[followingOctets c]? = none := by
      apply List.getElem?_eq_none_iff.mpr
      change 6 ≤ _
      omega
    rw [none]
    refine iff_of_false (by simp [pure, Except.pure]) ?_
    rintro ⟨_, rest, same, ⟨c', l, rfl, few, less, -⟩, -⟩
    rw [List.cons_append, List.cons.injEq] at same
    obtain ⟨rfl, -⟩ := same
    omega

/-- The rest of a string is converted exactly when it is the octets of characters. -/
theorem decodeChars_iff (apart : ∀ c, utf8Str[0]? = some c → ¬ IsTail c)
    (covered : len.toNat ≤ utf8Str.length) {turns : Nat} (inside : i.toNat ≤ len.toNat)
    (granted : len.toNat - i.toNat < turns) {outStr w : List WChar} :
    decodeChars utf8Str len turns i outStr = .ok (0, some w) ↔
      ∃ seqs : List (List UInt8), (∀ s ∈ seqs, IsSequence s) ∧
        (utf8Str.take len.toNat).drop i.toNat = seqs.flatten ∧
        w = outStr ++ seqs.map fun s => UInt32.ofNat (charOf s) := by
  induction turns generalizing i outStr with
  | zero => omega
  | succ turns ih =>
    have count : (utf8Str.take len.toNat).length = len.toNat := by
      rw [List.length_take]
      omega
    by_cases more : i < len
    · have less : i.toNat < len.toNat := more
      have bound := UInt32.toNat_lt len
      rw [decodeChars_turn apart covered turns more]
      have step : ∀ s rest, (utf8Str.take len.toNat).drop i.toNat = s ++ rest → IsSequence s →
          (decodeChars utf8Str len turns (i + UInt32.ofNat s.length)
            (outStr ++ [UInt32.ofNat (charOf s)]) = .ok (0, some w) ↔
          ∃ seqs : List (List UInt8), (∀ s ∈ seqs, IsSequence s) ∧ rest = seqs.flatten ∧
            w = outStr ++ (s :: seqs).map fun s => UInt32.ofNat (charOf s)) := by
        intro s rest split seq
        have lengths := congrArg List.length split
        rw [List.length_drop, List.length_append, count] at lengths
        have positive := List.length_pos_iff.mpr seq.ne_nil
        have index : (i + UInt32.ofNat s.length).toNat = i.toNat + s.length := by
          rw [UInt32.toNat_add, UInt32.toNat_ofNat']
          omega
        have behind : (utf8Str.take len.toNat).drop (i.toNat + s.length) = rest := by
          rw [← List.drop_drop, split, List.drop_left]
        rw [ih (by omega) (by omega), index, behind]
        simp only [List.map_cons, List.append_assoc, List.singleton_append]
      constructor
      · rintro ⟨s, rest, split, seq, converted⟩
        obtain ⟨seqs, each, rfl, rfl⟩ := (step s rest split seq).mp converted
        exact ⟨s :: seqs, List.forall_mem_cons.mpr ⟨seq, each⟩, split, rfl⟩
      · rintro ⟨seqs, each, split, rfl⟩
        cases seqs with
        | nil =>
          have lengths := congrArg List.length split
          rw [List.length_drop, count, List.flatten_nil, List.length_nil] at lengths
          omega
        | cons s seqs =>
          obtain ⟨seq, each⟩ := List.forall_mem_cons.mp each
          exact ⟨s, seqs.flatten, split, seq,
            (step s seqs.flatten split seq).mpr ⟨seqs, each, rfl, rfl⟩⟩
    · have ended : len.toNat ≤ i.toNat := Nat.le_of_not_lt more
      rw [decodeChars, if_neg more, List.drop_of_length_le (by omega)]
      constructor
      · intro converted
        cases converted
        exact ⟨[], fun _ among => absurd among List.not_mem_nil, rfl, (List.append_nil _).symm⟩
      · rintro ⟨seqs, each, none, rfl⟩
        have empty : seqs = [] := by
          apply isSequence_uniquelyDecodable seqs [] each
          · exact fun _ among => absurd among List.not_mem_nil
          · exact none.symm
        rw [empty, List.map_nil, List.append_nil]
        rfl

/-- A string is converted exactly when as much of it as an `unsigned int` counts is the octets of
characters. -/
theorem cvtUTF8towchar_iff {w : List WChar} :
    cvtUTF8towchar utf8Str = .ok (0, some w) ↔
      ∃ seqs : List (List UInt8), (∀ s ∈ seqs, IsSequence s) ∧
        utf8Str.take (utf8Str.length % 2 ^ 32) = seqs.flatten ∧
        w = seqs.map fun s => UInt32.ofNat (charOf s) := by
  have count : (UInt32.ofNat utf8Str.length).toNat = utf8Str.length % 2 ^ 32 :=
    UInt32.toNat_ofNat' ..
  have covered : (UInt32.ofNat utf8Str.length).toNat ≤ utf8Str.length := by
    rw [count]
    exact Nat.mod_le ..
  by_cases apart : ∀ c, utf8Str[0]? = some c → ¬ IsTail c
  · rw [← count]
    exact decodeChars_iff apart covered (Nat.zero_le _)
      (Nat.lt_succ_of_le (by rw [count]; exact (Nat.sub_le _ _).trans (Nat.mod_le _ _)))
  · -- A tail in front is no first octet, so nothing is converted unless nothing is looked at.
    push Not at apart
    obtain ⟨c, first, tail⟩ := apart
    obtain ⟨others, rfl⟩ : ∃ others, utf8Str = c :: others := by
      cases utf8Str with
      | nil => cases first
      | cons c' others => exact ⟨others, by rw [Option.some.inj first]⟩
    rw [cvtUTF8towchar, decodeChars]
    by_cases uncounted : (c :: others).length % 2 ^ 32 = 0
    · have empty : ¬ (0 : UInt32) < UInt32.ofNat (c :: others).length := by
        rw [UInt32.lt_iff_toNat_lt, count, uncounted]
        exact Nat.lt_irrefl 0
      rw [if_neg empty, uncounted, List.take_zero]
      constructor
      · intro converted
        cases converted
        exact ⟨[], fun _ among => absurd among List.not_mem_nil, rfl, rfl⟩
      · rintro ⟨seqs, each, nothing, rfl⟩
        have empty : seqs = [] := by
          apply isSequence_uniquelyDecodable seqs [] each
          · exact fun _ among => absurd among List.not_mem_nil
          · exact nothing.symm
        rw [empty, List.map_nil]
        rfl
    · have some_octet : (0 : UInt32) < UInt32.ofNat (c :: others).length := by
        rw [UInt32.lt_iff_toNat_lt, count]
        exact Nat.pos_of_ne_zero uncounted
      have size := followingOctets_of_isTail tail
      have there : charAt (c :: others) 0 = .ok c := rfl
      rw [if_pos some_octet, there]
      obtain ⟨k, less⟩ := Nat.exists_eq_succ_of_ne_zero uncounted
      refine iff_of_false ?_ ?_
      · intro converted
        dsimp only [bind, Except.bind] at converted
        rw [size] at converted
        cases converted
      · rintro ⟨seqs, each, split, -⟩
        rw [less, Nat.succ_eq_add_one, List.take_succ_cons] at split
        obtain ⟨s, rest, begins, seq, -⟩ :=
          (isUtf8_iff (List.cons_ne_nil _ _)).mp ⟨seqs, each, split⟩
        obtain ⟨c', l, rfl, form⟩ := seq
        rw [List.cons_append, List.cons.injEq] at begins
        obtain ⟨rfl, -⟩ := begins
        exact IsSequence.not_isTail ⟨c, l, rfl, form⟩ tail

end

end Esnacc
