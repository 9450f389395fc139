import Esnacc.Cxx.HeaderReads
import Esnacc.Cxx.Contents

/-! The contents decoders of the C++ library take the octets that their length promises, or more. -/

namespace Esnacc.Cxx

open Lib

/-- Where the contents are read, as many octets are taken and counted as the length says. -/
def Accounts {α : Type} (x : BufM (α × AsnLen)) (b : AsnBuf) (elmtLen n : AsnLen) : Prop :=
  ∀ v n' b', x.run b = .ok (v, n') b' → Takes b b' elmtLen.toNat ∧ n' = n + elmtLen

variable {b : AsnBuf} {elmtLen n : AsnLen}

/-! ## Contents without parts -/

/-- The contents of an integer are accounted for. -/
theorem AsnInt.bDecContent_accounts (sound : b.Sound) :
    Accounts (AsnInt.bDecContent elmtLen n) b elmtLen n := by
  intro x n' b' ran
  rw [AsnInt.bDecContent] at ran
  by_cases endless : elmtLen = INDEFINITE_LEN
  · rw [if_pos endless] at ran
    cases ran
  · rw [if_neg endless] at ran
    obtain ⟨bytes, mid, read, rest⟩ := run_bind_eq_ok.mp ran
    have takes := (getUSeg_takes sound read).1
    -- Only the octets decide what is kept; the buffer stays as it is.
    dsimp only at rest
    cases stored : storeDERInteger bytes (!decide (0x80 ≤ bytes.headD 0)) with
    | error thrown =>
      rw [stored] at rest
      cases rest
    | ok kept =>
      rw [stored, ofExcept_ok, pure_bind] at rest
      obtain ⟨rfl, same⟩ := run_pure_eq_ok.mp rest
      exact ⟨takes, (Prod.mk.inj same).2⟩

/-- The contents of a primitive octet string are accounted for. -/
theorem AsnOcts.bDecContent_accounts (sound : b.Sound) {tag : AsnTag} (primitive : tagIsCons tag = false)
    (turns : Nat) (x : AsnOcts) : Accounts (x.bDecContent turns tag elmtLen n) b elmtLen n := by
  intro v n' b' ran
  rw [AsnOcts.bDecContent, primitive] at ran
  by_cases some : elmtLen ≠ 0
  · simp only [if_pos some, Bool.false_eq_true, if_false] at ran
    by_cases endless : elmtLen = INDEFINITE_LEN
    · rw [if_pos endless] at ran
      cases ran
    · rw [if_neg endless] at ran
      obtain ⟨mStr, mid, read, rest⟩ := run_bind_eq_ok.mp ran
      obtain ⟨rfl, same⟩ := run_pure_eq_ok.mp rest
      exact ⟨(getSegStr_takes sound some read).1, (Prod.mk.inj same).2⟩
  · -- Nothing is read for an empty string.
    rw [if_neg some] at ran
    obtain ⟨rfl, same⟩ := run_pure_eq_ok.mp ran
    obtain rfl : elmtLen = 0 := not_not.mp some
    exact ⟨.refl sound, by rw [(Prod.mk.inj same).2, UInt64.add_zero]⟩

theorem toNat_pred {len : AsnLen} (some : len ≠ 0) : 1 + (len - 1).toNat = len.toNat := by
  have positive : len.toNat ≠ 0 := fun zero => some (UInt64.toNat_inj.mp zero)
  have least : (1 : UInt64) ≤ len := by
    rw [UInt64.le_iff_toNat_le, UInt64.toNat_one]
    omega
  rw [UInt64.toNat_sub_of_le _ _ least, UInt64.toNat_one]
  omega

/-- The contents of a primitive bit string are accounted for. -/
theorem bDecPrimBits_accounts (sound : b.Sound) :
    Accounts (bDecPrimBits elmtLen n) b elmtLen n := by
  intro v n' b' ran
  rw [bDecPrimBits] at ran
  by_cases endless : elmtLen = INDEFINITE_LEN
  · rw [if_pos endless] at ran
    cases ran
  · rw [if_neg endless] at ran
    obtain ⟨total, b1, measured, rest⟩ := run_bind_eq_ok.mp ran
    have first := (length_takes sound measured).1
    by_cases wrong : total < elmtLen ∨ elmtLen = 0
    · simp only [if_pos wrong] at rest
      cases rest
    · simp only [if_neg wrong] at rest
      obtain ⟨unused, b2, read, rest⟩ := run_bind_eq_ok.mp rest
      have second := (getByte_takes first.sound read).1
      by_cases large : 7 < unused
      · simp only [if_pos large] at rest
        cases rest
      · simp only [if_neg large] at rest
        obtain ⟨bits, b3, octets, rest⟩ := run_bind_eq_ok.mp rest
        obtain ⟨rfl, same⟩ := run_pure_eq_ok.mp rest
        -- One octet for the unused bits, and the octets of the bits.
        have all := (first.trans second).trans (getUSeg_takes second.sound octets).1
        rw [Nat.zero_add, toNat_pred fun zero => wrong (.inr zero)] at all
        exact ⟨all, (Prod.mk.inj same).2⟩

theorem AsnBits.bDecContent_accounts (sound : b.Sound) {tag : AsnTag} (primitive : tagIsCons tag = false)
    (turns : Nat) (x : AsnBits) : Accounts (x.bDecContent turns tag elmtLen n) b elmtLen n := by
  intro v n' b' ran
  rw [AsnBits.bDecContent, primitive] at ran
  by_cases endless : elmtLen = INDEFINITE_LEN
  · simp only [if_pos endless] at ran
    cases ran
  · simp only [if_neg endless, Bool.false_eq_true, if_false] at ran
    obtain ⟨total, b1, measured, rest⟩ := run_bind_eq_ok.mp ran
    have first := (length_takes sound measured).1
    by_cases short : total < elmtLen
    · simp only [if_pos short] at rest
      cases rest
    · simp only [if_neg short] at rest
      obtain ⟨takes, counted⟩ := bDecPrimBits_accounts first.sound v n' b' rest
      have all := first.trans takes
      rw [Nat.zero_add] at all
      exact ⟨all, counted⟩

/-- The contents of an object identifier are accounted for. -/
theorem AsnRelativeOid.bDecContent_accounts (sound : b.Sound) (x : AsnRelativeOid) :
    Accounts (x.bDecContent elmtLen n) b elmtLen n := by
  intro v n' b' ran
  rw [AsnRelativeOid.bDecContent] at ran
  by_cases endless : elmtLen = INDEFINITE_LEN
  · rw [if_pos endless] at ran
    cases ran
  · rw [if_neg endless] at ran
    by_cases none : elmtLen < 1
    · rw [if_pos none] at ran
      cases ran
    · rw [if_neg none] at ran
      obtain ⟨oid, mid, read, rest⟩ := run_bind_eq_ok.mp ran
      obtain ⟨rfl, same⟩ := run_pure_eq_ok.mp rest
      exact ⟨(getUSeg_takes sound read).1, (Prod.mk.inj same).2⟩

/-- The contents of a primitive character string are accounted for. -/
theorem bDecStringContent_accounts (sound : b.Sound) {tag : AsnTag}
    (primitive : tagIsCons tag = false) (turns : Nat) (typeName : String) :
    Accounts (bDecStringContent turns typeName tag elmtLen n) b elmtLen n := by
  intro v n' b' ran
  rw [bDecStringContent, primitive] at ran
  simp only [Bool.false_eq_true, if_false] at ran
  by_cases endless : elmtLen = INDEFINITE_LEN
  · rw [if_pos endless] at ran
    cases ran
  · rw [if_neg endless] at ran
    by_cases some : 0 < elmtLen
    · rw [if_pos some] at ran
      obtain ⟨str, mid, read, rest⟩ := run_bind_eq_ok.mp ran
      obtain ⟨rfl, same⟩ := run_pure_eq_ok.mp rest
      have nonzero : elmtLen ≠ 0 := by
        rintro rfl
        exact absurd some (by decide)
      exact ⟨(getSegStr_takes sound nonzero read).1, (Prod.mk.inj same).2⟩
    · rw [if_neg some] at ran
      obtain ⟨rfl, same⟩ := run_pure_eq_ok.mp ran
      obtain rfl : elmtLen = 0 := by
        apply UInt64.toNat_inj.mp
        rw [UInt64.lt_iff_toNat_lt] at some
        exact Nat.eq_zero_of_not_pos some
      exact ⟨.refl sound, by rw [(Prod.mk.inj same).2, UInt64.add_zero]⟩

/-! ## REAL -/

/-- The octets that a binary real takes. -/
def AsnReal.taken (firstOctet firstExpOctet : UInt8) (elmtLen : AsnLen) : Nat :=
  2 + expRest firstOctet firstExpOctet +
    ((intOf elmtLen).toInt - (1 + expLen firstOctet firstExpOctet : Nat)).toNat

/-- The exponent of a real does not fit its length, it has no octets, or the length fits no `int`. -/
def AsnReal.BadHeader (firstOctet firstExpOctet : UInt8) (elmtLen : AsnLen) : Prop :=
  elmtLen.toNat < 1 + expLen firstOctet firstExpOctet ∨
    firstOctet &&& 3 = 3 ∧ firstExpOctet = 0 ∨ 2 ^ 31 ≤ elmtLen.toNat

/-- The contents of a binary real with a bad header, of which the buffer has all that is read. -/
def AsnReal.Misread (data : List UInt8) (elmtLen : AsnLen) : Prop :=
  ∃ firstOctet firstExpOctet rest, data = firstOctet :: firstExpOctet :: rest ∧
    elmtLen ≠ 0 ∧ elmtLen ≠ 1 ∧ elmtLen ≠ INDEFINITE_LEN ∧
    firstOctet &&& 0x80 ≠ 0 ∧ firstOctet &&& 0x30 ≠ 0x30 ∧
    AsnReal.taken firstOctet firstExpOctet elmtLen ≤ data.length ∧
    AsnReal.BadHeader firstOctet firstExpOctet elmtLen

theorem and_three (c : UInt8) : c &&& 3 = 0 ∨ c &&& 3 = 1 ∨ c &&& 3 = 2 ∨ c &&& 3 = 3 := by
  have number : (c &&& 3).toNat = c.toNat % 4 := by
    rw [UInt8.toNat_and]
    exact Nat.and_two_pow_sub_one_eq_mod c.toNat 2
  have bound := Nat.mod_lt c.toNat (show 0 < 4 by omega)
  simp only [← UInt8.toNat_inj, number]
  simp only [UInt8.reduceToNat]
  omega

/-- Behind its first octet an exponent takes what its length says, unless it has no octets. -/
theorem expRest_eq (firstOctet firstExpOctet : UInt8) :
    expRest firstOctet firstExpOctet + 1 = expLen firstOctet firstExpOctet +
      (if firstOctet &&& 3 = 3 ∧ firstExpOctet = 0 then 1 else 0) := by
  rw [expRest, expLen]
  rcases and_three firstOctet with form | form | form | form
  · rw [form]
    rfl
  · rw [form]
    rfl
  · rw [form]
    rfl
  · rw [form]
    by_cases none : firstExpOctet = 0
    · rw [none]
      rfl
    · have some : firstExpOctet.toNat ≠ 0 := fun zero => none (UInt8.toNat_inj.mp zero)
      simp only [none, and_false, if_false]
      rw [if_neg (by decide), if_neg (by decide), if_neg (by decide), if_neg (by decide),
        if_neg (by decide), if_neg (by decide)]
      omega

theorem expLen_le (firstOctet firstExpOctet : UInt8) : expLen firstOctet firstExpOctet ≤ 256 := by
  have bound := firstExpOctet.toNat_lt
  rw [expLen]
  split_ifs <;> omega

/-- A binary real takes what its length says exactly where its header is not bad. -/
theorem AsnReal.taken_eq_iff {firstOctet firstExpOctet : UInt8} (least : 2 ≤ elmtLen.toNat) :
    taken firstOctet firstExpOctet elmtLen = elmtLen.toNat ↔
      ¬ BadHeader firstOctet firstExpOctet elmtLen := by
  have exponent := expRest_eq firstOctet firstExpOctet
  have most := expLen_le firstOctet firstExpOctet
  rw [taken, BadHeader]
  by_cases small : elmtLen.toNat < 2 ^ 31
  · rw [toInt_intOf_of_lt small]
    by_cases none : firstOctet &&& 3 = 3 ∧ firstExpOctet = 0
    · rw [if_pos none] at exponent
      refine iff_of_false ?_ fun good => good (.inr (.inl none))
      omega
    · rw [if_neg none] at exponent
      simp only [none, false_or]
      omega
  · -- As an `int`, the length is less than it is.
    have large : 2 ^ 31 ≤ elmtLen.toNat := Nat.le_of_not_lt small
    have top := (intOf elmtLen).toInt_lt
    simp only [large, or_true, not_true_eq_false, iff_false]
    by_cases edge : elmtLen.toNat = 2 ^ 31
    · obtain rfl : elmtLen = 2147483648 := UInt64.toNat_inj.mp edge
      have negative : (intOf 2147483648).toInt = -2147483648 := by decide
      rw [negative, edge]
      split_ifs at exponent <;> omega
    · split_ifs at exponent <;> omega

/-- What the contents of a real take where they are read. -/
theorem AsnReal.bDecContent_takes (sound : b.Sound) {v : AsnReal} {n' : AsnLen} {b' : AsnBuf}
    (ran : (AsnReal.bDecContent elmtLen n).run b = .ok (v, n') b') :
    n' = n + elmtLen ∧ (Takes b b' elmtLen.toNat ∧ (elmtLen = 0 ∨ elmtLen = 1) ∨
      ∃ firstOctet firstExpOctet rest, b.unread = firstOctet :: firstExpOctet :: rest ∧
        elmtLen ≠ 0 ∧ elmtLen ≠ 1 ∧ elmtLen ≠ INDEFINITE_LEN ∧
        firstOctet &&& 0x80 ≠ 0 ∧ firstOctet &&& 0x30 ≠ 0x30 ∧
        Takes b b' (taken firstOctet firstExpOctet elmtLen)) := by
  rw [AsnReal.bDecContent] at ran
  by_cases empty : elmtLen = 0
  · rw [if_pos empty] at ran
    obtain ⟨rfl, same⟩ := run_pure_eq_ok.mp ran
    rw [(Prod.mk.inj same).2, empty]
    exact ⟨(UInt64.add_zero n).symm, .inl ⟨.refl sound, .inl rfl⟩⟩
  · rw [if_neg empty] at ran
    by_cases endless : elmtLen = INDEFINITE_LEN
    · rw [if_pos endless] at ran
      cases ran
    · rw [if_neg endless] at ran
      obtain ⟨firstOctet, b1, read, rest⟩ := run_bind_eq_ok.mp ran
      obtain ⟨first, head⟩ := getByte_takes sound read
      by_cases single : elmtLen = 1
      · simp only [if_pos single] at rest
        by_cases plus : firstOctet = 0x40
        · simp only [if_pos plus] at rest
          obtain ⟨rfl, same⟩ := run_pure_eq_ok.mp rest
          rw [(Prod.mk.inj same).2, single]
          exact ⟨rfl, .inl ⟨first, .inr rfl⟩⟩
        · simp only [if_neg plus] at rest
          by_cases minus : firstOctet = 0x41
          · simp only [if_pos minus] at rest
            obtain ⟨rfl, same⟩ := run_pure_eq_ok.mp rest
            rw [(Prod.mk.inj same).2, single]
            exact ⟨rfl, .inl ⟨first, .inr rfl⟩⟩
          · simp only [if_neg minus] at rest
            cases rest
      · simp only [if_neg single] at rest
        by_cases binary : firstOctet &&& 0x80 ≠ 0
        · simp only [if_pos binary] at rest
          obtain ⟨firstExpOctet, b2, readExp, rest⟩ := run_bind_eq_ok.mp rest
          obtain ⟨second, headExp⟩ := getByte_takes first.sound readExp
          obtain ⟨exponent, b3, octets, rest⟩ := run_bind_eq_ok.mp rest
          have third := (getBytes_takes second.sound octets).1
          obtain ⟨mantissa, b4, digits, rest⟩ := run_bind_eq_ok.mp rest
          have last := (getBytes_takes third.sound digits).1
          by_cases unsupported : firstOctet &&& 0x30 = 0x30
          · simp only [if_pos unsupported] at rest
            cases rest
          · simp only [if_neg unsupported] at rest
            obtain ⟨rfl, same⟩ := run_pure_eq_ok.mp rest
            refine ⟨(Prod.mk.inj same).2, .inr ?_⟩
            -- The first two octets to come are the header's.
            have data : ∃ more, b.unread = firstOctet :: firstExpOctet :: more := by
              rw [first.unread] at headExp
              cases unread : b.unread with
              | nil => simp [unread] at head
              | cons c rest =>
                rw [unread, List.head?_cons, Option.some.injEq] at head
                rw [unread, List.drop_one, List.tail_cons] at headExp
                obtain ⟨more, rfl⟩ := List.head?_eq_some_iff.mp headExp
                exact ⟨more, by rw [head]⟩
            obtain ⟨more, unread⟩ := data
            refine ⟨firstOctet, firstExpOctet, more, unread, empty, single, endless, binary,
              unsupported, ?_⟩
            have all := ((first.trans second).trans third).trans last
            exact all
        · simp only [if_neg binary] at rest
          cases rest

/-- Where the octets are all there, the contents of a binary real are read from them. -/
theorem AsnReal.bDecContent_acts (sound : b.Sound) {firstOctet firstExpOctet : UInt8}
    {rest : List UInt8} (unread : b.unread = firstOctet :: firstExpOctet :: rest)
    (some : elmtLen ≠ 0) (more : elmtLen ≠ 1) (definite : elmtLen ≠ INDEFINITE_LEN)
    (binary : firstOctet &&& 0x80 ≠ 0) (supported : firstOctet &&& 0x30 ≠ 0x30) {e k : Nat}
    (exponentSize : e = expRest firstOctet firstExpOctet)
    (mantissaSize :
      k = ((intOf elmtLen).toInt - (1 + expLen firstOctet firstExpOctet : Nat)).toNat)
    (enough : e + k ≤ rest.length) :
    Acts (AsnReal.bDecContent elmtLen n) b
      (.ok (.binary firstOctet (firstExpOctet :: rest.take e) ((rest.drop e).take k), n + elmtLen),
        (rest.drop e).drop k) := by
  rw [AsnReal.bDecContent, if_neg some, if_neg definite]
  refine (sound.getByte_cons unread).bind sound (by simp [unread]) fun b1 sound1 left1 => ?_
  simp only [if_neg more, if_pos binary]
  refine (sound1.getByte_cons left1).bind sound1 (by simp [left1]) fun b2 sound2 left2 => ?_
  -- The octets of the exponent and of the mantissa are all there.
  have octets := sound2.getBytes_acts e
  rw [left2, flatGetSeg, if_neg (by omega)] at octets
  rw [← exponentSize]
  refine octets.bind sound2 (by simp [left2]) fun b3 sound3 left3 => ?_
  have digits := sound3.getBytes_acts k
  rw [left3, flatGetSeg, if_neg (by rw [List.length_drop]; omega)] at digits
  rw [← mantissaSize]
  have shrinks : ((rest.drop e).drop k).length ≤ b3.unread.length := by
    rw [left3, List.length_drop]
    exact Nat.sub_le _ _
  refine digits.bind sound3 shrinks fun b4 sound4 left4 => ?_
  simp only [if_neg supported]
  rw [← left4]
  exact Acts.pure sound4 _

/-- Where the octets are all there, the contents of a binary real are read. -/
theorem AsnReal.bDecContent_completes (sound : b.Sound) {firstOctet firstExpOctet : UInt8}
    {rest : List UInt8} (unread : b.unread = firstOctet :: firstExpOctet :: rest)
    (some : elmtLen ≠ 0) (more : elmtLen ≠ 1) (definite : elmtLen ≠ INDEFINITE_LEN)
    (binary : firstOctet &&& 0x80 ≠ 0) (supported : firstOctet &&& 0x30 ≠ 0x30)
    (enough : taken firstOctet firstExpOctet elmtLen ≤ b.unread.length) :
    ∃ v n' b', (AsnReal.bDecContent elmtLen n).run b = .ok (v, n') b' := by
  have size := congrArg List.length unread
  rw [List.length_cons, List.length_cons] at size
  rw [taken] at enough
  obtain ⟨b', ran, -⟩ := AsnReal.bDecContent_acts (n := n) sound unread some more definite binary
    supported rfl rfl (by omega)
  exact ⟨_, _, b', ran⟩

theorem two_le_toNat {len : AsnLen} (some : len ≠ 0) (more : len ≠ 1) : 2 ≤ len.toNat := by
  have positive : len.toNat ≠ 0 := fun zero => some (UInt64.toNat_inj.mp zero)
  have notOne : len.toNat ≠ 1 := fun one => more (UInt64.toNat_inj.mp one)
  omega

/-- The contents of a real are accounted for unless they are misread. -/
theorem AsnReal.bDecContent_accounts_iff (sound : b.Sound) :
    Accounts (AsnReal.bDecContent elmtLen n) b elmtLen n ↔ ¬ AsnReal.Misread b.unread elmtLen := by
  constructor
  · rintro accounts ⟨firstOctet, firstExpOctet, rest, unread, some, more, definite, binary,
      supported, enough, bad⟩
    obtain ⟨v, n', b', ran⟩ := bDecContent_completes (n := n) sound unread some more definite binary
      supported enough
    obtain ⟨-, single | ⟨first, second, others, unread', -, -, -, -, -, takes⟩⟩ :=
      bDecContent_takes sound ran
    · exact single.2.elim some more
    · rw [unread] at unread'
      cases unread'
      -- The octets taken are as many as both counts say.
      have promised := (accounts v n' b' ran).1.length_eq
      have counted := takes.length_eq
      exact (taken_eq_iff (two_le_toNat some more)).mp (by omega) bad
  · rintro fine v n' b' ran
    obtain ⟨counted, ⟨takes, -⟩ | ⟨firstOctet, firstExpOctet, rest, unread, some, more, definite,
      binary, supported, takes⟩⟩ := bDecContent_takes sound ran
    · exact ⟨takes, counted⟩
    · have good : ¬ BadHeader firstOctet firstExpOctet elmtLen := fun bad =>
        fine ⟨firstOctet, firstExpOctet, rest, unread, some, more, definite, binary, supported,
          takes.within, bad⟩
      rw [(taken_eq_iff (two_le_toNat some more)).mpr good] at takes
      exact ⟨takes, counted⟩

/-! ## Lists -/

section

variable {α : Type} {bDec : AsnLen → BufM (α × AsnLen)}

/-- A decoder that counts what it takes, from any buffer. -/
def CountsAll (bDec : AsnLen → BufM (α × AsnLen)) : Prop :=
  ∀ (b : AsnBuf) (n : AsnLen) (v : α) (n' : AsnLen) (b' : AsnBuf),
    b.Sound → (bDec n).run b = .ok (v, n') b' → Counts b b' n n'

/-- Elements follow one another until one of them ends behind the end of the list. -/
inductive Overshoots (bDec : AsnLen → BufM (α × AsnLen)) (elmtLen : AsnLen) :
    AsnLen → AsnBuf → Prop
  | last {n n' : AsnLen} {b b' : AsnBuf} {v : α} (more : n < elmtLen)
      (element : (bDec n).run b = .ok (v, n') b') (behind : elmtLen < n') :
      Overshoots bDec elmtLen n b
  | next {n n' : AsnLen} {b b' : AsnBuf} {v : α} (more : n < elmtLen)
      (element : (bDec n).run b = .ok (v, n') b') (later : Overshoots bDec elmtLen n' b') :
      Overshoots bDec elmtLen n b

theorem listTurns_succ (definite : elmtLen ≠ INDEFINITE_LEN) (turns : Nat) (items : List α)
    (n : AsnLen) : listTurns bDec elmtLen (turns + 1) items n =
      if n < elmtLen then do
        let (item, n) ← bDec n
        listTurns bDec elmtLen turns (items ++ [item]) n
      else pure (items, n) := by
  rw [listTurns, listEnds, if_neg definite, pure_bind]
  by_cases more : n < elmtLen
  · simp only [more, decide_true, Bool.not_true, Bool.false_eq_true, if_false, if_true]
  · simp only [more, decide_false, Bool.not_false, if_true, if_false]

/-- Elements that never end behind the end of the list end with it, and are counted. -/
theorem listTurns_takes (definite : elmtLen ≠ INDEFINITE_LEN) (counts : CountsAll bDec)
    {turns : Nat} {items v : List α} {m m' : AsnLen} {b b' : AsnBuf} (before : Nat)
    (sound : b.Sound) (start : m = UInt64.ofNat before) (room : before + b.unread.length < 2 ^ 63)
    (within : m ≤ elmtLen) (fine : ¬ Overshoots bDec elmtLen m b)
    (ran : (listTurns bDec elmtLen turns items m).run b = .ok (v, m') b') :
    m' = elmtLen ∧ ∃ k, Takes b b' k ∧ m'.toNat = before + k := by
  -- The induction is on the turns; the count is the number of octets taken since the start.
  induction turns generalizing items m b before with
  | zero => cases ran
  | succ turns ih =>
    rw [listTurns_succ definite] at ran
    by_cases more : m < elmtLen
    · rw [if_pos more] at ran
      obtain ⟨⟨item, mid⟩, b1, element, rest⟩ := run_bind_eq_ok.mp ran
      obtain ⟨k, takes, counted⟩ := counts b m item mid b1 sound element
      have most := takes.within
      have left := takes.length_eq
      have total : mid = UInt64.ofNat (before + k) := by
        rw [counted, start, UInt64.ofNat_add]
      have inside : mid ≤ elmtLen := by
        apply UInt64.not_lt.mp
        exact fun behind => fine (.last more element behind)
      obtain ⟨last, j, takes', sum⟩ := ih (before + k) takes.sound total (by omega) inside
        (fun later => fine (.next more element later)) rest
      exact ⟨last, k + j, takes.trans takes', by rw [sum, Nat.add_assoc]⟩
    · rw [if_neg more] at ran
      obtain ⟨rfl, same⟩ := run_pure_eq_ok.mp ran
      have counted : m'.toNat = before + 0 := by
        rw [(Prod.mk.inj same).2, start, UInt64.toNat_ofNat']
        omega
      refine ⟨?_, 0, .refl sound, counted⟩
      rw [(Prod.mk.inj same).2]
      exact UInt64.le_antisymm within (UInt64.not_lt.mp more)

/-- Where an element ends behind the end of the list, the list is read to the end of it. -/
theorem listTurns_of_overshoots (definite : elmtLen ≠ INDEFINITE_LEN) {m : AsnLen} {b : AsnBuf}
    (overshoots : Overshoots bDec elmtLen m b) (items : List α) :
    ∃ turns v m' b', (listTurns bDec elmtLen turns items m).run b = .ok (v, m') b' ∧
      elmtLen < m' := by
  induction overshoots generalizing items with
  | last more element behind =>
    rename_i m m' b b' v
    refine ⟨2, items ++ [v], m', b', ?_, behind⟩
    have done : ¬ m' < elmtLen := UInt64.not_lt.mpr (UInt64.le_of_lt behind)
    rw [listTurns_succ definite, if_pos more, run_bind_of_ok element]
    dsimp only
    rw [listTurns_succ definite, if_neg done]
    rfl
  | next more element later ih =>
    rename_i m m' b b' v
    obtain ⟨turns, v', m'', b'', ran, behind⟩ := ih (items ++ [v])
    refine ⟨turns + 1, v', m'', b'', ?_, behind⟩
    rw [listTurns_succ definite, if_pos more, run_bind_of_ok element]
    exact ran

/-- The contents of a list are accounted for unless an element ends behind their end. -/
theorem bDecListContent_accounts_iff (sound : b.Sound) (definite : elmtLen ≠ INDEFINITE_LEN)
    (counts : CountsAll bDec) (items : List α) :
    (∀ turns, Accounts (bDecListContent bDec turns items elmtLen n) b elmtLen n) ↔
      ¬ Overshoots bDec elmtLen 0 b := by
  constructor
  · rintro accounts overshoots
    obtain ⟨turns, v, m, b', ran, behind⟩ := listTurns_of_overshoots definite overshoots items
    have whole : (bDecListContent bDec turns items elmtLen n).run b = .ok (v, n + m) b' := by
      rw [bDecListContent, run_bind_of_ok ran]
      rfl
    -- The count grows by more than the length.
    have same := (accounts turns v (n + m) b' whole).2
    have equal : m = elmtLen := UInt64.add_right_inj n |>.mp same
    rw [equal] at behind
    exact UInt64.lt_irrefl elmtLen behind
  · rintro fine turns v n' b' ran
    rw [bDecListContent] at ran
    obtain ⟨⟨list, m⟩, b1, elements, rest⟩ := run_bind_eq_ok.mp ran
    obtain ⟨rfl, same⟩ := run_pure_eq_ok.mp rest
    have fits := sound.fits
    have least : (0 : AsnLen) ≤ elmtLen := UInt64.le_iff_toNat_le.mpr (Nat.zero_le _)
    obtain ⟨last, k, takes, total⟩ := listTurns_takes definite counts 0 sound rfl (by omega)
      least fine elements
    rw [last, Nat.zero_add] at total
    rw [total]
    exact ⟨takes, by rw [(Prod.mk.inj same).2, last]⟩

end

/-- An integer that is read counts what it takes. -/
theorem AsnInt.bDec_counts : CountsAll AsnInt.bDec := by
  intro b n v n' b' sound ran
  rw [AsnInt.bDec] at ran
  obtain ⟨⟨tag, n1⟩, b1, tagged, rest⟩ := run_bind_eq_ok.mp ran
  have first := bDecTag_counts sound tagged
  dsimp only at rest
  by_cases wrong : tag ≠ makeTagId UNIV PRIM INTEGER_TAG_CODE ∧
      tag ≠ makeTagId UNIV CONS INTEGER_TAG_CODE
  · rw [if_pos wrong] at rest
    cases rest
  · rw [if_neg wrong] at rest
    obtain ⟨⟨len, n2⟩, b2, measured, rest⟩ := run_bind_eq_ok.mp rest
    have second := bDecLen_counts first.sound measured
    obtain ⟨takes, counted⟩ := AsnInt.bDecContent_accounts second.sound v n' b' rest
    exact (first.trans second).trans ⟨len.toNat, takes, by rw [counted, UInt64.ofNat_toNat]⟩

/-! ## All of them -/

/--
Which contents decoders take and count as many octets as their length says.

All do so on primitive contents of definite length, apart from those of a real that is misread and
those of a list of which an element ends behind the end.
-/
theorem contents_taken_iff {α : Type} (b : AsnBuf) (sound : b.Sound) (elmtLen n : AsnLen)
    (definite : elmtLen ≠ INDEFINITE_LEN) (tag : AsnTag) (primitive : tagIsCons tag = false)
    (turns : Nat) (octs : AsnOcts) (bits : AsnBits) (oid : AsnRelativeOid) (typeName : String)
    (bDec : AsnLen → BufM (α × AsnLen)) (counts : CountsAll bDec) (items : List α) :
    Accounts (AsnInt.bDecContent elmtLen n) b elmtLen n ∧
    Accounts (octs.bDecContent turns tag elmtLen n) b elmtLen n ∧
    Accounts (bits.bDecContent turns tag elmtLen n) b elmtLen n ∧
    Accounts (oid.bDecContent elmtLen n) b elmtLen n ∧
    Accounts (bDecStringContent turns typeName tag elmtLen n) b elmtLen n ∧
    (Accounts (AsnReal.bDecContent elmtLen n) b elmtLen n ↔ ¬ AsnReal.Misread b.unread elmtLen) ∧
    ((∀ turns, Accounts (bDecListContent bDec turns items elmtLen n) b elmtLen n) ↔
      ¬ Overshoots bDec elmtLen 0 b) :=
  ⟨AsnInt.bDecContent_accounts sound, AsnOcts.bDecContent_accounts sound primitive turns octs,
    AsnBits.bDecContent_accounts sound primitive turns bits,
    AsnRelativeOid.bDecContent_accounts sound oid,
    bDecStringContent_accounts sound primitive turns typeName,
    AsnReal.bDecContent_accounts_iff sound, bDecListContent_accounts_iff sound definite counts items⟩

/-- A list of one integer, in three octets. -/
theorem contents_taken_iff_one_integer :
    (∀ turns, Accounts (bDecListContent AsnInt.bDec turns [] 3 0) (AsnBuf.ofSeg [2, 1, 5]) 3 0) ↔
      ¬ Overshoots AsnInt.bDec 3 0 (AsnBuf.ofSeg [2, 1, 5]) :=
  (contents_taken_iff (AsnBuf.ofSeg [2, 1, 5]) (AsnBuf.ofSeg_sound (by decide) (by decide)) 3 0
    (by decide) 0x04000000 (by decide) 0 ⟨[]⟩ ⟨0, []⟩ ⟨true, []⟩ "IA5String" AsnInt.bDec
    AsnInt.bDec_counts []).2.2.2.2.2.2

/-- A real whose exponent does not fit its two octets takes three. -/
theorem long_exponent_taken :
    ¬ ∀ (b : AsnBuf) (elmtLen n : AsnLen), b.Sound → elmtLen ≠ INDEFINITE_LEN →
      Accounts (AsnReal.bDecContent elmtLen n) b elmtLen n := by
  intro accounts
  have sound : (AsnBuf.ofSeg [0x81, 1, 2]).Sound :=
    AsnBuf.ofSeg_sound (by decide) (by decide)
  have taken := (accounts _ 2 0 sound (by decide) (.binary 0x81 [1, 2] []) 2
    ⟨[], [(AsnRvsBuf.ofSeg [0x81, 1, 2]).setg 0]⟩ rfl).1.unread
  cases taken

end Esnacc.Cxx
