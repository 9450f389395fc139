import Esnacc.Cxx.FillTurns

/-! Pieces of a constructed octet string, and how far the collector gets in them. -/

namespace Esnacc.Cxx

open Lib

/-- Pieces one after the other, the contents of a constructed octet string. -/
inductive Pieces where
  | nil
  | primitive (len octets : List UInt8) (rest : Pieces)
  | definite (len : List UInt8) (inner rest : Pieces)
  | indefinite (inner rest : Pieces)

namespace Pieces

/-- The octets of pieces. -/
@[grind =] def encode : Pieces → List UInt8
  | nil => []
  | primitive len octets rest => 4 :: (len ++ (octets ++ rest.encode))
  | definite len inner rest => 0x24 :: (len ++ (inner.encode ++ rest.encode))
  | indefinite inner rest => 0x24 :: 0x80 :: (inner.encode ++ 0 :: 0 :: rest.encode)

/-- The octets of the primitive pieces in order. -/
@[grind =] def leaves : Pieces → List UInt8
  | nil => []
  | primitive _ octets rest => octets ++ rest.leaves
  | definite _ inner rest => inner.leaves ++ rest.leaves
  | indefinite inner rest => inner.leaves ++ rest.leaves

/-- Every length is the number of octets it stands in front of. -/
def WellFormed : Pieces → Prop
  | nil => True
  | primitive len octets rest => IsLength len octets.length ∧ rest.WellFormed
  | definite len inner rest =>
    IsLength len inner.encode.length ∧ inner.WellFormed ∧ rest.WellFormed
  | indefinite inner rest => inner.WellFormed ∧ rest.WellFormed

/-- All pieces are primitive, with lengths of at most nine octets. -/
def Flat : Pieces → Prop
  | nil => True
  | primitive len _ rest => len.length ≤ 9 ∧ rest.Flat
  | definite _ _ _ => False
  | indefinite _ _ => False

/-- The way to the first piece that is not primitive, and on inside it, meets a longer length. -/
def MeetsLong : Pieces → Prop
  | nil => False
  | primitive len _ rest => 9 < len.length ∨ rest.MeetsLong
  | definite len inner _ => 9 < len.length ∨ inner.MeetsLong
  | indefinite inner _ => inner.MeetsLong

theorem encode_ne_nil {p : Pieces} (some : p ≠ nil) : p.encode ≠ [] := by
  cases p with
  | nil => exact absurd rfl some
  | primitive len octets rest => simp [encode]
  | definite len inner rest => simp [encode]
  | indefinite inner rest => simp [encode]

theorem Flat.not_meetsLong {p : Pieces} (flat : p.Flat) : ¬ p.MeetsLong := by
  induction p with
  | nil => exact id
  | primitive len octets rest ih =>
    rintro (long | later)
    · exact absurd long (Nat.not_lt.mpr flat.1)
    · exact ih flat.2 later
  | definite len inner rest => exact flat.elim
  | indefinite inner rest => exact flat.elim

end Pieces

/-! ## A node and the octets in front of the place in it -/

/-- The word for the length of an element: absent where the element has the indefinite form. -/
def formLen : Option Nat → AsnLen
  | some l => UInt64.ofNat l
  | none => INDEFINITE_LEN

/-- The node of an element of which a number of octets are passed. -/
def nodeOf (form : Option Nat) (passed : Nat) : RefNode :=
  ⟨formLen form, UInt64.ofNat passed⟩

/-- A number of octets of an element are inside it. -/
def Inside (form : Option Nat) (passed : Nat) : Prop :=
  ∀ l, form = some l → passed ≤ l ∧ l < 2 ^ 64 - 1

theorem Inside.mono {form : Option Nat} {m n : Nat} (inside : Inside form n) (less : m ≤ n) :
    Inside form m :=
  fun l same => ⟨Nat.le_trans less (inside l same).1, (inside l same).2⟩

theorem toNat_ofNat_of_lt {n : Nat} (small : n < 2 ^ 64) : (UInt64.ofNat n).toNat = n := by
  rw [UInt64.toNat_ofNat']
  exact Nat.mod_eq_of_lt small

theorem ofNat_ne_indefinite {n : Nat} (small : n < 2 ^ 64 - 1) :
    UInt64.ofNat n ≠ INDEFINITE_LEN := by
  intro endless
  have number := congrArg UInt64.toNat endless
  have top : INDEFINITE_LEN.toNat = 18446744073709551615 := rfl
  rw [toNat_ofNat_of_lt (by omega), top] at number
  omega

theorem Inside.more {form : Option Nat} {m n : Nat} (inside : Inside form n) (less : m < n) :
    (nodeOf form m).more = true := by
  cases form with
  | none => simp [nodeOf, formLen, RefNode.more]
  | some l =>
    obtain ⟨within, small⟩ := inside l rfl
    have below : UInt64.ofNat m < UInt64.ofNat l := by
      rw [UInt64.lt_iff_toNat_lt, toNat_ofNat_of_lt (by omega), toNat_ofNat_of_lt (by omega)]
      omega
    simp [nodeOf, formLen, RefNode.more, below]

theorem not_more_of_le {l m : Nat} (ended : l ≤ m) (smallL : l < 2 ^ 64 - 1) (small : m < 2 ^ 64) :
    (nodeOf (some l) m).more = false := by
  have done : ¬ UInt64.ofNat m < UInt64.ofNat l := by
    rw [UInt64.lt_iff_toNat_lt, toNat_ofNat_of_lt small, toNat_ofNat_of_lt (by omega)]
    omega
  simp [nodeOf, formLen, RefNode.more, done, ofNat_ne_indefinite smallL]

/-- A constructed piece that is inside an element fits its node. -/
theorem Inside.fits {form : Option Nat} {m k : Nat} (inside : Inside form (m + k)) :
    ¬ (nodeOf form m).length < UInt64.ofNat m + UInt64.ofNat k := by
  rw [← UInt64.ofNat_add, UInt64.lt_iff_toNat_lt]
  cases form with
  | none =>
    have top : (nodeOf none m).length.toNat = 18446744073709551615 := rfl
    have word := (UInt64.ofNat (m + k)).toNat_lt
    omega
  | some l =>
    obtain ⟨within, small⟩ := inside l rfl
    have number : (nodeOf (some l) m).length.toNat = l := toNat_ofNat_of_lt (by omega)
    rw [toNat_ofNat_of_lt (by omega)]
    omega

/-! ## One piece -/

/-- A routine throws, and not for want of turns. -/
def Refuses {α : Type} (x : BufM α) (b : AsnBuf) : Prop :=
  ∃ thrown b', x.run b = .error thrown b' ∧ thrown ≠ .outOfTurns

/-- A routine returns. -/
def Completes {α : Type} (x : BufM α) (b : AsnBuf) : Prop :=
  ∃ r b', x.run b = .ok r b'

theorem Completes.not_refuses {α : Type} {x : BufM α} {b : AsnBuf} (completes : Completes x b) :
    ¬ Refuses x b := by
  obtain ⟨r, b', ran⟩ := completes
  rintro ⟨thrown, b'', failed, -⟩
  rw [ran] at failed
  cases failed

theorem isTag_four : IsTag [4] :=
  .inl ⟨4, rfl, by decide⟩

section

variable {b : AsnBuf} {form : Option Nat} {m : Nat} {len octets data : List UInt8}

/-- From a buffer the collector gets to another state and buffer in some turns. -/
def Reaches (b : AsnBuf) (st : Collector) (used : Nat) (data : List UInt8) (st' : Collector) :
    Prop :=
  ∃ b' : AsnBuf, b'.Sound ∧ b'.unread = data ∧ ∀ turns,
    (fillTurns OCTETSTRING_TAG_CODE (turns + used) st).run b =
      (fillTurns OCTETSTRING_TAG_CODE turns st').run b'

theorem Reaches.refl (sound : b.Sound) (st : Collector) : Reaches b st 0 b.unread st :=
  ⟨b, sound, rfl, fun _ => rfl⟩

/-- A primitive piece is put in the deck. -/
theorem reaches_primitive (frames : List RefNode) (passed : Nat) (strDeck : List StringPair)
    (sound : b.Sound) (isLength : IsLength len octets.length) (short : len.length ≤ 9)
    (unread : b.unread = 4 :: (len ++ (octets ++ data)))
    (more : (nodeOf form passed).more = true) :
    Reaches b (.at_ frames (nodeOf form passed) strDeck) 1 data
      (.at_ frames (nodeOf form (passed + (1 + len.length + octets.length)))
        (strDeck ++ [(some octets, UInt64.ofNat octets.length)])) := by
  have turn := fillTurn_primitive OCTETSTRING_TAG_CODE frames (nodeOf form passed) strDeck sound
    isTag_four (by decide) isLength short unread (fun both => absurd both.1 (by decide))
    (.inl (by decide))
  rw [show (nodeOf form passed).count = UInt64.ofNat passed from rfl, ← UInt64.ofNat_add] at turn
  refine fillTurns_of_turn sound more turn ?_
  rw [unread, List.length_cons, List.length_append, List.length_append]
  omega

/-- A constructed piece of definite length that is inside its element is worked on next. -/
theorem reaches_definite (frames : List RefNode) (passed : Nat) (strDeck : List StringPair)
    (sound : b.Sound) (isLength : IsLength len m) (short : len.length ≤ 9)
    (unread : b.unread = 0x24 :: (len ++ data))
    (inside : Inside form (passed + (1 + len.length) + m)) :
    Reaches b (.at_ frames (nodeOf form passed) strDeck) 1 data
      (.at_ (frames ++ [nodeOf form (passed + (1 + len.length))]) (nodeOf (some m) 0) strDeck) := by
  have measured : ∀ b' : AsnBuf, b'.Sound → b'.unread = len ++ data →
      Acts (bDecLen ((nodeOf form passed).count + 1)) b'
        (.ok (UInt64.ofNat m, UInt64.ofNat (passed + (1 + len.length))), data) := by
    intro b' sound' left
    have acts := bDecLen_isLength (n := (nodeOf form passed).count + 1) sound' isLength short left
    have counted : (nodeOf form passed).count + 1 + UInt64.ofNat len.length =
        UInt64.ofNat (passed + (1 + len.length)) := by
      rw [UInt64.ofNat_add, UInt64.ofNat_add, UInt64.add_assoc]
      rfl
    rwa [counted] at acts
  have fits : ¬ (nodeOf form passed).length <
      UInt64.ofNat m + UInt64.ofNat (passed + (1 + len.length)) := by
    rw [UInt64.add_comm]
    exact inside.fits
  have turn := fillTurn_constructed OCTETSTRING_TAG_CODE frames (nodeOf form passed) strDeck sound
    (by decide) unread (by decide) (by decide) (by decide) measured (by simp) (.inr fits)
  refine fillTurns_of_turn sound (inside.more (by omega)) turn ?_
  rw [unread, List.length_cons, List.length_append]
  omega

/-- A constructed piece of indefinite length is worked on next. -/
theorem reaches_indefinite (frames : List RefNode) (passed : Nat) (strDeck : List StringPair)
    (sound : b.Sound) (unread : b.unread = 0x24 :: 0x80 :: data)
    (inside : Inside form (passed + 2)) :
    Reaches b (.at_ frames (nodeOf form passed) strDeck) 1 data
      (.at_ (frames ++ [nodeOf form (passed + 2)]) (nodeOf none 0) strDeck) := by
  have measured : ∀ b' : AsnBuf, b'.Sound → b'.unread = 0x80 :: data →
      Acts (bDecLen ((nodeOf form passed).count + 1)) b'
        (.ok (INDEFINITE_LEN, UInt64.ofNat (passed + 2)), data) := by
    intro b' sound' left
    have acts := bDecLen_indefinite (n := (nodeOf form passed).count + 1) sound' left
    have counted : (nodeOf form passed).count + 1 + 1 = UInt64.ofNat (passed + 2) := by
      rw [UInt64.ofNat_add, UInt64.add_assoc]
      rfl
    rwa [counted] at acts
  have turn := fillTurn_constructed OCTETSTRING_TAG_CODE frames (nodeOf form passed) strDeck sound
    (by decide) unread (by decide) (by decide) (by decide) measured (by simp) (.inl rfl)
  refine fillTurns_of_turn sound (inside.more (by omega)) turn ?_
  rw [unread, List.length_cons, List.length_cons]
  omega

/-- A piece whose length has more than nine octets is refused. -/
theorem refuses_long (frames : List RefNode) (passed : Nat) (strDeck : List StringPair) {c : UInt8}
    (sound : b.Sound) (kind : c = 4 ∨ c = 0x24)
    (isLength : IsLength len m) (long : 9 < len.length) (unread : b.unread = c :: (len ++ data))
    (more : (nodeOf form passed).more = true) (turns : Nat) :
    Refuses (fillTurns OCTETSTRING_TAG_CODE (turns + 1)
      (.at_ frames (nodeOf form passed) strDeck)) b := by
  have known : c &&& 0x1F ≠ 0x1F ∧ c.toUInt32 <<< 24 ≠ EOC_TAG_ID ∧
      (c.toUInt32 <<< 24 = makeTagId UNIV PRIM OCTETSTRING_TAG_CODE ∨
        c.toUInt32 <<< 24 = makeTagId UNIV CONS OCTETSTRING_TAG_CODE) := by
    rcases kind with rfl | rfl <;> decide
  obtain ⟨b', failed⟩ := fillTurn_long OCTETSTRING_TAG_CODE frames (nodeOf form passed) strDeck
    sound known.1 unread known.2.1 known.2.2 fun b' sound' left =>
      bDecLen_long sound' isLength long left
  exact ⟨_, b', fillTurns_of_error more failed turns, by decide⟩

end

/-! ## All pieces of an element -/

theorem Reaches.run_eq {b : AsnBuf} {st st' : Collector} {used turns : Nat} {data : List UInt8}
    (reaches : Reaches b st used data st') (enough : used ≤ turns) :
    ∃ b' : AsnBuf, b'.Sound ∧ b'.unread = data ∧
      (fillTurns OCTETSTRING_TAG_CODE turns st).run b =
        (fillTurns OCTETSTRING_TAG_CODE (turns - used) st').run b' := by
  obtain ⟨b', sound, left, same⟩ := reaches
  refine ⟨b', sound, left, ?_⟩
  rw [← same (turns - used), Nat.sub_add_cancel enough]

/-- The pairs that the collector keeps of flat pieces. -/
@[grind =] def Pieces.pairs : Pieces → List StringPair
  | .nil => []
  | .primitive _ octets rest => (some octets, UInt64.ofNat octets.length) :: rest.pairs
  | .definite _ _ _ => []
  | .indefinite _ _ => []

/-- Flat pieces are put in the deck one after the other. -/
theorem Pieces.reaches_flat {p : Pieces} (wellFormed : p.WellFormed) (flat : p.Flat) {b : AsnBuf}
    (frames : List RefNode) {form : Option Nat} {passed : Nat} (strDeck : List StringPair)
    {data : List UInt8} (sound : b.Sound) (unread : b.unread = p.encode ++ data)
    (inside : Inside form (passed + p.encode.length)) :
    ∃ used, used ≤ p.encode.length ∧
      Reaches b (.at_ frames (nodeOf form passed) strDeck) used data
        (.at_ frames (nodeOf form (passed + p.encode.length)) (strDeck ++ p.pairs)) := by
  induction p generalizing b passed strDeck with
  | nil =>
    refine ⟨0, Nat.le_refl 0, ?_⟩
    rw [encode, List.nil_append] at unread
    rw [encode, List.length_nil, Nat.add_zero, pairs, List.append_nil, ← unread]
    exact Reaches.refl sound _
  | primitive len octets rest ih =>
    obtain ⟨isLength, wellFormed⟩ := wellFormed
    obtain ⟨short, flat⟩ := flat
    have size : (primitive len octets rest).encode.length =
        1 + len.length + octets.length + rest.encode.length := by
      simp only [encode, List.length_cons, List.length_append]
      omega
    rw [size] at inside ⊢
    have unread' : b.unread = 4 :: (len ++ (octets ++ (rest.encode ++ data))) := by
      rw [unread, encode]
      simp only [List.cons_append, List.append_assoc]
    obtain ⟨b1, sound1, left1, same1⟩ := reaches_primitive frames passed strDeck sound isLength
      short unread' (inside.more (by omega))
    have place : passed + (1 + len.length + octets.length) + rest.encode.length =
        passed + (1 + len.length + octets.length + rest.encode.length) := by
      omega
    have within : Inside form (passed + (1 + len.length + octets.length) + rest.encode.length) := by
      rwa [place]
    obtain ⟨used, few, b2, sound2, left2, same2⟩ := ih wellFormed flat
      (strDeck ++ [(some octets, UInt64.ofNat octets.length)]) sound1 left1 within
    refine ⟨used + 1, by omega, b2, sound2, left2, fun turns => ?_⟩
    rw [← Nat.add_assoc, same1, same2, place, pairs, List.append_assoc]
    rfl
  | definite len inner rest => exact flat.elim
  | indefinite inner rest => exact flat.elim

/-- The collector is done at the end of an element. -/
theorem completes_at_end {b : AsnBuf} {frames : List RefNode} {form : Option Nat}
    {passed turns : Nat} {strDeck : List StringPair} (sound : b.Sound) (least : 0 < turns)
    (ends : (∃ l, form = some l ∧ l ≤ passed ∧ l < 2 ^ 64 - 1 ∧ passed < 2 ^ 64) ∨
      form = none ∧ ∃ data, b.unread = 0 :: 0 :: data) :
    Completes (fillTurns OCTETSTRING_TAG_CODE turns (.at_ frames (nodeOf form passed) strDeck)) b := by
  obtain ⟨turns, rfl⟩ := Nat.exists_eq_succ_of_ne_zero (Nat.ne_of_gt least)
  rcases ends with ⟨l, rfl, ended, smallL, small⟩ | ⟨rfl, data, unread⟩
  · obtain ⟨st, ⟨b', ran, -⟩, -⟩ := fillTurns_done OCTETSTRING_TAG_CODE frames strDeck turns sound
      (not_more_of_le ended smallL small)
    exact ⟨st, b', ran⟩
  · obtain ⟨st, ⟨b', ran, -⟩, -⟩ := fillTurns_eoc OCTETSTRING_TAG_CODE frames (nodeOf none passed)
      strDeck turns sound rfl unread
    exact ⟨st, b', ran⟩

theorem Reaches.refuses {b : AsnBuf} {st st' : Collector} {used turns : Nat} {data : List UInt8}
    (reaches : Reaches b st used data st') (enough : used ≤ turns)
    (later : ∀ b' : AsnBuf, b'.Sound → b'.unread = data →
      Refuses (fillTurns OCTETSTRING_TAG_CODE (turns - used) st') b') :
    Refuses (fillTurns OCTETSTRING_TAG_CODE turns st) b := by
  obtain ⟨b', sound, left, same⟩ := reaches.run_eq enough
  obtain ⟨thrown, last, failed, other⟩ := later b' sound left
  exact ⟨thrown, last, same.trans failed, other⟩

theorem Reaches.completes {b : AsnBuf} {st st' : Collector} {used turns : Nat} {data : List UInt8}
    (reaches : Reaches b st used data st') (enough : used ≤ turns)
    (later : ∀ b' : AsnBuf, b'.Sound → b'.unread = data →
      Completes (fillTurns OCTETSTRING_TAG_CODE (turns - used) st') b') :
    Completes (fillTurns OCTETSTRING_TAG_CODE turns st) b := by
  obtain ⟨b', sound, left, same⟩ := reaches.run_eq enough
  obtain ⟨r, last, ran⟩ := later b' sound left
  exact ⟨r, last, same.trans ran⟩

/--
Pieces that are not flat are where the collector ends.

It throws at a long length on the way to the innermost first constructed piece, and otherwise
returns from there, whatever follows.
-/
theorem Pieces.ends_of_not_flat {p : Pieces} (wellFormed : p.WellFormed) (notFlat : ¬ p.Flat)
    {b : AsnBuf} (frames : List RefNode) {form : Option Nat} {passed turns : Nat}
    (strDeck : List StringPair) {data : List UInt8} (sound : b.Sound)
    (unread : b.unread = p.encode ++ data) (inside : Inside form (passed + p.encode.length))
    (enough : p.encode.length < turns) :
    (p.MeetsLong →
      Refuses (fillTurns OCTETSTRING_TAG_CODE turns (.at_ frames (nodeOf form passed) strDeck)) b) ∧
    (¬ p.MeetsLong →
      Completes (fillTurns OCTETSTRING_TAG_CODE turns
        (.at_ frames (nodeOf form passed) strDeck)) b) := by
  -- The induction is on the pieces: behind a primitive one, and inside a constructed one.
  induction p generalizing b frames form passed strDeck turns data with
  | nil => exact absurd trivial notFlat
  | primitive len octets rest ih =>
    obtain ⟨isLength, wellFormed⟩ := wellFormed
    have size : (primitive len octets rest).encode.length =
        1 + len.length + octets.length + rest.encode.length := by
      simp only [encode, List.length_cons, List.length_append]
      omega
    have unread' : b.unread = 4 :: (len ++ (octets ++ (rest.encode ++ data))) := by
      rw [unread, encode]
      simp only [List.cons_append, List.append_assoc]
    rw [size] at inside enough
    by_cases long : 9 < len.length
    · -- The length is refused at once.
      obtain ⟨turns, rfl⟩ := Nat.exists_eq_succ_of_ne_zero (Nat.ne_of_gt (Nat.zero_lt_of_lt enough))
      refine ⟨fun _ => ?_, fun none => absurd (.inl long) none⟩
      exact refuses_long frames passed strDeck sound (.inl rfl) isLength long unread' (inside.more (by omega)) turns
    · have short : len.length ≤ 9 := Nat.le_of_not_lt long
      have first := reaches_primitive frames passed strDeck sound isLength short unread'
        (inside.more (by omega))
      have place : passed + (1 + len.length + octets.length) + rest.encode.length =
          passed + (1 + len.length + octets.length + rest.encode.length) := by
        omega
      have within :
          Inside form (passed + (1 + len.length + octets.length) + rest.encode.length) := by
        rwa [place]
      have others : ¬ rest.Flat := fun flat => notFlat ⟨short, flat⟩
      constructor
      · rintro (above | meets)
        · exact absurd above long
        · refine first.refuses (by omega) fun b' sound' left => ?_
          exact (ih wellFormed others _ _ sound' left within (by omega)).1 meets
      · intro none
        refine first.completes (by omega) fun b' sound' left => ?_
        exact (ih wellFormed others _ _ sound' left within (by omega)).2
          fun meets => none (.inr meets)
  | definite len inner rest ih _ =>
    obtain ⟨isLength, wellFormed, -⟩ := wellFormed
    have size : (definite len inner rest).encode.length =
        1 + len.length + inner.encode.length + rest.encode.length := by
      simp only [encode, List.length_cons, List.length_append]
      omega
    have unread' : b.unread = 0x24 :: (len ++ (inner.encode ++ (rest.encode ++ data))) := by
      rw [unread, encode]
      simp only [List.cons_append, List.append_assoc]
    rw [size] at inside enough
    by_cases long : 9 < len.length
    · obtain ⟨turns, rfl⟩ := Nat.exists_eq_succ_of_ne_zero (Nat.ne_of_gt (Nat.zero_lt_of_lt enough))
      refine ⟨fun _ => ?_, fun none => absurd (.inl long) none⟩
      exact refuses_long frames passed strDeck sound (.inr rfl) isLength long unread' (inside.more (by omega)) turns
    · have short : len.length ≤ 9 := Nat.le_of_not_lt long
      have first := reaches_definite frames passed strDeck sound isLength short unread'
        (inside.mono (by omega))
      have small : inner.encode.length < 2 ^ 63 := by
        have fits := sound.fits
        rw [unread, List.length_append, size] at fits
        omega
      have within : Inside (some inner.encode.length) (0 + inner.encode.length) := by
        rintro l ⟨⟩
        omega
      by_cases flat : inner.Flat
      · -- The pieces inside are passed, and the element ends behind them.
        refine ⟨fun meets => (meets.elim long flat.not_meetsLong).elim, fun _ => ?_⟩
        refine first.completes (by omega) fun b' sound' left => ?_
        obtain ⟨used, few, reaches⟩ := reaches_flat wellFormed flat
          (frames ++ [nodeOf form (passed + (1 + len.length))]) strDeck sound' left within
        refine reaches.completes (by omega) fun b'' sound'' _ => ?_
        exact completes_at_end sound'' (by omega)
          (.inl ⟨_, rfl, by omega, by omega, by omega⟩)
      · constructor
        · rintro (above | meets)
          · exact absurd above long
          · refine first.refuses (by omega) fun b' sound' left => ?_
            exact (ih wellFormed flat _ _ sound' left within (by omega)).1 meets
        · intro none
          refine first.completes (by omega) fun b' sound' left => ?_
          exact (ih wellFormed flat _ _ sound' left within (by omega)).2 fun meets => none (.inr meets)
  | indefinite inner rest ih _ =>
    obtain ⟨wellFormed, -⟩ := wellFormed
    have size : (indefinite inner rest).encode.length =
        4 + inner.encode.length + rest.encode.length := by
      simp only [encode, List.length_cons, List.length_append]
      omega
    have unread' : b.unread = 0x24 :: 0x80 :: (inner.encode ++ 0 :: 0 :: (rest.encode ++ data)) := by
      rw [unread, encode]
      simp only [List.cons_append, List.append_assoc]
    rw [size] at inside enough
    have first := reaches_indefinite frames passed strDeck sound unread'
      (inside.mono (by omega))
    have within : Inside none (0 + inner.encode.length) := by
      rintro l ⟨⟩
    by_cases flat : inner.Flat
    · -- Behind the pieces inside, the end of contents is met.
      refine ⟨fun meets => (flat.not_meetsLong meets).elim, fun _ => ?_⟩
      refine first.completes (by omega) fun b' sound' left => ?_
      obtain ⟨used, few, reaches⟩ := reaches_flat wellFormed flat
        (frames ++ [nodeOf form (passed + 2)]) strDeck sound' left within
      refine reaches.completes (by omega) fun b'' sound'' left' => ?_
      exact completes_at_end sound'' (by omega) (.inr ⟨rfl, _, left'⟩)
    · constructor
      · intro meets
        refine first.refuses (by omega) fun b' sound' left => ?_
        exact (ih wellFormed flat _ _ sound' left within (by omega)).1 meets
      · intro none
        refine first.completes (by omega) fun b' sound' left => ?_
        exact (ih wellFormed flat _ _ sound' left within (by omega)).2 none

end Esnacc.Cxx
