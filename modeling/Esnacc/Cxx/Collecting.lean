import Esnacc.Cxx.Pieces

/-! When the collector takes exactly the contents of a constructed octet string, and when not. -/

namespace Esnacc.Cxx

open Lib

/-! ## Contents that are well formed -/

namespace Pieces

/-- The contents made of pieces: an indefinite length has the end of contents behind them. -/
def contents (byLength : Bool) (p : Pieces) : List UInt8 :=
  if byLength then p.encode else p.encode ++ [0, 0]

/-- The number of octets of the contents, if it is known beforehand. -/
def form (byLength : Bool) (p : Pieces) : Option Nat :=
  if byLength then some p.encode.length else none

/--
The pieces that the collector takes exactly.

All are primitive, but for an empty constructed one of definite length that may stand at the end of
contents of definite length; and no length has more than nine octets.
-/
def Collected (byLength : Bool) : Pieces → Prop
  | nil => True
  | primitive len _ rest => len.length ≤ 9 ∧ rest.Collected byLength
  | definite len inner rest => byLength = true ∧ len.length ≤ 9 ∧ inner = nil ∧ rest = nil
  | indefinite _ _ => False

theorem length_contents (byLength : Bool) (p : Pieces) :
    (p.contents byLength).length = p.encode.length + if byLength then 0 else 2 := by
  cases byLength <;> simp [contents]

theorem eq_nil_of_length {p : Pieces} (empty : p.encode.length = 0) : p = nil := by
  by_contra some
  exact encode_ne_nil some (List.length_eq_zero_iff.mp empty)

/-- The octets of the pairs kept of collected pieces are those of the leaves in order. -/
theorem Collected.collapse_pairs {byLength : Bool} {p : Pieces} (collected : p.Collected byLength)
    (small : p.encode.length < 2 ^ 64) (str : List UInt8) :
    collapse p.pairs str = .ok (str ++ p.leaves) := by
  -- The induction is on the pieces, of which each primitive one has a pair.
  induction p generalizing str with
  | nil =>
    rw [pairs, collapse, leaves, List.append_nil]
    rfl
  | primitive len octets rest ih =>
    simp only [encode, List.length_cons, List.length_append] at small
    have number : (UInt64.ofNat octets.length).toNat = octets.length :=
      toNat_ofNat_of_lt (by omega)
    rw [pairs, collapse, number, List.take_length, ih collected.2 (by omega), leaves,
      List.append_assoc]
  | definite len inner rest =>
    obtain ⟨-, -, rfl, rfl⟩ := collected
    rw [pairs, collapse, leaves, leaves, List.append_nil, List.append_nil]
    rfl
  | indefinite inner rest => exact collected.elim

end Pieces

section

variable {b : AsnBuf} {byLength : Bool} {p : Pieces} {root : Option Nat} {passed : Nat}
  {rest : List UInt8}

/-- The place of an element of known or unknown length in front of the pieces that are left of it. -/
def AtPieces (byLength : Bool) (p : Pieces) (root : Option Nat) (passed : Nat) : Prop :=
  if byLength then root = some (passed + p.encode.length) ∧ passed + p.encode.length < 2 ^ 64 - 1
  else root = none

theorem AtPieces.inside (place : AtPieces byLength p root passed) :
    Inside root (passed + p.encode.length) := by
  intro l same
  cases byLength with
  | false => exact absurd (Eq.trans (Eq.symm same) place) (by simp)
  | true =>
    obtain ⟨known, small⟩ := place
    rw [known] at same
    cases same
    exact ⟨Nat.le_refl _, small⟩

theorem AtPieces.next {q : Pieces} {m : Nat} (place : AtPieces byLength p root passed)
    (size : p.encode.length = m + q.encode.length) : AtPieces byLength q root (passed + m) := by
  cases byLength with
  | false => exact place
  | true =>
    obtain ⟨known, small⟩ := place
    rw [size, ← Nat.add_assoc] at known small
    exact ⟨known, small⟩

/-- The collector ends behind collected pieces, with all octets of the contents counted. -/
theorem fillTurns_collected (strDeck : List StringPair) {turns : Nat} (sound : b.Sound) (wellFormed : p.WellFormed)
    (collected : p.Collected byLength) (place : AtPieces byLength p root passed)
    (unread : b.unread = p.contents byLength ++ rest)
    (enough : (p.contents byLength).length < turns) :
    ∃ st b', (fillTurns OCTETSTRING_TAG_CODE turns (.at_ [] (nodeOf root passed) strDeck)).run b =
        .ok st b' ∧ b'.unread = rest ∧ st.strDeck = strDeck ++ p.pairs ∧
      st.refList.head?.map RefNode.count =
        some (UInt64.ofNat (passed + (p.contents byLength).length)) := by
  -- The induction is on the pieces; each primitive one takes one turn.
  induction p generalizing b passed strDeck turns with
  | nil =>
    obtain ⟨turns, rfl⟩ := Nat.exists_eq_succ_of_ne_zero (Nat.ne_of_gt (Nat.zero_lt_of_lt enough))
    cases byLength with
    | true =>
      -- All octets of the definite length are counted.
      obtain ⟨rfl, small⟩ := place
      have ended : (nodeOf (some (passed + Pieces.nil.encode.length)) passed).more = false :=
        not_more_of_le (by simp [Pieces.encode]) small (by omega)
      obtain ⟨st, ⟨b', ran, left, -⟩, deck, atRoot, -⟩ :=
        fillTurns_done OCTETSTRING_TAG_CODE [] strDeck turns sound ended
      refine ⟨st, b', ran, left.trans unread, ?_, ?_⟩
      · rw [deck, Pieces.pairs, List.append_nil]
      · rw [atRoot rfl]
        rfl
    | false =>
      -- The end of contents is read and counted.
      have endless : (nodeOf root passed).length = INDEFINITE_LEN := by
        rw [show root = none from place]
        rfl
      obtain ⟨st, ⟨b', ran, left, -⟩, deck, atRoot, -⟩ :=
        fillTurns_eoc OCTETSTRING_TAG_CODE [] (nodeOf root passed) strDeck turns sound endless
          unread
      refine ⟨st, b', ran, left, ?_, ?_⟩
      · rw [deck, Pieces.pairs, List.append_nil]
      · rw [atRoot rfl]
        have counted : (nodeOf root passed).count + 2 = UInt64.ofNat (passed + 2) := by
          rw [UInt64.ofNat_add]
          rfl
        exact congrArg some counted
  | primitive len octets others ih =>
    obtain ⟨isLength, wellFormed⟩ := wellFormed
    obtain ⟨short, collected⟩ := collected
    have size : (Pieces.primitive len octets others).encode.length =
        1 + len.length + octets.length + others.encode.length := by
      simp only [Pieces.encode, List.length_cons, List.length_append]
      omega
    have total : ((Pieces.primitive len octets others).contents byLength).length =
        1 + len.length + octets.length + (others.contents byLength).length := by
      rw [Pieces.length_contents, Pieces.length_contents, size]
      omega
    have unread' : b.unread = 4 :: (len ++ (octets ++ (others.contents byLength ++ rest))) := by
      rw [unread]
      cases byLength <;> simp [Pieces.contents, Pieces.encode]
    rw [total] at enough
    have inside := place.inside
    obtain ⟨b1, sound1, left1, same1⟩ := reaches_primitive [] passed strDeck sound isLength short
      unread' (inside.more (by omega))
    obtain ⟨turns, rfl⟩ := Nat.exists_eq_succ_of_ne_zero (Nat.ne_of_gt (Nat.zero_lt_of_lt enough))
    have fewer : (others.contents byLength).length < turns := by
      omega
    obtain ⟨st, b', ran, left, deck, counted⟩ :=
      ih (strDeck ++ [(some octets, UInt64.ofNat octets.length)]) sound1 wellFormed collected
        (place.next size) left1 fewer
    refine ⟨st, b', (same1 turns).trans ran, left, ?_, ?_⟩
    · rw [deck, Pieces.pairs, List.append_assoc]
      rfl
    · rw [counted, total, Nat.add_assoc]
  | definite len inner others =>
    obtain ⟨isLength, -, -⟩ := wellFormed
    obtain ⟨rfl, short, rfl, rfl⟩ := collected
    have size : (Pieces.definite len .nil .nil).encode.length = 1 + len.length := by
      simp [Pieces.encode]
      omega
    have unread' : b.unread = 0x24 :: (len ++ rest) := by
      rw [unread]
      simp [Pieces.contents, Pieces.encode]
    rw [Pieces.length_contents, size, if_pos rfl] at enough
    have inside := place.inside
    rw [size] at inside
    -- The empty element is entered, and with it the collector ends.
    obtain ⟨b1, sound1, left1, same1⟩ := reaches_definite [] passed strDeck sound isLength short
      unread' inside
    have two : 2 ≤ turns := by
      omega
    obtain ⟨turns, rfl⟩ := Nat.exists_eq_add_of_le two
    obtain ⟨st, ⟨b', ran, left, -⟩, deck, -, nodes⟩ := fillTurns_done OCTETSTRING_TAG_CODE
      [nodeOf root (passed + (1 + len.length))] strDeck turns sound1
      (not_more_of_le (l := 0) (m := 0) (Nat.le_refl 0) (by omega) (by omega))
    have enters := same1 (turns + 1)
    rw [show turns + 1 + 1 = 2 + turns by omega] at enters
    refine ⟨st, b', enters.trans ran, left.trans left1, ?_, ?_⟩
    · rw [deck, Pieces.pairs, List.append_nil]
    · rw [nodes (by simp), Pieces.length_contents, size]
      rfl
  | indefinite inner others => exact collected.elim

/-- Inside a constructed piece, the count of the root stays as it is. -/
theorem eq_of_counted_inside {strDeck : List StringPair} {m k turns : Nat} {form : Option Nat}
    {st : Collector} {b' : AsnBuf}
    (ran : (fillTurns OCTETSTRING_TAG_CODE turns
      (.at_ ([] ++ [nodeOf root m]) (nodeOf form 0) strDeck)).run b = .ok st b')
    (counted : st.refList.head?.map RefNode.count = some (UInt64.ofNat k))
    (smallM : m < 2 ^ 64) (smallK : k < 2 ^ 64) : m = k := by
  have inside : (Collector.at_ ([] ++ [nodeOf root m]) (nodeOf form 0) strDeck).Inside
      (nodeOf root m) := ⟨Nat.zero_lt_one, rfl, rfl⟩
  rw [fillTurns_inside inside ran] at counted
  have same := congrArg UInt64.toNat (Option.some.inj counted)
  have number : (nodeOf root m).count.toNat = m := toNat_ofNat_of_lt smallM
  rwa [toNat_ofNat_of_lt smallK, number] at same

/-- Where the collector counts all octets of the contents, it has collected every piece. -/
theorem collected_of_counted {strDeck : List StringPair} {turns : Nat} {st : Collector}
    {b' : AsnBuf} (sound : b.Sound) (wellFormed : p.WellFormed)
    (place : AtPieces byLength p root passed) (unread : b.unread = p.contents byLength ++ rest)
    (small : passed + (p.contents byLength).length < 2 ^ 64)
    (enough : (p.contents byLength).length < turns)
    (ran : (fillTurns OCTETSTRING_TAG_CODE turns (.at_ [] (nodeOf root passed) strDeck)).run b =
      .ok st b')
    (counted : st.refList.head?.map RefNode.count =
      some (UInt64.ofNat (passed + (p.contents byLength).length))) : p.Collected byLength := by
  -- The induction is on the pieces; no constructed one is counted behind its header.
  induction p generalizing b passed strDeck turns with
  | nil => trivial
  | primitive len octets others ih =>
    obtain ⟨isLength, wellFormed⟩ := wellFormed
    have size : (Pieces.primitive len octets others).encode.length =
        1 + len.length + octets.length + others.encode.length := by
      simp only [Pieces.encode, List.length_cons, List.length_append]
      omega
    have total : ((Pieces.primitive len octets others).contents byLength).length =
        1 + len.length + octets.length + (others.contents byLength).length := by
      rw [Pieces.length_contents, Pieces.length_contents, size]
      omega
    have unread' : b.unread = 4 :: (len ++ (octets ++ (others.contents byLength ++ rest))) := by
      rw [unread]
      cases byLength <;> simp [Pieces.contents, Pieces.encode]
    have more := place.inside.more (m := passed) (by omega)
    obtain ⟨turns, rfl⟩ := Nat.exists_eq_succ_of_ne_zero (Nat.ne_of_gt (Nat.zero_lt_of_lt enough))
    rw [total] at enough counted small
    by_cases long : 9 < len.length
    · obtain ⟨thrown, b1, failed, -⟩ := refuses_long [] passed strDeck sound (.inl rfl) isLength
        long unread' more turns
      rw [failed] at ran
      cases ran
    · have short : len.length ≤ 9 := Nat.le_of_not_lt long
      obtain ⟨b1, sound1, left1, same1⟩ := reaches_primitive [] passed strDeck sound isLength short
        unread' more
      rw [same1 turns] at ran
      rw [← Nat.add_assoc] at counted small
      exact ⟨short, ih sound1 wellFormed (place.next size) left1 small (by omega) ran counted⟩
  | definite len inner others =>
    obtain ⟨isLength, -, -⟩ := wellFormed
    have size : (Pieces.definite len inner others).encode.length =
        1 + len.length + inner.encode.length + others.encode.length := by
      simp only [Pieces.encode, List.length_cons, List.length_append]
      omega
    have unread' : b.unread = 0x24 :: (len ++ (inner.encode ++
        (others.contents byLength ++ rest))) := by
      rw [unread]
      cases byLength <;> simp [Pieces.contents, Pieces.encode]
    have inside := place.inside
    rw [size] at inside
    obtain ⟨turns, rfl⟩ := Nat.exists_eq_succ_of_ne_zero (Nat.ne_of_gt (Nat.zero_lt_of_lt enough))
    by_cases long : 9 < len.length
    · obtain ⟨thrown, b1, failed, -⟩ := refuses_long [] passed strDeck sound (.inr rfl) isLength
        long unread' (inside.more (by omega)) turns
      rw [failed] at ran
      cases ran
    · have short : len.length ≤ 9 := Nat.le_of_not_lt long
      obtain ⟨b1, sound1, left1, same1⟩ := reaches_definite [] passed strDeck sound isLength short
        unread' (inside.mono (by omega))
      rw [same1 turns] at ran
      rw [Pieces.length_contents, size] at counted small
      -- Only the header was counted, so that nothing stands behind it.
      have header := eq_of_counted_inside ran counted (by omega) small
      cases byLength with
      | false =>
        rw [if_neg (by decide)] at header
        omega
      | true =>
        exact ⟨rfl, short, Pieces.eq_nil_of_length (by omega), Pieces.eq_nil_of_length (by omega)⟩
  | indefinite inner others =>
    have size : (Pieces.indefinite inner others).encode.length =
        4 + inner.encode.length + others.encode.length := by
      simp only [Pieces.encode, List.length_cons, List.length_append]
      omega
    have unread' : b.unread = 0x24 :: 0x80 :: (inner.encode ++
        0 :: 0 :: (others.contents byLength ++ rest)) := by
      rw [unread]
      cases byLength <;> simp [Pieces.contents, Pieces.encode]
    have inside := place.inside
    rw [size] at inside
    obtain ⟨turns, rfl⟩ := Nat.exists_eq_succ_of_ne_zero (Nat.ne_of_gt (Nat.zero_lt_of_lt enough))
    obtain ⟨b1, sound1, left1, same1⟩ := reaches_indefinite [] passed strDeck sound unread'
      (inside.mono (by omega))
    rw [same1 turns] at ran
    rw [Pieces.length_contents, size] at counted small
    have header := eq_of_counted_inside ran counted (by omega) small
    omega

end

/--
The collector takes exactly the contents.

It leaves what follows them, counts their octets, and its pieces collapse to the leaves in order.
-/
def CollectsExactly (byLength : Bool) (p : Pieces) (turns : Nat) (n : AsnLen) (b : AsnBuf)
    (rest : List UInt8) : Prop :=
  ∃ strDeck b', (fill turns OCTETSTRING_TAG_CODE (formLen (p.form byLength)) n).run b =
      .ok (strDeck, n + UInt64.ofNat (p.contents byLength).length) b' ∧ b'.unread = rest ∧
    ∀ str, collapse strDeck str = .ok (str ++ p.leaves)

theorem fill_eq_ok {turns : Nat} {baseTag : AsnTag} {elmtLen n count : AsnLen} {b b' : AsnBuf}
    {strDeck : List StringPair}
    (ran : (fill turns baseTag elmtLen n).run b = .ok (strDeck, n + count) b') :
    ∃ st, (fillTurns baseTag turns ⟨[⟨elmtLen, 0⟩], 0, []⟩).run b = .ok st b' ∧
      (st.refList.head?.map RefNode.count).getD 0 = count := by
  rw [fill] at ran
  obtain ⟨st, b1, turned, ran⟩ := run_bind_eq_ok.mp ran
  obtain ⟨rfl, same⟩ := run_pure_eq_ok.mp ran
  refine ⟨st, turned, ?_⟩
  exact ((UInt64.add_right_inj n).mp (Prod.mk.inj same).2).symm

/-- Pieces are collected exactly when they are primitive, up to an empty last one. -/
theorem collectsExactly_iff {byLength : Bool} {p : Pieces} {turns : Nat} (n : AsnLen) {b : AsnBuf}
    {rest : List UInt8} (sound : b.Sound) (wellFormed : p.WellFormed)
    (unread : b.unread = p.contents byLength ++ rest)
    (enough : (p.contents byLength).length < turns) :
    CollectsExactly byLength p turns n b rest ↔ p.Collected byLength := by
  have fits := sound.fits
  rw [unread, List.length_append] at fits
  have size := p.length_contents byLength
  have place : AtPieces byLength p (p.form byLength) 0 := by
    cases byLength with
    | false => rfl
    | true => exact ⟨congrArg some (Nat.zero_add _).symm, by omega⟩
  have start : (⟨[⟨formLen (p.form byLength), 0⟩], 0, []⟩ : Collector) =
      .at_ [] (nodeOf (p.form byLength) 0) [] := rfl
  constructor
  · rintro ⟨strDeck, b', ran, -, -⟩
    obtain ⟨st, turned, counted⟩ := fill_eq_ok ran
    rw [start] at turned
    cases listed : st.refList.head? with
    | some node =>
      refine collected_of_counted sound wellFormed place unread (by omega) enough turned ?_
      rw [listed] at counted ⊢
      rw [Nat.zero_add]
      exact congrArg some counted
    | none =>
      -- Without a root nothing is counted, so that there are no pieces.
      rw [listed] at counted
      have none := congrArg UInt64.toNat counted
      rw [toNat_ofNat_of_lt (by omega)] at none
      change 0 = _ at none
      rw [Pieces.eq_nil_of_length (p := p) (by omega)]
      trivial
  · intro collected
    obtain ⟨st, b', ran, left, deck, counted⟩ :=
      fillTurns_collected [] sound wellFormed collected place unread enough
    refine ⟨st.strDeck, b', ?_, left, ?_⟩
    · rw [fill, start, run_bind_of_ok ran, counted, Nat.zero_add]
      rfl
    · rw [deck, List.nil_append]
      exact collected.collapse_pairs (by omega)

end Esnacc.Cxx
