import Esnacc.Ber.HeaderOctets
import Esnacc.Ber.Progress

/-! The octets that the collectors of constructed strings pass over, and the pieces in them. -/

namespace Esnacc

open Lib

/-! ## Headers in front of other octets -/

/-- The octets behind the first one of a long tag end at a place of their own. -/
theorem TagRest.unique {room : Nat} {w w' rest rest' : List UInt8} (taken : TagRest room w)
    (taken' : TagRest room w') (same : w ++ rest = w' ++ rest') : w = w' := by
  induction room generalizing w w' with
  | zero => exact Eq.trans taken (Eq.symm taken')
  | succ room ih =>
    obtain ⟨c, more, rfl, ends⟩ := taken
    obtain ⟨c', more', rfl, ends'⟩ := taken'
    obtain ⟨rfl, behind⟩ := List.cons.inj same
    by_cases goesOn : c &&& 0x80 ≠ 0
    · rw [if_pos goesOn] at ends ends'
      rw [ih ends ends' behind]
    · rw [if_neg goesOn] at ends ends'
      rw [ends, ends']

/-- Octets begin with one tag at most. -/
theorem TagRead.prefix_unique {w w' rest rest' : List UInt8} {tag tag' : AsnTag}
    (read : TagRead w tag) (read' : TagRead w' tag') (same : w ++ rest = w' ++ rest') :
    w = w' ∧ tag = tag' := by
  obtain ⟨first, more, rfl, rfl, ends⟩ := read
  obtain ⟨first', more', rfl, rfl, ends'⟩ := read'
  obtain ⟨rfl, behind⟩ := List.cons.inj same
  by_cases long : first &&& 0x1F = 0x1F
  · rw [if_pos long] at ends ends'
    obtain rfl := ends.unique ends' behind
    exact ⟨rfl, rfl⟩
  · rw [if_neg long] at ends ends'
    subst ends ends'
    exact ⟨rfl, rfl⟩

/-- Octets begin with one length at most. -/
theorem LenRead.prefix_unique {w w' rest rest' : List UInt8} {len len' : AsnLen}
    (read : LenRead w len) (read' : LenRead w' len') (same : w ++ rest = w' ++ rest') :
    w = w' ∧ len = len' := by
  have split : ∀ {w len}, LenRead w len → ∃ c more, w = c :: more ∧
      more.length = (if c < 0x80 then 0 else c.toNat - 0x80) ∧
      len = if c < 0x80 then UInt64.ofNat c.toNat
        else if c = 0x80 then INDEFINITE_LEN else UInt64.ofNat (ofOctets more) := by
    rintro w len (⟨rfl, rfl⟩ | ⟨m, ⟨c, rfl, short, rfl⟩ | ⟨c, more, rfl, above, below, count, rfl⟩,
      -, rfl⟩)
    · exact ⟨0x80, [], rfl, rfl, rfl⟩
    · exact ⟨c, [], rfl, by rw [if_pos short]; rfl, by rw [if_pos short]⟩
    · have long : ¬ c < 0x80 := UInt8.lt_asymm above
      have definite : c ≠ 0x80 := (UInt8.ne_of_lt above).symm
      exact ⟨c, more, rfl, by rw [if_neg long]; omega, by rw [if_neg long, if_neg definite]⟩
  obtain ⟨c, more, rfl, size, rfl⟩ := split read
  obtain ⟨c', more', rfl, size', rfl⟩ := split read'
  obtain ⟨rfl, behind⟩ := List.cons.inj same
  obtain ⟨rfl, -⟩ := List.append_inj behind (size.trans size'.symm)
  exact ⟨rfl, rfl⟩

/-! ## Pieces -/

/-- The octets of a string whose contents are complete elements, with the contents of its leaves. -/
inductive StringElements (tagCode : UInt32) : List UInt8 → List (List UInt8) → Prop
  | nil : StringElements tagCode [] []
  | leaf {tag length octets w : List UInt8} {len : AsnLen} {leaves : List (List UInt8)}
      (tagged : TagRead tag (makeTagId UNIV PRIM tagCode)) (measured : LenRead length len)
      (size : octets.length = len.toNat) (rest : StringElements tagCode w leaves) :
      StringElements tagCode (tag ++ (length ++ (octets ++ w))) (octets :: leaves)
  | definite {tag length inner w : List UInt8} {len : AsnLen} {pieces leaves : List (List UInt8)}
      (tagged : TagRead tag (makeTagId UNIV CONS tagCode)) (measured : LenRead length len)
      (isDefinite : len ≠ INDEFINITE_LEN) (contents : StringElements tagCode inner pieces)
      (size : inner.length = len.toNat) (rest : StringElements tagCode w leaves) :
      StringElements tagCode (tag ++ (length ++ (inner ++ w))) (pieces ++ leaves)
  | indefinite {tag length inner eoc w : List UInt8} {pieces leaves : List (List UInt8)}
      (tagged : TagRead tag (makeTagId UNIV CONS tagCode)) (measured : LenRead length INDEFINITE_LEN)
      (contents : StringElements tagCode inner pieces) (ended : TagRead eoc EOC_TAG_ID)
      (rest : StringElements tagCode w leaves) :
      StringElements tagCode (tag ++ (length ++ ((inner ++ (eoc ++ [0])) ++ w))) (pieces ++ leaves)

/-- The octets that a collector passes over from a count of the octets it has passed, where every
element ends in a place that is allowed inside the one that contains it. -/
inductive Passed (tagCode : UInt32) (inside : AsnLen → AsnLen → Prop) :
    AsnLen → AsnLen → List UInt8 → List (List UInt8) → Prop
  | done {len total : AsnLen} (finished : ¬ (StkPos.mk len total).more = true) :
      Passed tagCode inside len total [] []
  | eoc {total : AsnLen} {tag : List UInt8} (tagged : TagRead tag EOC_TAG_ID) :
      Passed tagCode inside INDEFINITE_LEN total (tag ++ [0]) []
  | leaf {len total elmtLen1 : AsnLen} {tag length octets w : List UInt8}
      {leaves : List (List UInt8)} (more : (StkPos.mk len total).more = true)
      (tagged : TagRead tag (makeTagId UNIV PRIM tagCode)) (measured : LenRead length elmtLen1)
      (size : octets.length = elmtLen1.toNat)
      (ends : inside len (total + UInt64.ofNat (tag ++ (length ++ octets)).length))
      (rest : Passed tagCode inside len (total + UInt64.ofNat (tag ++ (length ++ octets)).length) w
        leaves) :
      Passed tagCode inside len total (tag ++ (length ++ (octets ++ w))) (octets :: leaves)
  | inner {len total elmtLen1 : AsnLen} {tag length inner w : List UInt8}
      {pieces leaves : List (List UInt8)} (more : (StkPos.mk len total).more = true)
      (tagged : TagRead tag (makeTagId UNIV CONS tagCode)) (measured : LenRead length elmtLen1)
      (contents : Passed tagCode inside elmtLen1 0 inner pieces)
      (ends : inside len (total + UInt64.ofNat (tag ++ (length ++ inner)).length))
      (rest : Passed tagCode inside len (total + UInt64.ofNat (tag ++ (length ++ inner)).length) w
        leaves) :
      Passed tagCode inside len total (tag ++ (length ++ (inner ++ w))) (pieces ++ leaves)

/-- The tags of a piece, of an inner string and of the end of contents are three. -/
structure ThreeTags (tagCode : UInt32) : Prop where
  primitive : makeTagId UNIV PRIM tagCode ≠ EOC_TAG_ID
  constructed : makeTagId UNIV CONS tagCode ≠ EOC_TAG_ID
  distinct : makeTagId UNIV PRIM tagCode ≠ makeTagId UNIV CONS tagCode

theorem threeTags_octets : ThreeTags OCTETSTRING_TAG_CODE :=
  ⟨by decide, by decide, by decide⟩

theorem threeTags_bits : ThreeTags BITSTRING_TAG_CODE :=
  ⟨by decide, by decide, by decide⟩

theorem header_unique {tag tag' length length' w w' : List UInt8} {tagId tagId' : AsnTag}
    {len len' : AsnLen} (tagged : TagRead tag tagId) (tagged' : TagRead tag' tagId')
    (measured : LenRead length len) (measured' : LenRead length' len')
    (same : tag ++ (length ++ w) = tag' ++ (length' ++ w')) :
    tag = tag' ∧ length = length' ∧ len = len' ∧ w = w' := by
  obtain ⟨rfl, -⟩ := tagged.prefix_unique tagged' same
  have behind := List.append_cancel_left same
  obtain ⟨rfl, rfl⟩ := measured.prefix_unique measured' behind
  exact ⟨rfl, rfl, rfl, List.append_cancel_left behind⟩

/-- A collector passes over one sequence of octets, whatever is behind it. -/
theorem Passed.unique {tagCode : UInt32} (three : ThreeTags tagCode)
    {inside inside' : AsnLen → AsnLen → Prop} {len total : AsnLen} {w w' rest rest' : List UInt8}
    {leaves leaves' : List (List UInt8)} (passed : Passed tagCode inside len total w leaves)
    (passed' : Passed tagCode inside' len total w' leaves') (same : w ++ rest = w' ++ rest') :
    w = w' ∧ leaves = leaves' := by
  -- The induction is on what was passed over; the tag in front tells how both go on.
  induction passed generalizing w' leaves' rest rest' with
  | done finished =>
    cases passed' with
    | done => exact ⟨rfl, rfl⟩
    | eoc => exact absurd (by simp [StkPos.more]) finished
    | leaf more => exact absurd more finished
    | inner more => exact absurd more finished
  | eoc tagged =>
    cases passed' with
    | done finished => exact absurd (by simp [StkPos.more]) finished
    | eoc tagged' =>
      simp only [List.append_assoc] at same
      obtain ⟨rfl, -⟩ := tagged.prefix_unique tagged' same
      exact ⟨rfl, rfl⟩
    | leaf _ tagged' =>
      simp only [List.append_assoc] at same
      exact absurd (tagged.prefix_unique tagged' same).2 three.primitive.symm
    | inner _ tagged' =>
      simp only [List.append_assoc] at same
      exact absurd (tagged.prefix_unique tagged' same).2 three.constructed.symm
  | leaf more tagged measured size _ _ ih =>
    cases passed' with
    | done finished => exact absurd more finished
    | eoc tagged' =>
      simp only [List.append_assoc] at same
      exact absurd (tagged.prefix_unique tagged' same).2 three.primitive
    | leaf _ tagged' measured' size' _ passed' =>
      simp only [List.append_assoc] at same
      obtain ⟨rfl, rfl, rfl, behind⟩ := header_unique tagged tagged' measured measured' same
      obtain ⟨rfl, after⟩ := List.append_inj behind (size.trans size'.symm)
      obtain ⟨rfl, rfl⟩ := ih passed' after
      exact ⟨rfl, rfl⟩
    | inner _ tagged' =>
      simp only [List.append_assoc] at same
      exact absurd (tagged.prefix_unique tagged' same).2 three.distinct
  | inner more tagged measured _ _ _ ihContents ih =>
    cases passed' with
    | done finished => exact absurd more finished
    | eoc tagged' =>
      simp only [List.append_assoc] at same
      exact absurd (tagged.prefix_unique tagged' same).2 three.constructed
    | leaf _ tagged' =>
      simp only [List.append_assoc] at same
      exact absurd (tagged.prefix_unique tagged' same).2 three.distinct.symm
    | inner _ tagged' measured' contents' _ passed' =>
      simp only [List.append_assoc] at same
      obtain ⟨rfl, rfl, rfl, behind⟩ := header_unique tagged tagged' measured measured' same
      obtain ⟨rfl, rfl⟩ := ihContents contents' behind
      obtain ⟨rfl, rfl⟩ := ih passed' (List.append_cancel_left behind)
      exact ⟨rfl, rfl⟩

/-! ## StringElements that end inside the one that contains them -/

/-- An element ends at or before the end of the one that contains it, where that is known. -/
def EndsInside (len total : AsnLen) : Prop :=
  len = INDEFINITE_LEN ∨ total ≤ len

theorem TagRead.length_pos {w : List UInt8} {tag : AsnTag} (read : TagRead w tag) :
    0 < w.length := by
  obtain ⟨first, more, rfl, -⟩ := read
  exact Nat.succ_pos _

theorem toNat_add_ofNat {total : UInt64} {k : Nat} (room : total.toNat + k < 2 ^ 64) :
    (total + UInt64.ofNat k).toNat = total.toNat + k := by
  rw [UInt64.toNat_add, UInt64.toNat_ofNat']
  omega

theorem more_iff {len total : AsnLen} (isDefinite : len ≠ INDEFINITE_LEN) :
    (StkPos.mk len total).more = true ↔ total.toNat < len.toNat := by
  rw [StkPos.more, Bool.or_eq_true, decide_eq_true_iff, beq_iff_eq, UInt64.lt_iff_toNat_lt]
  exact or_iff_left isDefinite

theorem more_indefinite (total : AsnLen) : (StkPos.mk INDEFINITE_LEN total).more = true := by
  simp [StkPos.more]

theorem length_element (tag length contents w : List UInt8) :
    (tag ++ (length ++ (contents ++ w))).length =
      (tag ++ (length ++ contents)).length + w.length := by
  simp only [List.length_append]
  omega

/-- Complete elements are passed over up to the end of the length that they use up, or up to the end of
contents, and end inside one another. -/
theorem StringElements.passed {tagCode : UInt32} {w : List UInt8} {leaves : List (List UInt8)}
    (elements : StringElements tagCode w leaves) (total : AsnLen) :
    (∀ len, len ≠ INDEFINITE_LEN → total.toNat + w.length = len.toNat →
      Passed tagCode EndsInside len total w leaves) ∧
    ∀ eoc, TagRead eoc EOC_TAG_ID →
      Passed tagCode EndsInside INDEFINITE_LEN total (w ++ (eoc ++ [0])) leaves := by
  -- An element that is passed over leaves the count where the rest goes on from it.
  have step : ∀ {len total : AsnLen} {k m : Nat}, total.toNat + (k + m) = len.toNat →
      (total + UInt64.ofNat k).toNat = total.toNat + k ∧ EndsInside len (total + UInt64.ofNat k) ∧
        (total + UInt64.ofNat k).toNat + m = len.toNat := by
    intro len total k m whole
    have bound := len.toNat_lt
    have count := toNat_add_ofNat (show total.toNat + k < 2 ^ 64 by omega)
    exact ⟨count, .inr (UInt64.le_iff_toNat_le.mpr (by omega)), by omega⟩
  have before : ∀ {len total : AsnLen} {tag more : List UInt8} {tagId}, len ≠ INDEFINITE_LEN →
      TagRead tag tagId → total.toNat + (tag ++ more).length = len.toNat →
        (StkPos.mk len total).more = true := by
    intro len total tag more tagId isDefinite tagged whole
    have some := tagged.length_pos
    rw [List.length_append] at whole
    exact (more_iff isDefinite).mpr (by omega)
  induction elements generalizing total with
  | nil =>
    refine ⟨?_, fun eoc ended => .eoc ended⟩
    intro len isDefinite whole
    refine .done fun more => ?_
    have below := (more_iff isDefinite).mp more
    rw [List.length_nil] at whole
    omega
  | leaf tagged measured size _ ih =>
    constructor
    · intro len isDefinite whole
      have more := before isDefinite tagged whole
      rw [length_element] at whole
      obtain ⟨-, ends, left⟩ := step whole
      exact .leaf more tagged measured size ends ((ih _).1 len isDefinite left)
    · intro eoc ended
      have whole := Passed.leaf (more_indefinite total) tagged measured size (.inl rfl)
        ((ih _).2 eoc ended)
      simpa only [List.append_assoc] using whole
  | definite tagged measured innerDefinite _ size _ ihContents ih =>
    have contents := (ihContents 0).1 _ innerDefinite (by rw [UInt64.toNat_zero, Nat.zero_add, size])
    constructor
    · intro len isDefinite whole
      have more := before isDefinite tagged whole
      rw [length_element] at whole
      obtain ⟨-, ends, left⟩ := step whole
      exact .inner more tagged measured contents ends ((ih _).1 len isDefinite left)
    · intro eoc ended
      have whole := Passed.inner (more_indefinite total) tagged measured contents (.inl rfl)
        ((ih _).2 eoc ended)
      simpa only [List.append_assoc] using whole
  | indefinite tagged measured _ innerEnded _ ihContents ih =>
    have contents := (ihContents 0).2 _ innerEnded
    constructor
    · intro len isDefinite whole
      have more := before isDefinite tagged whole
      rw [length_element] at whole
      obtain ⟨-, ends, left⟩ := step whole
      exact .inner more tagged measured contents ends ((ih _).1 len isDefinite left)
    · intro eoc ended
      have whole := Passed.inner (more_indefinite total) tagged measured contents (.inl rfl)
        ((ih _).2 eoc ended)
      simpa only [List.append_assoc] using whole

/-- What is passed over is complete elements where every element ends inside the one that contains
it. -/
theorem Passed.elements {tagCode : UInt32} {len total : AsnLen} {w : List UInt8}
    {leaves : List (List UInt8)} (passed : Passed tagCode EndsInside len total w leaves)
    (room : total.toNat + w.length < 2 ^ 64) :
    (len ≠ INDEFINITE_LEN → total ≤ len →
      total.toNat + w.length = len.toNat ∧ StringElements tagCode w leaves) ∧
    (len = INDEFINITE_LEN → ∃ w' eoc, w = w' ++ (eoc ++ [0]) ∧ TagRead eoc EOC_TAG_ID ∧
      StringElements tagCode w' leaves) := by
  induction passed with
  | done finished =>
    constructor
    · intro isDefinite inside
      rw [more_iff isDefinite] at finished
      rw [UInt64.le_iff_toNat_le] at inside
      exact ⟨by rw [List.length_nil]; omega, .nil⟩
    · rintro rfl
      exact absurd (more_indefinite _) finished
  | eoc tagged => exact ⟨fun isDefinite => absurd rfl isDefinite, fun _ => ⟨[], _, rfl, tagged, .nil⟩⟩
  | @leaf len total elmtLen1 tag length octets w leaves more tagged measured size ends _ ih =>
    rw [length_element] at room
    have count := toNat_add_ofNat (k := (tag ++ (length ++ octets)).length)
      (show total.toNat + _ < 2 ^ 64 by omega)
    obtain ⟨ihDefinite, ihIndefinite⟩ := ih (by omega)
    constructor
    · intro isDefinite _
      obtain ⟨whole, elements⟩ := ihDefinite isDefinite (ends.resolve_left isDefinite)
      exact ⟨by rw [length_element]; omega, .leaf tagged measured size elements⟩
    · intro isIndefinite
      obtain ⟨w', eoc, rfl, ended, elements⟩ := ihIndefinite isIndefinite
      refine ⟨_, eoc, ?_, ended, .leaf tagged measured size elements⟩
      simp only [List.append_assoc]
  | @inner len total elmtLen1 tag length inner w pieces leaves more tagged measured _ ends _
      ihContents ih =>
    rw [length_element] at room
    have count := toNat_add_ofNat (k := (tag ++ (length ++ inner)).length)
      (show total.toNat + _ < 2 ^ 64 by omega)
    obtain ⟨ihDefinite, ihIndefinite⟩ := ih (by omega)
    have innerRoom : (0 : UInt64).toNat + inner.length < 2 ^ 64 := by
      simp only [List.length_append] at room
      rw [UInt64.toNat_zero]
      omega
    -- The inner string ends with its length or with the end of its contents.
    have element : ∀ {w leaves}, StringElements tagCode w leaves →
        StringElements tagCode (tag ++ (length ++ (inner ++ w))) (pieces ++ leaves) := by
      intro w leaves elements
      obtain ⟨innerDefinite, innerIndefinite⟩ := ihContents innerRoom
      by_cases isDefinite : elmtLen1 = INDEFINITE_LEN
      · obtain ⟨w', eoc, rfl, ended, contents⟩ := innerIndefinite isDefinite
        rw [isDefinite] at measured
        exact .indefinite tagged measured contents ended elements
      · obtain ⟨whole, contents⟩ := innerDefinite isDefinite (UInt64.zero_le)
        rw [UInt64.toNat_zero, Nat.zero_add] at whole
        exact .definite tagged measured isDefinite contents whole elements
    constructor
    · intro isDefinite _
      obtain ⟨whole, elements⟩ := ihDefinite isDefinite (ends.resolve_left isDefinite)
      exact ⟨by rw [length_element]; omega, element elements⟩
    · intro isIndefinite
      obtain ⟨w', eoc, rfl, ended, elements⟩ := ihIndefinite isIndefinite
      refine ⟨_, eoc, ?_, ended, element elements⟩
      simp only [List.append_assoc]

end Esnacc
