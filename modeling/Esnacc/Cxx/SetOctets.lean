import Esnacc.Cxx.SeqOctets
import Esnacc.Cxx.GenContents
import Esnacc.Cxx.KeptDeck

/-! The contents that the code printed for a SET without extension marker completes on. -/

namespace Esnacc.Cxx

open Lib

variable {β : Type}

/-- A component of a SET by its place, and octets that were read for it. -/
structure SetPart where
  place : Nat
  octets : List UInt8

/-- The octets are those of the component whose case their tag selects. -/
def SetPart.Reads (strict : Bool) (es : List (Elmt β)) (p : SetPart) : Prop :=
  ∃ e tag tag1 c x, es[p.place]? = some e ∧ p.octets = tag ++ c ∧ TagOctets tag tag1 ∧
    tag1 ∈ e.firstIds ∧ (∀ j d, j < p.place → es[j]? = some d → tag1 ∉ d.firstIds) ∧
    e.Octets strict tag1 c x

/-- Parts are read until a number of octets is reached or passed. -/
def SetParts (strict : Bool) (es : List (Elmt β)) : Nat → List SetPart → Prop
  | left, [] => left = 0
  | left, p :: later =>
    0 < left ∧ p.Reads strict es ∧ SetParts strict es (left - p.octets.length) later

/-- The octets of parts, one after the other. -/
def partOctets (parts : List SetPart) : List UInt8 :=
  parts.flatMap SetPart.octets

theorem partOctets_cons (p : SetPart) (later : List SetPart) :
    partOctets (p :: later) = p.octets ++ partOctets later :=
  List.flatMap_cons

/-- How many parts belong to mandatory components. -/
def mandatoryHits (es : List (Elmt β)) (parts : List SetPart) : Nat :=
  parts.countP fun p => (es[p.place]?.map Elmt.mandatory).getD false

theorem mandatoryHits_cons {es : List (Elmt β)} {p : SetPart} {e : Elmt β}
    (here : es[p.place]? = some e) (later : List SetPart) :
    mandatoryHits es (p :: later) = mandatoryHits es later + if e.mandatory then 1 else 0 := by
  simp [mandatoryHits, List.countP_cons, here]

/-! ## Reading them -/

theorem getReadLoc_completes {b : AsnBuf} (steady : b.Steady) (some : b.unread ≠ []) :
    ∃ readLoc b', getReadLoc.run b = .ok readLoc b' ∧ b'.Steady ∧ b'.unread = b.unread := by
  cases ahead : b.ahead with
  | nil => exact absurd (by rw [AsnBuf.unread, ahead]; rfl) some
  | cons c behind =>
    obtain ⟨b', ran, steady', left⟩ :=
      (getReadLoc_acts steady.sound ahead).completes keepsDeck_getReadLoc steady (Nat.le_refl _)
    exact ⟨_, b', ran, steady', left⟩

/-- Finding the place that is read from takes nothing. -/
theorem getReadLoc_sound {b b' : AsnBuf} {readLoc : AsnBufLoc} (steady : b.Steady)
    (ran : getReadLoc.run b = .ok readLoc b') : b'.Steady ∧ b'.unread = b.unread := by
  cases ahead : b.ahead with
  | nil =>
    rw [getReadLoc, run_bind_of_ok (EStateM.run_get b), ahead] at ran
    cases ran
  | cons c behind =>
    obtain ⟨b'', ran', steady', left⟩ :=
      (getReadLoc_acts steady.sound ahead).completes keepsDeck_getReadLoc steady (Nat.le_refl _)
    rw [ran'] at ran
    cases ran
    exact ⟨steady', left⟩

/-- What a component that was decoded adds. -/
def SetDecoded.add (x : SetDecoded β) (e : Elmt β) (v : β) : SetDecoded β :=
  ⟨{ x.decoded with fields := x.decoded.fields ++ [(e.fieldName, v)] },
    x.mandatoryElmtsDecoded + if e.counted then 1 else 0⟩

theorem add_hits {e : Elmt β} (plain : e.extensionAddition = false) (x : SetDecoded β) (v : β)
    (hits : Nat) : (x.add e v).mandatoryElmtsDecoded + UInt32.ofNat hits =
      x.mandatoryElmtsDecoded + UInt32.ofNat (hits + if e.mandatory then 1 else 0) := by
  have counted : e.counted = e.mandatory := by rw [Elmt.counted, plain, Bool.not_false, Bool.and_true]
  rw [SetDecoded.add, counted, UInt32.add_assoc, Nat.add_comm, UInt32.ofNat_add]
  cases e.mandatory <;> rfl

section

variable {es : List (Elmt β)} (cls : SnaccClass β)

/-- The case that a tag selects is that of the first component with the tag. -/
theorem caseOf_eq_find? (tag1 : AsnTag) :
    caseOf (es.map .elmt) tag1 = es.find? fun e => e.firstIds.contains tag1 := by
  rw [caseOf, List.findSome?_map]
  induction es with
  | nil => rfl
  | cons e rest ih =>
    rw [List.findSome?_cons, List.find?_cons]
    cases here : e.firstIds.contains tag1 with
    | true => simp only [Function.comp_apply, here, if_true]
    | false =>
      simp only [Function.comp_apply, here, Bool.false_eq_true, if_false]
      exact ih

theorem setCase_some {tag1 : AsnTag} {e : Elmt β} (found : caseOf cls.components tag1 = some e)
    (readLoc : AsnBufLoc) (n : AsnLen) (x : SetDecoded β) :
    (bDecLen n >>= fun p => cls.setCase readLoc tag1 p.1 p.2 x) =
      e.decode cls.typeName tag1 n >>= fun p => pure (x.add e p.1.1, p.2) := by
  rw [Elmt.decode, bind_assoc]
  refine bind_congr fun p => ?_
  simp only [SnaccClass.setCase, found]
  rfl

variable (components : cls.components = es.map .elmt)
include components

theorem exists_place {tag1 : AsnTag} {e : Elmt β} (found : caseOf cls.components tag1 = some e) :
    ∃ i : Nat, es[i]? = some e ∧ tag1 ∈ e.firstIds ∧
      ∀ (j : Nat) (d : Elmt β), j < i → es[j]? = some d → tag1 ∉ d.firstIds := by
  rw [components, caseOf_eq_find?, List.find?_eq_some_iff_getElem] at found
  obtain ⟨begins, i, within, here, before⟩ := found
  refine ⟨i, List.getElem?_eq_some_iff.2 ⟨within, here⟩, List.contains_iff_mem.1 begins, ?_⟩
  intro j d earlier there begins
  obtain ⟨_, rfl⟩ := List.getElem?_eq_some_iff.1 there
  have other := before j earlier
  rw [List.contains_iff_mem.2 begins] at other
  cases other

theorem caseOf_of_place {tag1 : AsnTag} {e : Elmt β} {i : Nat} (here : es[i]? = some e)
    (begins : tag1 ∈ e.firstIds)
    (first : ∀ j d, j < i → es[j]? = some d → tag1 ∉ d.firstIds) :
    caseOf cls.components tag1 = some e := by
  rw [components, caseOf_eq_find?, List.find?_eq_some_iff_getElem]
  obtain ⟨within, rfl⟩ := List.getElem?_eq_some_iff.1 here
  refine ⟨List.contains_iff_mem.2 begins, i, within, rfl, ?_⟩
  intro j earlier
  have other := first j _ earlier (List.getElem?_eq_getElem (Nat.lt_trans earlier within))
  simpa using other

variable {elmtLen0 : AsnLen} (definite : elmtLen0 ≠ INDEFINITE_LEN)
  (notExtensible : cls.extensible = false) (plain : ∀ e ∈ es, e.extensionAddition = false)
  (whole : ∀ e ∈ es, e.decoder.Whole)
include definite notExtensible plain whole

/-- What a completed run over the elements of a SET has read. -/
theorem setElmts_sound {turns : Nat} {x y : SetDecoded β} {n m : AsnLen} {b b' : AsnBuf}
    (steady : b.Steady) (small : n.toNat + b.unread.length < 2 ^ 64)
    (ran : (cls.setElmts elmtLen0 turns x n).run b = .ok (y, m) b') :
    ∃ parts, b.unread = partOctets parts ++ b'.unread ∧
      SetParts false es (elmtLen0.toNat - n.toNat) parts ∧
      y.mandatoryElmtsDecoded =
        x.mandatoryElmtsDecoded + UInt32.ofNat (mandatoryHits es parts) := by
  -- The induction is on the turns of the loop.
  induction turns generalizing x n b with
  | zero => cases ran
  | succ turns ih =>
    rw [SnaccClass.setElmts] at ran
    by_cases more : n < elmtLen0 ∨ elmtLen0 = INDEFINITE_LEN
    · rw [if_pos more] at ran
      have left : n < elmtLen0 := more.resolve_right definite
      rw [UInt64.lt_iff_toNat_lt] at left
      obtain ⟨readLoc, b1, located, ran⟩ := run_bind_eq_ok.1 ran
      obtain ⟨steady1, same1⟩ := getReadLoc_sound steady located
      obtain ⟨⟨tag1, n1⟩, b2, readTag, ran⟩ := run_bind_eq_ok.1 ran
      obtain ⟨steady2, tag, isTag, tape2, count1⟩ := bDecTag_recognises.sound steady1 readTag
      simp only [not_tagIsEoc definite, Bool.false_eq_true, if_false] at ran
      obtain ⟨⟨len, n2⟩, b3, readLen, ran⟩ := run_bind_eq_ok.1 ran
      obtain ⟨⟨x', n3⟩, b4, inCase, ran⟩ := run_bind_eq_ok.1 ran
      have both : (bDecLen n1 >>= fun p => cls.setCase readLoc tag1 p.1 p.2 x).run b2 =
          .ok (x', n3) b4 := by
        rw [run_bind_of_ok readLen]
        exact inCase
      cases found : caseOf cls.components tag1 with
      | none =>
        simp only [SnaccClass.setCase, found, notExtensible] at inCase
        cases inCase
      | some e =>
        obtain ⟨place, here, begins, first⟩ := exists_place cls components found
        have member := List.mem_of_getElem? here
        rw [setCase_some cls found] at both
        obtain ⟨⟨v, n4⟩, b5, decoded, both⟩ := run_bind_eq_ok.1 both
        cases both
        have reads := Elmt.decode_recognises cls.typeName (whole e member) tag1
        obtain ⟨steady4, c, octets, tape4, count4⟩ := reads.sound steady2 decoded
        have tape : b.unread = (tag ++ c) ++ b4.unread := by
          rw [← same1, show b1.unread = _ from tape2, show asnTape.unread b2 = _ from tape4,
            List.append_assoc]
          rfl
        have count : n4.toNat = n.toNat + (tag ++ c).length := by
          rw [tape, List.length_append] at small
          rw [count4, count1, asnTape.advance_add, ← List.length_append]
          exact toNat_advance (by omega)
        have shorter : n4.toNat + b4.unread.length < 2 ^ 64 := by
          rw [tape, List.length_append] at small
          omega
        obtain ⟨parts, tape', isParts, hits⟩ := ih steady4 shorter ran
        refine ⟨⟨place, tag ++ c⟩ :: parts, ?_, ⟨by omega, ?_, ?_⟩, ?_⟩
        · rw [tape, tape', partOctets_cons]
          exact (List.append_assoc ..).symm
        · exact ⟨e, tag, tag1, c, v, here, rfl, isTag, begins, first, octets⟩
        · rw [count] at isParts
          rwa [Nat.sub_sub]
        · rw [hits, mandatoryHits_cons here, add_hits (plain e member)]
    · rw [if_neg more] at ran
      obtain ⟨rfl, same⟩ := run_pure_eq_ok.1 ran
      obtain ⟨rfl, -⟩ := Prod.mk.inj same
      have ended : ¬ n < elmtLen0 := fun h => more (.inl h)
      rw [UInt64.lt_iff_toNat_lt] at ended
      refine ⟨[], rfl, Nat.sub_eq_zero_of_le (by omega), ?_⟩
      simp [mandatoryHits]

omit notExtensible in
/-- Parts that stand in a buffer are read. -/
theorem setElmts_accepts {parts : List SetPart} {turns : Nat} (enough : parts.length < turns)
    {x : SetDecoded β} {n : AsnLen} {b : AsnBuf} {rest : List UInt8} (steady : b.Steady)
    (small : n.toNat + b.unread.length < 2 ^ 64) (tape : b.unread = partOctets parts ++ rest)
    (isParts : SetParts false es (elmtLen0.toNat - n.toNat) parts) :
    ∃ y m b', (cls.setElmts elmtLen0 turns x n).run b = .ok (y, m) b' ∧
      y.mandatoryElmtsDecoded =
        x.mandatoryElmtsDecoded + UInt32.ofNat (mandatoryHits es parts) := by
  -- The induction is on the parts.
  induction parts generalizing turns x n b with
  | nil =>
    obtain ⟨turns, rfl⟩ := Nat.exists_eq_succ_of_ne_zero (Nat.ne_of_gt enough)
    have ended : ¬ (n < elmtLen0 ∨ elmtLen0 = INDEFINITE_LEN) := by
      rintro (left | indefinite)
      · rw [UInt64.lt_iff_toNat_lt] at left
        have none : elmtLen0.toNat - n.toNat = 0 := isParts
        omega
      · exact definite indefinite
    refine ⟨x, n, b, ?_, ?_⟩
    · rw [SnaccClass.setElmts, if_neg ended]
      rfl
    · simp [mandatoryHits]
  | cons p later ih =>
    obtain ⟨turns, rfl⟩ := Nat.exists_eq_succ_of_ne_zero (Nat.ne_of_gt (Nat.zero_lt_of_lt enough))
    obtain ⟨left, ⟨e, tag, tag1, c, v, here, eq, isTag, begins, first, octets⟩, isParts⟩ := isParts
    have more : n < elmtLen0 ∨ elmtLen0 = INDEFINITE_LEN :=
      .inl (UInt64.lt_iff_toNat_lt.2 (by omega))
    have member := List.mem_of_getElem? here
    have found := caseOf_of_place cls components here begins first
    rw [partOctets_cons, eq, List.append_assoc, List.append_assoc] at tape
    obtain ⟨readLoc, b1, located, steady1, same1⟩ :=
      getReadLoc_completes steady (by rw [tape]; simp [isTag.ne_nil])
    obtain ⟨b2, readTag, steady2, tape2⟩ :=
      bDecTag_recognises.accepts steady1 (same1.trans tape) isTag n
    have reads := Elmt.decode_recognises cls.typeName (whole e member) tag1
    obtain ⟨b3, decoded, steady3, tape3⟩ := reads.accepts steady2 tape2 octets _
    have both : (bDecLen (asnTape.advance n tag.length) >>= fun p =>
        cls.setCase readLoc tag1 p.1 p.2 x).run b2 =
          .ok (x.add e v.1, asnTape.advance n p.octets.length) b3 := by
      rw [setCase_some cls found, run_bind_of_ok decoded, asnTape.advance_add, eq,
        List.length_append]
      rfl
    have count : (asnTape.advance n p.octets.length).toNat = n.toNat + p.octets.length := by
      refine toNat_advance (Nat.lt_of_le_of_lt ?_ small)
      rw [tape, eq]
      simp only [List.length_append]
      omega
    have shorter : (asnTape.advance n p.octets.length).toNat + b3.unread.length < 2 ^ 64 := by
      rw [count, show b3.unread = _ from tape3, eq]
      rw [tape] at small
      simp only [List.length_append] at small ⊢
      omega
    rw [Nat.sub_sub, ← count] at isParts
    obtain ⟨y, m, b', ran, hits⟩ := ih (Nat.lt_of_succ_lt_succ enough) (x := x.add e v.1) steady3
      shorter tape3 isParts
    refine ⟨y, m, b', ?_, ?_⟩
    · rw [SnaccClass.setElmts, if_pos more, run_bind_of_ok located, run_bind_of_ok readTag]
      simp only [not_tagIsEoc definite, Bool.false_eq_true, if_false]
      obtain ⟨⟨len, n2⟩, b4, readLen, inCase⟩ := run_bind_eq_ok.1 both
      rw [run_bind_of_ok readLen, run_bind_of_ok inCase]
      exact ran
    · rw [hits, mandatoryHits_cons here, add_hits (plain e member)]

end

end Esnacc.Cxx
