import Esnacc.Cxx.SeqExtended

/-! What becomes of unknown elements behind the extension marker of a SEQUENCE. -/

namespace Esnacc.Cxx

open Lib

variable {β : Type}

/-- The octets of contents with their end, where their length leaves it open. -/
def Framed (elmtLen0 : AsnLen) (w all : List UInt8) : Prop :=
  elmtLen0 ≠ INDEFINITE_LEN ∧ elmtLen0.toNat = w.length ∧ all = w ∨
    elmtLen0 = INDEFINITE_LEN ∧ all = w ++ [0, 0]

/-- A decoder takes exactly the contents, adds their number to a count, and keeps the unknown
elements. -/
def KeepsUnknown (bDecContent : Nat → AsnLen → BufM (Decoded β × AsnLen)) (b : AsnBuf)
    (all rest : List UInt8) (unknown : List (List UInt8)) : Prop :=
  ∀ bytesDecoded, ∃ turns r b',
    (bDecContent turns bytesDecoded).run b =
      .ok (r, bytesDecoded + UInt64.ofNat all.length) b' ∧
    b'.unread = rest ∧ r.extList = unknown

section

variable {cls : SnaccClass β} {es : List (Elmt β)} (components : cls.components = extended es)
  (legal : LegalElmts es) (turns : Nat) (elmtLen0 bytesDecoded : AsnLen)
include components legal

/-- The tag of the first component that is there is read. -/
theorem bDecSeqContent_reads {b b' : AsnBuf} {tag1 : AsnTag} {n : AsnLen} (some : elmtLen0 ≠ 0)
    (ran : (bDecTag 0).run b = .ok (tag1, n) b') (notEoc : tag1 ≠ EOC_TAG_ID) :
    (cls.bDecSeqContent turns elmtLen0 bytesDecoded).run b =
      (cls.seqElmts turns elmtLen0 bytesDecoded (extended es) tag1 n []).run b' := by
  have notEoc' : tagIsEoc elmtLen0 tag1 = false := by
    rw [tagIsEoc, Bool.and_eq_false_iff, decide_eq_false_iff_not, decide_eq_false_iff_not]
    exact .inr notEoc
  have typed : (extended es).isEmpty = false := by
    rw [extended]
    cases es <;> rfl
  rw [SnaccClass.bDecSeqContent, components, typed]
  cases isTailOptional (extended es) with
  | false => exact run_bind_of_ok ran
  | true =>
    simp only [Bool.false_eq_true, if_false, Bool.not_true, if_neg some]
    rw [run_bind_of_ok ran]
    simp only [notEoc', Bool.false_eq_true, if_false]

/-- The known components are read first. -/
theorem bDecSeqContent_known {d after : List UInt8} (octets : SeqOctets true false es d)
    (some : d ≠ []) {b : AsnBuf} (steady : b.Steady) (orderly : b.Orderly)
    (tape : b.unread = d ++ after) (room : d.length ≤ elmtLen0.toNat) :
    ∃ left last fields b', left <:+ es ∧ allOptional left ∧ b'.Steady ∧ b'.Orderly ∧
      b'.unread = after ∧ (cls.bDecSeqContent turns elmtLen0 bytesDecoded).run b =
        (cls.seqNext turns elmtLen0 bytesDecoded left last (asnTape.advance 0 d.length) fields).run
          b' := by
  rcases octets with ⟨-, none, -⟩ | ⟨-, tag, d, tag1, rfl, isTag, tail⟩
  · exact absurd none some
  · rw [List.append_assoc] at tape
    rw [List.length_append] at room
    have some' := List.length_pos_iff.2 isTag.ne_nil
    have small := elmtLen0.toNat_lt
    obtain ⟨b1, tagged, steady1, tape1⟩ := bDecTag_recognises.accepts steady tape isTag 0
    have orderly1 := (keepsDeck_bDecTag 0).orderly orderly tagged
    obtain ⟨e, among, has⟩ := exists_of_mem_followIds (mem_followIds tail)
    have notZero : elmtLen0 ≠ 0 := by
      rintro rfl
      rw [UInt64.toNat_zero] at room
      omega
    have count := toNat_advance (n := 0) (k := tag.length) (by rw [UInt64.toNat_zero]; omega)
    rw [UInt64.toNat_zero, Nat.zero_add] at count
    obtain ⟨left, last, fields, b', suffix, optional, steady', orderly', left', ran⟩ :=
      seqElmts_known cls turns elmtLen0 bytesDecoded legal steady1 orderly1 tail tape1 (by rw [count]; omega) []
    refine ⟨left, last, fields, b', suffix, optional, steady', orderly', left', ?_⟩
    rw [bDecSeqContent_reads components legal turns elmtLen0 bytesDecoded notZero tagged
      (fun eoc => legal.noEoc e among (eoc ▸ has)), ran, asnTape.advance_add, List.length_append]

/-- Where no component has to be there, contents without any are taken. -/
theorem bDecSeqContent_empty (optional : allOptional es) {b : AsnBuf} (steady : b.Steady)
    {all rest : List UInt8} (tape : b.unread = all ++ rest) (framed : Framed elmtLen0 [] all) :
    ∃ b', (cls.bDecSeqContent turns elmtLen0 bytesDecoded).run b =
      .ok ({}, bytesDecoded + UInt64.ofNat all.length) b' ∧ b'.unread = rest := by
  have typed : (extended es).isEmpty = false := by
    rw [extended]
    cases es <;> rfl
  rw [SnaccClass.bDecSeqContent, components, typed, isTailOptional_extended optional]
  simp only [Bool.false_eq_true, if_false, Bool.not_true]
  rcases framed with ⟨-, zero, rfl⟩ | ⟨indefinite, rfl⟩
  · have zero : elmtLen0 = 0 := UInt64.toNat_inj.1 zero
    refine ⟨b, ?_, tape⟩
    rw [if_pos zero, List.length_nil]
    exact congrArg (fun n => EStateM.Result.ok (({} : Decoded β), n) b) (UInt64.add_zero _).symm
  · have some : elmtLen0 ≠ 0 := by
      rw [indefinite]
      decide
    have tape' : b.unread = [0] ++ 0 :: rest := tape
    have isTag : TagOctets [0] EOC_TAG_ID := ⟨.inl ⟨0, rfl, by decide⟩, by decide, rfl⟩
    obtain ⟨b1, tagged, steady1, left⟩ := bDecTag_recognises.accepts steady tape' isTag 0
    obtain ⟨b', ended, -, left'⟩ := bDec2ndEocOctet_completes steady1 left (asnTape.advance 0 1)
    have eoc : tagIsEoc elmtLen0 EOC_TAG_ID = true := by
      rw [tagIsEoc, indefinite]
      rfl
    refine ⟨b', ?_, left'⟩
    rw [if_neg some, run_bind_of_ok tagged]
    simp only [eoc, if_true]
    rw [List.length_singleton, run_bind_of_ok ended]
    rfl

/-- Without unknown elements, contents are taken as they are. -/
theorem keepsUnknown_none {d : List UInt8} (octets : SeqOctets true false es d) {b : AsnBuf}
    (steady : b.Steady) (orderly : b.Orderly) {all rest : List UInt8}
    (tape : b.unread = all ++ rest) (framed : Framed elmtLen0 d all) :
    KeepsUnknown (fun turns => cls.bDecSeqContent turns elmtLen0) b all rest [] := by
  intro bytesDecoded
  by_cases none : d = []
  · subst none
    have optional : allOptional es := by
      rcases octets with ⟨-, -, optional⟩ | ⟨-, tag, d, tag1, eq, isTag, -⟩
      · exact optional
      · exact absurd (List.append_eq_nil_iff.1 eq.symm).1 isTag.ne_nil
    obtain ⟨b', ran, left⟩ := bDecSeqContent_empty components legal 0 elmtLen0 bytesDecoded optional
      steady tape framed
    exact ⟨0, {}, b', ran, left, rfl⟩
  · have fits := steady.sound.fits
    rcases framed with ⟨-, length, rfl⟩ | ⟨indefinite, rfl⟩
    · obtain ⟨left, last, fields, b', -, optional, -, -, left', ran⟩ :=
        bDecSeqContent_known components legal 0 elmtLen0 bytesDecoded octets none
          steady orderly tape (Nat.le_of_eq length.symm)
      have count : asnTape.advance 0 all.length = elmtLen0 :=
        (advance_zero_eq steady tape).2 length.symm
      rw [count, seqNext_end _ _ _ _ optional] at ran
      refine ⟨0, ⟨fields, []⟩, b', ?_, left', rfl⟩
      rw [ran, ← length, UInt64.ofNat_toNat]
      rfl
    · rw [List.append_assoc] at tape
      rw [tape, List.length_append] at fits
      have wide : elmtLen0.toNat = 2 ^ 64 - 1 := by
        rw [indefinite]
        rfl
      obtain ⟨left, last, fields, b1, -, optional, steady1, orderly1, tape1, ran⟩ :=
        bDecSeqContent_known components legal 0 elmtLen0 bytesDecoded octets none steady orderly tape (by omega)
      have open_ : asnTape.advance 0 d.length ≠ elmtLen0 := by
        intro same
        have count := toNat_advance (n := 0) (k := d.length) (by rw [UInt64.toNat_zero]; omega)
        rw [same, wide, UInt64.toNat_zero] at count
        omega
      obtain ⟨b', ended, left'⟩ := seqNext_eoc cls 0 elmtLen0 bytesDecoded indefinite optional open_ steady1 orderly1 tape1 last fields
      refine ⟨0, ⟨fields, []⟩, b', ?_, left', rfl⟩
      rw [ran, ended, asnTape.advance_add, List.length_append]
      have count : asnTape.advance 0 (d.length + 2) = UInt64.ofNat (d.length + 2) :=
        UInt64.zero_add _
      rw [count]
      rfl

/-- In front of an unknown element, the marker is reached when some octets but not all are read. -/
theorem bDecSeqContent_unknown {d u more : List UInt8} (octets : SeqOctets true false es d)
    (unknown : UnknownElmt cls es u) {b : AsnBuf} (steady : b.Steady) (orderly : b.Orderly)
    (tape : b.unread = d ++ (u ++ more)) (room : d.length < elmtLen0.toNat) :
    ∃ read left fields b', read ≠ [] ∧ read.length < (d ++ u).length ∧
      b.unread = read ++ left ∧ b'.unread = left ∧ b'.Steady ∧ b'.Orderly ∧
      (cls.bDecSeqContent turns elmtLen0 bytesDecoded).run b =
        (cls.seqEnd turns elmtLen0 bytesDecoded (asnTape.advance 0 read.length) fields).run b' := by
  obtain ⟨tag, tag1, l, len, c, rfl, isTag, isLen, notEoc, other, -⟩ := unknown
  have lengths := List.length_pos_iff.2 isLen.ne_nil
  have tags := List.length_pos_iff.2 isTag.ne_nil
  by_cases none : d = []
  · -- The tag of the unknown element is read first.
    subst none
    have optional : allOptional es := by
      rcases octets with ⟨-, -, optional⟩ | ⟨-, tag, d, tag1, eq, isTag, -⟩
      · exact optional
      · exact absurd (List.append_eq_nil_iff.1 eq.symm).1 isTag.ne_nil
    rw [List.nil_append, List.append_assoc] at tape
    obtain ⟨b1, tagged, steady1, tape1⟩ := bDecTag_recognises.accepts steady tape isTag 0
    have notZero : elmtLen0 ≠ 0 := by
      rintro rfl
      cases room
    refine ⟨tag, _, [], b1, isTag.ne_nil, ?_, tape, tape1, steady1,
      (keepsDeck_bDecTag 0).orderly orderly tagged, ?_⟩
    · simp only [List.length_append, List.length_nil]
      omega
    · rw [bDecSeqContent_reads components legal turns elmtLen0 bytesDecoded notZero tagged notEoc,
        seqElmts_unknown cls turns elmtLen0 bytesDecoded optional other]
  · obtain ⟨left, last, fields, b1, suffix, optional, steady1, orderly1, tape1, ran⟩ :=
      bDecSeqContent_known components legal turns elmtLen0 bytesDecoded octets none steady orderly tape
        (Nat.le_of_lt room)
    have open_ : asnTape.advance 0 d.length ≠ elmtLen0 := by
      intro same
      have length := (advance_zero_eq steady tape).1 same
      omega
    rw [List.append_assoc] at tape1
    obtain ⟨m, b', moved, steady', orderly', reached⟩ := seqNext_unknown cls turns elmtLen0
      bytesDecoded optional isTag notEoc (fun e isIn => other e (suffix.subset isIn)) open_ steady1
      orderly1 tape1 last fields
    rw [List.append_assoc] at tape
    rcases moved with ⟨rfl, tape'⟩ | ⟨rfl, tape'⟩
    · refine ⟨d, _, fields, b', none, ?_, tape, tape', steady', orderly', ran.trans reached⟩
      simp only [List.length_append]
      omega
    · refine ⟨d ++ tag, _, fields, b', by simp [none], ?_, ?_, tape', steady', orderly', ?_⟩
      · simp only [List.length_append]
        omega
      · simp only [tape, List.append_assoc]
      · rw [ran, reached, asnTape.advance_add, List.length_append]

/-- The unknown elements behind the marker are not counted, or the others are counted twice. -/
theorem not_keepsUnknown (readsAny : cls.ReadsAny) {d u : List UInt8} {us : List (List UInt8)}
    (octets : SeqOctets true false es d) (unknown : UnknownElmt cls es u) {b : AsnBuf}
    (steady : b.Steady) (orderly : b.Orderly) {all rest : List UInt8} (tape : b.unread = all ++ rest)
    (framed : Framed elmtLen0 (d ++ (u :: us).flatten) all) :
    ¬ KeepsUnknown (fun turns => cls.bDecSeqContent turns elmtLen0) b all rest (u :: us) := by
  intro keeps
  obtain ⟨turns, r, b', ran, left, -⟩ := keeps 0
  have extensible : cls.extensible = true := by
    rw [SnaccClass.extensible, components, extended, List.any_append, Bool.or_eq_true]
    exact .inr rfl
  have fits := steady.sound.fits
  obtain ⟨after, whole⟩ : ∃ after, b.unread = d ++ (u ++ after) := by
    rcases framed with ⟨-, -, rfl⟩ | ⟨-, rfl⟩
    · exact ⟨us.flatten ++ rest, by rw [tape]; simp⟩
    · exact ⟨us.flatten ++ ([0, 0] ++ rest), by rw [tape]; simp⟩
  have unknownLength : 0 < u.length := by
    obtain ⟨tag, tag1, l, len, c, rfl, isTag, -⟩ := unknown
    have tags := List.length_pos_iff.2 isTag.ne_nil
    rw [List.length_append]
    omega
  rw [tape, List.length_append] at fits
  have sizes : (d ++ u).length ≤ (d ++ (u :: us).flatten).length := by
    simp only [List.length_append, List.flatten_cons]
    omega
  rw [List.length_append] at sizes
  have covered : (d ++ (u :: us).flatten).length ≤ all.length := by
    rcases framed with ⟨-, -, rfl⟩ | ⟨-, rfl⟩
    · exact Nat.le_refl _
    · exact (List.sublist_append_left _ [0, 0]).length_le
  have room : d.length < elmtLen0.toNat := by
    rcases framed with ⟨-, length, -⟩ | ⟨indefinite, rfl⟩
    · omega
    · have wide : elmtLen0.toNat = 2 ^ 64 - 1 := by
        rw [indefinite]
        rfl
      rw [List.length_append] at fits
      omega
  obtain ⟨read, after', fields, b1, some, few, tape1, left1, steady1, orderly1, reached⟩ :=
    bDecSeqContent_unknown components legal turns elmtLen0 0 octets unknown steady orderly whole room
  have ran : (cls.seqEnd turns elmtLen0 0 (asnTape.advance 0 read.length) fields).run b1 =
      .ok (r, 0 + UInt64.ofNat all.length) b' := reached.symm.trans ran
  have counted := List.length_pos_iff.2 some
  rw [List.length_append] at few
  have count := toNat_advance (n := 0) (k := read.length) (by rw [UInt64.toNat_zero]; omega)
  rw [UInt64.toNat_zero, Nat.zero_add] at count
  have total : (UInt64.ofNat all.length).toNat = all.length :=
    UInt64.toNat_ofNat_of_lt' (by rw [UInt64.size]; omega)
  rcases framed with ⟨definite, length, rfl⟩ | ⟨indefinite, rfl⟩
  · -- The elements behind the marker are missing in the count.
    have more : asnTape.advance 0 read.length ≠ elmtLen0 := by
      intro same
      rw [same] at count
      omega
    have wrong := seqEnd_definite extensible definite more ran
    rw [UInt64.zero_add, UInt64.zero_add] at wrong
    rw [wrong, count] at total
    omega
  · -- What stands in front of the marker is counted twice.
    obtain ⟨w, tape2, wrong⟩ := seqEnd_indefinite readsAny extensible indefinite steady1 orderly1 ran
    have split : read ++ w = d ++ (u :: us).flatten ++ [0, 0] := by
      have both : (read ++ w) ++ rest = (d ++ (u :: us).flatten ++ [0, 0]) ++ rest := by
        rw [← tape, tape1, ← left1, tape2, left, List.append_assoc]
      exact List.append_cancel_right both
    rw [asnTape.advance_add, ← List.length_append, split, UInt64.zero_add, UInt64.zero_add] at wrong
    have none : asnTape.advance 0 read.length = 0 := by
      have same : asnTape.advance 0 (d ++ (u :: us).flatten ++ [0, 0]).length =
          UInt64.ofNat (d ++ (u :: us).flatten ++ [0, 0]).length := UInt64.zero_add _
      rw [same] at wrong
      simpa using wrong
    rw [none, UInt64.toNat_zero] at count
    omega

end

end Esnacc.Cxx
