import Esnacc.Cxx.OrderlyReads
import Esnacc.Cxx.Conforming
import Esnacc.Cxx.SetOctets

/-! The code printed for a SEQUENCE with an extension marker, on contents with unknown elements. -/

namespace Esnacc.Cxx

open Lib

variable {β : Type}

/-- The components of a type, with the marker behind them as the parser leaves it. -/
@[grind =] def extended (es : List (Elmt β)) : List (Component β) :=
  es.map .elmt ++ [.extension]

/-- A type that can be told apart, with decoders that take whole elements and read on. -/
structure LegalElmts (es : List (Elmt β)) : Prop where
  noEoc : ∀ e ∈ es, EOC_TAG_ID ∉ e.firstIds
  additionsLast : es.Pairwise fun d e => d.extensionAddition → e.extensionAddition
  whole : ∀ e ∈ es, e.decoder.Whole
  readsOn : ∀ e ∈ es, e.decoder.ReadsOn

/-- The routine for elements of any type takes whole ones and reads on. -/
structure SnaccClass.ReadsAny (cls : SnaccClass β) : Prop where
  whole : asnTape.TakesWords cls.extAny
  readsOn : ∀ n, KeepsDeck (cls.extAny n)

/-- A well-formed element that no component stands for and whose octets are kept. -/
def UnknownElmt (cls : SnaccClass β) (es : List (Elmt β)) (u : List UInt8) : Prop :=
  ∃ tag tag1 l len c, u = tag ++ (l ++ c) ∧ TagOctets tag tag1 ∧ LenOctets l len ∧
    tag1 ≠ EOC_TAG_ID ∧ (∀ e ∈ es, tag1 ∉ e.firstIds) ∧ asnTape.Words cls.extAny u u

theorem LegalElmts.tail {e : Elmt β} {rest : List (Elmt β)} (legal : LegalElmts (e :: rest)) :
    LegalElmts rest where
  noEoc d isIn := legal.noEoc d (List.mem_cons_of_mem e isIn)
  additionsLast := (List.pairwise_cons.1 legal.additionsLast).2
  whole d isIn := legal.whole d (List.mem_cons_of_mem e isIn)
  readsOn d isIn := legal.readsOn d (List.mem_cons_of_mem e isIn)

theorem isTailOptional_extended {es : List (Elmt β)} (optional : allOptional es) :
    isTailOptional (extended es) = true := by
  rw [allOptional, List.all_eq_true] at optional
  rw [isTailOptional, extended, List.all_append, List.all_map, Bool.and_eq_true,
    List.all_eq_true]
  refine ⟨fun e isIn => ?_, rfl⟩
  simp [optional e isIn]

theorem isTailOptional_of_addition {e : Elmt β} {rest : List (Elmt β)}
    (legal : LegalElmts (e :: rest)) (addition : e.extensionAddition = true) :
    isTailOptional (extended (e :: rest)) = true := by
  have later := (List.pairwise_cons.1 legal.additionsLast).1
  rw [isTailOptional, extended, List.all_append, List.all_map, Bool.and_eq_true,
    List.all_eq_true]
  refine ⟨fun d isIn => ?_, rfl⟩
  rcases List.mem_cons.1 isIn with rfl | behind
  · simp [addition]
  · simp [later d behind addition]

theorem exists_of_mem_followIds {es : List (Elmt β)} {id : AsnTag} (isIn : id ∈ followIds es) :
    ∃ e ∈ es, id ∈ e.firstIds := by
  induction es with
  | nil => cases isIn
  | cons e rest ih =>
    rcases List.mem_append.1 isIn with here | later
    · exact ⟨e, List.mem_cons_self, here⟩
    · cases mandatory : e.mandatory with
      | true =>
        rw [mandatory] at later
        cases later
      | false =>
        rw [mandatory] at later
        obtain ⟨d, among, has⟩ := ih later
        exact ⟨d, List.mem_cons_of_mem e among, has⟩

theorem LenOctets.ne_nil {l : List UInt8} {len : AsnLen} (isLen : LenOctets l len) : l ≠ [] := by
  rcases isLen with ⟨rfl, -⟩ | ⟨m, isLength, -⟩
  · simp
  · have some := isLength.length_pos
    intro none
    rw [none] at some
    cases some

/-! ## The known components -/

section

variable (cls : SnaccClass β) (turns : Nat) (elmtLen0 bytesDecoded : AsnLen)

/-- What is done behind a component. -/
@[grind =] def SnaccClass.seqNext (cls : SnaccClass β) (turns : Nat) (elmtLen0 bytesDecoded : AsnLen)
    (rest : List (Elmt β)) (tag1 : AsnTag) (n : AsnLen) (fields : List (String × β)) :
    BufM (Decoded β × AsnLen) :=
  nextTag elmtLen0 (extended rest) tag1 n >>= fun p =>
    match p.1 with
    | some tag1 => cls.seqElmts turns elmtLen0 bytesDecoded (extended rest) tag1 p.2 fields
    | none => pure (⟨fields, []⟩, bytesDecoded + p.2)

/-- The tag of a component that is there is read, whatever has to follow. -/
theorem nextTag_reads {rest : List (Elmt β)} (legal : LegalElmts rest) (some : rest ≠ [])
    {n m : AsnLen} (more : n ≠ elmtLen0) {b b' : AsnBuf} {tag1 : AsnTag}
    (ran : (bDecTag n).run b = .ok (tag1, m) b') (notEoc : tagIsEoc elmtLen0 tag1 = false)
    (last : AsnTag) : (nextTag elmtLen0 (extended rest) last n).run b = .ok (.some tag1, m) b' := by
  cases rest with
  | nil => exact absurd rfl some
  | cons e rest =>
    unfold nextTag
    cases optional : isTailOptional (extended (e :: rest)) with
    | true =>
      simp only [extended, List.map_cons, List.cons_append] at optional ⊢
      simp only [Bool.not_true, Bool.false_eq_true, if_false, if_neg more]
      rw [run_bind_of_ok ran]
      simp only [notEoc, Bool.false_eq_true, if_false]
      rfl
    | false =>
      have root : e.extensionAddition = false := by
        by_contra addition
        rw [Bool.not_eq_false] at addition
        rw [isTailOptional_of_addition legal addition] at optional
        cases optional
      simp only [extended, List.map_cons, List.cons_append] at optional ⊢
      simp only [Bool.not_false, if_true, Component.extensionAddition, root, Bool.false_eq_true,
        if_false]
      rw [run_bind_of_ok ran]
      rfl

/-- The components that are there are read one after the other, up to what may be missing. -/
theorem seqElmts_known {es : List (Elmt β)} (legal : LegalElmts es) {tag1 : AsnTag}
    {d after : List UInt8} {n : AsnLen} {b : AsnBuf} (steady : b.Steady) (orderly : b.Orderly)
    (tail : TailOctets true false es tag1 d) (tape : b.unread = d ++ after)
    (room : n.toNat + d.length ≤ elmtLen0.toNat) (fields : List (String × β)) :
    ∃ left last fields' b', left <:+ es ∧ allOptional left ∧ b'.Steady ∧ b'.Orderly ∧
      b'.unread = after ∧
      (cls.seqElmts turns elmtLen0 bytesDecoded (extended es) tag1 n fields).run b =
        (cls.seqNext turns elmtLen0 bytesDecoded left last (asnTape.advance n d.length) fields').run
          b' := by
  induction es generalizing tag1 d n b fields with
  | nil => cases tail.1
  | cons e rest ih =>
    by_cases begins : tag1 ∈ e.firstIds
    · obtain ⟨c, d, x, rfl, octets, later⟩ := (tailOctets_of_mem begins).1 tail
      have reads := Elmt.decode_recognises cls.typeName (legal.whole e List.mem_cons_self) tag1
      rw [List.append_assoc] at tape
      obtain ⟨b1, decoded, steady1, tape1⟩ := reads.accepts steady tape octets.loose n
      have orderly1 := (e.keepsDeck_decode cls.typeName (legal.readsOn e List.mem_cons_self)
        tag1 n).orderly orderly decoded
      have here : (cls.seqElmts turns elmtLen0 bytesDecoded (extended (e :: rest)) tag1 n
          fields).run b = (cls.seqNext turns elmtLen0 bytesDecoded rest x.2
            (asnTape.advance n c.length) (fields ++ [(e.fieldName, x.1)])).run b1 := by
        rw [extended, List.map_cons, List.cons_append, SnaccClass.seqElmts,
          if_pos (List.contains_iff_mem.2 begins), run_bind_of_ok decoded]
        rfl
      rw [List.length_append] at room
      rcases later with ⟨-, rfl, optional⟩ | ⟨some, tag, d, tag1', rfl, isTag, tail'⟩
      · refine ⟨rest, x.2, fields ++ [(e.fieldName, x.1)], b1, List.suffix_cons e rest, optional,
          steady1, orderly1, tape1, ?_⟩
        rw [here, List.append_nil]
      · have some' := List.length_pos_iff.2 isTag.ne_nil
        rw [List.length_append] at room
        have small := elmtLen0.toNat_lt
        have tape1 : b1.unread = tag ++ (d ++ after) := by
          rw [show b1.unread = _ from tape1, List.append_assoc]
        obtain ⟨b2, tagged, steady2, tape2⟩ := bDecTag_recognises.accepts steady1 tape1 isTag
          (asnTape.advance n c.length)
        have orderly2 := (keepsDeck_bDecTag _).orderly orderly1 tagged
        have count1 := toNat_advance (n := n) (k := c.length) (by omega)
        have count2 := toNat_advance (n := asnTape.advance n c.length) (k := tag.length) (by omega)
        have more : asnTape.advance n c.length ≠ elmtLen0 := by
          intro same
          rw [same] at count1
          omega
        obtain ⟨e', among, has⟩ := exists_of_mem_followIds (mem_followIds tail')
        have notEoc : tagIsEoc elmtLen0 tag1' = false := by
          rw [tagIsEoc, Bool.and_eq_false_iff, decide_eq_false_iff_not, decide_eq_false_iff_not]
          exact .inr fun eoc => legal.tail.noEoc e' among (eoc ▸ has)
        have next := nextTag_reads elmtLen0 legal.tail some more tagged notEoc x.2
        have room2 : (asnTape.advance (asnTape.advance n c.length) tag.length).toNat + d.length ≤
            elmtLen0.toNat := by omega
        obtain ⟨left, last, fields', b', suffix, rest'⟩ := ih legal.tail steady2 orderly2 tail' tape2
          room2 (fields ++ [(e.fieldName, x.1)])
        refine ⟨left, last, fields', b', suffix.trans (List.suffix_cons e _), ?_⟩
        rw [here, SnaccClass.seqNext, run_bind_of_ok next]
        have total : asnTape.advance (asnTape.advance (asnTape.advance n c.length) tag.length)
            d.length = asnTape.advance n (c ++ (tag ++ d)).length := by
          rw [asnTape.advance_add, asnTape.advance_add, List.length_append, List.length_append]
        rw [total] at rest'
        exact rest'
    · obtain ⟨optional, tail⟩ := (tailOctets_of_not_mem begins).1 tail
      obtain ⟨left, last, fields', b', suffix, rest⟩ :=
        ih legal.tail steady orderly tail tape room fields
      refine ⟨left, last, fields', b', suffix.trans (List.suffix_cons e _), ?_⟩
      rw [extended, List.map_cons, List.cons_append, SnaccClass.seqElmts,
        if_neg fun h => begins (List.contains_iff_mem.1 h), optional]
      exact rest

/-- Where the octets end, nothing more is read. -/
theorem seqNext_end {left : List (Elmt β)} (optional : allOptional left) (last : AsnTag)
    (fields : List (String × β)) :
    cls.seqNext turns elmtLen0 bytesDecoded left last elmtLen0 fields =
      pure (⟨fields, []⟩, bytesDecoded + elmtLen0) := by
  have tailOptional := isTailOptional_extended optional
  have ends : nextTag elmtLen0 (extended left) last elmtLen0 = pure (none, elmtLen0) := by
    unfold nextTag
    cases left with
    | nil => simp [extended, isTailOptional]
    | cons e rest =>
      simp only [extended, List.map_cons, List.cons_append] at tailOptional ⊢
      simp only [tailOptional, Bool.not_true, Bool.false_eq_true, if_false, if_true]
  rw [SnaccClass.seqNext, ends]
  rfl

theorem TagOctets.head_ne_zero {tag : List UInt8} {tag1 : AsnTag} (isTag : TagOctets tag tag1)
    (notEoc : tag1 ≠ EOC_TAG_ID) : ∃ c more, tag = c :: more ∧ c ≠ 0 := by
  obtain ⟨⟨first, rfl, low⟩ | ⟨first, more, last, rfl, long, -⟩, -, rfl⟩ := isTag
  · refine ⟨first, [], rfl, ?_⟩
    rintro rfl
    exact notEoc (by decide)
  · refine ⟨first, _, rfl, ?_⟩
    rintro rfl
    cases long

theorem not_tagIsEoc_peeked (elmtLen0 : AsnLen) {c : UInt8} (some : c ≠ 0) :
    tagIsEoc elmtLen0 c.toInt8.toInt32.toUInt32 = false := by
  -- Every octet is looked at.
  have every : ∀ n : Fin 256, (UInt8.ofNat n).toInt8.toInt32.toUInt32 = EOC_TAG_ID →
      UInt8.ofNat n = 0 := by decide +kernel
  have here := every ⟨c.toNat, c.toNat_lt⟩
  rw [UInt8.ofNat_toNat] at here
  rw [tagIsEoc, Bool.and_eq_false_iff, decide_eq_false_iff_not, decide_eq_false_iff_not]
  exact .inr fun eoc => some (here eoc)

theorem seqElmts_unknown {left : List (Elmt β)} (optional : allOptional left) {tag1 : AsnTag}
    (unknown : ∀ e ∈ left, tag1 ∉ e.firstIds) (n : AsnLen) (fields : List (String × β)) :
    cls.seqElmts turns elmtLen0 bytesDecoded (extended left) tag1 n fields =
      cls.seqEnd turns elmtLen0 bytesDecoded n fields := by
  induction left with
  | nil => rfl
  | cons e rest ih =>
    simp only [allOptional, List.all_cons, Bool.and_eq_true, Bool.not_eq_true'] at optional
    rw [extended, List.map_cons, List.cons_append, SnaccClass.seqElmts,
      if_neg fun h => unknown e List.mem_cons_self (List.contains_iff_mem.1 h), optional.1]
    exact ih optional.2 fun d isIn => unknown d (List.mem_cons_of_mem e isIn)

/-- Behind the known components, the marker is reached with the tag of an unknown element read where
a component might have followed. -/
theorem seqNext_unknown {left : List (Elmt β)} (optional : allOptional left) {tag more : List UInt8}
    {tag1 : AsnTag} (isTag : TagOctets tag tag1) (notEoc : tag1 ≠ EOC_TAG_ID)
    (unknown : ∀ e ∈ left, tag1 ∉ e.firstIds) {n : AsnLen} (open_ : n ≠ elmtLen0) {b : AsnBuf}
    (steady : b.Steady) (orderly : b.Orderly) (tape : b.unread = tag ++ more) (last : AsnTag)
    (fields : List (String × β)) :
    ∃ m b', (m = n ∧ b'.unread = tag ++ more ∨
        m = asnTape.advance n tag.length ∧ b'.unread = more) ∧ b'.Steady ∧ b'.Orderly ∧
      (cls.seqNext turns elmtLen0 bytesDecoded left last n fields).run b =
        (cls.seqEnd turns elmtLen0 bytesDecoded m fields).run b' := by
  have notEoc' : tagIsEoc elmtLen0 tag1 = false := by
    rw [tagIsEoc, Bool.and_eq_false_iff, decide_eq_false_iff_not, decide_eq_false_iff_not]
    exact .inr notEoc
  have tailOptional := isTailOptional_extended optional
  cases left with
  | nil =>
    -- An octet of the tag is looked at.
    obtain ⟨c, tagMore, rfl, some⟩ := isTag.head_ne_zero notEoc
    obtain ⟨b', ran, steady', orderly', same⟩ := peekByte_orderly steady orderly tape
    have next : (nextTag elmtLen0 (extended ([] : List (Elmt β))) last n).run b =
        .ok (Option.some c.toInt8.toInt32.toUInt32, n) b' := by
      unfold nextTag
      simp only [extended, List.map_nil, List.nil_append] at tailOptional ⊢
      simp only [tailOptional, Bool.not_true, Bool.false_eq_true, if_false, if_neg open_]
      rw [run_bind_of_ok ran]
      simp only [not_tagIsEoc_peeked elmtLen0 some, Bool.false_eq_true, if_false]
      rfl
    refine ⟨n, b', .inl ⟨rfl, same.trans tape⟩, steady', orderly', ?_⟩
    rw [SnaccClass.seqNext, run_bind_of_ok next]
    rfl
  | cons e rest =>
    obtain ⟨b', ran, steady', left⟩ := bDecTag_recognises.accepts steady tape isTag n
    have orderly' := (keepsDeck_bDecTag n).orderly orderly ran
    have next : (nextTag elmtLen0 (extended (e :: rest)) last n).run b =
        .ok (Option.some tag1, asnTape.advance n tag.length) b' := by
      unfold nextTag
      simp only [extended, List.map_cons, List.cons_append] at tailOptional ⊢
      simp only [tailOptional, Bool.not_true, Bool.false_eq_true, if_false, if_neg open_]
      rw [run_bind_of_ok ran]
      simp only [notEoc', Bool.false_eq_true, if_false]
      rfl
    refine ⟨asnTape.advance n tag.length, b', .inr ⟨rfl, left⟩, steady', orderly', ?_⟩
    rw [SnaccClass.seqNext, run_bind_of_ok next]
    exact congrArg (fun x => EStateM.run x b') (seqElmts_unknown cls turns elmtLen0 bytesDecoded
      optional unknown _ fields)

/-- The end of contents behind the known components ends the SEQUENCE. -/
theorem seqNext_eoc (indefinite : elmtLen0 = INDEFINITE_LEN) {left : List (Elmt β)}
    (optional : allOptional left) {n : AsnLen} (open_ : n ≠ elmtLen0) {b : AsnBuf}
    (steady : b.Steady) (orderly : b.Orderly) {rest : List UInt8} (tape : b.unread = 0 :: 0 :: rest)
    (last : AsnTag) (fields : List (String × β)) :
    ∃ b', (cls.seqNext turns elmtLen0 bytesDecoded left last n fields).run b =
      .ok (⟨fields, []⟩, bytesDecoded + asnTape.advance n 2) b' ∧ b'.unread = rest := by
  have tailOptional := isTailOptional_extended optional
  have eoc : tagIsEoc elmtLen0 EOC_TAG_ID = true := by
    rw [tagIsEoc, indefinite]
    rfl
  cases left with
  | nil =>
    obtain ⟨b1, peeked, steady1, -, same⟩ := peekByte_orderly steady orderly tape
    obtain ⟨b', ended, -, left⟩ := bDecEoc_completes steady1 (same.trans tape) n
    refine ⟨b', ?_, left⟩
    have next : (nextTag elmtLen0 (extended ([] : List (Elmt β))) last n).run b =
        .ok (none, asnTape.advance n 2) b' := by
      unfold nextTag
      simp only [extended, List.map_nil, List.nil_append] at tailOptional ⊢
      simp only [tailOptional, Bool.not_true, Bool.false_eq_true, if_false, if_neg open_]
      rw [run_bind_of_ok peeked]
      change EStateM.run (if tagIsEoc elmtLen0 EOC_TAG_ID then _ else _) b1 = _
      rw [eoc, if_pos rfl, run_bind_of_ok ended]
      rfl
    rw [SnaccClass.seqNext, run_bind_of_ok next]
    rfl
  | cons e rest' =>
    have isTag : TagOctets [0] EOC_TAG_ID := ⟨.inl ⟨0, rfl, by decide⟩, by decide, rfl⟩
    have tape' : b.unread = [0] ++ 0 :: rest := tape
    obtain ⟨b1, tagged, steady1, left⟩ := bDecTag_recognises.accepts steady tape' isTag n
    obtain ⟨b', ended, -, left'⟩ := bDec2ndEocOctet_completes steady1 left (asnTape.advance n 1)
    refine ⟨b', ?_, left'⟩
    have next : (nextTag elmtLen0 (extended (e :: rest')) last n).run b =
        .ok (none, asnTape.advance n 2) b' := by
      unfold nextTag
      simp only [extended, List.map_cons, List.cons_append] at tailOptional ⊢
      simp only [tailOptional, Bool.not_true, Bool.false_eq_true, if_false, if_neg open_]
      rw [run_bind_of_ok tagged]
      simp only [eoc, if_true]
      rw [List.length_singleton, run_bind_of_ok ended, asnTape.advance_add]
      rfl
    rw [SnaccClass.seqNext, run_bind_of_ok next]
    rfl

/-! ## The elements behind the marker -/

variable {cls turns elmtLen0 bytesDecoded}

/-- What is read until the end of contents is counted. -/
theorem grabUntilEoc_sound (readsAny : cls.ReadsAny) {extList out : List (List UInt8)}
    {n m : AsnLen} {b b' : AsnBuf} (steady : b.Steady) (orderly : b.Orderly)
    (ran : (cls.grabUntilEoc turns extList n).run b = .ok (out, m) b') :
    ∃ w, b.unread = w ++ b'.unread ∧ m = asnTape.advance n w.length := by
  induction turns generalizing extList n b with
  | zero => cases ran
  | succ turns ih =>
    rw [SnaccClass.grabUntilEoc] at ran
    obtain ⟨c, b1, peeked, ran⟩ := run_bind_eq_ok.1 ran
    obtain ⟨steady1, orderly1, same, -⟩ := peekByte_sound steady orderly peeked
    by_cases ends : c = 0
    · rw [if_pos ends] at ran
      obtain ⟨k, b2, ended, ran⟩ := run_bind_eq_ok.1 ran
      cases ran
      have counted : (countedEoc n).run b1 = .ok ((), m) b' := by
        rw [countedEoc, run_bind_of_ok ended]
        rfl
      obtain ⟨-, w, -, tape, count⟩ := countedEoc_recognises.sound steady1 counted
      exact ⟨w, same.symm.trans tape, count⟩
    · rw [if_neg ends] at ran
      obtain ⟨⟨u, k⟩, b2, grabbed, ran⟩ := run_bind_eq_ok.1 ran
      obtain ⟨steady2, c, -, tape, rfl⟩ := readsAny.whole.sound steady1 grabbed
      have orderly2 := (readsAny.readsOn n).orderly orderly1 grabbed
      obtain ⟨w, tape', count⟩ := ih steady2 orderly2 ran
      refine ⟨c ++ w, ?_, by rw [count, asnTape.advance_add, List.length_append]⟩
      rw [← same, show b1.unread = _ from tape, show asnTape.unread b2 = _ from tape',
        List.append_assoc]

theorem seqEnd_definite (extensible : cls.extensible = true) (definite : elmtLen0 ≠ INDEFINITE_LEN)
    {n m : AsnLen} (more : n ≠ elmtLen0) {fields : List (String × β)} {r : Decoded β}
    {b b' : AsnBuf}
    (ran : (cls.seqEnd turns elmtLen0 bytesDecoded n fields).run b = .ok (r, m) b') :
    m = bytesDecoded + n := by
  unfold SnaccClass.seqEnd at ran
  simp only [if_neg definite, if_pos more, extensible, if_true] at ran
  obtain ⟨out, b1, -, ran⟩ := run_bind_eq_ok.1 ran
  cases ran
  rfl

theorem seqEnd_indefinite (readsAny : cls.ReadsAny) (extensible : cls.extensible = true)
    (indefinite : elmtLen0 = INDEFINITE_LEN) {n m : AsnLen} {fields : List (String × β)}
    {r : Decoded β} {b b' : AsnBuf} (steady : b.Steady) (orderly : b.Orderly)
    (ran : (cls.seqEnd turns elmtLen0 bytesDecoded n fields).run b = .ok (r, m) b') :
    ∃ w, b.unread = w ++ b'.unread ∧ m = bytesDecoded + n + asnTape.advance n w.length := by
  unfold SnaccClass.seqEnd at ran
  simp only [if_pos indefinite, extensible, if_true] at ran
  obtain ⟨⟨out, k⟩, b1, grabbed, ran⟩ := run_bind_eq_ok.1 ran
  cases ran
  obtain ⟨w, tape, rfl⟩ := grabUntilEoc_sound readsAny steady orderly grabbed
  exact ⟨w, tape, rfl⟩

end

end Esnacc.Cxx
