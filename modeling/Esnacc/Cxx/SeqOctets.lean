import Esnacc.Cxx.GenElmt
import Esnacc.Cxx.GenContents

/-! The contents that the code printed for a SEQUENCE without extension marker completes on. -/

namespace Esnacc.Cxx

open Lib

variable {β : Type}

/-- None of the components has to be there. -/
def allOptional (es : List (Elmt β)) : Bool :=
  es.all fun e => !e.mandatory

/-- The octets of components behind a tag that was read for the first of them, which may be found to
be a stray one. -/
def TailOctets (strict stray : Bool) : List (Elmt β) → AsnTag → List UInt8 → Prop
  | [], _, w => stray = true ∧ w = []
  | e :: rest, tag1, w =>
    if tag1 ∈ e.firstIds then
      ∃ c d x, w = c ++ d ∧ e.Octets strict tag1 c x ∧
        (stray = false ∧ d = [] ∧ allOptional rest ∨
          rest ≠ [] ∧ ∃ tag d' tag1, d = tag ++ d' ∧ TagOctets tag tag1 ∧
            TailOctets strict stray rest tag1 d')
    else e.mandatory = false ∧ TailOctets strict stray rest tag1 w

/-- The octets of components that are read one after the other, where the last tag that was read may
be a stray one. -/
def SeqOctets (strict stray : Bool) (es : List (Elmt β)) (w : List UInt8) : Prop :=
  stray = false ∧ w = [] ∧ allOptional es ∨
    es ≠ [] ∧ ∃ tag d tag1, w = tag ++ d ∧ TagOctets tag tag1 ∧ TailOctets strict stray es tag1 d

theorem tailOctets_of_mem {strict stray : Bool} {e : Elmt β} {rest : List (Elmt β)}
    {tag1 : AsnTag} {w : List UInt8} (begins : tag1 ∈ e.firstIds) :
    TailOctets strict stray (e :: rest) tag1 w ↔
      ∃ c d x, w = c ++ d ∧ e.Octets strict tag1 c x ∧ SeqOctets strict stray rest d := by
  rw [TailOctets, if_pos begins]
  rfl

theorem tailOctets_of_not_mem {strict stray : Bool} {e : Elmt β} {rest : List (Elmt β)}
    {tag1 : AsnTag} {w : List UInt8} (other : tag1 ∉ e.firstIds) :
    TailOctets strict stray (e :: rest) tag1 w ↔
      e.mandatory = false ∧ TailOctets strict stray rest tag1 w := by
  rw [TailOctets, if_neg other]

theorem exists_seqOctets_iff {strict : Bool} {es : List (Elmt β)} {w : List UInt8}
    (some : es ≠ []) : (∃ stray, SeqOctets strict stray es w) ↔ w = [] ∧ allOptional es ∨
      ∃ tag d tag1, w = tag ++ d ∧ TagOctets tag tag1 ∧
        ∃ stray, TailOctets strict stray es tag1 d := by
  constructor
  · rintro ⟨stray, ⟨-, rfl, optional⟩ | ⟨-, tag, d, tag1, rfl, isTag, tail⟩⟩
    · exact .inl ⟨rfl, optional⟩
    · exact .inr ⟨tag, d, tag1, rfl, isTag, stray, tail⟩
  · rintro (⟨rfl, optional⟩ | ⟨tag, d, tag1, rfl, isTag, stray, tail⟩)
    · exact ⟨false, .inl ⟨rfl, rfl, optional⟩⟩
    · exact ⟨stray, .inr ⟨some, tag, d, tag1, rfl, isTag, tail⟩⟩

theorem TagOctets.ne_nil {w : List UInt8} {tag : AsnTag} (isTag : TagOctets w tag) : w ≠ [] :=
  isTag.1.ne_nil

/-! ## Reading them -/

/-- Reading may end where nothing has to follow and the count has come to its goal. -/
theorem fills_orEnd {α : Type} {goal n : AsnLen} {p : Bool} {x : α} {f : BufM α}
    {lang : List UInt8 → Prop} {done : α → Prop} (fills : asnTape.Fills goal n f lang done)
    (some : ∀ w, lang w → w ≠ []) (isDone : n = goal → done x) :
    asnTape.Fills goal n (if p ∧ n = goal then pure x else f)
      (fun w => w = [] ∧ p ∨ lang w) done where
  accepts := by
    rintro b w rest steady tape (⟨rfl, optional⟩ | inLang) count
    · rw [List.length_nil, asnTape.advance_zero] at count
      rw [if_pos ⟨optional, count⟩]
      exact ⟨x, b, rfl, isDone count⟩
    · have notEnd : n ≠ goal := by
        -- Fewer octets than a word can count are there.
        intro same
        have count : n + UInt64.ofNat w.length = n := count.trans same.symm
        have within : w.length < 2 ^ 63 := by
          have fits := steady.sound.fits
          rw [show b.unread = _ from tape, List.length_append] at fits
          omega
        have none : UInt64.ofNat w.length = 0 := by
          simpa using count
        have zero : w.length = 0 := by
          have := congrArg UInt64.toNat none
          rw [UInt64.toNat_ofNat_of_lt' (Nat.lt_trans within (by decide))] at this
          exact this
        exact some w inLang (List.eq_nil_of_length_eq_zero zero)
      rw [if_neg fun h => notEnd h.2]
      exact fills.accepts steady tape inLang count
  sound := by
    intro b b' y steady ran
    by_cases ends : p ∧ n = goal
    · rw [if_pos ends] at ran
      obtain ⟨rfl, rfl⟩ := run_pure_eq_ok.1 ran
      refine ⟨isDone ends.2, steady, [], .inl ⟨rfl, ends.1⟩, rfl, ?_⟩
      rw [List.length_nil, asnTape.advance_zero, ends.2]
    · rw [if_neg ends] at ran
      obtain ⟨isDone, steady', w, inLang, tape, count⟩ := fills.sound steady ran
      exact ⟨isDone, steady', w, .inr inLang, tape, count⟩

section

variable {es : List (Elmt β)} {elmtLen0 : AsnLen} (definite : elmtLen0 ≠ INDEFINITE_LEN)
include definite

theorem not_tagIsEoc (tag1 : AsnTag) : tagIsEoc elmtLen0 tag1 = false := by
  simp [tagIsEoc, definite]

omit definite in
theorem isTailOptional_elmts (plain : ∀ e ∈ es, e.extensionAddition = false) :
    isTailOptional (es.map .elmt) = allOptional es := by
  induction es with
  | nil => rfl
  | cons e rest ih =>
    have here := plain e List.mem_cons_self
    have later := ih fun d isIn => plain d (List.mem_cons_of_mem e isIn)
    simp only [isTailOptional, allOptional, List.map_cons, List.all_cons, here] at later ⊢
    rw [later, Bool.or_false]

/-- Where components follow, their tag is read unless none has to be there and the octets end. -/
theorem nextTag_elmts (plain : ∀ e ∈ es, e.extensionAddition = false) (some : es ≠ [])
    (tag1 : AsnTag) (n : AsnLen) :
    nextTag elmtLen0 (es.map .elmt) tag1 n =
      if allOptional es ∧ n = elmtLen0 then pure (none, n)
      else bDecTag n >>= fun p => pure (Option.some p.1, p.2) := by
  cases es with
  | nil => exact absurd rfl some
  | cons e rest =>
    have optional := isTailOptional_elmts plain
    have here := plain e List.mem_cons_self
    rw [List.map_cons] at optional ⊢
    unfold nextTag
    simp only [optional, Component.extensionAddition, here, not_tagIsEoc definite]
    cases allOptional (e :: rest) with
    | false => simp
    | true =>
      by_cases ends : n = elmtLen0
      · simp [ends]
      · simp [ends]

variable (cls : SnaccClass β) (notExtensible : cls.extensible = false) (turns : Nat)
  (bytesDecoded : AsnLen)
include notExtensible

theorem seqEnd_fills (n : AsnLen) (fields : List (String × β)) :
    asnTape.Fills elmtLen0 n (cls.seqEnd turns elmtLen0 bytesDecoded n fields) (fun w => w = [])
      (fun r => r.2 = bytesDecoded + elmtLen0) := by
  unfold SnaccClass.seqEnd
  simp only [if_neg definite, notExtensible, Bool.false_eq_true, if_false]
  exact Tape.Fills.finish Iff.rfl fun ends => by rw [ends]

/-- Behind a component, either nothing is left or the tag of a following one is read. -/
theorem seqNext_fills (plain : ∀ e ∈ es, e.extensionAddition = false)
    (later : ∀ tag1 n fields, asnTape.Fills elmtLen0 n
      (cls.seqElmts turns elmtLen0 bytesDecoded (es.map .elmt) tag1 n fields)
      (fun w => ∃ stray, TailOctets false stray es tag1 w)
      (fun r => r.2 = bytesDecoded + elmtLen0))
    (tag1 : AsnTag) (n : AsnLen) (fields : List (String × β)) :
    asnTape.Fills elmtLen0 n
      (nextTag elmtLen0 (es.map .elmt) tag1 n >>= fun p =>
        match p.1 with
        | some tag1 => cls.seqElmts turns elmtLen0 bytesDecoded (es.map .elmt) tag1 p.2 fields
        | none => pure (⟨fields, []⟩, bytesDecoded + p.2))
      (fun w => ∃ stray, SeqOctets false stray es w)
      (fun r => r.2 = bytesDecoded + elmtLen0) := by
  by_cases last : es = []
  · subst last
    refine (seqEnd_fills definite cls notExtensible turns bytesDecoded n fields).congr fun w => ?_
    simp [SeqOctets, allOptional]
  · have reads := Tape.Fills.bind bDecTag_recognises (fun tag1 n => later tag1 n fields) n
    have ends := fills_orEnd (p := allOptional es) (n := n)
      (x := (⟨fields, []⟩, bytesDecoded + n)) reads
      (by rintro w ⟨c, d, tag1, rfl, isTag, -⟩; simp [isTag.ne_nil])
      (fun ends => by rw [ends])
    have same : (nextTag elmtLen0 (es.map .elmt) tag1 n >>= fun p =>
        match p.1 with
        | some tag1 => cls.seqElmts turns elmtLen0 bytesDecoded (es.map .elmt) tag1 p.2 fields
        | none => pure (⟨fields, []⟩, bytesDecoded + p.2)) =
        if allOptional es ∧ n = elmtLen0 then pure (⟨fields, []⟩, bytesDecoded + n)
        else bDecTag n >>= fun p =>
          cls.seqElmts turns elmtLen0 bytesDecoded (es.map .elmt) p.1 p.2 fields := by
      rw [nextTag_elmts definite plain last]
      split
      · rfl
      · rw [bind_assoc]
        rfl
    rw [same]
    exact ends.congr fun w => exists_seqOctets_iff last

/-- The components behind a tag that was read have to fill the octets, or the tag is the last. -/
theorem seqElmts_fills (plain : ∀ e ∈ es, e.extensionAddition = false)
    (whole : ∀ e ∈ es, e.decoder.Whole) (tag1 : AsnTag) (n : AsnLen)
    (fields : List (String × β)) :
    asnTape.Fills elmtLen0 n (cls.seqElmts turns elmtLen0 bytesDecoded (es.map .elmt) tag1 n fields)
      (fun w => ∃ stray, TailOctets false stray es tag1 w)
      (fun r => r.2 = bytesDecoded + elmtLen0) := by
  -- The induction is on the components that are still to come.
  induction es generalizing tag1 n fields with
  | nil =>
    refine (seqEnd_fills definite cls notExtensible turns bytesDecoded n fields).congr fun w => ?_
    simp [TailOctets]
  | cons e rest ih =>
    have plainRest := fun d isIn => plain d (List.mem_cons_of_mem e isIn)
    have ih := ih plainRest fun d isIn => whole d (List.mem_cons_of_mem e isIn)
    rw [List.map_cons, SnaccClass.seqElmts]
    by_cases begins : tag1 ∈ e.firstIds
    · rw [if_pos (List.contains_iff_mem.2 begins)]
      have reads := Elmt.decode_recognises cls.typeName (whole e List.mem_cons_self) tag1
      have fills := Tape.Fills.bind reads (fun x n => seqNext_fills definite cls notExtensible turns
        bytesDecoded plainRest ih x.2 n (fields ++ [(e.fieldName, x.1)])) n
      refine fills.congr fun w => ?_
      simp only [tailOctets_of_mem begins]
      constructor
      · rintro ⟨stray, c, d, x, eq, octets, later⟩
        exact ⟨c, d, x, eq, octets, stray, later⟩
      · rintro ⟨c, d, x, eq, octets, stray, later⟩
        exact ⟨stray, c, d, x, eq, octets, later⟩
    · rw [if_neg fun h => begins (List.contains_iff_mem.1 h)]
      simp only [tailOctets_of_not_mem begins]
      cases mandatory : e.mandatory with
      | true =>
        refine (Tape.Fills.throw asnTape elmtLen0 n (missingElmt e) _).congr fun w => ?_
        simp
      | false =>
        refine (ih tag1 n fields).congr fun w => ?_
        simp

/-- The code printed for a SEQUENCE completes exactly on octets that its components, and perhaps a
stray tag, fill. -/
theorem bDecSeqContent_fills (components : cls.components = es.map .elmt)
    (plain : ∀ e ∈ es, e.extensionAddition = false) (whole : ∀ e ∈ es, e.decoder.Whole) :
    asnTape.Fills elmtLen0 0 (cls.bDecSeqContent turns elmtLen0 bytesDecoded)
      (fun w => ∃ stray, SeqOctets false stray es w)
      (fun r => r.2 = bytesDecoded + elmtLen0) := by
  by_cases none : es = []
  · subst none
    have ends : asnTape.Fills elmtLen0 0
        (if elmtLen0 ≠ 0 then throw (decodeError "Expected an empty sequence")
          else pure (({} : Decoded β), bytesDecoded)) (fun w => w = [])
        (fun r => r.2 = bytesDecoded + elmtLen0) :=
      Tape.Fills.finish ne_comm fun ends => by rw [← ends, UInt64.add_zero]
    have same : cls.bDecSeqContent turns elmtLen0 bytesDecoded =
        if elmtLen0 ≠ 0 then throw (decodeError "Expected an empty sequence")
        else pure ({}, bytesDecoded) := by
      unfold SnaccClass.bDecSeqContent
      simp [components, definite]
    rw [same]
    refine ends.congr fun w => ?_
    simp [SeqOctets, allOptional]
  · have reads := Tape.Fills.bind bDecTag_recognises (fun tag1 n =>
      seqElmts_fills definite cls notExtensible turns bytesDecoded plain whole tag1 n []) 0
    have ends := fills_orEnd (p := allOptional es) (n := 0)
      (x := (({} : Decoded β), bytesDecoded)) reads
      (by rintro w ⟨c, d, tag1, rfl, isTag, -⟩; simp [isTag.ne_nil])
      (fun ends => by rw [← ends, UInt64.add_zero])
    have same : cls.bDecSeqContent turns elmtLen0 bytesDecoded =
        if allOptional es ∧ 0 = elmtLen0 then pure ({}, bytesDecoded)
        else bDecTag 0 >>= fun p =>
          cls.seqElmts turns elmtLen0 bytesDecoded (es.map .elmt) p.1 p.2 [] := by
      unfold SnaccClass.bDecSeqContent
      rw [components, isTailOptional_elmts plain]
      cases allOptional es with
      | false => simp [none]
      | true =>
        by_cases zero : elmtLen0 = 0
        · simp [none, zero]
        · have zero' : 0 ≠ elmtLen0 := Ne.symm zero
          simp [none, not_tagIsEoc definite, zero, zero']
    rw [same]
    exact ends.congr fun w => exists_seqOctets_iff none

end

end Esnacc.Cxx
