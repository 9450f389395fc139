import Esnacc.Cxx.SeqOctets
import Esnacc.Cxx.SetOctets
import Mathlib.Data.List.Perm.Subperm

/-! Contents that the definition of a SEQUENCE or SET allows, among those that the printed code takes. -/

namespace Esnacc.Cxx

open Lib

variable {β : Type}

/-! ## SEQUENCE -/

/-- Complete elements of the components in their order, each mandatory one among them. -/
def InOrder : List (Elmt β) → List UInt8 → Prop
  | [], w => w = []
  | e :: rest, w =>
    (∃ c d, w = c ++ d ∧ e.Complete c ∧ InOrder rest d) ∨ e.mandatory = false ∧ InOrder rest w

/-- The tags that components may begin with, up to the first one that has to be there. -/
def followIds : List (Elmt β) → List AsnTag
  | [] => []
  | e :: rest => e.firstIds ++ if e.mandatory then [] else followIds rest

/-- A component that may be missing is told by its tag from those that can stand in its place. -/
def ToldApart : List (Elmt β) → Prop
  | [] => True
  | e :: rest =>
    (e.mandatory = false → ∀ id ∈ e.firstIds, id ∉ followIds rest) ∧ ToldApart rest

/-- A tag that nothing follows stands behind the components. -/
def StrayTag (es : List (Elmt β)) (w : List UInt8) : Prop :=
  SeqOctets false true es w

/-- Components fill the octets, and the length of one is not that of what it holds. -/
def MisfitLength (es : List (Elmt β)) (w : List UInt8) : Prop :=
  SeqOctets false false es w ∧ ¬ SeqOctets true false es w

theorem inOrder_nil {es : List (Elmt β)} (optional : allOptional es) : InOrder es [] := by
  induction es with
  | nil => rfl
  | cons e rest ih =>
    simp only [allOptional, List.all_cons, Bool.and_eq_true, Bool.not_eq_true'] at optional
    exact .inr ⟨optional.1, ih optional.2⟩

theorem inOrder_of_tailOctets {es : List (Elmt β)} {tag d : List UInt8} {tag1 : AsnTag}
    (isTag : TagOctets tag tag1) (tail : TailOctets true false es tag1 d) :
    InOrder es (tag ++ d) := by
  induction es generalizing tag tag1 d with
  | nil => cases tail.1
  | cons e rest ih =>
    by_cases begins : tag1 ∈ e.firstIds
    · obtain ⟨c, d, x, rfl, octets, later⟩ := (tailOctets_of_mem begins).1 tail
      refine .inl ⟨tag ++ c, d, (List.append_assoc ..).symm, ?_, ?_⟩
      · exact ⟨tag, tag1, c, x, rfl, isTag, begins, octets⟩
      · rcases later with ⟨-, rfl, optional⟩ | ⟨-, tag', d, tag1', rfl, isTag', tail'⟩
        · exact inOrder_nil optional
        · exact ih isTag' tail'
    · obtain ⟨optional, tail⟩ := (tailOctets_of_not_mem begins).1 tail
      exact .inr ⟨optional, ih isTag tail⟩

theorem inOrder_of_seqOctets {es : List (Elmt β)} {w : List UInt8}
    (octets : SeqOctets true false es w) : InOrder es w := by
  rcases octets with ⟨-, rfl, optional⟩ | ⟨-, tag, d, tag1, rfl, isTag, tail⟩
  · exact inOrder_nil optional
  · exact inOrder_of_tailOctets isTag tail

theorem mem_followIds {es : List (Elmt β)} {tag1 : AsnTag} {d : List UInt8}
    (tail : TailOctets true false es tag1 d) : tag1 ∈ followIds es := by
  induction es with
  | nil => cases tail.1
  | cons e rest ih =>
    by_cases begins : tag1 ∈ e.firstIds
    · exact List.mem_append_left _ begins
    · obtain ⟨optional, tail⟩ := (tailOctets_of_not_mem begins).1 tail
      refine List.mem_append_right _ ?_
      rw [optional]
      exact ih tail

/-- What is allowed is read so, where the tags tell the components apart. -/
theorem seqOctets_of_inOrder {es : List (Elmt β)} {w : List UInt8} (apart : ToldApart es)
    (inOrder : InOrder es w) : SeqOctets true false es w := by
  induction es generalizing w with
  | nil => exact .inl ⟨rfl, inOrder, rfl⟩
  | cons e rest ih =>
    rcases inOrder with ⟨c, d, rfl, ⟨tag, tag1, c', x, rfl, isTag, begins, octets⟩, later⟩ |
      ⟨optional, later⟩
    · refine .inr ⟨List.cons_ne_nil _ _, tag, c' ++ d, tag1, List.append_assoc .., isTag, ?_⟩
      exact (tailOctets_of_mem begins).2 ⟨c', d, x, rfl, octets, ih apart.2 later⟩
    · rcases ih apart.2 later with ⟨-, rfl, optionals⟩ | ⟨-, tag, d, tag1, rfl, isTag, tail⟩
      · refine .inl ⟨rfl, rfl, ?_⟩
        simp only [allOptional, List.all_cons, optional, Bool.not_false, Bool.true_and]
        exact optionals
      · refine .inr ⟨List.cons_ne_nil _ _, tag, d, tag1, rfl, isTag, ?_⟩
        have other : tag1 ∉ e.firstIds := fun begins =>
          apart.1 optional tag1 begins (mem_followIds tail)
        exact (tailOctets_of_not_mem other).2 ⟨optional, tail⟩

/-! ## Stray tags -/

/-- Behind the octets that were read, a stray tag is one that is stray behind the tag. -/
theorem seqOctets_not_stray_of {es : List (Elmt β)}
    (tails : ∀ {b : AsnBuf} {tag1 : AsnTag} {w rest : List UInt8}, b.Steady →
      b.unread = w ++ rest → TailOctets false true es tag1 w → ¬ TailOctets false false es tag1 w)
    {b : AsnBuf} (steady : b.Steady) {w rest : List UInt8} (tape : b.unread = w ++ rest)
    (stray : SeqOctets false true es w) : ¬ SeqOctets false false es w := by
  intro octets
  rcases stray with ⟨none, -⟩ | ⟨-, tag, d, tag1, rfl, isTag, tail⟩
  · cases none
  · rcases octets with ⟨-, nil, -⟩ | ⟨-, tag', d', tag1', eq, isTag', tail'⟩
    · exact isTag.ne_nil (List.append_eq_nil_iff.1 nil).1
    · -- Both begin with the same tag.
      have tape' : b.unread = tag' ++ (d' ++ rest) := by rw [tape, eq, List.append_assoc]
      rw [List.append_assoc] at tape
      obtain ⟨rfl, -, rfl⟩ := bDecTag_recognises.unique 0 steady tape tape' isTag isTag'
      obtain ⟨mid, -, steady', left⟩ := bDecTag_recognises.accepts steady tape isTag 0
      rw [← List.append_cancel_left eq] at tail'
      exact tails steady' left tail tail'

/-- A stray tag is not read as anything else. -/
theorem tailOctets_not_stray {es : List (Elmt β)} (whole : ∀ e ∈ es, e.decoder.Whole)
    {b : AsnBuf} {tag1 : AsnTag} {w rest : List UInt8} (steady : b.Steady)
    (tape : b.unread = w ++ rest) (stray : TailOctets false true es tag1 w) :
    ¬ TailOctets false false es tag1 w := by
  -- Both read the same components up to the tag.
  intro tail
  induction es generalizing b tag1 w rest with
  | nil => cases tail.1
  | cons e es ih =>
    have wholes := fun d isIn => whole d (List.mem_cons_of_mem e isIn)
    by_cases begins : tag1 ∈ e.firstIds
    · obtain ⟨c, d, x, rfl, octets, later⟩ := (tailOctets_of_mem begins).1 stray
      obtain ⟨c', d', x', eq, octets', later'⟩ := (tailOctets_of_mem begins).1 tail
      have reads := Elmt.decode_recognises "" (whole e List.mem_cons_self) tag1
      have tape' : b.unread = c' ++ (d' ++ rest) := by rw [tape, eq, List.append_assoc]
      rw [List.append_assoc] at tape
      obtain ⟨rfl, -, -⟩ := reads.unique 0 steady tape tape' octets octets'
      obtain ⟨mid, -, steady', left⟩ := reads.accepts steady tape octets 0
      rw [← List.append_cancel_left eq] at later'
      exact seqOctets_not_stray_of (ih wholes) steady' left later later'
    · obtain ⟨-, stray⟩ := (tailOctets_of_not_mem begins).1 stray
      obtain ⟨-, tail⟩ := (tailOctets_of_not_mem begins).1 tail
      exact ih wholes steady tape stray tail

theorem StrayTag.not_seqOctets {es : List (Elmt β)} (whole : ∀ e ∈ es, e.decoder.Whole)
    {b : AsnBuf} (steady : b.Steady) {w rest : List UInt8} (tape : b.unread = w ++ rest)
    (stray : StrayTag es w) : ¬ SeqOctets false false es w :=
  seqOctets_not_stray_of (tailOctets_not_stray whole) steady tape stray

/-- Octets that are read with lengths that fit are read without a look at the lengths. -/
theorem TailOctets.loose {es : List (Elmt β)} {stray : Bool} {tag1 : AsnTag} {w : List UInt8}
    (tail : TailOctets true stray es tag1 w) : TailOctets false stray es tag1 w := by
  induction es generalizing tag1 w with
  | nil => exact tail
  | cons e rest ih =>
    by_cases begins : tag1 ∈ e.firstIds
    · obtain ⟨c, d, x, eq, octets, later⟩ := (tailOctets_of_mem begins).1 tail
      refine (tailOctets_of_mem begins).2 ⟨c, d, x, eq, octets.loose, ?_⟩
      rcases later with ended | ⟨some, tag, d, tag1, eq, isTag, tail⟩
      · exact .inl ended
      · exact .inr ⟨some, tag, d, tag1, eq, isTag, ih tail⟩
    · obtain ⟨optional, tail⟩ := (tailOctets_of_not_mem begins).1 tail
      exact (tailOctets_of_not_mem begins).2 ⟨optional, ih tail⟩

theorem SeqOctets.loose {es : List (Elmt β)} {stray : Bool} {w : List UInt8}
    (octets : SeqOctets true stray es w) : SeqOctets false stray es w := by
  rcases octets with ended | ⟨some, tag, d, tag1, eq, isTag, tail⟩
  · exact .inl ended
  · exact .inr ⟨some, tag, d, tag1, eq, isTag, tail.loose⟩

/-! ## SET -/

/-- Complete elements of components in any order, none twice and each mandatory one among them. -/
def AnyOrder (es : List (Elmt β)) (w : List UInt8) : Prop :=
  ∃ parts, w = partOctets parts ∧
    (∀ p ∈ parts, ∃ e, es[p.place]? = some e ∧ e.Complete p.octets) ∧
    (parts.map SetPart.place).Nodup ∧
    ∀ (i : Nat) (e : Elmt β), es[i]? = some e → e.mandatory → i ∈ parts.map SetPart.place

/-- No tag selects the cases of two components. -/
def CasesApart (es : List (Elmt β)) : Prop :=
  ∀ (i j : Nat) (d e : Elmt β), es[i]? = some d → es[j]? = some e →
    ∀ id, id ∈ d.firstIds → id ∈ e.firstIds → i = j

/-- How many components of a SET have to be there. -/
def mandatoryCount (es : List (Elmt β)) : Nat :=
  es.countP Elmt.mandatory

/-- Parts that a SET of some octets is taken for, with as many mandatory ones as the type has. -/
def TakenParts (es : List (Elmt β)) (elmtLen0 : AsnLen) (parts : List SetPart) : Prop :=
  SetParts false es elmtLen0.toNat parts ∧ mandatoryCount es ≤ mandatoryHits es parts % 2 ^ 32

/-- The parts go on behind the end, or one component is there twice, or the length of one is not that
of what it holds. -/
def SetSlip (es : List (Elmt β)) (elmtLen0 : AsnLen) (parts : List SetPart) : Prop :=
  elmtLen0.toNat < (partOctets parts).length ∨ ¬ (parts.map SetPart.place).Nodup ∨
    ∃ p ∈ parts, ¬ p.Reads true es

/-! ## Parts of a SET -/

theorem SetParts.reaches {strict : Bool} {es : List (Elmt β)} {left : Nat} {parts : List SetPart}
    (isParts : SetParts strict es left parts) : left ≤ (partOctets parts).length := by
  induction parts generalizing left with
  | nil => exact Nat.le_of_eq isParts
  | cons p later ih =>
    have rest := ih isParts.2.2
    rw [partOctets_cons, List.length_append]
    omega

theorem SetParts.reads {strict : Bool} {es : List (Elmt β)} {left : Nat} {parts : List SetPart}
    (isParts : SetParts strict es left parts) : ∀ p ∈ parts, p.Reads strict es := by
  induction parts generalizing left with
  | nil => simp
  | cons p later ih =>
    intro q isIn
    rcases List.mem_cons.1 isIn with rfl | isLater
    · exact isParts.2.1
    · exact ih isParts.2.2 q isLater

theorem SetPart.Reads.complete {es : List (Elmt β)} {p : SetPart} (reads : p.Reads true es) :
    ∃ e, es[p.place]? = some e ∧ e.Complete p.octets := by
  obtain ⟨e, tag, tag1, c, x, here, eq, isTag, begins, -, octets⟩ := reads
  exact ⟨e, here, tag, tag1, c, x, eq, isTag, begins, octets⟩

theorem SetPart.Reads.ne_nil {strict : Bool} {es : List (Elmt β)} {p : SetPart}
    (reads : p.Reads strict es) : p.octets ≠ [] := by
  obtain ⟨e, tag, tag1, c, x, here, eq, isTag, -⟩ := reads
  simp [eq, isTag.ne_nil]

theorem Elmt.Complete.ne_nil {e : Elmt β} {w : List UInt8} (complete : e.Complete w) : w ≠ [] := by
  obtain ⟨tag, tag1, c, x, rfl, isTag, -⟩ := complete
  simp [isTag.ne_nil]

/-- The place is that of a mandatory component. -/
def mandatoryAt (es : List (Elmt β)) (i : Nat) : Bool :=
  (es[i]?.map Elmt.mandatory).getD false

theorem mandatoryCount_eq_range (es : List (Elmt β)) :
    mandatoryCount es = (List.range es.length).countP (mandatoryAt es) := by
  induction es with
  | nil => rfl
  | cons e rest ih =>
    rw [mandatoryCount, List.countP_cons, List.length_cons, List.range_succ_eq_map,
      List.countP_cons, List.countP_map, ← mandatoryCount, ih]
    rfl

/-- Where no component is there twice, as many mandatory ones as the type has are all of them. -/
theorem mem_of_hits {es : List (Elmt β)} {parts : List SetPart}
    (once : (parts.map SetPart.place).Nodup)
    (enough : mandatoryCount es ≤ mandatoryHits es parts) {i : Nat} {e : Elmt β}
    (here : es[i]? = some e) (mandatory : e.mandatory) : i ∈ parts.map SetPart.place := by
  -- The places met are among those of the type, and are no fewer.
  let met := (parts.map SetPart.place).filter (mandatoryAt es)
  let all := (List.range es.length).filter (mandatoryAt es)
  have among : met ⊆ all := by
    intro j isMet
    obtain ⟨-, isMandatory⟩ := List.mem_filter.1 isMet
    refine List.mem_filter.2 ⟨List.mem_range.2 ?_, isMandatory⟩
    by_contra outside
    rw [mandatoryAt, List.getElem?_eq_none (Nat.le_of_not_lt outside)] at isMandatory
    cases isMandatory
  have few : all.length ≤ met.length := by
    rw [← List.countP_eq_length_filter, ← List.countP_eq_length_filter, List.countP_map,
      ← mandatoryCount_eq_range]
    exact enough
  have same : met.Perm all :=
    (List.subperm_of_subset (once.filter _) among).perm_of_length_le few
  have isAll : i ∈ all := by
    refine List.mem_filter.2 ⟨List.mem_range.2 (List.getElem?_eq_some_iff.1 here).1, ?_⟩
    rw [mandatoryAt, here]
    exact mandatory
  exact (List.mem_filter.1 (same.mem_iff.2 isAll)).1

/-- Parts without a slip are what the definition allows. -/
theorem anyOrder_of_taken {es : List (Elmt β)} {elmtLen0 : AsnLen} {parts : List SetPart}
    (taken : TakenParts es elmtLen0 parts) (noSlip : ¬ SetSlip es elmtLen0 parts) :
    (partOctets parts).length = elmtLen0.toNat ∧ AnyOrder es (partOctets parts) := by
  have within : ¬ elmtLen0.toNat < (partOctets parts).length := fun h => noSlip (.inl h)
  have once : (parts.map SetPart.place).Nodup := not_not.1 fun h => noSlip (.inr (.inl h))
  have strict : ∀ p ∈ parts, p.Reads true es := fun p isIn =>
    not_not.1 fun h => noSlip (.inr (.inr ⟨p, isIn, h⟩))
  have reaches := taken.1.reaches
  have enough : mandatoryCount es ≤ mandatoryHits es parts :=
    Nat.le_trans taken.2 (Nat.mod_le _ _)
  refine ⟨by omega, parts, rfl, fun p isIn => (strict p isIn).complete, once, ?_⟩
  intro i e here mandatory
  exact mem_of_hits once enough here mandatory

/-- Octets are parts in one way only, where the tags tell the components apart. -/
theorem parts_unique {es : List (Elmt β)} (apart : CasesApart es)
    (whole : ∀ e ∈ es, e.decoder.Whole) {left : Nat} {parts parts' : List SetPart}
    (isParts : SetParts false es left parts)
    (complete : ∀ p ∈ parts', ∃ e, es[p.place]? = some e ∧ e.Complete p.octets)
    (total : (partOctets parts').length = left) {b : AsnBuf} (steady : b.Steady)
    {rest rest' : List UInt8} (tape : b.unread = partOctets parts ++ rest)
    (tape' : b.unread = partOctets parts' ++ rest') : parts' = parts := by
  induction parts generalizing parts' left b with
  | nil =>
    have none : left = 0 := isParts
    cases parts' with
    | nil => rfl
    | cons p' later' =>
      obtain ⟨e, -, isComplete⟩ := complete p' List.mem_cons_self
      have some := List.length_pos_iff.2 isComplete.ne_nil
      rw [partOctets_cons, List.length_append] at total
      omega
  | cons p later ih =>
    obtain ⟨more, ⟨e, tag, tag1, c, x, here, eq, isTag, begins, first, octets⟩, isLater⟩ := isParts
    cases parts' with
    | nil =>
      have none : 0 = left := total
      omega
    | cons p' later' =>
      obtain ⟨e', here', tag', tag1', c', x', eq', isTag', begins', octets'⟩ :=
        complete p' List.mem_cons_self
      rw [partOctets_cons, eq, List.append_assoc, List.append_assoc] at tape
      rw [partOctets_cons, eq', List.append_assoc, List.append_assoc] at tape'
      -- The tags are the same, so are the components, and so are their octets.
      obtain ⟨rfl, same, rfl⟩ := bDecTag_recognises.unique 0 steady tape tape' isTag isTag'
      obtain ⟨b2, -, steady2, tape2⟩ := bDecTag_recognises.accepts steady tape isTag 0
      have samePlace := apart p.place p'.place e e' here here' tag1 begins begins'
      rw [← samePlace, here] at here'
      obtain rfl := Option.some.inj here'
      have reads := Elmt.decode_recognises "" (whole e (List.mem_of_getElem? here)) tag1
      have tape2' : asnTape.unread b2 = c' ++ (partOctets later' ++ rest') := tape2.trans same
      obtain ⟨rfl, -, -⟩ := reads.unique 0 steady2 tape2 tape2' octets octets'.loose
      obtain ⟨b3, -, steady3, tape3⟩ := reads.accepts steady2 tape2 octets 0
      have sameOctets : p'.octets = p.octets := eq'.trans eq.symm
      have tape3' : b3.unread = partOctets later' ++ rest' := by
        rw [show b3.unread = _ from tape3]
        exact List.append_cancel_left same
      rw [partOctets_cons, List.length_append, sameOctets] at total
      have sameLater := ih isLater (fun q isIn => complete q (List.mem_cons_of_mem p' isIn))
        (by omega) steady3 tape3 tape3'
      rw [sameLater]
      congr 1
      cases p
      cases p'
      simp only [SetPart.mk.injEq]
      exact ⟨samePlace.symm, sameOctets⟩

end Esnacc.Cxx
