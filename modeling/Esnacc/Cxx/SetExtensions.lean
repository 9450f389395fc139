import Esnacc.Cxx.Conforming
import Esnacc.Cxx.SeqExtensions

/-! What becomes of unknown elements in a SET with an extension marker. -/

namespace Esnacc.Cxx

open Lib

variable {β : Type}

/-- An element of the contents of a SET: a component, or an element that no component stands for. -/
inductive SetItem where
  | known (p : SetPart)
  | unknown (u : List UInt8)

/-- The octets of an element. -/
def SetItem.octets : SetItem → List UInt8
  | .known p => p.octets
  | .unknown u => u

/-- The component that an element is for. -/
def SetItem.part? : SetItem → Option SetPart
  | .known p => some p
  | .unknown _ => none

/-- The octets of an element that no component stands for. -/
def SetItem.unknown? : SetItem → Option (List UInt8)
  | .known _ => none
  | .unknown u => some u

/-- The octets of elements, one after the other. -/
def itemOctets (items : List SetItem) : List UInt8 :=
  items.flatMap SetItem.octets

/-- An element is complete and for a component, or well-formed and unknown. -/
def SetItem.WellFormed (cls : SnaccClass β) (es : List (Elmt β)) : SetItem → Prop
  | .known p => ∃ e, es[p.place]? = some e ∧ e.Complete p.octets
  | .unknown u => UnknownElmt cls es u

/-- How many parts belong to components that are counted. -/
def countedHits (es : List (Elmt β)) (parts : List SetPart) : Nat :=
  parts.countP fun p => (es[p.place]?.map Elmt.counted).getD false

theorem countedHits_cons {es : List (Elmt β)} {p : SetPart} {e : Elmt β}
    (here : es[p.place]? = some e) (later : List SetPart) :
    countedHits es (p :: later) = countedHits es later + if e.counted then 1 else 0 := by
  simp [countedHits, List.countP_cons, here]

theorem itemOctets_cons (item : SetItem) (later : List SetItem) :
    itemOctets (item :: later) = item.octets ++ itemOctets later :=
  List.flatMap_cons

theorem SetItem.WellFormed.ne_nil {cls : SnaccClass β} {es : List (Elmt β)} {item : SetItem}
    (wellFormed : item.WellFormed cls es) : item.octets ≠ [] := by
  cases item with
  | known p =>
    obtain ⟨e, -, complete⟩ := wellFormed
    exact complete.ne_nil
  | unknown u =>
    obtain ⟨tag, tag1, l, len, c, rfl, isTag, -⟩ := wellFormed
    simp [SetItem.octets, isTag.ne_nil]

section

variable {cls : SnaccClass β} {es : List (Elmt β)} (components : cls.components = extended es)
include components

theorem caseOf_extended (tag1 : AsnTag) :
    caseOf cls.components tag1 = es.find? fun e => e.firstIds.contains tag1 := by
  rw [components, extended, caseOf, List.findSome?_append, ← caseOf, caseOf_eq_find?]
  exact Option.or_none

theorem extensible_extended : cls.extensible = true := by
  rw [SnaccClass.extensible, components, extended, List.any_append, Bool.or_eq_true]
  exact .inr rfl

variable (legal : LegalElmts es) (elmtLen0 : AsnLen)
include legal

/-- A component that is there is decoded in a turn of the loop. -/
theorem setTurn_known (apart : CasesApart es) {p : SetPart} {e : Elmt β}
    (here : es[p.place]? = some e) (complete : e.Complete p.octets) {n : AsnLen}
    (more : n < elmtLen0 ∨ elmtLen0 = INDEFINITE_LEN) {b : AsnBuf} (steady : b.Steady)
    (orderly : b.Orderly) {after : List UInt8} (tape : b.unread = p.octets ++ after)
    (turns : Nat) (x : SetDecoded β) :
    ∃ v b', b'.Steady ∧ b'.Orderly ∧ b'.unread = after ∧
      (cls.setElmts elmtLen0 (turns + 1) x n).run b =
        (cls.setElmts elmtLen0 turns (x.add e v) (asnTape.advance n p.octets.length)).run b' := by
  obtain ⟨tag, tag1, c, v, eq, isTag, begins, octets⟩ := complete
  have member := List.mem_of_getElem? here
  have found : caseOf cls.components tag1 = some e := by
    rw [caseOf_extended components, List.find?_eq_some_iff_getElem]
    obtain ⟨within, same⟩ := List.getElem?_eq_some_iff.1 here
    refine ⟨List.contains_iff_mem.2 begins, p.place, within, same, ?_⟩
    intro j earlier
    have other : tag1 ∉ es[j].firstIds := by
      intro has
      have there := List.getElem?_eq_getElem (Nat.lt_trans earlier within)
      exact absurd (apart j p.place _ e there here tag1 has begins) (Nat.ne_of_lt earlier)
    simpa using other
  have notEoc : tagIsEoc elmtLen0 tag1 = false := by
    rw [tagIsEoc, Bool.and_eq_false_iff, decide_eq_false_iff_not, decide_eq_false_iff_not]
    exact .inr fun eoc => legal.noEoc e member (eoc ▸ begins)
  rw [eq, List.append_assoc] at tape
  obtain ⟨readLoc, b1, located, steady1, same1⟩ :=
    getReadLoc_completes steady (by rw [tape]; simp [isTag.ne_nil])
  have orderly1 := keepsDeck_getReadLoc.orderly orderly located
  obtain ⟨b2, readTag, steady2, tape2⟩ :=
    bDecTag_recognises.accepts steady1 (same1.trans tape) isTag n
  have orderly2 := (keepsDeck_bDecTag n).orderly orderly1 readTag
  have reads := Elmt.decode_recognises cls.typeName (legal.whole e member) tag1
  obtain ⟨b3, decoded, steady3, tape3⟩ := reads.accepts steady2 tape2 octets.loose _
  have orderly3 := (e.keepsDeck_decode cls.typeName (legal.readsOn e member) tag1 _).orderly
    orderly2 decoded
  refine ⟨v.1, b3, steady3, orderly3, tape3, ?_⟩
  have both : (bDecLen (asnTape.advance n tag.length) >>= fun p =>
      cls.setCase readLoc tag1 p.1 p.2 x).run b2 =
        .ok (x.add e v.1, asnTape.advance n p.octets.length) b3 := by
    rw [setCase_some cls found, run_bind_of_ok decoded, asnTape.advance_add, eq,
      List.length_append]
    rfl
  rw [SnaccClass.setElmts, if_pos more, run_bind_of_ok located, run_bind_of_ok readTag]
  simp only [notEoc, Bool.false_eq_true, if_false]
  obtain ⟨⟨len, n2⟩, b4, readLen, inCase⟩ := run_bind_eq_ok.1 both
  rw [run_bind_of_ok readLen, run_bind_of_ok inCase]

omit legal in
/-- An unknown element is read a second time, and its tag and length are counted twice. -/
theorem setTurn_unknown (readsAny : cls.ReadsAny) {u : List UInt8}
    (unknown : UnknownElmt cls es u) {n : AsnLen}
    (more : n < elmtLen0 ∨ elmtLen0 = INDEFINITE_LEN) {b : AsnBuf} (steady : b.Steady)
    (orderly : b.Orderly) {after : List UInt8} (tape : b.unread = u ++ after)
    (turns : Nat) (x : SetDecoded β) :
    ∃ header b' x', 0 < header ∧ header ≤ u.length ∧ b'.Steady ∧ b'.Orderly ∧ b'.unread = after ∧
      (cls.setElmts elmtLen0 (turns + 1) x n).run b =
        (cls.setElmts elmtLen0 turns x' (asnTape.advance n (header + u.length))).run b' := by
  obtain ⟨tag, tag1, l, len, c, eq, isTag, isLen, notEoc, other, word⟩ := unknown
  have found : caseOf cls.components tag1 = none := by
    rw [caseOf_extended components, List.find?_eq_none]
    intro e isIn has
    exact other e isIn (List.contains_iff_mem.1 has)
  have notEoc' : tagIsEoc elmtLen0 tag1 = false := by
    rw [tagIsEoc, Bool.and_eq_false_iff, decide_eq_false_iff_not, decide_eq_false_iff_not]
    exact .inr notEoc
  have tape' : b.unread = tag ++ (l ++ (c ++ after)) := by
    rw [tape, eq]
    simp only [List.append_assoc]
  obtain ⟨readLoc, b1, located, steady1, same1⟩ :=
    getReadLoc_completes steady (by rw [tape']; simp [isTag.ne_nil])
  obtain ⟨b2, readTag, steady2, tape2⟩ :=
    bDecTag_recognises.accepts steady1 (same1.trans tape') isTag n
  obtain ⟨b3, readLen, steady3, tape3⟩ := bDecLen_recognises.accepts steady2 tape2 isLen
    (asnTape.advance n tag.length)
  obtain ⟨b4, back, steady4, orderly4, same4⟩ :=
    setReadLoc_header steady orderly located readTag readLen
  obtain ⟨b5, grabbed, steady5, tape5⟩ := word.2 b4 after steady4 (same4.trans tape)
    (asnTape.advance (asnTape.advance n tag.length) l.length)
  have orderly5 := (readsAny.readsOn _).orderly orderly4 grabbed
  have tags := List.length_pos_iff.2 isTag.ne_nil
  refine ⟨tag.length + l.length, b5,
    { x with decoded := { x.decoded with extList := x.decoded.extList ++ [u] } }, by omega, ?_,
    steady5, orderly5, tape5, ?_⟩
  · rw [eq, List.length_append, List.length_append]
    omega
  · rw [SnaccClass.setElmts, if_pos more, run_bind_of_ok located, run_bind_of_ok readTag]
    simp only [notEoc', Bool.false_eq_true, if_false]
    rw [run_bind_of_ok readLen]
    have inCase : (cls.setCase readLoc tag1 len (asnTape.advance (asnTape.advance n tag.length)
        l.length) x).run b3 = .ok ({ x with decoded :=
          { x.decoded with extList := x.decoded.extList ++ [u] } },
          asnTape.advance n (tag.length + l.length + u.length)) b5 := by
      unfold SnaccClass.setCase
      simp only [found, extensible_extended components, if_true]
      rw [run_bind_of_ok back, run_bind_of_ok grabbed, asnTape.advance_add, asnTape.advance_add,
        Nat.add_assoc]
      rfl
    rw [run_bind_of_ok inCase]

/-- What stands behind the elements of a SET: nothing where its length says so, otherwise the end of
contents. -/
def SetEnds (elmtLen0 : AsnLen) (ends : List UInt8) : Prop :=
  elmtLen0 ≠ INDEFINITE_LEN ∧ ends = [] ∨ elmtLen0 = INDEFINITE_LEN ∧ ends = [0, 0]

variable (cls) in
omit components legal in
/-- The end of a SET is found behind its last element. -/
theorem setElmts_end {ends : List UInt8} (isEnd : SetEnds elmtLen0 ends) {n : AsnLen}
    (reached : elmtLen0 ≠ INDEFINITE_LEN → ¬ n < elmtLen0) {b : AsnBuf} (steady : b.Steady)
    {rest : List UInt8} (tape : b.unread = ends ++ rest) (turns : Nat) (x : SetDecoded β) :
    ∃ b', (cls.setElmts elmtLen0 (turns + 1) x n).run b =
      .ok (x, asnTape.advance n ends.length) b' ∧ b'.unread = rest := by
  rcases isEnd with ⟨definite, rfl⟩ | ⟨indefinite, rfl⟩
  · have ended : ¬ (n < elmtLen0 ∨ elmtLen0 = INDEFINITE_LEN) := by
      rintro (more | indefinite)
      · exact reached definite more
      · exact definite indefinite
    refine ⟨b, ?_, tape⟩
    rw [SnaccClass.setElmts, if_neg ended, List.length_nil, asnTape.advance_zero]
    rfl
  · have tape' : b.unread = [0] ++ 0 :: rest := tape
    have isTag : TagOctets [0] EOC_TAG_ID := ⟨.inl ⟨0, rfl, by decide⟩, by decide, rfl⟩
    have eoc : tagIsEoc elmtLen0 EOC_TAG_ID = true := by
      rw [tagIsEoc, indefinite]
      rfl
    obtain ⟨readLoc, b1, located, steady1, same1⟩ :=
      getReadLoc_completes steady (by rw [tape']; simp)
    obtain ⟨b2, tagged, steady2, left⟩ :=
      bDecTag_recognises.accepts steady1 (same1.trans tape') isTag n
    obtain ⟨b', ended, -, left'⟩ := bDec2ndEocOctet_completes steady2 left (asnTape.advance n 1)
    refine ⟨b', ?_, left'⟩
    rw [SnaccClass.setElmts, if_pos (.inr indefinite), run_bind_of_ok located,
      run_bind_of_ok tagged]
    simp only [eoc, if_true]
    rw [List.length_singleton, run_bind_of_ok ended, asnTape.advance_add]
    rfl

/-- Where a completed run over elements stops at their end, each unknown one adds to the count the
octets of its tag and length once more. -/
theorem setElmts_overcounts (apart : CasesApart es) (readsAny : cls.ReadsAny) {ends : List UInt8}
    (isEnd : SetEnds elmtLen0 ends) {items : List SetItem}
    (wellFormed : ∀ item ∈ items, item.WellFormed cls es) {n m : AsnLen} {b b' : AsnBuf}
    {turns : Nat} {x y : SetDecoded β} {rest : List UInt8} (steady : b.Steady) (orderly : b.Orderly)
    (tape : b.unread = itemOctets items ++ (ends ++ rest)) {done : Nat} (past : done ≤ n.toNat)
    (small : n.toNat + 2 * (itemOctets items).length + ends.length < 2 ^ 64)
    (length : elmtLen0 ≠ INDEFINITE_LEN → elmtLen0.toNat = done + (itemOctets items).length)
    (ran : (cls.setElmts elmtLen0 turns x n).run b = .ok (y, m) b') (left : b'.unread = rest) :
    n.toNat + (itemOctets items).length + ends.length ≤ m.toNat ∧
      (items.filterMap SetItem.unknown? ≠ [] →
        n.toNat + (itemOctets items).length + ends.length < m.toNat) := by
  -- The induction is on the elements.
  induction items generalizing turns x n b done with
  | nil =>
    cases turns with
    | zero => cases ran
    | succ turns =>
      have reached : elmtLen0 ≠ INDEFINITE_LEN → ¬ n < elmtLen0 := by
        intro definite more
        have all : elmtLen0.toNat = done + 0 := length definite
        rw [UInt64.lt_iff_toNat_lt] at more
        omega
      obtain ⟨b'', ended, -⟩ := setElmts_end cls elmtLen0 isEnd reached steady tape turns x
      rw [ended] at ran
      cases ran
      have none : (itemOctets []).length = 0 := rfl
      rw [none] at small ⊢
      rw [toNat_advance (by omega)]
      exact ⟨Nat.le_refl _, fun some => absurd rfl some⟩
  | cons item later ih =>
    cases turns with
    | zero => cases ran
    | succ turns =>
      have here := wellFormed item List.mem_cons_self
      have behind := fun other isIn => wellFormed other (List.mem_cons_of_mem item isIn)
      have some := List.length_pos_iff.2 here.ne_nil
      rw [itemOctets_cons, List.append_assoc] at tape
      rw [itemOctets_cons, List.length_append] at small length ⊢
      by_cases more : n < elmtLen0 ∨ elmtLen0 = INDEFINITE_LEN
      · cases item with
        | known p =>
          obtain ⟨e, place, complete⟩ := here
          obtain ⟨v, b1, steady1, orderly1, tape1, turn⟩ := setTurn_known components legal elmtLen0
            apart place complete more steady orderly tape turns x
          rw [turn] at ran
          have count := toNat_advance (n := n) (k := p.octets.length) (by
            simp only [SetItem.octets] at small
            omega)
          simp only [SetItem.octets] at small length some ⊢
          have past1 : done + p.octets.length ≤
              (asnTape.advance n p.octets.length).toNat := by omega
          have next := ih behind steady1 orderly1 tape1 past1 (by omega)
            (fun definite => by have all := length definite; omega) ran
          rw [count] at next
          have same : (SetItem.known p :: later).filterMap SetItem.unknown? =
              later.filterMap SetItem.unknown? := rfl
          rw [same]
          refine ⟨by omega, fun unknown => ?_⟩
          have added := next.2 unknown
          omega
        | unknown u =>
          obtain ⟨header, b1, x', added, within, steady1, orderly1, tape1, turn⟩ := setTurn_unknown
            components elmtLen0 readsAny here more steady orderly tape turns x
          rw [turn] at ran
          simp only [SetItem.octets] at small length some ⊢
          have count := toNat_advance (n := n) (k := header + u.length) (by omega)
          have past1 : done + u.length ≤
              (asnTape.advance n (header + u.length)).toNat := by omega
          have next := ih behind steady1 orderly1 tape1 past1 (by omega)
            (fun definite => by have all := length definite; omega) ran
          rw [count] at next
          exact ⟨by omega, fun _ => by omega⟩
      · -- The loop has ended, and octets are left.
        rw [SnaccClass.setElmts, if_neg more] at ran
        cases ran
        have lengths := congrArg List.length (left.symm.trans tape)
        simp only [List.length_append] at lengths
        omega

/-- Components alone are decoded one after the other. -/
theorem setElmts_parts (apart : CasesApart es) {ends : List UInt8} (isEnd : SetEnds elmtLen0 ends)
    {parts : List SetPart}
    (complete : ∀ p ∈ parts, ∃ e, es[p.place]? = some e ∧ e.Complete p.octets) {n : AsnLen}
    {b : AsnBuf} {rest : List UInt8} (steady : b.Steady) (orderly : b.Orderly)
    (tape : b.unread = partOctets parts ++ (ends ++ rest))
    (small : n.toNat + (partOctets parts).length + ends.length < 2 ^ 64)
    (length : elmtLen0 ≠ INDEFINITE_LEN →
      elmtLen0.toNat = n.toNat + (partOctets parts).length) (x : SetDecoded β) :
    ∃ y b', (cls.setElmts elmtLen0 (parts.length + 1) x n).run b =
        .ok (y, asnTape.advance n (partOctets parts ++ ends).length) b' ∧ b'.unread = rest ∧
      y.decoded.extList = x.decoded.extList ∧ y.mandatoryElmtsDecoded =
        x.mandatoryElmtsDecoded + UInt32.ofNat (countedHits es parts) := by
  -- The induction is on the parts.
  induction parts generalizing n b x with
  | nil =>
    have reached : elmtLen0 ≠ INDEFINITE_LEN → ¬ n < elmtLen0 := by
      intro definite more
      have all : elmtLen0.toNat = n.toNat + 0 := length definite
      rw [UInt64.lt_iff_toNat_lt] at more
      omega
    obtain ⟨b', ended, left⟩ := setElmts_end cls elmtLen0 isEnd reached steady tape 0 x
    exact ⟨x, b', ended, left, rfl, by simp [countedHits]⟩
  | cons p later ih =>
    obtain ⟨e, here, isComplete⟩ := complete p List.mem_cons_self
    have some := List.length_pos_iff.2 isComplete.ne_nil
    rw [partOctets_cons, List.append_assoc] at tape
    rw [partOctets_cons, List.length_append] at small length
    have more : n < elmtLen0 ∨ elmtLen0 = INDEFINITE_LEN := by
      by_cases indefinite : elmtLen0 = INDEFINITE_LEN
      · exact .inr indefinite
      · have all := length indefinite
        exact .inl (UInt64.lt_iff_toNat_lt.2 (by omega))
    obtain ⟨v, b1, steady1, orderly1, tape1, turn⟩ := setTurn_known components legal elmtLen0
      apart here isComplete more steady orderly tape (later.length + 1) x
    have count := toNat_advance (n := n) (k := p.octets.length) (by omega)
    have room : (asnTape.advance n p.octets.length).toNat + (partOctets later).length +
        ends.length < 2 ^ 64 := by omega
    obtain ⟨y, b', ran, left, same, hits⟩ := ih
      (fun q isIn => complete q (List.mem_cons_of_mem p isIn)) steady1 orderly1 tape1 room
      (fun definite => by have all := length definite; omega) (x.add e v)
    refine ⟨y, b', ?_, left, same, ?_⟩
    · rw [List.length_cons, turn, ran, asnTape.advance_add, partOctets_cons, List.append_assoc,
        ← List.length_append]
    · rw [hits, countedHits_cons here, SetDecoded.add, UInt32.add_assoc, Nat.add_comm,
        UInt32.ofNat_add]
      cases e.counted <;> rfl

end

/-! ## Mandatory components -/

/-- The place is that of a component that is counted. -/
def countedAt (es : List (Elmt β)) (i : Nat) : Bool :=
  (es[i]?.map Elmt.counted).getD false

theorem countP_counted_eq_range (es : List (Elmt β)) :
    es.countP Elmt.counted = (List.range es.length).countP (countedAt es) := by
  induction es with
  | nil => rfl
  | cons e rest ih =>
    rw [List.countP_cons, List.length_cons, List.range_succ_eq_map, List.countP_cons,
      List.countP_map, ih]
    rfl

/-- Where each mandatory component is there once, they are counted as they are in the type. -/
theorem countedHits_enough {es : List (Elmt β)} {parts : List SetPart}
    (once : (parts.map SetPart.place).Nodup)
    (places : ∀ p ∈ parts, ∃ e, es[p.place]? = some e)
    (all : ∀ (i : Nat) (e : Elmt β), es[i]? = some e → e.mandatory → i ∈ parts.map SetPart.place) :
    es.countP Elmt.counted ≤ countedHits es parts ∧ countedHits es parts ≤ es.length := by
  have range : (parts.map SetPart.place) ⊆ List.range es.length := by
    intro i isIn
    obtain ⟨p, listed, rfl⟩ := List.mem_map.1 isIn
    obtain ⟨e, here⟩ := places p listed
    exact List.mem_range.2 (List.getElem?_eq_some_iff.1 here).1
  constructor
  · -- Every counted place of the type is one that was met.
    have among : (List.range es.length).filter (countedAt es) ⊆
        (parts.map SetPart.place).filter (countedAt es) := by
      intro i isIn
      obtain ⟨within, isCounted⟩ := List.mem_filter.1 isIn
      refine List.mem_filter.2 ⟨?_, isCounted⟩
      have inside := List.mem_range.1 within
      have here := List.getElem?_eq_getElem inside
      rw [countedAt, here] at isCounted
      have counted : es[i].counted = true := isCounted
      rw [Elmt.counted, Bool.and_eq_true] at counted
      exact all i _ here counted.1
    have fewer := (List.subperm_of_subset (List.nodup_range.filter _) among).length_le
    rw [← List.countP_eq_length_filter, ← List.countP_eq_length_filter, List.countP_map,
      ← countP_counted_eq_range] at fewer
    exact fewer
  · -- No place is met twice.
    have fewer := (List.subperm_of_subset once range).length_le
    rw [List.length_map, List.length_range] at fewer
    exact Nat.le_trans List.countP_le_length fewer

/-! ## Whole contents -/

/-- Elements of a SET that its definition allows, with unknown ones among them. -/
structure SetContents (cls : SnaccClass β) (es : List (Elmt β)) (items : List SetItem) : Prop where
  wellFormed : ∀ item ∈ items, item.WellFormed cls es
  once : ((items.filterMap SetItem.part?).map SetPart.place).Nodup
  mandatory : ∀ (i : Nat) (e : Elmt β), es[i]? = some e → e.mandatory →
    i ∈ (items.filterMap SetItem.part?).map SetPart.place

theorem itemOctets_of_known {items : List SetItem}
    (known : items.filterMap SetItem.unknown? = []) :
    itemOctets items = partOctets (items.filterMap SetItem.part?) := by
  induction items with
  | nil => rfl
  | cons item later ih =>
    cases item with
    | known p =>
      have rest : later.filterMap SetItem.unknown? = [] := known
      rw [itemOctets_cons, ih rest]
      rfl
    | unknown u => cases known

theorem setEnds_of_framed {elmtLen0 : AsnLen} {w all : List UInt8} (framed : Framed elmtLen0 w all) :
    ∃ ends, SetEnds elmtLen0 ends ∧ all = w ++ ends ∧
      (elmtLen0 ≠ INDEFINITE_LEN → elmtLen0.toNat = w.length) := by
  rcases framed with ⟨definite, length, rfl⟩ | ⟨indefinite, rfl⟩
  · exact ⟨[], .inl ⟨definite, rfl⟩, (List.append_nil _).symm, fun _ => length⟩
  · exact ⟨[0, 0], .inr ⟨indefinite, rfl⟩, rfl, fun definite => absurd indefinite definite⟩

section

variable {cls : SnaccClass β} {es : List (Elmt β)} (components : cls.components = extended es)
  (legal : LegalElmts es) (apart : CasesApart es) {elmtLen0 : AsnLen}
include components legal apart

omit components legal apart in
theorem mandatoryElmtCount_extended (es : List (Elmt β)) :
    mandatoryElmtCount (extended es) = es.countP Elmt.counted := by
  rw [mandatoryElmtCount, extended, List.countP_append, List.countP_map]
  rfl

omit legal apart in
theorem bDecSetContent_extended (turns : Nat) (bytesDecoded : AsnLen) :
    cls.bDecSetContent elmtLen0 turns bytesDecoded = (getReadLoc >>= fun _ =>
      cls.setElmts elmtLen0 turns {} 0 >>= fun p =>
        if p.1.mandatoryElmtsDecoded.toNat < mandatoryElmtCount cls.components then
          throw (decodeError "non-optional SET element missing")
        else pure (p.1.decoded, bytesDecoded + p.2)) := by
  have notEmpty : cls.components.isEmpty = false := by
    rw [components, extended]
    cases es <;> rfl
  rw [SnaccClass.bDecSetContent, notEmpty]
  rfl

/-- A SET without unknown elements is taken as it is. -/
theorem set_keepsUnknown_none {items : List SetItem} (contents : SetContents cls es items)
    (known : items.filterMap SetItem.unknown? = []) (few : es.length < 2 ^ 32) {b : AsnBuf}
    (steady : b.Steady) (orderly : b.Orderly) (current : b.ahead ≠ []) {all rest : List UInt8}
    (tape : b.unread = all ++ rest) (framed : Framed elmtLen0 (itemOctets items) all) :
    KeepsUnknown (fun turns => cls.bDecSetContent elmtLen0 turns) b all rest [] := by
  intro bytesDecoded
  obtain ⟨ends, isEnd, rfl, length⟩ := setEnds_of_framed framed
  have fits := steady.sound.fits
  rw [itemOctets_of_known known] at tape length ⊢
  rw [tape, List.length_append, List.length_append] at fits
  -- Every element is one of a component.
  have complete : ∀ p ∈ items.filterMap SetItem.part?,
      ∃ e, es[p.place]? = some e ∧ e.Complete p.octets := by
    intro p isIn
    obtain ⟨item, listed, eq⟩ := List.mem_filterMap.1 isIn
    cases item with
    | known q =>
      cases eq
      exact contents.wellFormed _ listed
    | unknown u => cases eq
  have places : ∀ p ∈ items.filterMap SetItem.part?, ∃ e, es[p.place]? = some e := by
    intro p isIn
    obtain ⟨e, here, -⟩ := complete p isIn
    exact ⟨e, here⟩
  obtain ⟨c, behind, ahead⟩ := List.exists_cons_of_ne_nil current
  obtain ⟨b1, located, steady1, same1⟩ :=
    (getReadLoc_acts steady.sound ahead).completes keepsDeck_getReadLoc steady (Nat.le_refl _)
  have orderly1 := keepsDeck_getReadLoc.orderly orderly located
  have tape1 : b1.unread = partOctets (items.filterMap SetItem.part?) ++ (ends ++ rest) := by
    rw [same1, tape, List.append_assoc]
  obtain ⟨y, b', ran, left, none, hits⟩ := setElmts_parts components legal elmtLen0 apart isEnd
    complete steady1 orderly1 tape1 (by rw [UInt64.toNat_zero]; omega)
    (fun definite => by rw [length definite, UInt64.toNat_zero, Nat.zero_add]) ({} : SetDecoded β)
  obtain ⟨enough, notMany⟩ := countedHits_enough contents.once places contents.mandatory
  have all : ¬ y.mandatoryElmtsDecoded.toNat < mandatoryElmtCount cls.components := by
    rw [hits, UInt32.zero_add, UInt32.toNat_ofNat', Nat.mod_eq_of_lt (by omega), components,
      mandatoryElmtCount_extended]
    exact Nat.not_lt_of_le enough
  refine ⟨(items.filterMap SetItem.part?).length + 1, y.decoded, b', ?_, left, none⟩
  dsimp only
  rw [bDecSetContent_extended components, run_bind_of_ok located, run_bind_of_ok ran, if_neg all]
  have count : asnTape.advance 0 (partOctets (items.filterMap SetItem.part?) ++ ends).length =
      UInt64.ofNat (partOctets (items.filterMap SetItem.part?) ++ ends).length :=
    UInt64.zero_add _
  rw [count]
  rfl

/-- Unknown elements of a SET are counted with their tags and lengths twice. -/
theorem set_not_keepsUnknown (readsAny : cls.ReadsAny) {items : List SetItem}
    (contents : SetContents cls es items) {b : AsnBuf} (steady : b.Steady) (orderly : b.Orderly)
    {all rest : List UInt8} (tape : b.unread = all ++ rest)
    (framed : Framed elmtLen0 (itemOctets items) all)
    (some : items.filterMap SetItem.unknown? ≠ []) :
    ¬ KeepsUnknown (fun turns => cls.bDecSetContent elmtLen0 turns) b all rest
      (items.filterMap SetItem.unknown?) := by
  intro keeps
  obtain ⟨turns, r, b', ran, left, -⟩ := keeps 0
  obtain ⟨ends, isEnd, rfl, length⟩ := setEnds_of_framed framed
  have fits := steady.sound.fits
  rw [tape, List.length_append, List.length_append] at fits
  dsimp only at ran
  rw [bDecSetContent_extended components] at ran
  obtain ⟨readLoc, b1, located, ran⟩ := run_bind_eq_ok.1 ran
  obtain ⟨steady1, same1⟩ := getReadLoc_sound steady located
  have orderly1 := keepsDeck_getReadLoc.orderly orderly located
  obtain ⟨⟨x, m⟩, b2, ranElmts, ran⟩ := run_bind_eq_ok.1 ran
  by_cases missing : x.mandatoryElmtsDecoded.toNat < mandatoryElmtCount cls.components
  · rw [if_pos missing] at ran
    cases ran
  · rw [if_neg missing] at ran
    obtain ⟨rfl, same⟩ := run_pure_eq_ok.1 ran
    obtain ⟨-, count⟩ := Prod.mk.inj same
    have tape1 : b1.unread = itemOctets items ++ (ends ++ rest) := by
      rw [same1, tape, List.append_assoc]
    have past : 0 ≤ (0 : AsnLen).toNat := Nat.zero_le _
    obtain ⟨-, overcounts⟩ := setElmts_overcounts components legal elmtLen0 apart readsAny isEnd
      contents.wellFormed steady1 orderly1 tape1 past (by rw [UInt64.toNat_zero]; omega)
      (fun definite => by rw [length definite, Nat.zero_add]) ranElmts left
    have wrong := overcounts some
    rw [UInt64.toNat_zero, Nat.zero_add] at wrong
    have total : m.toNat = (itemOctets items ++ ends).length := by
      rw [UInt64.zero_add, UInt64.zero_add] at count
      change UInt64.ofNat _ = m at count
      rw [← count, UInt64.toNat_ofNat_of_lt']
      rw [UInt64.size, List.length_append]
      omega
    rw [total, List.length_append] at wrong
    omega

end

end Esnacc.Cxx
