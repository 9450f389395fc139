import Esnacc.Cxx.GenAccepts
import Esnacc.Cxx.GenSeqEnc

/-! Octet and bit strings that contain values, in the C++ code that is printed for a SEQUENCE. -/

namespace Esnacc.Cxx

open Lib

variable {β : Type}

/-! ## What is asked of them -/

/-- The octets behind a tag and length of a component, with the length behind its last tag and what
stands there. -/
def InnerParts (decoder : ElmtDecoder β) :
    List (Option ElmtTag) → AsnTag → AsnLen → List UInt8 → β × AsnTag → AsnLen × List UInt8 → Prop
  | [], tag1, len, w, x, s => decoder.Octets false tag1 len w x.1 ∧ x.2 = tag1 ∧ s = (len, w)
  | t :: rest, _, len, w, x, s => ∃ tag tag1 l innerLen c e, w = tag ++ (l ++ (c ++ e)) ∧
      TagOctets tag tag1 ∧ takesTag t tag1 ∧ LenOctets l innerLen ∧
      InnerParts decoder rest tag1 innerLen c x s ∧ CloseOctets len e ()

/-- The octets behind the first tag of a component. -/
def Elmt.Parts (e : Elmt β) (tag1 : AsnTag) (w : List UInt8) (s : AsnLen × List UInt8) : Prop :=
  ∃ l len c x, w = l ++ c ∧ LenOctets l len ∧ InnerParts e.decoder e.innerTags tag1 len c x s

/-- The octets of components behind a tag that was read for the first of them, with the part of each
component that was found. -/
def TailParts : List (Elmt β) → AsnTag → List UInt8 → List (Elmt β × AsnLen × List UInt8) → Prop
  | [], _, w, parts => w = [] ∧ parts = []
  | e :: rest, tag1, w, parts =>
    if tag1 ∈ e.firstIds then
      ∃ c d s more, w = c ++ d ∧ e.Parts tag1 c s ∧ parts = (e, s) :: more ∧
        (d = [] ∧ more = [] ∧ allOptional rest ∨ rest ≠ [] ∧ ∃ tag d' tag1, d = tag ++ d' ∧
          TagOctets tag tag1 ∧ TailParts rest tag1 d' more)
    else e.mandatory = false ∧ TailParts rest tag1 w parts

/-- The octets of components that are read one after the other. -/
def SeqParts (es : List (Elmt β)) (w : List UInt8) (parts : List (Elmt β × AsnLen × List UInt8)) :
    Prop :=
  w = [] ∧ parts = [] ∨ ∃ tag d tag1, w = tag ++ d ∧ TagOctets tag tag1 ∧ TailParts es tag1 d parts

/-- The component is a string that contains a value. -/
def Elmt.containing (e : Elmt β) : Bool :=
  match e.decoder with
  | .octetContaining _ | .bitContaining _ => true
  | _ => false

/-- What is read for a SEQUENCE is what was to be encoded, and is counted exactly. -/
def DecodesBack (cls : SnaccClass β) (members : List (Member β)) (w : List UInt8) : Prop :=
  ∀ b rest, b.Steady → b.unread = w ++ rest → ∀ turns bytesDecoded, ∃ b',
    (cls.bDecSeqContent turns (.ofNat w.length) bytesDecoded).run b =
      .ok (⟨encodedFields members, []⟩, bytesDecoded + .ofNat w.length) b' ∧
    b'.Steady ∧ b'.unread = rest

/-- The lengths of all components of an object fit their octets. -/
def MembersFit (members : List (Member β)) : Prop :=
  ∀ m ∈ members, ∀ v ∈ m.1.encoded m.2, ∀ c, m.1.Codes v c →
    WrapFits m.1.isShort m.1.encTags (m.1.contents c)

/-- Objects are encoded with strings of the lengths of their contents and decoded to what they were,
and what is decoded has such strings. -/
structure ContainsExactly (cls : SnaccClass β) (es : List (EncElmt β)) : Prop where
  encodes : ∀ members w, members.map Prod.fst = es → (∀ m ∈ members, m.1.mandatory → m.2.isSome) →
    ContentsOctets members w → MembersFit members →
    Prepends (bEncSeqContent members) w ∧ DecodesBack cls members w
  lengths : ∀ b turns elmtLen0 bytesDecoded r b', b.Steady →
    (cls.bDecSeqContent turns elmtLen0 bytesDecoded).run b = .ok r b' →
    ∀ w rest parts, b.unread = w ++ rest → w.length = elmtLen0.toNat →
      SeqParts (es.map EncElmt.toElmt) w parts →
      ∀ p ∈ parts, p.1.containing → p.2.1 = .ofNat p.2.2.length

/-- An object whose members are all encoded, in octets that fit four octets of length. -/
structure FullObject (es : List (EncElmt β)) (members : List (Member β)) (w : List UInt8) :
    Prop where
  all : members.map Prod.fst = es
  encoded : ∀ m ∈ members, (m.1.encoded m.2).isSome
  octets : ContentsOctets members w
  fits : MembersFit members
  small : w.length < 2 ^ 31

/-! ## Bit strings are never decoded -/

theorem bDecInner_bitContaining {typeName : String} {bDec : AsnLen → BufM (β × AsnLen)}
    {tags : List (Option ElmtTag)} {tag1 : AsnTag} {len n : AsnLen} {b b' : AsnBuf}
    {r : (β × AsnTag) × AsnLen} :
    (bDecInner typeName (.bitContaining bDec) tags tag1 len n).run b ≠ .ok r b' := by
  intro ran
  induction tags generalizing tag1 len n b r b' with
  | nil =>
    obtain ⟨p, mid, decoded, -⟩ := run_bind_eq_ok.1 ran
    change (getByte >>= fun _ => throw _).run b = _ at decoded
    obtain ⟨c, mid, -, threw⟩ := run_bind_eq_ok.1 decoded
    cases threw
  | cons t rest ih =>
    rw [bDecInner] at ran
    obtain ⟨⟨tag, n⟩, mid, -, ran⟩ := run_bind_eq_ok.1 ran
    by_cases taken : takesTag t tag
    · simp only [if_pos taken] at ran
      obtain ⟨⟨innerLen, n⟩, mid, -, ran⟩ := run_bind_eq_ok.1 ran
      obtain ⟨x, mid, decoded, -⟩ := run_bind_eq_ok.1 ran
      exact ih decoded
    · simp only [if_neg taken] at ran
      cases ran

/-- The component can be decoded. -/
def Elmt.decodable (e : Elmt β) : Bool :=
  match e.decoder with
  | .bitContaining _ => false
  | _ => true

theorem Elmt.decodable_of_decode {typeName : String} {e : Elmt β} {tag1 : AsnTag} {n : AsnLen}
    {b b' : AsnBuf} {r : (β × AsnTag) × AsnLen} (ran : (e.decode typeName tag1 n).run b = .ok r b') :
    e.decodable := by
  rw [Elmt.decode] at ran
  obtain ⟨⟨len, n⟩, mid, -, ran⟩ := run_bind_eq_ok.1 ran
  unfold Elmt.decodable
  cases decoder : e.decoder with
  | bitContaining bDec =>
    rw [decoder] at ran
    exact absurd ran bDecInner_bitContaining
  | _ => rfl

section

variable {cls : SnaccClass β} {es : List (Elmt β)} (components : cls.components = es.map .elmt)
  {turns : Nat} {elmtLen0 bytesDecoded n : AsnLen} {b b' : AsnBuf} {r : Decoded β × AsnLen}
include components

theorem seqEnd_fields {fields : List (String × β)}
    (ran : (cls.seqEnd turns elmtLen0 bytesDecoded n fields).run b = .ok r b') :
    r.1.fields = fields := by
  unfold SnaccClass.seqEnd at ran
  simp only [extensible_elmts components, Bool.false_eq_true, if_false] at ran
  by_cases indefinite : elmtLen0 = INDEFINITE_LEN
  · simp only [if_pos indefinite] at ran
    obtain ⟨k, mid, -, ran⟩ := run_bind_eq_ok.1 ran
    cases ran
    rfl
  · simp only [if_neg indefinite] at ran
    by_cases more : n ≠ elmtLen0
    · rw [if_pos more] at ran
      cases ran
    · rw [if_neg more] at ran
      cases ran
      rfl

/-- Every field that is set is that of a component that can be decoded. -/
theorem seqElmts_fields_le {ds : List (Elmt β)} {tag1 : AsnTag} {fields : List (String × β)}
    (ran : (cls.seqElmts turns elmtLen0 bytesDecoded (ds.map .elmt) tag1 n fields).run b =
      .ok r b') : r.1.fields.length ≤ fields.length + ds.countP Elmt.decodable := by
  induction ds generalizing tag1 n fields b with
  | nil =>
    rw [seqEnd_fields components ran]
    exact Nat.le_add_right _ _
  | cons e rest ih =>
    rw [List.map_cons, SnaccClass.seqElmts] at ran
    rw [List.countP_cons]
    by_cases begins : e.firstIds.contains tag1
    · simp only [if_pos begins] at ran
      obtain ⟨⟨⟨v, tag⟩, n⟩, mid, decoded, ran⟩ := run_bind_eq_ok.1 ran
      rw [if_pos (Elmt.decodable_of_decode decoded)]
      obtain ⟨⟨next, n⟩, mid, -, ran⟩ := run_bind_eq_ok.1 ran
      have one : (fields ++ [(e.fieldName, v)]).length = fields.length + 1 := by simp
      cases next with
      | some tag1 =>
        have later := ih ran
        rw [one] at later
        omega
      | none =>
        cases ran
        change (fields ++ [(e.fieldName, v)]).length ≤ _
        rw [one]
        omega
    · simp only [if_neg begins] at ran
      cases mandatory : e.mandatory with
      | true =>
        simp only [mandatory, if_true] at ran
        cases ran
      | false =>
        simp only [mandatory, Bool.false_eq_true, if_false] at ran
        have later := ih ran
        omega

theorem bDecSeqContent_fields_le
    (ran : (cls.bDecSeqContent turns elmtLen0 bytesDecoded).run b = .ok r b') :
    r.1.fields.length ≤ es.countP Elmt.decodable := by
  unfold SnaccClass.bDecSeqContent at ran
  have some : ∀ tag1 n b, (cls.seqElmts turns elmtLen0 bytesDecoded cls.components tag1 n []).run b =
      .ok r b' → r.1.fields.length ≤ es.countP Elmt.decodable := by
    intro tag1 n b ran
    rw [components] at ran
    have le := seqElmts_fields_le components ran
    rwa [List.length_nil, Nat.zero_add] at le
  have none : r.1.fields = [] → r.1.fields.length ≤ es.countP Elmt.decodable := by
    intro empty
    rw [empty]
    exact Nat.zero_le _
  by_cases empty : cls.components.isEmpty
  · simp only [if_pos empty] at ran
    by_cases indefinite : elmtLen0 = INDEFINITE_LEN
    · simp only [if_pos indefinite] at ran
      obtain ⟨k, mid, -, ran⟩ := run_bind_eq_ok.1 ran
      cases ran
      exact none rfl
    · by_cases octets : elmtLen0 ≠ 0
      · simp only [if_neg indefinite, if_pos octets] at ran
        cases ran
      · simp only [if_neg indefinite, if_neg octets] at ran
        cases ran
        exact none rfl
  · simp only [if_neg empty] at ran
    cases optional : isTailOptional cls.components with
    | false =>
      simp only [optional, Bool.not_false, if_true] at ran
      obtain ⟨⟨tag1, n⟩, mid, -, ran⟩ := run_bind_eq_ok.1 ran
      exact some _ _ _ ran
    | true =>
      simp only [optional, Bool.not_true, Bool.false_eq_true, if_false] at ran
      by_cases zero : elmtLen0 = 0
      · simp only [if_pos zero] at ran
        cases ran
        exact none rfl
      · simp only [if_neg zero] at ran
        obtain ⟨⟨tag1, n⟩, mid, -, ran⟩ := run_bind_eq_ok.1 ran
        cases ends : tagIsEoc elmtLen0 tag1 with
        | true =>
          simp only [ends, if_true] at ran
          obtain ⟨k, mid, -, ran⟩ := run_bind_eq_ok.1 ran
          cases ran
          exact none rfl
        | false =>
          simp only [ends, Bool.false_eq_true, if_false] at ran
          exact some _ _ _ ran

end

theorem length_encodedFields {members : List (Member β)}
    (encoded : ∀ m ∈ members, (m.1.encoded m.2).isSome) :
    (encodedFields members).length = members.length := by
  induction members with
  | nil => rfl
  | cons m rest ih =>
    have later := ih fun d isIn => encoded d (List.mem_cons_of_mem m isIn)
    obtain ⟨v, here⟩ := Option.isSome_iff_exists.1 (encoded m List.mem_cons_self)
    simp only [encodedFields, List.filterMap_cons, here, Option.map_some, List.length_cons] at later ⊢
    rw [later]

theorem exists_steady {w : List UInt8} (small : w.length < 2 ^ 31) :
    ∃ (b : AsnBuf) (rest : List UInt8), b.Steady ∧ b.unread = w ++ rest := by
  have ofSeg : ∀ seg : List UInt8, seg ≠ [] → seg.length < 2 ^ 31 → (AsnBuf.ofSeg seg).Steady :=
    fun seg some small => ⟨AsnBuf.ofSeg_sound some small, fun c listed => by cases listed⟩
  have unread : ∀ seg, (AsnBuf.ofSeg seg).unread = seg ++ [] := fun seg => by
    change (seg.drop 0 ++ []) = _
    rw [List.drop_zero]
  by_cases empty : w = []
  · exact ⟨.ofSeg [0], [0], ofSeg _ (by decide) (by decide), by rw [empty, unread]; rfl⟩
  · exact ⟨.ofSeg w, [], ofSeg w empty small, unread w⟩

/-! ## Octet strings are decoded with any length -/

/-- A small number is written in any number of length octets. -/
theorem exists_isLength {k : Nat} (some : 1 ≤ k) (few : k ≤ 9) {c : UInt8} (short : c < 0x80) :
    ∃ l, l.length = k ∧ IsLength l c.toNat := by
  rcases Nat.exists_eq_add_of_le' some with ⟨_ | m, rfl⟩
  · exact ⟨[c], rfl, isLength_short short⟩
  · have none : ∀ m, ofOctets (List.replicate m 0) = 0 := by
      intro m
      induction m with
      | zero => rfl
      | succ m ih => simpa [List.replicate_succ, ofOctets_cons] using ih
    have zeros : ofOctets (List.replicate m 0 ++ [c]) = c.toNat := by
      simp [ofOctets_append, none, ofOctets_cons]
    have first : (UInt8.ofNat (128 + (m + 1))).toNat = 128 + (m + 1) :=
      UInt8.toNat_ofNat_of_lt' (by rw [UInt8.size]; omega)
    refine ⟨.ofNat (128 + (m + 1)) :: (List.replicate m 0 ++ [c]), by simp, .inr
      ⟨_, _, rfl, ?_, ?_, ?_, zeros⟩⟩
    · rw [UInt8.lt_iff_toNat_lt, first]
      change 128 < _
      omega
    · rw [UInt8.lt_iff_toNat_lt, first]
      change _ < 255
      omega
    · rw [first]
      simp

theorem ElmtTag.length_lenOctets (t : ElmtTag) (isShort : Bool) (n : Nat) :
    1 ≤ (t.lenOctets isShort n).length ∧ (t.lenOctets isShort n).length ≤ 9 := by
  have le := length_defLenOctets_le (.ofNat n)
  unfold lenOctets
  split
  · simp
  · refine ⟨?_, by omega⟩
    unfold defLenOctets
    split_ifs <;> simp

theorem ElmtDecoder.Octets.loose {decoder : ElmtDecoder β} {strict : Bool} {tag1 : AsnTag}
    {len : AsnLen} {w : List UInt8} {v : β} (octets : decoder.Octets strict tag1 len w v) :
    decoder.Octets false tag1 len w v := by
  cases decoder with
  | octetContaining bDec => exact ⟨octets.1, nofun⟩
  | _ => exact octets

theorem InnerOctets.parts {strict : Bool} {decoder : ElmtDecoder β} {tags : List (Option ElmtTag)}
    {tag1 : AsnTag} {len : AsnLen} {w : List UInt8} {x : β × AsnTag}
    (inner : InnerOctets strict decoder tags tag1 len w x) :
    ∃ s, InnerParts decoder tags tag1 len w x s := by
  induction tags generalizing tag1 len w with
  | nil => exact ⟨(len, w), inner.1.loose, inner.2, rfl⟩
  | cons t rest ih =>
    obtain ⟨tag, tag1, l, innerLen, c, e, eq, isTag, taken, isLen, inner, -, closed⟩ := inner
    obtain ⟨s, parts⟩ := ih inner
    exact ⟨s, tag, tag1, l, innerLen, c, e, eq, isTag, taken, isLen, parts, closed⟩

/-- The octets behind a tag, with length octets that are chosen behind the last one. -/
def recut (isShort : Bool) (l : List UInt8) : ElmtTag → List ElmtTag → List UInt8 → List UInt8
  | _, [], c => l ++ c
  | t, s :: rest, c =>
    let inner := s.octets ++ recut isShort l s rest c
    t.lenOctets isShort inner.length ++ inner

section

variable {isShort : Bool} {l c : List UInt8}

/-- As many octets are wrapped around contents where the length behind the last tag is another one. -/
theorem length_recut {t : ElmtTag} {rest : List ElmtTag}
    (same : ∀ s ∈ (t :: rest).getLast?, l.length = (s.lenOctets isShort c.length).length) :
    t.octets.length + (recut isShort l t rest c).length =
      (wrap isShort (t :: rest) c).length := by
  induction rest generalizing t with
  | nil =>
    rw [recut, wrap, wrap, List.length_append, List.length_append, List.length_append,
      same t rfl]
  | cons s rest ih =>
    have later := @ih s (by rwa [List.getLast?_cons_cons] at same)
    rw [wrap, recut]
    simp only [List.length_append, later]

/-- Behind its first tag a string is read with the length that was chosen. -/
theorem innerParts_recut {decoder : ElmtDecoder β} {len : AsnLen} {v : β} {t : ElmtTag}
    {rest : List ElmtTag} (proper : ∀ s ∈ t :: rest, s.Proper)
    (fits : WrapFits isShort (t :: rest) c)
    (same : ∀ s ∈ (t :: rest).getLast?, l.length = (s.lenOctets isShort c.length).length)
    (isLen : LenOctets l len) (octets : ∀ tag1, decoder.Octets false tag1 len c v) :
    ∃ m outer d last, recut isShort l t rest c = m ++ d ∧ LenOctets m outer ∧
      InnerParts decoder (rest.map some) t.id outer d (v, last) (len, c) := by
  induction rest generalizing t with
  | nil => exact ⟨l, len, c, t.id, rfl, isLen, octets t.id, rfl, rfl⟩
  | cons s rest ih =>
    have later := @ih s (fun u isIn => proper u (List.mem_cons_of_mem t isIn)) fits.2
      (by rwa [List.getLast?_cons_cons] at same)
    obtain ⟨m, outer, d, last, eq, isOuter, parts⟩ := later
    have count : (s.octets ++ recut isShort l s rest c).length =
        (wrap isShort (s :: rest) c).length := by
      rw [List.length_append]
      exact length_recut (by rwa [List.getLast?_cons_cons] at same)
    have isTag := (proper s (List.mem_cons_of_mem t List.mem_cons_self)).octets_tag
    refine ⟨t.lenOctets isShort (s.octets ++ recut isShort l s rest c).length,
      .ofNat (s.octets ++ recut isShort l s rest c).length, s.octets ++ recut isShort l s rest c,
      last, rfl, ?_, s.octets, s.id, m, outer, d, [], ?_, isTag, ?_, isOuter, parts, ?_⟩
    · rw [count]
      exact fits.1.lenOctets
    · rw [eq, List.append_nil]
    · exact List.contains_iff_mem.2 s.id_mem
    · rw [CloseOctets, count, if_neg (ofNat_ne_indefiniteLen fits.1.lt)]

end

/-- An element of a component, with the length behind its last tag and what stands there. -/
def Elmt.PartAs (e : Elmt β) (w : List UInt8) (s : AsnLen × List UInt8) : Prop :=
  ∃ tag tag1 c, w = tag ++ c ∧ TagOctets tag tag1 ∧ tag1 ∈ e.firstIds ∧ e.Parts tag1 c s

/-- The component is a string of octets that contain a value. -/
def ElmtDecoder.isOctetContaining : ElmtDecoder β → Bool
  | .octetContaining _ => true
  | _ => false

theorem Elmt.CompleteAs.partAs {e : Elmt β} {w : List UInt8} {v : β} (complete : e.CompleteAs w v) :
    ∃ s, e.PartAs w s := by
  obtain ⟨tag, tag1, c, last, rfl, isTag, begins, l, len, d, rfl, isLen, inner, -⟩ := complete
  obtain ⟨s, parts⟩ := inner.parts
  exact ⟨s, tag, tag1, l ++ d, rfl, isTag, begins, l, len, d, _, rfl, isLen, parts⟩

/-- A component that can be decoded has an element with as many octets as it is to be encoded as, in
which the length of a string is not that of its contents. -/
theorem EncElmt.Codes.exists_part {e : EncElmt β} {v : β} {c : List UInt8} (codes : e.Codes v c)
    (wellTagged : e.WellTagged) (decodable : e.decodable)
    (fits : WrapFits e.isShort e.encTags c) :
    ∃ w s, e.PartAs w s ∧ w.length = (wrap e.isShort e.encTags c).length ∧
      (e.decoder.isOctetContaining → s.1 ≠ .ofNat s.2.length) := by
  have notBit : ∀ bDec, e.decoder ≠ .bitContaining bDec := by
    intro bDec bit
    simp [Elmt.decodable, bit] at decodable
  cases octet : e.decoder.isOctetContaining with
  | false =>
    obtain ⟨s, part⟩ := (codes.completeAs wellTagged notBit fits).partAs
    exact ⟨_, s, part, rfl, (fun no => by cases no)⟩
  | true =>
    obtain ⟨bDec, decoder⟩ : ∃ bDec, e.decoder = .octetContaining bDec := by
      cases decoder : e.decoder with
      | octetContaining bDec => exact ⟨bDec, rfl⟩
      | _ => simp [decoder, ElmtDecoder.isOctetContaining] at octet
    have reads := codes.reads
    simp only [decoder] at reads
    have stole : e.stoleChoiceTags = false := by
      by_contra stole
      obtain ⟨bDecContent, choice⟩ := wellTagged.stolen (Bool.eq_true_of_not_eq_false stole)
      rw [decoder] at choice
      cases choice
    have proper := wellTagged.proper
    have allTags : e.encTags = e.tags := by simp [encTags, stole]
    rw [allTags] at fits ⊢
    obtain ⟨t, rest, tags⟩ := List.exists_cons_of_ne_nil (wellTagged.tagged stole)
    rw [tags] at proper fits ⊢
    obtain ⟨s, last⟩ : ∃ s, s ∈ (t :: rest).getLast? := by
      rw [List.getLast?_eq_some_getLast (List.cons_ne_nil t rest)]
      exact ⟨_, rfl⟩
    -- Of two lengths, one is not that of the contents.
    obtain ⟨j, short, other⟩ : ∃ j : UInt8, j < 0x80 ∧ j.toNat ≠ c.length := by
      by_cases empty : c.length = 0
      · exact ⟨1, by decide, by rw [empty]; decide⟩
      · exact ⟨0, by decide, fun same => empty same.symm⟩
    obtain ⟨l, size, isLength⟩ := exists_isLength (s.length_lenOctets e.isShort c.length).1
      (s.length_lenOctets e.isShort c.length).2 short
    have same : ∀ u ∈ (t :: rest).getLast?, l.length = (u.lenOctets e.isShort c.length).length := by
      intro u isLast
      rw [Option.mem_def] at isLast last
      rw [last, Option.some.injEq] at isLast
      rw [size, isLast]
    have isLen : LenOctets l (.ofNat j.toNat) :=
      .inr ⟨j.toNat, isLength, size ▸ (s.length_lenOctets e.isShort c.length).2, rfl⟩
    have word : ∀ tag1, ElmtDecoder.Octets false tag1 (.ofNat j.toNat) (.octetContaining bDec) c v :=
      fun _ => ⟨reads, (fun no => by cases no)⟩
    obtain ⟨m, outer, d, tag1, eq, isOuter, parts⟩ :=
      innerParts_recut proper fits same isLen word
    refine ⟨t.octets ++ recut e.isShort l t rest c, (.ofNat j.toNat, c), ⟨t.octets, t.id, _, rfl,
      (proper t List.mem_cons_self).octets_tag, ?_, m, outer, d, (v, tag1), eq, isOuter, ?_⟩,
      ?_, ?_⟩
    · simpa [Elmt.firstIds, stole, tags] using t.id_mem
    · have innerTags : e.innerTags = rest.map some := by
        simp [Elmt.innerTags, stole, tags, decoder, ElmtDecoder.keyTag]
      rw [innerTags, decoder]
      exact parts
    · rw [List.length_append, length_recut same]
    · intro _ equal
      have small := fits.contents_lt
      have value := congrArg UInt64.toNat equal
      have octet := j.toNat_lt
      rw [UInt64.toNat_ofNat_of_lt' (by rw [UInt64.size]; omega),
        UInt64.toNat_ofNat_of_lt' (by rw [UInt64.size]; change c.length < _; omega)] at value
      exact other value

/-- Elements of all components, one after the other, with their parts. -/
def AllParts : List (Elmt β) → List UInt8 → List (Elmt β × AsnLen × List UInt8) → Prop
  | [], w, parts => w = [] ∧ parts = []
  | e :: rest, w, parts => ∃ c d s more, w = c ++ d ∧ e.PartAs c s ∧ parts = (e, s) :: more ∧
      AllParts rest d more

theorem AllParts.tailParts {e : Elmt β} {rest : List (Elmt β)} {w : List UInt8}
    {parts : List (Elmt β × AsnLen × List UInt8)} (all : AllParts (e :: rest) w parts) :
    ∃ tag tag1 d, w = tag ++ d ∧ TagOctets tag tag1 ∧ TailParts (e :: rest) tag1 d parts := by
  induction rest generalizing e w parts with
  | nil =>
    obtain ⟨_, d, s, more, rfl, ⟨tag, tag1, c, rfl, isTag, begins, here⟩, rfl, rfl, rfl⟩ := all
    refine ⟨tag, tag1, c, by simp, isTag, ?_⟩
    rw [TailParts, if_pos begins]
    exact ⟨c, [], s, [], by simp, here, rfl, .inl ⟨rfl, rfl, rfl⟩⟩
  | cons e' rest ih =>
    obtain ⟨_, d, s, more, rfl, ⟨tag, tag1, c, rfl, isTag, begins, here⟩, rfl, later⟩ := all
    obtain ⟨tag', tag1', d', eq, isTag', tail⟩ := ih later
    refine ⟨tag, tag1, c ++ d, by simp, isTag, ?_⟩
    rw [TailParts, if_pos begins]
    exact ⟨c, d, s, more, rfl, here, rfl, .inr ⟨by simp, tag', d', tag1', eq, isTag', tail⟩⟩

theorem InnerParts.octets {decoder : ElmtDecoder β} {tags : List (Option ElmtTag)} {tag1 : AsnTag}
    {len : AsnLen} {w : List UInt8} {x : β × AsnTag} {s : AsnLen × List UInt8}
    (parts : InnerParts decoder tags tag1 len w x s) :
    InnerOctets false decoder tags tag1 len w x := by
  induction tags generalizing tag1 len w with
  | nil => exact ⟨parts.1, parts.2.1⟩
  | cons t rest ih =>
    obtain ⟨tag, tag1, l, innerLen, c, e, eq, isTag, taken, isLen, parts, closed⟩ := parts
    exact ⟨tag, tag1, l, innerLen, c, e, eq, isTag, taken, isLen, ih parts, nofun, closed⟩

theorem Elmt.Parts.octets {e : Elmt β} {tag1 : AsnTag} {w : List UInt8} {s : AsnLen × List UInt8}
    (parts : e.Parts tag1 w s) : ∃ x, e.Octets false tag1 w x := by
  obtain ⟨l, len, c, x, eq, isLen, inner⟩ := parts
  exact ⟨x, l, len, c, eq, isLen, inner.octets, nofun⟩

/-- Components are found where their octets are read. -/
theorem TailParts.tailOctets {es : List (Elmt β)} {tag1 : AsnTag} {w : List UInt8}
    {parts : List (Elmt β × AsnLen × List UInt8)} (tail : TailParts es tag1 w parts) :
    ∃ stray, TailOctets false stray es tag1 w := by
  induction es generalizing tag1 w parts with
  | nil => exact ⟨true, rfl, tail.1⟩
  | cons e rest ih =>
    rw [TailParts] at tail
    by_cases begins : tag1 ∈ e.firstIds
    · rw [if_pos begins] at tail
      obtain ⟨c, d, s, more, rfl, here, -, later⟩ := tail
      have octets := here.octets
      obtain ⟨x, octets⟩ := octets
      simp only [tailOctets_of_mem begins]
      rcases later with ⟨rfl, -, optional⟩ | ⟨some, tag, d', tag1', rfl, isTag, later⟩
      · exact ⟨false, c, [], x, rfl, octets, .inl ⟨rfl, rfl, optional⟩⟩
      · obtain ⟨stray, later⟩ := ih later
        exact ⟨stray, c, _, x, rfl, octets, .inr ⟨some, tag, d', tag1', rfl, isTag, later⟩⟩
    · rw [if_neg begins] at tail
      obtain ⟨stray, later⟩ := ih tail.2
      exact ⟨stray, (tailOctets_of_not_mem begins).2 ⟨tail.1, later⟩⟩

/-- Elements of all components, as many octets as they are to be encoded as, with strings of lengths
that are not those of their contents. -/
theorem exists_allParts {members : List (Member β)} {w : List UInt8}
    (octets : ContentsOctets members w) (fits : MembersFit members)
    (encoded : ∀ m ∈ members, (m.1.encoded m.2).isSome)
    (wellTagged : ∀ m ∈ members, m.1.WellTagged) (decodable : ∀ m ∈ members, m.1.decodable) :
    ∃ w' parts, w'.length = w.length ∧
      AllParts (members.map fun m => m.1.toElmt) w' parts ∧
      ∀ m ∈ members, m.1.decoder.isOctetContaining →
        ∃ p ∈ parts, p.1 = m.1.toElmt ∧ p.2.1 ≠ .ofNat p.2.2.length := by
  induction members generalizing w with
  | nil => exact ⟨[], [], by rw [show w = [] from octets], ⟨rfl, rfl⟩, nofun⟩
  | cons m rest ih =>
    obtain ⟨v, here⟩ := Option.isSome_iff_exists.1 (encoded m List.mem_cons_self)
    simp only [ContentsOctets, here] at octets
    obtain ⟨c, d, codes, rfl, later⟩ := octets
    have canDecode := decodable m List.mem_cons_self
    have contents : m.1.contents c = c := by
      unfold EncElmt.contents
      cases decoder : m.1.decoder with
      | bitContaining bDec => simp [Elmt.decodable, decoder] at canDecode
      | _ => rfl
    have memberFits := fits m List.mem_cons_self v here c codes
    rw [contents] at memberFits ⊢
    obtain ⟨w, s, part, size, misfit⟩ := codes.exists_part (wellTagged m List.mem_cons_self)
      canDecode memberFits
    obtain ⟨w', parts, size', all, misfits⟩ := ih later
      (fun d isIn => fits d (List.mem_cons_of_mem m isIn))
      (fun d isIn => encoded d (List.mem_cons_of_mem m isIn))
      (fun d isIn => wellTagged d (List.mem_cons_of_mem m isIn))
      (fun d isIn => decodable d (List.mem_cons_of_mem m isIn))
    refine ⟨w ++ w', (m.1.toElmt, s) :: parts, ?_, ⟨w, w', s, parts, rfl, part, rfl, all⟩, ?_⟩
    · rw [List.length_append, List.length_append, size, size']
    · intro d isIn octet
      rcases List.mem_cons.1 isIn with rfl | isIn
      · exact ⟨_, List.mem_cons_self, rfl, misfit octet⟩
      · obtain ⟨p, listed, isOf, bad⟩ := misfits d isIn octet
        exact ⟨p, List.mem_cons_of_mem _ listed, isOf, bad⟩

/-! ## No definition has them -/

section

variable {cls : SnaccClass β} {es : List (EncElmt β)}
  (components : cls.components = (es.map EncElmt.toElmt).map .elmt) {members : List (Member β)}
  {w : List UInt8} (full : FullObject es members w)
include components full

omit components in
theorem FullObject.isElmt {m : Member β} (listed : m ∈ members) : m.1 ∈ es := by
  rw [← full.all]
  exact List.mem_map_of_mem listed

/-- Where a bit string that contains a value is among the components, no object with a value for it
is decoded to what it was. -/
theorem not_decodesBack {e : EncElmt β} (isIn : e ∈ es) (bit : ¬ e.decodable) :
    ¬ DecodesBack cls members w := by
  intro back
  obtain ⟨b, rest, steady, tape⟩ := exists_steady full.small
  obtain ⟨b', ran, -⟩ := back b rest steady tape 0 0
  -- There are fewer fields than members.
  have le := bDecSeqContent_fields_le components ran
  change (encodedFields members).length ≤ _ at le
  rw [length_encodedFields full.encoded] at le
  have size : (es.map EncElmt.toElmt).length = members.length := by
    rw [← full.all, List.length_map, List.length_map]
  have less : (es.map EncElmt.toElmt).countP Elmt.decodable < members.length := by
    rw [← size]
    refine Nat.lt_of_le_of_ne List.countP_le_length fun same => bit ?_
    exact List.countP_eq_length.1 same _ (List.mem_map_of_mem isIn)
  omega

/-- Octets are accepted in which a string has a length that is not that of its contents. -/
theorem exists_misfit (plain : ∀ e ∈ es, e.extensionAddition = false)
    (whole : ∀ e ∈ es, e.decoder.Whole) (wellTagged : ∀ e ∈ es, e.WellTagged)
    (decodable : ∀ e ∈ es, e.decodable) {e : EncElmt β} (isIn : e ∈ es)
    (octet : e.decoder.isOctetContaining) :
    ∃ (b : AsnBuf) (elmtLen0 : AsnLen) (r : _) (b' : AsnBuf) (w' rest : List UInt8) (parts : _),
      b.Steady ∧ (cls.bDecSeqContent 0 elmtLen0 0).run b = .ok r b' ∧ b.unread = w' ++ rest ∧
      w'.length = elmtLen0.toNat ∧ SeqParts (es.map EncElmt.toElmt) w' parts ∧
      ∃ p ∈ parts, p.1 = e.toElmt ∧ p.2.1 ≠ .ofNat p.2.2.length := by
  obtain ⟨w', parts, size, all, misfits⟩ := exists_allParts full.octets full.fits full.encoded
    (fun m listed => wellTagged m.1 (full.isElmt listed))
    (fun m listed => decodable m.1 (full.isElmt listed))
  obtain ⟨m, listed, rfl⟩ : ∃ m ∈ members, m.1 = e := by
    rw [← full.all] at isIn
    exact List.mem_map.1 isIn
  have elmts : members.map (fun m => m.1.toElmt) = es.map EncElmt.toElmt := by
    rw [← full.all, List.map_map]
    rfl
  have plain : ∀ d ∈ es.map EncElmt.toElmt, d.extensionAddition = false := fun d listed => by
    obtain ⟨e', isIn', rfl⟩ := List.mem_map.1 listed
    exact plain e' isIn'
  have whole : ∀ d ∈ es.map EncElmt.toElmt, d.decoder.Whole := fun d listed => by
    obtain ⟨e', isIn', rfl⟩ := List.mem_map.1 listed
    exact whole e' isIn'
  rw [elmts] at all
  obtain ⟨first, rest, here⟩ := List.exists_cons_of_ne_nil
    (List.ne_nil_of_mem (List.mem_map_of_mem isIn) : es.map EncElmt.toElmt ≠ [])
  rw [here] at all ⊢
  obtain ⟨tag, tag1, d, rfl, isTag, tail⟩ := all.tailParts
  obtain ⟨stray, octets⟩ := tail.tailOctets
  obtain ⟨b, after, steady, tape⟩ := exists_steady (size ▸ full.small)
  have small : (tag ++ d).length < 2 ^ 32 := by
    rw [size]
    exact Nat.lt_trans full.small (by decide)
  have count : (UInt64.ofNat (tag ++ d).length).toNat = (tag ++ d).length :=
    UInt64.toNat_ofNat_of_lt' (by rw [UInt64.size]; omega)
  have fills := bDecSeqContent_fills (ofNat_ne_indefiniteLen small) cls
    (extensible_elmts components) 0 0 components plain whole
  rw [here] at fills
  obtain ⟨r, b', ran, -⟩ := fills.accepts steady tape
    ⟨stray, .inr ⟨by simp, tag, d, tag1, rfl, isTag, octets⟩⟩
    ((advance_zero_eq steady tape).2 count.symm)
  exact ⟨b, _, r, b', tag ++ d, after, parts, steady, ran, tape, count.symm,
    .inr ⟨tag, d, tag1, rfl, isTag, tail⟩, misfits m listed octet⟩

end

/--
A SEQUENCE with a component that is a string containing a value is not encoded and decoded as it
should be: a bit string is never decoded, and the length of an octet string is not looked at.
-/
theorem not_containsExactly {cls : SnaccClass β} {es : List (EncElmt β)}
    (components : cls.components = (es.map EncElmt.toElmt).map .elmt)
    (plain : ∀ e ∈ es, e.extensionAddition = false) (whole : ∀ e ∈ es, e.decoder.Whole)
    (wellTagged : ∀ e ∈ es, e.WellTagged) {members : List (Member β)} {w : List UInt8}
    (full : FullObject es members w) {e : EncElmt β} (isIn : e ∈ es) (containing : e.containing) :
    ¬ ContainsExactly cls es := by
  intro exactly
  by_cases decodable : ∀ e ∈ es, e.decodable
  · -- A string of another length is taken.
    have octet : e.decoder.isOctetContaining := by
      have canDecode := decodable e isIn
      cases decoder : e.decoder <;>
        simp [Elmt.decodable, Elmt.containing, decoder, ElmtDecoder.isOctetContaining] at *
    obtain ⟨b, elmtLen0, r, b', w', rest, parts, steady, ran, tape, size, found, p, listed, isOf,
      misfit⟩ := exists_misfit components full plain whole wellTagged decodable isIn octet
    refine misfit (exactly.lengths b 0 elmtLen0 0 r b' steady ran w' rest parts tape size found p
      listed ?_)
    rw [isOf]
    exact containing
  · -- A bit string is among the components, and no field of it is ever set.
    have mandatory : ∀ m ∈ members, m.1.mandatory → m.2.isSome := by
      intro m listed _
      have encoded := full.encoded m listed
      cases member : m.2 with
      | none => simp [member, EncElmt.encoded] at encoded
      | some v => rfl
    obtain ⟨-, back⟩ := exactly.encodes members w full.all mandatory full.octets full.fits
    push Not at decodable
    obtain ⟨d, listed, bit⟩ := decodable
    exact not_decodesBack components full listed bit back

/-! ## A string that contains NULL -/

/-- AsnNull::BEnc. -/
def AsnNull.bEnc (_ : Unit) : BufM AsnLen :=
  bEncTagAndLenList true [⟨UNIV, some PRIM, NULLTYPE_TAG_CODE⟩] 0

/-- AsnNull::BDec. -/
def AsnNull.bDec (bytesDecoded : AsnLen) : BufM (Unit × AsnLen) := do
  let (tagId, bytesDecoded) ← bDecTag bytesDecoded
  if tagId ≠ makeTagId UNIV PRIM NULLTYPE_TAG_CODE then
    throw (.invalidTagException "AsnNull" tagId)
  else
    let (elmtLen, bytesDecoded) ← bDecLen bytesDecoded
    AsnNull.bDecContent (makeTagId UNIV PRIM NULLTYPE_TAG_CODE) elmtLen bytesDecoded

/-- The component of `SEQUENCE { a OCTET STRING (CONTAINING NULL) }`. -/
def octetsOfNull : EncElmt Unit where
  fieldName := "a"
  optional := false
  hasDefaultVal := false
  extensionAddition := false
  tags := [⟨UNIV, none, OCTETSTRING_TAG_CODE⟩]
  stoleChoiceTags := false
  decoder := .octetContaining AsnNull.bDec
  bEnc := AsnNull.bEnc
  isShort := false
  isDefault _ := false

/-- The class of the type with that component. -/
def octetsOfNullClass : SnaccClass Unit :=
  ⟨"OctetsOfNull", [.elmt octetsOfNull.toElmt], fun _ => throw .outOfTurns⟩

theorem AsnNull.bDec_recognises : asnTape.Recognises AsnNull.bDec fun w v =>
    ∃ tag d tagId, w = tag ++ d ∧ TagOctets tag tagId ∧
      if tagId ≠ makeTagId UNIV PRIM NULLTYPE_TAG_CODE then False
      else ∃ l c len, d = l ++ c ∧ LenOctets l len ∧
        asnTape.Words (AsnNull.bDecContent (makeTagId UNIV PRIM NULLTYPE_TAG_CODE) len) c v := by
  have content := AsnNull.bDecContent_whole (makeTagId UNIV PRIM NULLTYPE_TAG_CODE)
  exact bDecTag_recognises.bind fun tagId =>
    Tape.Recognises.test (p := tagId ≠ makeTagId UNIV PRIM NULLTYPE_TAG_CODE)
      (fun _ => Tape.Recognises.throw asnTape (Thrown.invalidTagException "AsnNull" tagId))
      (fun _ => bDecLen_recognises.bind content)

theorem AsnNull.bDec_words : asnTape.Words AsnNull.bDec [0x05, 0x00] () := by
  obtain ⟨b, rest, steady, tape⟩ := exists_steady (by decide : [(0x05 : UInt8), 0x00].length < 2 ^ 31)
  refine ⟨⟨b, rest, steady, tape⟩, fun b rest steady tape n => ?_⟩
  refine AsnNull.bDec_recognises.accepts steady tape ?_ n
  refine ⟨[0x05], [0x00], tagWord [0x05], rfl, ⟨.inl ⟨0x05, rfl, by decide⟩, by decide, rfl⟩, ?_⟩
  rw [if_neg (not_not.2 (by decide))]
  exact ⟨[0x00], [], 0, rfl, .inr ⟨0, isLength_short (by decide), by decide, rfl⟩,
    AsnNull.words_nil _⟩

theorem AsnNull.bEnc_prepends : Prepends (AsnNull.bEnc ()) [0x05, 0x00] := by
  obtain ⟨header, octets, adds⟩ :=
    bEncTagAndLenList_adds true [⟨UNIV, some PRIM, NULLTYPE_TAG_CODE⟩] []
  have all : header = [0x05, 0x00] := by
    rw [List.append_nil] at octets
    rw [← octets]
    decide
  intro b start
  obtain ⟨b', ran, after, data⟩ := adds b start
  refine ⟨b', ?_, after, by rw [data, all]⟩
  rw [AsnNull.bEnc]
  change EStateM.run (bEncTagAndLenList true [⟨UNIV, some PRIM, NULLTYPE_TAG_CODE⟩] 0) b = _ at ran
  rw [ran, all]
  rfl

theorem Prepends.unique {x : BufM AsnLen} {octets octets' : List UInt8}
    (prepends : Prepends x octets) (prepends' : Prepends x octets') : octets = octets' := by
  obtain ⟨b, ran, -, data⟩ := prepends .empty rfl
  obtain ⟨b', ran', -, data'⟩ := prepends' .empty rfl
  rw [ran, EStateM.Result.ok.injEq] at ran'
  rw [ran'.2, data'] at data
  exact (List.append_cancel_right data).symm

theorem octetsOfNull_codes : octetsOfNull.Codes () [0x05, 0x00] :=
  ⟨AsnNull.bEnc_prepends, AsnNull.bDec_words⟩

/-- The object of the type. -/
theorem octetsOfNull_full : FullObject [octetsOfNull] [(octetsOfNull, some ())]
    [0x04, 0x02, 0x05, 0x00] where
  all := rfl
  encoded m listed := by
    rw [List.mem_singleton.1 listed]
    rfl
  octets := ⟨[0x05, 0x00], [], octetsOfNull_codes, by decide, rfl⟩
  fits m listed v encoded c codes := by
    rw [List.mem_singleton.1 listed] at codes ⊢
    rw [codes.writes.unique octetsOfNull_codes.writes]
    exact ⟨by unfold ElmtTag.LenFits; decide, trivial⟩
  small := by decide

theorem octetsOfNull_wellTagged : ∀ e ∈ [octetsOfNull], e.WellTagged := by
  intro e listed
  rw [List.mem_singleton.1 listed]
  refine ⟨nofun, fun _ => by simp [octetsOfNull], fun t isIn => ?_⟩
  rw [List.mem_singleton.1 isIn]
  exact ⟨by decide, by decide, by decide⟩

theorem octetsOfNull_whole : ∀ e ∈ [octetsOfNull], e.decoder.Whole := by
  intro e listed
  rw [List.mem_singleton.1 listed]
  exact AsnNull.bDec_recognises.takesWords

theorem not_containsExactly_octetsOfNull : ¬ ContainsExactly octetsOfNullClass [octetsOfNull] :=
  not_containsExactly rfl (by decide) octetsOfNull_whole octetsOfNull_wellTagged octetsOfNull_full
    List.mem_cons_self rfl

/-- A string that contains NULL is accepted with a length of another number than two. -/
theorem other_length_accepted : ¬ ∀ (cls : SnaccClass Unit) (es : List (EncElmt Unit)),
    cls.components = (es.map EncElmt.toElmt).map .elmt →
    (∀ e ∈ es, e.extensionAddition = false) → (∀ e ∈ es, e.decoder.Whole) →
    (∀ e ∈ es, e.WellTagged) → ContainsExactly cls es := by
  intro always
  have components : octetsOfNullClass.components =
      ([octetsOfNull].map EncElmt.toElmt).map .elmt := rfl
  have exactly := always octetsOfNullClass [octetsOfNull] components (by decide)
    octetsOfNull_whole octetsOfNull_wellTagged
  obtain ⟨b, elmtLen0, r, b', w', rest, parts, steady, ran, tape, size, found, p, listed, isOf,
    misfit⟩ := exists_misfit components octetsOfNull_full (by decide) octetsOfNull_whole
      octetsOfNull_wellTagged (by decide) List.mem_cons_self rfl
  refine misfit (exactly.lengths b 0 elmtLen0 0 r b' steady ran w' rest parts tape size found p
    listed ?_)
  rw [isOf]
  rfl

end Esnacc.Cxx
