import Esnacc.Cxx.Containing

/-! The fields that the code printed for a SEQUENCE sets on what its definition allows, and on what
it was encoded as. -/

namespace Esnacc.Cxx

open Lib

variable {β : Type}

/-- Complete elements of the components in their order, with the fields that stand for them. -/
def FieldsInOrder : List (Elmt β) → List UInt8 → List (String × β) → Prop
  | [], w, fields => w = [] ∧ fields = []
  | e :: rest, w, fields =>
    (∃ c d v more, w = c ++ d ∧ e.CompleteAs c v ∧ fields = (e.fieldName, v) :: more ∧
      FieldsInOrder rest d more) ∨ e.mandatory = false ∧ FieldsInOrder rest w fields

/-- The octets of components behind a tag that was read for the first of them, with their fields. -/
def TailFields : List (Elmt β) → AsnTag → List UInt8 → List (String × β) → Prop
  | [], _, _, _ => False
  | e :: rest, tag1, w, fields =>
    if tag1 ∈ e.firstIds then
      ∃ c d v last more, w = c ++ d ∧ e.Octets true tag1 c (v, last) ∧
        fields = (e.fieldName, v) :: more ∧
        (d = [] ∧ more = [] ∧ allOptional rest ∨ ∃ tag d' tag1, d = tag ++ d' ∧
          TagOctets tag tag1 ∧ TailFields rest tag1 d' more)
    else e.mandatory = false ∧ TailFields rest tag1 w fields

/-- The octets of components that are read one after the other, with their fields. -/
def SeqFields (es : List (Elmt β)) (w : List UInt8) (fields : List (String × β)) : Prop :=
  w = [] ∧ fields = [] ∧ allOptional es ∨
    ∃ tag d tag1, w = tag ++ d ∧ TagOctets tag tag1 ∧ TailFields es tag1 d fields

theorem TailFields.tailOctets {es : List (Elmt β)} {tag1 : AsnTag} {w : List UInt8}
    {fields : List (String × β)} (tail : TailFields es tag1 w fields) :
    TailOctets true false es tag1 w := by
  induction es generalizing tag1 w fields with
  | nil => exact tail.elim
  | cons e rest ih =>
    rw [TailFields] at tail
    by_cases begins : tag1 ∈ e.firstIds
    · rw [if_pos begins] at tail
      obtain ⟨c, d, v, last, more, rfl, octets, -, later⟩ := tail
      refine (tailOctets_of_mem begins).2 ⟨c, d, (v, last), rfl, octets, ?_⟩
      rcases later with ⟨rfl, -, optional⟩ | ⟨tag, d', tag1', rfl, isTag, later⟩
      · exact .inl ⟨rfl, rfl, optional⟩
      · refine .inr ⟨?_, tag, d', tag1', rfl, isTag, ih later⟩
        rintro rfl
        exact later.elim
    · rw [if_neg begins] at tail
      exact (tailOctets_of_not_mem begins).2 ⟨tail.1, ih tail.2⟩

/-- What is allowed is read so, where the tags tell the components apart. -/
theorem seqFields_of_inOrder {es : List (Elmt β)} {w : List UInt8} {fields : List (String × β)}
    (apart : ToldApart es) (inOrder : FieldsInOrder es w fields) : SeqFields es w fields := by
  induction es generalizing w fields with
  | nil => exact .inl ⟨inOrder.1, inOrder.2, rfl⟩
  | cons e rest ih =>
    rcases inOrder with ⟨c, d, v, more, rfl, ⟨tag, tag1, c', last, rfl, isTag, begins, octets⟩,
      rfl, later⟩ | ⟨optional, later⟩
    · refine .inr ⟨tag, c' ++ d, tag1, List.append_assoc .., isTag, ?_⟩
      rw [TailFields, if_pos begins]
      exact ⟨c', d, v, last, more, rfl, octets, rfl, ih apart.2 later⟩
    · rcases ih apart.2 later with ⟨rfl, rfl, optionals⟩ | ⟨tag, d, tag1, rfl, isTag, tail⟩
      · refine .inl ⟨rfl, rfl, ?_⟩
        simp only [allOptional, List.all_cons, optional, Bool.not_false, Bool.true_and]
        exact optionals
      · refine .inr ⟨tag, d, tag1, rfl, isTag, ?_⟩
        have other : tag1 ∉ e.firstIds := fun begins =>
          apart.1 optional tag1 begins (mem_followIds tail.tailOctets)
        rw [TailFields, if_neg other]
        exact ⟨optional, tail⟩

/-! ## Reading them -/

/-- Octets that are there bring a count away from where it is. -/
theorem advance_ne {goal n : AsnLen} {b : AsnBuf} (steady : b.Steady) {w rest : List UInt8}
    (tape : b.unread = w ++ rest) (some : w ≠ []) (count : asnTape.advance n w.length = goal) :
    n ≠ goal := by
  -- Fewer octets than a word can count are there.
  intro same
  have count : n + UInt64.ofNat w.length = n := count.trans same.symm
  have within : w.length < 2 ^ 63 := by
    have fits := steady.sound.fits
    rw [tape, List.length_append] at fits
    omega
  have none : UInt64.ofNat w.length = 0 := by
    simpa using count
  have zero := congrArg UInt64.toNat none
  rw [UInt64.toNat_ofNat_of_lt' (Nat.lt_trans within (by decide))] at zero
  exact some (List.eq_nil_of_length_eq_zero zero)

section

variable {es : List (Elmt β)} {elmtLen0 : AsnLen} (definite : elmtLen0 ≠ INDEFINITE_LEN)
  (cls : SnaccClass β) (notExtensible : cls.extensible = false) (turns : Nat)
  (bytesDecoded : AsnLen)
include definite notExtensible

theorem seqEnd_reaches (n : AsnLen) (fields : List (String × β)) :
    asnTape.Reaches elmtLen0 n (cls.seqEnd turns elmtLen0 bytesDecoded n fields) []
      (⟨fields, []⟩, bytesDecoded + elmtLen0) := by
  intro b rest steady tape count
  rw [List.length_nil, asnTape.advance_zero] at count
  refine ⟨b, ?_, steady, tape⟩
  unfold SnaccClass.seqEnd
  simp only [if_neg definite, notExtensible, Bool.false_eq_true, if_false]
  rw [if_neg (not_not.2 count), count]
  rfl

/-- Behind a component, either nothing is left or the tag of a following one is read. -/
theorem seqNext_reaches (plain : ∀ e ∈ es, e.extensionAddition = false)
    (later : ∀ tag1 w more n before, TailFields es tag1 w more → asnTape.Reaches elmtLen0 n
      (cls.seqElmts turns elmtLen0 bytesDecoded (es.map .elmt) tag1 n before) w
      (⟨before ++ more, []⟩, bytesDecoded + elmtLen0))
    {w : List UInt8} {more : List (String × β)} (octets : SeqFields es w more) (tag1 : AsnTag)
    (n : AsnLen) (before : List (String × β)) :
    asnTape.Reaches elmtLen0 n
      (nextTag elmtLen0 (es.map .elmt) tag1 n >>= fun p =>
        match p.1 with
        | some tag1 => cls.seqElmts turns elmtLen0 bytesDecoded (es.map .elmt) tag1 p.2 before
        | none => pure (⟨before, []⟩, bytesDecoded + p.2)) w
      (⟨before ++ more, []⟩, bytesDecoded + elmtLen0) := by
  by_cases last : es = []
  · subst last
    rcases octets with ⟨rfl, rfl, -⟩ | ⟨tag, d, tag', -, -, tail⟩
    · rw [List.append_nil]
      exact seqEnd_reaches definite cls notExtensible turns bytesDecoded n before
    · exact tail.elim
  · rw [nextTag_elmts definite plain last]
    rcases octets with ⟨rfl, rfl, optional⟩ | ⟨tag, d, tag', rfl, isTag, tail⟩
    · intro b rest steady tape count
      rw [List.length_nil, asnTape.advance_zero] at count
      refine ⟨b, ?_, steady, tape⟩
      rw [if_pos ⟨optional, count⟩, count, List.append_nil]
      rfl
    · intro b rest steady tape count
      have more := advance_ne steady tape (by simp [isTag.ne_nil]) count
      rw [if_neg fun ends => more ends.2, bind_assoc]
      have takes := bDecTag_recognises.takes isTag
      exact takes.reaches (h := fun tag1 n =>
        cls.seqElmts turns elmtLen0 bytesDecoded (es.map .elmt) tag1 n before)
        (later tag' d _ _ before tail) b rest steady tape count

/-- Components are read behind the tag that was read for the first of them. -/
theorem seqElmts_reaches (plain : ∀ e ∈ es, e.extensionAddition = false)
    (whole : ∀ e ∈ es, e.decoder.Whole) {tag1 : AsnTag} {w : List UInt8}
    {fields : List (String × β)} (n : AsnLen) (before : List (String × β))
    (tail : TailFields es tag1 w fields) :
    asnTape.Reaches elmtLen0 n
      (cls.seqElmts turns elmtLen0 bytesDecoded (es.map .elmt) tag1 n before) w
      (⟨before ++ fields, []⟩, bytesDecoded + elmtLen0) := by
  -- The induction is on the components that are still to come.
  induction es generalizing tag1 w fields n before with
  | nil => exact tail.elim
  | cons e rest ih =>
    have plainRest := fun d isIn => plain d (List.mem_cons_of_mem e isIn)
    have ih := fun tag1 w more n before tail => @ih plainRest
      (fun d isIn => whole d (List.mem_cons_of_mem e isIn)) tag1 w more n before tail
    rw [TailFields] at tail
    rw [List.map_cons, SnaccClass.seqElmts]
    by_cases begins : tag1 ∈ e.firstIds
    · rw [if_pos begins] at tail
      obtain ⟨c, d, v, last, more, rfl, octets, rfl, later⟩ := tail
      rw [if_pos (List.contains_iff_mem.2 begins)]
      have reads := Elmt.decode_recognises cls.typeName (whole e List.mem_cons_self) tag1
      have next := seqNext_reaches definite cls notExtensible turns bytesDecoded plainRest ih later
        last (asnTape.advance n c.length) (before ++ [(e.fieldName, v)])
      rw [List.append_assoc] at next
      exact (reads.takes octets.loose).reaches (h := fun x n =>
        nextTag elmtLen0 (rest.map .elmt) x.2 n >>= fun p =>
          match p.1 with
          | some tag1 => cls.seqElmts turns elmtLen0 bytesDecoded (rest.map .elmt) tag1 p.2
              (before ++ [(e.fieldName, x.1)])
          | none => pure (⟨before ++ [(e.fieldName, x.1)], []⟩, bytesDecoded + p.2)) next
    · rw [if_neg begins] at tail
      rw [if_neg fun h => begins (List.contains_iff_mem.1 h), tail.1]
      exact ih tag1 w fields n before tail.2

/-- What a definition allows is decoded, and every field is set. -/
theorem bDecSeqContent_reaches (components : cls.components = es.map .elmt)
    (plain : ∀ e ∈ es, e.extensionAddition = false) (whole : ∀ e ∈ es, e.decoder.Whole)
    {w : List UInt8} {fields : List (String × β)} (octets : SeqFields es w fields) :
    asnTape.Reaches elmtLen0 0 (cls.bDecSeqContent turns elmtLen0 bytesDecoded) w
      (⟨fields, []⟩, bytesDecoded + elmtLen0) := by
  unfold SnaccClass.bDecSeqContent
  rw [components, isTailOptional_elmts plain]
  rcases octets with ⟨rfl, rfl, optional⟩ | ⟨tag, d, tag1, rfl, isTag, tail⟩
  · -- Nothing is there, and nothing has to be.
    intro b rest steady tape count
    rw [List.length_nil, asnTape.advance_zero] at count
    refine ⟨b, ?_, steady, tape⟩
    cases es with
    | nil =>
      simp only [List.map_nil, List.isEmpty_nil, if_true, if_neg definite]
      rw [if_neg (not_not.2 count.symm), ← count, UInt64.add_zero]
      rfl
    | cons e others =>
      simp only [List.map_cons, List.isEmpty_cons, Bool.false_eq_true, if_false, optional,
        Bool.not_true]
      rw [if_pos count.symm, ← count, UInt64.add_zero]
      rfl
  · have some : (es.map Component.elmt).isEmpty = false := by
      cases es with
      | nil => exact tail.elim
      | cons e others => rfl
    have reads := (bDecTag_recognises.takes isTag).reaches (h := fun tag1 n =>
      cls.seqElmts turns elmtLen0 bytesDecoded (es.map .elmt) tag1 n [])
      (seqElmts_reaches definite cls notExtensible turns bytesDecoded plain whole
        (asnTape.advance 0 tag.length) [] tail)
    intro b rest steady tape count
    have more := advance_ne steady tape (by simp [isTag.ne_nil]) count
    have ran := reads b rest steady tape count
    simp only [some, Bool.false_eq_true, if_false, if_neg more.symm, not_tagIsEoc definite]
    cases allOptional es with
    | false => exact ran
    | true => exact ran

end

/-! ## What was encoded -/

/-- Where nothing is contained, the length that the component behind left is not added. -/
theorem EncElmt.plain_contents {e : EncElmt β} (plain : e.containing = false) :
    (∀ v l, e.bEncContent v l = e.bEnc v) ∧ (∀ c, e.contents c = c) ∧
      ∀ bDec, e.decoder ≠ .bitContaining bDec := by
  unfold EncElmt.bEncContent EncElmt.contents
  unfold Elmt.containing at plain
  cases decoder : e.decoder with
  | octetContaining bDec => simp [decoder] at plain
  | bitContaining bDec => simp [decoder] at plain
  | _ => exact ⟨fun _ _ => rfl, fun _ => rfl, fun _ same => by cases same⟩

/-- The octets of the components that are present are written, the last ones first. -/
theorem bEncMembers_writes {members : List (Member β)} {w : List UInt8}
    (plainStrings : ∀ m ∈ members, m.1.containing = false) (octets : ContentsOctets members w)
    {b : AsnBuf} (start : b.passed = []) :
    ∃ l b', (bEncMembers members).run b = .ok (.ofNat w.length, l) b' ∧ b'.passed = [] ∧
      b'.data = w ++ b.data := by
  induction members generalizing w with
  | nil =>
    obtain rfl : w = [] := octets
    exact ⟨0, b, rfl, start, rfl⟩
  | cons m rest ih =>
    have plain := plainStrings m List.mem_cons_self
    have ih := fun {w} => @ih w fun d isIn => plainStrings d (List.mem_cons_of_mem m isIn)
    rw [bEncMembers]
    cases here : m.1.encoded m.2 with
    | none =>
      simp only [ContentsOctets, here] at octets
      obtain ⟨l, b', ran, after, data⟩ := ih octets
      refine ⟨l, b', ?_, after, data⟩
      rw [run_bind_of_ok ran]
      simp only [bEncMember, here]
      rfl
    | some v =>
      simp only [ContentsOctets, here] at octets
      obtain ⟨c, d, codes, rfl, later⟩ := octets
      obtain ⟨l, mid, ran, between, data⟩ := ih later
      obtain ⟨written, contents, -⟩ := EncElmt.plain_contents plain
      obtain ⟨b', ran', after, data'⟩ :=
        codes.writes.wrapped m.1.isShort m.1.encTags mid between
      rw [contents]
      refine ⟨.ofNat (wrap m.1.isShort m.1.encTags c).length, b', ?_, after, ?_⟩
      · rw [run_bind_of_ok ran]
        simp only [bEncMember, here, written]
        rw [← bind_assoc, run_bind_of_ok ran', List.length_append, Nat.add_comm, UInt64.ofNat_add]
        rfl
      · rw [data', data, List.append_assoc]

/-- What an object is encoded as has its fields in the order of the components. -/
theorem fieldsInOrder_of_contents {members : List (Member β)} {w : List UInt8}
    (wellTagged : ∀ m ∈ members, m.1.WellTagged)
    (plainStrings : ∀ m ∈ members, m.1.containing = false) (fits : MembersFit members)
    (present : ∀ m ∈ members, m.1.mandatory → m.2.isSome) (octets : ContentsOctets members w) :
    FieldsInOrder (members.map fun m => m.1.toElmt) w (encodedFields members) := by
  induction members generalizing w with
  | nil => exact ⟨octets, rfl⟩
  | cons m rest ih =>
    have ih := fun {w} => @ih w (fun d isIn => wellTagged d (List.mem_cons_of_mem m isIn))
      (fun d isIn => plainStrings d (List.mem_cons_of_mem m isIn))
      (fun d isIn => fits d (List.mem_cons_of_mem m isIn))
      (fun d isIn => present d (List.mem_cons_of_mem m isIn))
    cases here : m.1.encoded m.2 with
    | none =>
      simp only [ContentsOctets, here] at octets
      refine .inr ⟨?_, by simpa [encodedFields, here] using ih octets⟩
      -- Only what is absent or has its default value is left out.
      by_contra needed
      rw [Bool.not_eq_false] at needed
      obtain ⟨v, value⟩ := Option.isSome_iff_exists.1 (present m List.mem_cons_self needed)
      have noDefault : m.1.hasDefaultVal = false := by
        simpa using (Bool.and_eq_true_iff.1 needed).2
      simp [EncElmt.encoded, value, noDefault] at here
    | some v =>
      simp only [ContentsOctets, here] at octets
      obtain ⟨c, d, codes, rfl, later⟩ := octets
      obtain ⟨-, contents, notBit⟩ :=
        EncElmt.plain_contents (plainStrings m List.mem_cons_self)
      have memberFits := fits m List.mem_cons_self v here c codes
      rw [contents] at memberFits ⊢
      refine .inl ⟨_, d, v, encodedFields rest, rfl,
        codes.completeAs (wellTagged m List.mem_cons_self) notBit memberFits, ?_, ih later⟩
      simp [encodedFields, here]

/-- An object of a SEQUENCE without extension marker and strings that contain values is encoded as the
octets of its components, and from these, wherever they stand, it is decoded to what was encoded. -/
theorem seqContent_roundTrips {cls : SnaccClass β} {es : List (EncElmt β)}
    (components : cls.components = (es.map EncElmt.toElmt).map .elmt)
    (notExtensible : cls.extensible = false) (plain : ∀ e ∈ es, e.extensionAddition = false)
    (whole : ∀ e ∈ es, e.decoder.Whole) (wellTagged : ∀ e ∈ es, e.WellTagged)
    (plainStrings : ∀ e ∈ es, e.containing = false) (apart : ToldApart (es.map EncElmt.toElmt))
    {members : List (Member β)} (all : members.map Prod.fst = es)
    (present : ∀ m ∈ members, m.1.mandatory → m.2.isSome) {w : List UInt8}
    (octets : ContentsOctets members w) (fits : MembersFit members) :
    Prepends (bEncSeqContent members) w ∧ DecodesBack cls members w := by
  have isElmt : ∀ m ∈ members, m.1 ∈ es := fun m listed => by
    rw [← all]
    exact List.mem_map_of_mem listed
  have elmts : members.map (fun m => m.1.toElmt) = es.map EncElmt.toElmt := by
    rw [← all, List.map_map]
    rfl
  have noStrings := fun m listed => plainStrings m.1 (isElmt m listed)
  constructor
  · intro b start
    obtain ⟨l, b', ran, after, data⟩ := bEncMembers_writes noStrings octets start
    exact ⟨b', by rw [bEncSeqContent, run_bind_of_ok ran]; rfl, after, data⟩
  · intro b rest steady tape turns bytesDecoded
    have inOrder := fieldsInOrder_of_contents (fun m listed => wellTagged m.1 (isElmt m listed))
      noStrings fits present octets
    rw [elmts] at inOrder
    have short : w.length < 2 ^ 63 := by
      have size := steady.sound.fits
      rw [tape, List.length_append] at size
      omega
    have count : (UInt64.ofNat w.length).toNat = w.length :=
      UInt64.toNat_ofNat_of_lt' (by rw [UInt64.size]; omega)
    have definite : UInt64.ofNat w.length ≠ INDEFINITE_LEN := by
      intro same
      have value := congrArg UInt64.toNat same
      rw [count, show INDEFINITE_LEN.toNat = 2 ^ 64 - 1 by decide] at value
      omega
    have plainElmts : ∀ d ∈ es.map EncElmt.toElmt, d.extensionAddition = false := fun d listed => by
      obtain ⟨e, isIn, rfl⟩ := List.mem_map.1 listed
      exact plain e isIn
    have wholeElmts : ∀ d ∈ es.map EncElmt.toElmt, d.decoder.Whole := fun d listed => by
      obtain ⟨e, isIn, rfl⟩ := List.mem_map.1 listed
      exact whole e isIn
    exact bDecSeqContent_reaches definite cls notExtensible turns bytesDecoded components plainElmts
      wholeElmts (seqFields_of_inOrder apart inOrder) b rest steady tape (UInt64.zero_add _)

/-- A NULL with a context-specific tag and the routine that encodes it. -/
def nullMember (fieldName : String) (optional : Bool) (code : UInt32) : EncElmt Unit where
  toElmt := nullElmt fieldName optional code
  bEnc _ := return 0
  isShort := true
  isDefault _ := false

theorem nullMember_codes (fieldName : String) (optional : Bool) (code : UInt32) :
    (nullMember fieldName optional code).Codes () [] where
  writes b start := ⟨b, rfl, start, rfl⟩
  reads t _ := AsnNull.words_nil t.id

theorem nullMember_wellTagged {fieldName : String} {optional : Bool} {code : UInt32}
    (small : code.toNat < 2 ^ 21) : (nullMember fieldName optional code).WellTagged where
  stolen := nofun
  tagged _ := List.cons_ne_nil _ _
  proper t isIn := by
    rw [List.mem_singleton.1 isIn]
    exact ⟨by simp, by simp, small⟩

/-- An object of `SEQUENCE { a [0] NULL, b [1] NULL OPTIONAL }` without its second component. -/
theorem seqContent_roundTrips_twoNulls :
    Prepends (bEncSeqContent [(nullMember "a" false 0, some ()), (nullMember "b" true 1, none)])
        [0x80, 0x00] ∧
      DecodesBack (classOf twoNulls)
        [(nullMember "a" false 0, some ()), (nullMember "b" true 1, none)] [0x80, 0x00] := by
  refine @seqContent_roundTrips Unit (classOf twoNulls)
    [nullMember "a" false 0, nullMember "b" true 1] rfl rfl (by decide) ?_ ?_ (by decide)
    twoNulls_toldApart _ rfl (by decide) _ ?_ ?_
  · intro e isIn
    rcases List.mem_pair.1 isIn with rfl | rfl <;> exact AsnNull.bDecContent_whole
  · intro e isIn
    rcases List.mem_pair.1 isIn with rfl | rfl <;> exact nullMember_wellTagged (by decide)
  · exact ⟨[], [], nullMember_codes .., by decide, rfl⟩
  · intro m isIn v encoded c codes
    rcases List.mem_pair.1 isIn with rfl | rfl
    · rw [codes.writes.unique (nullMember_codes ..).writes]
      exact ⟨by unfold ElmtTag.LenFits; decide, trivial⟩
    · cases encoded

end Esnacc.Cxx
