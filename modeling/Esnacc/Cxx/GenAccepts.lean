import Esnacc.Cxx.Conforming

/-! When the decoders printed for a SEQUENCE and a SET complete on contents that are allowed only. -/

namespace Esnacc.Cxx

open Lib

variable {β : Type}

/-- AsnNull::BDecContent. -/
def AsnNull.bDecContent (_ : AsnTag) (elmtLen bytesDecoded : AsnLen) : BufM (Unit × AsnLen) := do
  if elmtLen ≠ 0 then throw (boundsException "AsnNull has non-zero length")
  else return ((), bytesDecoded)

/-- Every completed run over a SEQUENCE of a given length found what its definition allows. -/
def SeqAcceptsAllowed (cls : SnaccClass β) (es : List (Elmt β)) (elmtLen0 : AsnLen) (b : AsnBuf) :
    Prop :=
  ∀ turns bytesDecoded r b', (cls.bDecSeqContent turns elmtLen0 bytesDecoded).run b = .ok r b' →
    ∃ w rest, b.unread = w ++ rest ∧ w.length = elmtLen0.toNat ∧ InOrder es w

/-- The octets have no stray tag at their end and no length that is not that of what it stands for. -/
def SeqClean (es : List (Elmt β)) (elmtLen0 : AsnLen) (b : AsnBuf) : Prop :=
  ∀ w rest, b.unread = w ++ rest → w.length = elmtLen0.toNat →
    ¬ StrayTag es w ∧ ¬ MisfitLength es w

/-- Every completed run over a SET of a given length found what its definition allows. -/
def SetAcceptsAllowed (cls : SnaccClass β) (es : List (Elmt β)) (elmtLen0 : AsnLen) (b : AsnBuf) :
    Prop :=
  ∀ turns bytesDecoded r b', (cls.bDecSetContent elmtLen0 turns bytesDecoded).run b = .ok r b' →
    ∃ w rest, b.unread = w ++ rest ∧ w.length = elmtLen0.toNat ∧ AnyOrder es w

/-- The octets are not parts with a slip among them. -/
def SetClean (es : List (Elmt β)) (elmtLen0 : AsnLen) (b : AsnBuf) : Prop :=
  ∀ parts rest, b.unread = partOctets parts ++ rest → TakenParts es elmtLen0 parts →
    ¬ SetSlip es elmtLen0 parts

theorem extensible_elmts {cls : SnaccClass β} {es : List (Elmt β)}
    (components : cls.components = es.map .elmt) : cls.extensible = false := by
  rw [SnaccClass.extensible, components, List.any_map, List.any_eq_false]
  intro e isIn
  simp

theorem mandatoryElmtCount_elmts {es : List (Elmt β)}
    (plain : ∀ e ∈ es, e.extensionAddition = false) :
    mandatoryElmtCount (es.map .elmt) = mandatoryCount es := by
  rw [mandatoryElmtCount, mandatoryCount, List.countP_map]
  refine List.countP_congr fun e isIn => ?_
  simp [Elmt.counted, plain e isIn]

section

variable {cls : SnaccClass β} {es : List (Elmt β)} (components : cls.components = es.map .elmt)
  (plain : ∀ e ∈ es, e.extensionAddition = false) (whole : ∀ e ∈ es, e.decoder.Whole)
  {elmtLen0 : AsnLen} (definite : elmtLen0 ≠ INDEFINITE_LEN) {b : AsnBuf} (steady : b.Steady)
include components plain whole definite steady

/-! ## SEQUENCE -/

theorem seqAcceptsAllowed_of_clean (clean : SeqClean es elmtLen0 b) :
    SeqAcceptsAllowed cls es elmtLen0 b := by
  intro turns bytesDecoded r b' ran
  have fills := bDecSeqContent_fills definite cls (extensible_elmts components) turns bytesDecoded
    components plain whole
  obtain ⟨-, -, w, ⟨stray, octets⟩, tape, count⟩ := fills.sound steady ran
  have length := (advance_zero_eq steady tape).1 count
  obtain ⟨noStray, noMisfit⟩ := clean w _ tape length
  refine ⟨w, _, tape, length, ?_⟩
  cases stray with
  | true => exact absurd octets noStray
  | false => exact inOrder_of_seqOctets (not_not.1 fun h => noMisfit ⟨octets, h⟩)

theorem seqClean_of_acceptsAllowed (apart : ToldApart es)
    (allowed : SeqAcceptsAllowed cls es elmtLen0 b) : SeqClean es elmtLen0 b := by
  intro w rest tape length
  have fills := bDecSeqContent_fills definite cls (extensible_elmts components) 0 0
    components plain whole
  -- What is read with a slip is accepted, and would have to be read without it too.
  have strict : ∀ stray, SeqOctets false stray es w → SeqOctets true false es w := by
    intro stray octets
    obtain ⟨r, b', ran, -⟩ := fills.accepts steady tape ⟨stray, octets⟩
      ((advance_zero_eq steady tape).2 length)
    obtain ⟨w', rest', tape', length', inOrder⟩ := allowed 0 0 r b' ran
    have same := List.append_inj (tape.symm.trans tape') (length.trans length'.symm)
    rw [same.1]
    exact seqOctets_of_inOrder apart inOrder
  constructor
  · intro stray
    exact stray.not_seqOctets whole steady tape (strict true stray).loose
  · rintro ⟨octets, misfit⟩
    exact misfit (strict false octets)

/-! ## SET -/

omit plain whole definite steady in
theorem bDecSetContent_some (some : es ≠ []) (turns : Nat) (bytesDecoded : AsnLen) :
    cls.bDecSetContent elmtLen0 turns bytesDecoded = (getReadLoc >>= fun _ =>
      cls.setElmts elmtLen0 turns {} 0 >>= fun p =>
        if p.1.mandatoryElmtsDecoded.toNat < mandatoryElmtCount cls.components then
          throw (decodeError "non-optional SET element missing")
        else pure (p.1.decoded, bytesDecoded + p.2)) := by
  have notEmpty : cls.components.isEmpty = false := by
    rw [components, List.isEmpty_map]
    exact List.isEmpty_eq_false_iff.2 some
  rw [SnaccClass.bDecSetContent, notEmpty]
  rfl

omit components plain whole definite in
theorem AsnBuf.Steady.small_zero : (0 : AsnLen).toNat + b.unread.length < 2 ^ 64 := by
  have fits := steady.sound.fits
  rw [UInt64.toNat_zero]
  omega

theorem setAcceptsAllowed_of_clean (clean : SetClean es elmtLen0 b) :
    SetAcceptsAllowed cls es elmtLen0 b := by
  intro turns bytesDecoded r b' ran
  by_cases none : es = []
  · -- Nothing is allowed, and no octet is accepted.
    subst none
    rw [SnaccClass.bDecSetContent, components] at ran
    obtain ⟨readLoc, b1, -, ran⟩ := run_bind_eq_ok.1 ran
    by_cases zero : elmtLen0 = 0
    · exact ⟨[], b.unread, rfl, by simp [zero], [], rfl, by simp, by simp, by simp⟩
    · simp only [List.map_nil, List.isEmpty_nil, if_true, if_neg definite, if_pos zero] at ran
      cases ran
  · rw [bDecSetContent_some components none] at ran
    obtain ⟨readLoc, b1, located, ran⟩ := run_bind_eq_ok.1 ran
    obtain ⟨steady1, same1⟩ := getReadLoc_sound steady located
    obtain ⟨⟨x, m⟩, b2, ranElmts, ran⟩ := run_bind_eq_ok.1 ran
    obtain ⟨parts, tape, isParts, hits⟩ := setElmts_sound cls components definite
      (extensible_elmts components) plain whole steady1 steady1.small_zero ranElmts
    rw [same1] at tape
    by_cases missing : x.mandatoryElmtsDecoded.toNat < mandatoryElmtCount cls.components
    · rw [if_pos missing] at ran
      cases ran
    · rw [hits, components, mandatoryElmtCount_elmts plain] at missing
      have taken : TakenParts es elmtLen0 parts := by
        refine ⟨isParts, Nat.le_of_not_lt ?_⟩
        rwa [UInt32.zero_add, UInt32.toNat_ofNat'] at missing
      obtain ⟨length, allowed⟩ := anyOrder_of_taken taken (clean parts _ tape taken)
      exact ⟨partOctets parts, _, tape, length, allowed⟩

/-- Parts that a SET is taken for are accepted. -/
theorem bDecSetContent_accepts {parts : List SetPart} (some : parts ≠ []) {rest : List UInt8}
    (tape : b.unread = partOctets parts ++ rest) (taken : TakenParts es elmtLen0 parts) :
    ∃ r b', (cls.bDecSetContent elmtLen0 (parts.length + 1) 0).run b = .ok r b' := by
  obtain ⟨p, later, rfl⟩ := List.exists_cons_of_ne_nil some
  have first := taken.1.reads p List.mem_cons_self
  have typed : es ≠ [] := by
    rintro rfl
    obtain ⟨e, tag, tag1, c, x, here, -⟩ := first
    cases here
  have left : b.unread ≠ [] := by
    rw [tape, partOctets_cons]
    simp [first.ne_nil]
  obtain ⟨readLoc, b1, located, steady1, same1⟩ := getReadLoc_completes steady left
  obtain ⟨y, m, b', ran, hits⟩ := setElmts_accepts cls components definite plain whole
    (Nat.lt_succ_self _) (x := {}) (n := 0) steady1 steady1.small_zero (same1.trans tape) taken.1
  have enough : ¬ y.mandatoryElmtsDecoded.toNat < mandatoryElmtCount cls.components := by
    rw [hits, components, mandatoryElmtCount_elmts plain, UInt32.zero_add, UInt32.toNat_ofNat']
    exact Nat.not_lt_of_le taken.2
  refine ⟨(y.decoded, 0 + m), b', ?_⟩
  rw [bDecSetContent_some components typed, run_bind_of_ok located, run_bind_of_ok ran,
    if_neg enough]
  rfl

theorem setClean_of_acceptsAllowed (apart : CasesApart es)
    (allowed : SetAcceptsAllowed cls es elmtLen0 b) : SetClean es elmtLen0 b := by
  intro parts rest tape taken slip
  -- Parts with a slip among them are accepted.
  obtain ⟨r, b', ran⟩ : ∃ r b',
      (cls.bDecSetContent elmtLen0 (parts.length + 1) 0).run b = .ok r b' := by
    refine bDecSetContent_accepts components plain whole definite steady ?_ tape taken
    rintro rfl
    rcases slip with passes | twice | ⟨p, isIn, -⟩
    · cases passes
    · exact twice List.nodup_nil
    · cases isIn
  obtain ⟨w, rest', tape', length, parts', rfl, complete, once, -⟩ := allowed _ _ _ _ ran
  -- They are the parts that are allowed, which have none.
  obtain rfl := parts_unique apart whole taken.1 complete length steady tape tape'
  rcases slip with passes | twice | ⟨p, isIn, misfit⟩
  · omega
  · exact twice once
  · obtain ⟨e, here, tag, tag1, c, x, eq, isTag, begins, octets⟩ := complete p isIn
    refine misfit ⟨e, tag, tag1, c, x, here, eq, isTag, begins, ?_, octets⟩
    intro j d earlier there other
    exact absurd (apart j p.place d e there here tag1 other begins) (Nat.ne_of_lt earlier)

end

/-! ## Both -/

/--
When the printed decoders complete on contents that are allowed only.

A SEQUENCE whose octets have no stray tag and no length that does not fit is taken for what it is,
and so is a SET whose parts stop at its end, are of different components and have lengths that fit.
Where the tags tell the components apart, no other octets are taken for what is allowed.
-/
theorem accepts_allowed_iff {cls : SnaccClass β} {es : List (Elmt β)}
    (components : cls.components = es.map .elmt) (plain : ∀ e ∈ es, e.extensionAddition = false)
    (whole : ∀ e ∈ es, e.decoder.Whole) {elmtLen0 : AsnLen} (definite : elmtLen0 ≠ INDEFINITE_LEN)
    {b : AsnBuf} (steady : b.Steady) :
    ((SeqClean es elmtLen0 b → SeqAcceptsAllowed cls es elmtLen0 b) ∧
      (ToldApart es → (SeqAcceptsAllowed cls es elmtLen0 b ↔ SeqClean es elmtLen0 b))) ∧
    (SetClean es elmtLen0 b → SetAcceptsAllowed cls es elmtLen0 b) ∧
      (CasesApart es → (SetAcceptsAllowed cls es elmtLen0 b ↔ SetClean es elmtLen0 b)) := by
  have seq := seqAcceptsAllowed_of_clean components plain whole definite steady
  have set := setAcceptsAllowed_of_clean components plain whole definite steady
  refine ⟨⟨seq, fun apart => ⟨?_, seq⟩⟩, set, fun apart => ⟨?_, set⟩⟩
  · exact seqClean_of_acceptsAllowed components plain whole definite steady apart
  · exact setClean_of_acceptsAllowed components plain whole definite steady apart

/-! ## A SEQUENCE with a stray tag -/

theorem AsnNull.bDecContent_whole : (ElmtDecoder.content AsnNull.bDecContent).Whole := by
  intro tag1 len
  have reads := Tape.Recognises.test (p := len ≠ 0)
    (fun _ => Tape.Recognises.throw asnTape (boundsException "AsnNull has non-zero length"))
    (fun _ => Tape.Recognises.pure asnTape ())
  exact reads.takesWords

/-- A NULL with a context-specific tag. -/
def nullElmt (fieldName : String) (optional : Bool) (code : UInt32) : Elmt Unit :=
  ⟨fieldName, optional, false, false, [⟨CNTX, some PRIM, code⟩], false,
    .content AsnNull.bDecContent⟩

/-- The components of `SEQUENCE { a [0] NULL, b [1] NULL OPTIONAL }`. -/
def twoNulls : List (Elmt Unit) :=
  [nullElmt "a" false 0, nullElmt "b" true 1]

/-- The class of a type with components, printed without a use for elements of other types. -/
def classOf (es : List (Elmt Unit)) : SnaccClass Unit :=
  ⟨"TwoNulls", es.map .elmt, fun _ => throw .outOfTurns⟩

/-- One component, and a tag. -/
def strayBuf : AsnBuf :=
  .ofSeg [0x80, 0x00, 0x85]

theorem strayBuf_steady : strayBuf.Steady where
  sound := AsnBuf.ofSeg_sound (by decide) (by decide)
  inOrder c listed := by cases listed

theorem twoNulls_toldApart : ToldApart twoNulls := by
  refine ⟨fun optional => ?_, fun _ => ?_, trivial⟩
  · cases optional
  · simp [followIds]

theorem twoNulls_firstIds {i : Nat} {d : Elmt Unit} (here : twoNulls[i]? = some d) :
    i < 2 ∧ d.firstIds = [makeTagId CNTX PRIM (UInt32.ofNat i)] := by
  rcases i with _ | _ | i
  · cases here
    exact ⟨by decide, rfl⟩
  · cases here
    exact ⟨by decide, rfl⟩
  · cases here

theorem twoNulls_casesApart : CasesApart twoNulls := by
  intro i j d e here there id first second
  obtain ⟨smallI, idsI⟩ := twoNulls_firstIds here
  obtain ⟨smallJ, idsJ⟩ := twoNulls_firstIds there
  rw [idsI, List.mem_singleton] at first
  rw [idsJ, List.mem_singleton] at second
  -- Two numbers have two tags.
  have every : ∀ i < 2, ∀ j < 2, makeTagId CNTX PRIM (UInt32.ofNat i) =
      makeTagId CNTX PRIM (UInt32.ofNat j) → i = j := by decide
  exact every i smallI j smallJ (first.symm.trans second)

theorem twoNulls_whole : ∀ e ∈ twoNulls, e.decoder.Whole := by
  intro e isIn
  simp only [twoNulls, List.mem_cons, List.not_mem_nil, or_false] at isIn
  rcases isIn with rfl | rfl <;> exact AsnNull.bDecContent_whole

theorem AsnNull.words_nil (tag1 : AsnTag) :
    asnTape.Words (AsnNull.bDecContent tag1 0) [] () := by
  refine ⟨⟨strayBuf, _, strayBuf_steady, rfl⟩, fun b rest steady tape n => ?_⟩
  refine ⟨b, ?_, steady, tape⟩
  rw [List.length_nil, asnTape.advance_zero]
  rfl

theorem twoNulls_strayTag : StrayTag twoNulls [0x80, 0x00, 0x85] := by
  have short : ∀ c : UInt8, c &&& 0x1F ≠ 0x1F → TagOctets [c] (tagWord [c]) := fun c low =>
    ⟨.inl ⟨c, rfl, low⟩, by simp, rfl⟩
  refine .inr ⟨by simp [twoNulls], [0x80], [0x00, 0x85], _, rfl, short 0x80 (by decide), ?_⟩
  refine (tailOctets_of_mem (by decide)).2 ⟨[0x00], [0x85], ((), tagWord [0x80]), rfl, ?_, ?_⟩
  · exact ⟨[0x00], 0, [], rfl, .inr ⟨0, isLength_short (by decide), by decide, rfl⟩,
      ⟨AsnNull.words_nil _, rfl⟩, nofun⟩
  · refine .inr ⟨by simp, [0x85], [], _, rfl, short 0x85 (by decide), ?_⟩
    exact (tailOctets_of_not_mem (by decide)).2 ⟨rfl, rfl, rfl⟩

theorem accepts_allowed_iff_twoNulls :
    (SeqAcceptsAllowed (classOf twoNulls) twoNulls 3 strayBuf ↔ SeqClean twoNulls 3 strayBuf) ∧
    (SetAcceptsAllowed (classOf twoNulls) twoNulls 3 strayBuf ↔ SetClean twoNulls 3 strayBuf) := by
  have definite : (3 : AsnLen) ≠ INDEFINITE_LEN := by decide
  have components : (classOf twoNulls).components = twoNulls.map .elmt := rfl
  have both := accepts_allowed_iff components (by decide) twoNulls_whole definite strayBuf_steady
  exact ⟨both.1.2 twoNulls_toldApart, both.2.2 twoNulls_casesApart⟩

/-- A tag is accepted in the place of a component. -/
theorem stray_tag_accepted : ¬ ∀ (cls : SnaccClass Unit) (es : List (Elmt Unit)),
    cls.components = es.map .elmt → (∀ e ∈ es, e.extensionAddition = false) →
    (∀ e ∈ es, e.decoder.Whole) → ∀ elmtLen0 : AsnLen, elmtLen0 ≠ INDEFINITE_LEN →
    ∀ b : AsnBuf, b.Steady → SeqAcceptsAllowed cls es elmtLen0 b := by
  intro always
  have allowed := always (classOf twoNulls) twoNulls rfl (by decide) twoNulls_whole 3 (by decide)
    strayBuf strayBuf_steady
  have clean := seqClean_of_acceptsAllowed rfl (by decide) twoNulls_whole (by decide)
    strayBuf_steady twoNulls_toldApart allowed
  exact (clean [0x80, 0x00, 0x85] [] rfl rfl).1 twoNulls_strayTag

end Esnacc.Cxx
