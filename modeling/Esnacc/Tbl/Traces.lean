import Esnacc.Ber.BitsMemory
import Esnacc.Tbl.Decode

/-! What one call of the table decoder leaves behind for the next one. -/

namespace Esnacc

open Lib

/-! ## Decoding under related file-level variables -/

/-- The same stack of tags and lengths and the same count of unused bits. -/
def SameTrace (g g' : Globals) : Prop :=
  g.tlStkG = g'.tlStkG ∧ g.unusedBitsG = g'.unusedBitsG

section

variable {β : Type}

theorem respects_pushTL (entry : TagNLen) :
    Respects (OnSameBuf SameTrace) (pushTL entry : Dec β Unit) := by
  intro s s' related
  obtain ⟨sameBuf, sameStk, sameBits⟩ := related
  rw [EStateM.run, EStateM.run, pushTL, pushTL, ← sameStk]
  -- Both stacks have room or have not.
  by_cases full : s.glob.tlStkG.length ≥ TL_STK_SIZE
  · rw [if_pos full, if_pos full]
    exact ⟨rfl, sameBuf, sameStk, sameBits⟩
  · rw [if_neg full, if_neg full]
    exact ⟨rfl, sameBuf, rfl, sameBits⟩

theorem respects_lastTL : Respects (OnSameBuf SameTrace) (lastTL : Dec β TagNLen) := by
  intro s s' related
  rw [EStateM.run, EStateM.run, lastTL, lastTL, ← related.2.1]
  cases s.glob.tlStkG with
  | nil => exact ⟨rfl, related⟩
  | cons entry rest => exact ⟨rfl, related⟩

theorem respects_popTL : Respects (OnSameBuf SameTrace) (popTL : Dec β Unit) := by
  intro s s' related
  obtain ⟨sameBuf, sameStk, sameBits⟩ := related
  rw [EStateM.run, EStateM.run, popTL, popTL, ← sameStk]
  cases stack : s.glob.tlStkG with
  | nil => exact ⟨rfl, sameBuf, sameStk, sameBits⟩
  | cons entry rest => exact ⟨rfl, sameBuf, rfl, sameBits⟩

/-- What drops the pieces of earlier strings first does not depend on them. -/
theorem respects_of_resetStrStk {α : Type} (x : Dec β α) :
    Respects (OnSameBuf SameTrace) (resetStrStk >>= fun _ => x) := by
  intro s s' related
  obtain ⟨sameBuf, sameStk, sameBits⟩ := related
  -- Without the pieces the two states are one.
  have same : s.resetStrStk = s'.resetStrStk := by
    simp only [DecState.resetStrStk, sameBuf, sameStk, sameBits]
  rw [EStateM.run_bind, run_resetStrStk, EStateM.run_bind, run_resetStrStk]
  dsimp only
  rw [same]
  cases x.run s'.resetStrStk with
  | ok r t => exact ⟨rfl, rfl, rfl, rfl⟩
  | error e t => exact ⟨rfl, rfl, rfl, rfl⟩

theorem respects_ofExcept {α : Type} {rel : DecState β → DecState β → Prop}
    (answer : Except Exit α) : Respects rel (ofExcept answer : Dec β α) := by
  cases answer with
  | ok a => exact Respects.pure a
  | error e => exact Respects.throw e

variable [GenBuf β]

theorem respects_bDecAsnOctsContent (fuel : Nat) (tag : AsnTag) (len bytesDecoded : AsnLen) :
    Respects (OnSameBuf SameTrace) (bDecAsnOctsContent fuel tag len bytesDecoded : Dec β _) := by
  by_cases constructed : tagIsCons tag = true
  · rw [bDecAsnOctsContent, if_pos constructed]
    exact respects_of_resetStrStk _
  · exact respects_primitive_octs fuel constructed len bytesDecoded

theorem respects_bits_traced (fuel : Nat) (tag : AsnTag) (len bytesDecoded : AsnLen) :
    Respects (OnSameBuf SameTrace) (bDecAsnBitsContent fuel tag len bytesDecoded : Dec β _) := by
  by_cases constructed : tagIsCons tag = true
  · rw [bDecAsnBitsContent, if_pos constructed]
    exact respects_of_resetStrStk _
  · exact respects_primitive_bits fuel constructed len bytesDecoded

/-! ## Tags -/

variable {rel : Globals → Globals → Prop}

theorem respects_bufPeekCopy (len : UInt64) :
    Respects (OnSameBuf rel) (bufPeekCopy len : Dec β _) := by
  intro s s' related
  rw [EStateM.run, EStateM.run, bufPeekCopy, bufPeekCopy, ← related.1]
  cases GenBuf.peekCopy s.buf len with
  | none => exact ⟨rfl, related⟩
  | some peeked => exact ⟨rfl, related.advance fun _ => peeked.2.2⟩

theorem respects_peekTagLoop (room : Nat) (tagId : AsnTag) :
    Respects (OnSameBuf rel) (peekTagLoop room tagId : Dec β _) := by
  induction room generalizing tagId with
  | zero => exact Respects.pure _
  | succ room ih =>
    refine Respects.bind (respects_bufPeekCopy _) fun octets => ?_
    cases octets[3 - room]? with
    | none => exact Respects.throw _
    | some octet => exact Respects.ite (ih _) (Respects.pure _)

theorem respects_peekTag : Respects (OnSameBuf rel) (peekTag : Dec β AsnTag) := by
  refine Respects.bind (respects_bufPeekCopy _) fun octets => ?_
  cases octets[0]? with
  | none => exact Respects.throw _
  | some first =>
    refine Respects.bind (Respects.ite (respects_peekTagLoop _ _) (Respects.pure _)) fun read => ?_
    exact Respects.ite (respects_asn1Error _ _) (Respects.pure _)

theorem respects_decodeTagsAndLens (tags : List TBLTag) :
    Respects (OnSameBuf SameTrace) (decodeTagsAndLens tags : Dec β Unit) := by
  induction tags with
  | nil => exact Respects.pure _
  | cons tblTag rest ih =>
    refine Respects.bind (respects_bDecTag _) fun tag => ?_
    refine Respects.bind (respects_bDecLen _) fun len => Respects.ite (respects_longjmp _) ?_
    exact Respects.bind (respects_pushTL _) fun _ => ih

theorem respects_popTagsAndLens (tags : List TBLTag) (bytesDecoded : AsnLen) :
    Respects (OnSameBuf SameTrace) (popTagsAndLens tags bytesDecoded : Dec β AsnLen) := by
  induction tags generalizing bytesDecoded with
  | nil => exact Respects.pure _
  | cons tblTag rest ih =>
    refine Respects.bind respects_lastTL fun last => Respects.bind ?_ fun n =>
      Respects.bind respects_popTL fun _ => ih _
    exact Respects.ite (respects_bDecEoc _) (Respects.ite (respects_longjmp _) (Respects.pure _))

/-! ## Contents -/

section

variable {isMatch : AsnTag → TBLType → Except Exit Bool}
  {decodeType : TBLType → Bool → AsnLen → Dec β (AVal × AsnLen)}
  (alike : ∀ t implicit n, Respects (OnSameBuf SameTrace) (decodeType t implicit n))

theorem respects_decodePrimType (typeId : TBLPrimTypeId) (turns : Nat) :
    Respects (OnSameBuf SameTrace) (decodePrimType typeId turns : Dec β _) := by
  refine Respects.bind respects_lastTL fun last => ?_
  cases typeId with
  | BOOLEAN => exact Respects.bind (respects_bDecAsnBoolContent _ _ _) fun _ => Respects.pure _
  | INTEGER => exact Respects.bind (respects_bDecAsnIntContent _ _ _) fun _ => Respects.pure _
  | ENUMERATED => exact Respects.bind (respects_bDecAsnIntContent _ _ _) fun _ => Respects.pure _
  | BITSTRING => exact Respects.bind (respects_bits_traced _ _ _ _) fun _ => Respects.pure _
  | OCTETSTRING =>
    exact Respects.bind (respects_bDecAsnOctsContent _ _ _ _) fun _ => Respects.pure _
  | NULL => exact Respects.bind (respects_bDecAsnNullContent _ _ _) fun _ => Respects.pure _
  | OID => exact Respects.bind (respects_bDecAsnOidContent _ _ _) fun _ => Respects.pure _
  | REAL => exact Respects.bind (respects_bDecAsnRealContent _ _ _ _) fun _ => Respects.pure _

theorem respects_notEoc (bytesDecoded : AsnLen) :
    Respects (OnSameBuf rel) (notEoc bytesDecoded : Dec β Bool) :=
  Respects.bind (Respects.bind respects_bufPeekByte fun _ => Respects.pure _) fun _ =>
    Respects.pure _

omit [GenBuf β] in
theorem respects_withinLen (bytesDecoded : AsnLen) :
    Respects (OnSameBuf SameTrace) (withinLen bytesDecoded : Dec β Bool) :=
  Respects.bind respects_lastTL fun _ => Respects.pure _

include alike

theorem respects_decodeSequence (currElmt : Nat) (elmts : List TBLType)
    (stores : List (Nat × AVal)) (n : AsnLen) :
    Respects (OnSameBuf SameTrace)
      (decodeSequence isMatch decodeType currElmt elmts stores n) := by
  -- The induction is on the components that are left.
  induction elmts generalizing currElmt stores n with
  | nil => exact Respects.pure _
  | cons t rest ih =>
    refine Respects.bind respects_peekTag fun asnTag => ?_
    refine Respects.bind (respects_ofExcept _) fun begins => Respects.ite ?_ ?_
    · exact Respects.bind (alike _ _ _) fun _ => ih _ _ _
    · exact Respects.ite (respects_longjmp _) (ih _ _ _)

theorem respects_decodeSetElmt (elmts : List TBLType) (noMatch : Int32) (x : ASetVal) (n : AsnLen) :
    Respects (OnSameBuf SameTrace) (decodeSetElmt isMatch decodeType elmts noMatch x n) := by
  refine Respects.bind respects_peekTag fun asnTag => ?_
  refine Respects.bind (respects_ofExcept _) fun found => ?_
  cases found with
  | none => exact respects_longjmp _
  | some component => exact Respects.bind (alike _ _ _) fun _ => Respects.pure _

theorem respects_decodeSetElmts (elmts : List TBLType) {more : AsnLen → Dec β Bool}
    (asks : ∀ n, Respects (OnSameBuf SameTrace) (more n)) (noMatch : Int32) (turns : Nat)
    (x : ASetVal) (n : AsnLen) :
    Respects (OnSameBuf SameTrace)
      (decodeSetElmts isMatch decodeType elmts more noMatch turns x n) := by
  induction turns generalizing x n with
  | zero => exact Respects.throw _
  | succ turns ih =>
    refine Respects.bind (asks _) fun goesOn => Respects.ite ?_ (Respects.pure _)
    exact Respects.bind (respects_decodeSetElmt alike _ _ _ _) fun _ => ih _ _

theorem respects_decodeSet (elmts : List TBLType) (turns : Nat) :
    Respects (OnSameBuf SameTrace) (decodeSet isMatch decodeType elmts turns) := by
  refine Respects.bind respects_lastTL fun last => Respects.bind (Respects.ite ?_ ?_) fun _ =>
    Respects.ite (respects_longjmp _) (Respects.pure _)
  · exact respects_decodeSetElmts alike elmts respects_notEoc _ _ _ _
  · exact respects_decodeSetElmts alike elmts respects_withinLen _ _ _ _

omit [GenBuf β] in
theorem respects_decodeListElmts (listElmtType : TBLType) {more : AsnLen → Dec β Bool}
    (asks : ∀ n, Respects (OnSameBuf SameTrace) (more n)) (turns : Nat) (vs : List AVal)
    (n : AsnLen) :
    Respects (OnSameBuf SameTrace) (decodeListElmts decodeType listElmtType more turns vs n) := by
  induction turns generalizing vs n with
  | zero => exact Respects.throw _
  | succ turns ih =>
    refine Respects.bind (asks _) fun goesOn => Respects.ite ?_ (Respects.pure _)
    exact Respects.bind (alike _ _ _) fun _ => ih _ _

theorem respects_decodeList (elmts : List TBLType) (turns : Nat) :
    Respects (OnSameBuf SameTrace) (decodeList decodeType elmts turns) := by
  cases elmts with
  | nil => exact Respects.throw _
  | cons listElmtType rest =>
    refine Respects.bind respects_lastTL fun last => Respects.ite ?_ ?_
    · exact respects_decodeListElmts alike listElmtType respects_notEoc _ _ _
    · exact respects_decodeListElmts alike listElmtType respects_withinLen _ _ _

theorem respects_decodeChoice (elmts : List TBLType) :
    Respects (OnSameBuf SameTrace) (decodeChoice isMatch decodeType elmts) := by
  refine Respects.bind respects_peekTag fun asnTag => ?_
  refine Respects.bind (respects_ofExcept _) fun found => ?_
  cases found with
  | some component => exact Respects.bind (alike _ _ _) fun _ => Respects.pure _
  | none =>
    cases elmts.getLast? with
    | some t => exact Respects.bind (alike _ _ _) fun _ => Respects.pure _
    | none => exact Respects.throw _

theorem respects_tblDecodeContent (tbl : TBL) (turns : Nat) (implicit : Bool) (t : TBLType) :
    Respects (OnSameBuf SameTrace)
      (tblDecodeContent tbl isMatch decodeType turns implicit t) := by
  cases t with
  | primType typeId optional tagList => exact respects_decodePrimType typeId turns
  | elmts typeId optional tagList elmts =>
    cases typeId with
    | SEQUENCE =>
      exact Respects.bind (respects_decodeSequence alike _ _ _ _) fun _ => Respects.pure _
    | SET => exact Respects.bind (respects_decodeSet alike _ _) fun _ => Respects.pure _
    | SEQUENCEOF => exact Respects.bind (respects_decodeList alike _ _) fun _ => Respects.pure _
    | SETOF => exact Respects.bind (respects_decodeList alike _ _) fun _ => Respects.pure _
    | CHOICE => exact Respects.bind (respects_decodeChoice alike _) fun _ => Respects.pure _
  | typeRef optional tagList typeDef implicitRef =>
    rw [tblDecodeContent]
    cases tblFindTypeDefByIndex tbl typeDef with
    | none => exact Respects.throw _
    | some tblTd => exact alike _ _ _

end

theorem respects_tblDecodeType (tbl : TBL) (turns : Nat) (t : TBLType) (implicit : Bool)
    (n : AsnLen) :
    Respects (OnSameBuf SameTrace) (tblDecodeType tbl turns t implicit n : Dec β _) := by
  -- The induction is on the calls that the stack has room for.
  induction turns generalizing t implicit n with
  | zero => exact Respects.throw _
  | succ turns ih =>
    refine Respects.bind (respects_decodeTagsAndLens _) fun _ => ?_
    refine Respects.bind (respects_tblDecodeContent ih tbl turns implicit t) fun _ => ?_
    exact Respects.bind (respects_popTagsAndLens _ _) fun _ => Respects.pure _

end

/-! ## Calls -/

/-- TblDecode: where a type is not found or the decoding jumps, there is no value. -/
@[grind =] def tblDecode {β : Type} [GenBuf β] (tbl : TBL) (turns : Nat) (modName : Option String)
    (typeName : String) : Dec β (Option (AVal × AsnLen)) := fun s =>
  match tblFindTypeDef tbl modName typeName with
  | none => .ok none s
  | some tblTd =>
    match (tblDecodeType tbl turns tblTd.type false 0).run s with
    | .ok retVal s' => .ok (some retVal) s'
    | .error (.longjmp _ _) s' => .ok none s'
    | .error e s' => .error e s'

/-- One call of the table decoder, with the turns granted to it. -/
structure TblCall (β : Type) where
  tbl : TBL
  modName : Option String
  typeName : String
  b : β
  turns : Nat

namespace TblCall

section

variable {β : Type} [GenBuf β]

/-- A call made while the file-level variables are the given ones. -/
@[grind =] def result (glob : Globals) (call : TblCall β) :
    EStateM.Result Exit (DecState β) (Option (AVal × AsnLen)) :=
  (tblDecode call.tbl call.turns call.modName call.typeName).run ⟨call.b, glob⟩

/-- What the caller sees of a call: a value with its count, or that there is none. -/
def decoded (glob : Globals) (call : TblCall β) : Except Exit (Option (AVal × AsnLen)) :=
  outcome (call.result glob)

/-- A call after which the program goes on. -/
def step (glob : Globals) (call : TblCall β) : Option (Globals × Option (AVal × AsnLen)) :=
  match call.result glob with
  | .ok r s => some (s.glob, r)
  | .error _ _ => none

/-- Where the stack and the unused bits are as they were, a call is decoded alike. -/
theorem decoded_eq {glob glob' : Globals} (same : SameTrace glob glob') (call : TblCall β) :
    call.decoded glob = call.decoded glob' := by
  rw [decoded, decoded, result, result, EStateM.run, EStateM.run, tblDecode, tblDecode]
  cases tblFindTypeDef call.tbl call.modName call.typeName with
  | none => rfl
  | some tblTd =>
    dsimp only
    have related : OnSameBuf SameTrace (DecState.mk call.b glob) ⟨call.b, glob'⟩ := ⟨rfl, same⟩
    have alike := (respects_tblDecodeType call.tbl call.turns tblTd.type false 0 related).outcome_eq
    -- What is made of a run depends on how it ends.
    cases left : (tblDecodeType call.tbl call.turns tblTd.type false 0).run ⟨call.b, glob⟩ with
    | ok r s =>
      cases right : (tblDecodeType call.tbl call.turns tblTd.type false 0).run
          ⟨call.b, glob'⟩ with
      | ok r' s' =>
        rw [left, right] at alike
        cases alike
        rfl
      | error e' s' =>
        rw [left, right] at alike
        cases alike
    | error e s =>
      cases right : (tblDecodeType call.tbl call.turns tblTd.type false 0).run
          ⟨call.b, glob'⟩ with
      | ok r' s' =>
        rw [left, right] at alike
        cases alike
      | error e' s' =>
        rw [left, right] at alike
        cases alike
        cases e <;> rfl

end

end TblCall

/-! ## What tells the traces apart -/

section

variable {β : Type} [GenBuf β]

omit [GenBuf β] in
theorem glob_of_respects {α : Type} {x : Dec β α}
    (reads : ∀ glob, Respects (OnSameBuf fun g g' => g = glob ∧ g' = glob) x) {s s' : DecState β}
    {r : α} (ran : x.run s = .ok r s') : s'.glob = s.glob := by
  -- The state is compared with itself.
  have related : OnSameBuf (fun g g' => g = s.glob ∧ g' = s.glob) s s := ⟨rfl, rfl, rfl⟩
  have alike := reads s.glob related
  rw [ran] at alike
  exact alike.2.2.1

/-- Where tags are read, the stack had room for all of them. -/
theorem room_of_decodeTagsAndLens {tags : List TBLTag} (some : tags ≠ []) {s s' : DecState β}
    (ran : (decodeTagsAndLens tags).run s = .ok () s') :
    s.glob.tlStkG.length + tags.length ≤ TL_STK_SIZE := by
  -- The induction is on the tags, each of which is pushed.
  induction tags generalizing s with
  | nil => exact absurd rfl some
  | cons tblTag rest ih =>
    obtain ⟨⟨tag, n⟩, s1, tagged, ran⟩ := run_bind_eq_ok.1 ran
    obtain ⟨⟨len, m⟩, s2, measured, ran⟩ := run_bind_eq_ok.1 ran
    have kept : s2.glob = s.glob :=
      (glob_of_respects (fun _ => respects_bDecLen n) measured).trans
        (glob_of_respects (fun _ => respects_bDecTag 0) tagged)
    dsimp only at ran
    by_cases other : (!tagsEquiv tag tblTag) = true
    · rw [if_pos other] at ran
      cases ran
    · rw [if_neg other] at ran
      obtain ⟨⟨⟩, s3, pushed, ran⟩ := run_bind_eq_ok.1 ran
      rw [EStateM.run, pushTL] at pushed
      by_cases full : s2.glob.tlStkG.length ≥ TL_STK_SIZE
      · rw [if_pos full] at pushed
        cases pushed
      · rw [if_neg full] at pushed
        cases pushed
        rw [kept] at full
        cases rest with
        | nil =>
          rw [List.length_singleton]
          omega
        | cons next rest =>
          have room := ih (List.cons_ne_nil _ _) ran
          simp only [List.length_cons, kept] at room ⊢
          omega

end

/-- A table of one type. -/
def tblOf (t : TBLType) : TBL :=
  ⟨[⟨"Types", [⟨1, "Type", t⟩]⟩]⟩

theorem tblFindTypeDef_tblOf (t : TBLType) :
    tblFindTypeDef (tblOf t) none "Type" = some ⟨1, "Type", t⟩ := by
  simp [tblFindTypeDef, tblFindTypeDefInMod, tblOf]

/-- What is made of decoding the one type of a table. -/
theorem decoded_tblOf {t : TBLType} {b : SBuf} {turns : Nat} {glob : Globals}
    {r : AVal × AsnLen} : TblCall.decoded glob ⟨tblOf t, none, "Type", b, turns⟩ = .ok (some r) ↔
      ∃ s, (tblDecodeType (tblOf t) turns t false 0).run ⟨b, glob⟩ = .ok r s := by
  rw [TblCall.decoded, TblCall.result, EStateM.run, tblDecode]
  dsimp only
  rw [tblFindTypeDef_tblOf]
  dsimp only
  cases ran : (tblDecodeType (tblOf t) turns t false 0).run ⟨b, glob⟩ with
  | ok r' s =>
    simp [outcome]
  | error e s =>
    cases e <;> simp [outcome]

/-- A NULL with as many explicit tags as the stack has room for. -/
def manyTags : TBLType :=
  .primType .NULL false
    (List.replicate TL_STK_SIZE ⟨.CONTEXT, 0, .CONS, makeTagId CNTX CONS 0⟩)

/-- A NULL inside as many elements of indefinite length. -/
def manyCall : TblCall SBuf where
  tbl := tblOf manyTags
  modName := none
  typeName := "Type"
  b := bufferOf ((List.replicate 127 [0xA0, 0x80]).flatten ++ [0xA0, 0x00] ++
    List.replicate 254 0)
  turns := 2

/-- A BIT STRING, of either form. -/
def bitsType : TBLType :=
  .primType .BITSTRING false [⟨.UNIVERSAL, 3, .ANY_FORM, makeTagId UNIV PRIM 3⟩]

/-- A call that decodes a BIT STRING. -/
def bitsCall (octets : List UInt8) (turns : Nat) : TblCall SBuf :=
  ⟨tblOf bitsType, none, "Type", bufferOf octets, turns⟩

/-- The tag of an element around others. -/
def outerTag : TBLTag :=
  ⟨.CONTEXT, 0, .CONS, makeTagId CNTX CONS 0⟩

/-- The header of an element around others is read and pushed. -/
theorem decodeTagsAndLens_outer {tags : List TBLTag} {s : DecState SBuf} {octets : List UInt8}
    {c : UInt8} {len : AsnLen} (held : s.buf.unread = 0xA0 :: c :: octets)
    (clear : s.buf.readError = false) (room : s.glob.tlStkG.length < TL_STK_SIZE)
    (length : c < 128 ∧ len = c.toUInt64 ∨ c = 0x80 ∧ len = INDEFINITE_LEN) :
    ∃ s' : DecState SBuf,
      (decodeTagsAndLens (outerTag :: tags)).run s = (decodeTagsAndLens tags).run s' ∧
      s'.buf.unread = octets ∧ s'.buf.readError = false ∧
      s'.glob.tlStkG = ⟨0xA0000000, len, 2⟩ :: s.glob.tlStkG := by
  have tagged := bDecTag_short 0 held (by decide) clear
  have held1 : (s.buf.advance 1).unread = c :: octets := by
    rw [SBuf.unread_advance (by simp [held]), held]
    rfl
  have held2 : ((s.buf.advance 1).advance 1).unread = octets := by
    rw [SBuf.unread_advance (by simp [held1]), held1]
    rfl
  have measured : (bDecLen (0 + 1)).run { s with buf := s.buf.advance 1 } =
      .ok (len, 2) { s with buf := (s.buf.advance 1).advance 1 } := by
    rcases length with ⟨short, rfl⟩ | ⟨rfl, rfl⟩
    · exact bDecLen_short (s := { s with buf := s.buf.advance 1 }) 1 held1 short clear
    · have noError : GenBuf.readError ((s.buf.advance 1).advance 1) = false := clear
      simp only [bDecLen, EStateM.run_bind, run_bufGetByte, SBuf.getByte_cons held1,
        run_bufReadError, noError, Bool.false_eq_true, if_false]
      rfl
  have pushed : (pushTL ⟨0xA0000000, len, 2⟩ : Dec SBuf Unit).run
      { s with buf := (s.buf.advance 1).advance 1 } = .ok () ⟨(s.buf.advance 1).advance 1,
        { s.glob with tlStkG := ⟨0xA0000000, len, 2⟩ :: s.glob.tlStkG }⟩ :=
    if_neg (Nat.not_le.mpr room)
  refine ⟨⟨(s.buf.advance 1).advance 1, { s.glob with
    tlStkG := ⟨0xA0000000, len, 2⟩ :: s.glob.tlStkG }⟩, ?_, held2, clear, rfl⟩
  have known : (!tagsEquiv 0xA0000000 outerTag) = false := by decide
  rw [decodeTagsAndLens]
  refine (run_bind_of_ok tagged).trans ?_
  refine (run_bind_of_ok measured).trans ?_
  dsimp only
  change (if (!tagsEquiv 0xA0000000 outerTag) = true then _ else _ : Dec SBuf Unit).run _ = _
  rw [known, if_neg Bool.false_ne_true]
  exact run_bind_of_ok pushed

/-- So are the headers of elements inside each other. -/
theorem decodeTagsAndLens_replicate (k : Nat) {tags : List TBLTag} {s : DecState SBuf}
    {octets : List UInt8} (held : s.buf.unread = (List.replicate k [0xA0, 0x80]).flatten ++ octets)
    (clear : s.buf.readError = false) (room : s.glob.tlStkG.length + k ≤ TL_STK_SIZE) :
    ∃ s' : DecState SBuf,
      (decodeTagsAndLens (List.replicate k outerTag ++ tags)).run s =
        (decodeTagsAndLens tags).run s' ∧
      s'.buf.unread = octets ∧ s'.buf.readError = false ∧
      s'.glob.tlStkG = List.replicate k ⟨0xA0000000, INDEFINITE_LEN, 2⟩ ++ s.glob.tlStkG := by
  induction k generalizing s with
  | zero => exact ⟨s, rfl, held, clear, rfl⟩
  | succ k ih =>
    obtain ⟨s1, ran, held, clear, stack⟩ := @decodeTagsAndLens_outer
      (List.replicate k outerTag ++ tags) s _ _ _ held clear (by omega) (.inr ⟨rfl, rfl⟩)
    obtain ⟨s', rest, held, clear, pushed⟩ := ih held clear (by
      rw [stack, List.length_cons]
      omega)
    refine ⟨s', ran.trans rest, held, clear, ?_⟩
    rw [pushed, stack, List.replicate_succ', List.append_assoc]
    rfl

/-- The ends of elements inside each other are read, and their headers popped. -/
theorem popTagsAndLens_replicate {tags : List TBLTag} (n : AsnLen) {s : DecState SBuf}
    {octets : List UInt8} (held : s.buf.unread = List.replicate (2 * tags.length) 0 ++ octets)
    (clear : s.buf.readError = false)
    (stack : s.glob.tlStkG = List.replicate tags.length ⟨0xA0000000, INDEFINITE_LEN, 2⟩) :
    ∃ n' s', (popTagsAndLens tags n).run s = .ok n' s' := by
  induction tags generalizing n s with
  | nil => exact ⟨n, s, rfl⟩
  | cons tag tags ih =>
    have first : s.buf.unread = 0 :: 0 :: (List.replicate (2 * tags.length) 0 ++ octets) := held
    have held1 : (s.buf.advance 1).unread =
        0 :: (List.replicate (2 * tags.length) 0 ++ octets) := by
      rw [SBuf.unread_advance (by simp [first]), first]
      rfl
    have held2 : ((s.buf.advance 1).advance 1).unread =
        List.replicate (2 * tags.length) 0 ++ octets := by
      rw [SBuf.unread_advance (by simp [held1]), held1]
      rfl
    have ended : (bDecEoc n).run s = .ok (n + 2) { s with buf := (s.buf.advance 1).advance 1 } := by
      have noError : GenBuf.readError ((s.buf.advance 1).advance 1) = false := clear
      simp only [bDecEoc, EStateM.run_bind, run_bufGetByte, SBuf.getByte_cons first,
        SBuf.getByte_cons held1, run_bufReadError, noError, bne_self_eq_false, Bool.false_eq_true,
        if_false]
      rfl
    have last : (lastTL : Dec SBuf TagNLen).run s = .ok ⟨0xA0000000, INDEFINITE_LEN, 2⟩ s := by
      rw [EStateM.run, lastTL, stack]
      rfl
    obtain ⟨n', s', ran⟩ := ih (n + 2 + 2) (s := ⟨(s.buf.advance 1).advance 1,
      { s.glob with tlStkG := List.replicate tags.length ⟨0xA0000000, INDEFINITE_LEN, 2⟩ }⟩)
      held2 clear rfl
    refine ⟨n', s', ?_⟩
    have popped : (popTL : Dec SBuf Unit).run { s with buf := (s.buf.advance 1).advance 1 } =
        .ok () ⟨(s.buf.advance 1).advance 1, { s.glob with
          tlStkG := List.replicate tags.length ⟨0xA0000000, INDEFINITE_LEN, 2⟩ }⟩ := by
      rw [EStateM.run, popTL, stack]
      rfl
    rw [popTagsAndLens]
    refine (run_bind_of_ok last).trans ?_
    dsimp only
    rw [if_pos rfl]
    refine (run_bind_of_ok ended).trans ?_
    refine (run_bind_of_ok popped).trans ?_
    exact ran

/-- A buffer of octets holds them. -/
theorem unread_bufferOf {octets : List UInt8} (few : octets.length < 2 ^ 32) :
    (bufferOf octets).unread = octets := by
  have word : (UInt64.ofNat octets.length).toNat = octets.length :=
    UInt64.toNat_ofNat_of_lt' (by rw [UInt64.size]; omega)
  have left : (bufferOf octets).dataEnd.toNat - (bufferOf octets).readLoc.toNat =
      octets.length := by
    change (4096 + UInt64.ofNat octets.length).toNat - (4096 : UInt64).toNat = _
    have start : (4096 : UInt64).toNat = 4096 := rfl
    rw [UInt64.toNat_add, word, start]
    omega
  rw [SBuf.unread, left]
  exact slice_store _ _ (by omega)

theorem manyCall_first : ∃ r, manyCall.decoded initialGlobals = .ok (some r) := by
  -- All headers but the last have no length, and a NULL with the last one is read.
  have held : manyCall.b.unread = (List.replicate 127 [0xA0, 0x80]).flatten ++
      (0xA0 :: 0x00 :: List.replicate 254 0) := by
    rw [manyCall]
    dsimp only
    rw [unread_bufferOf ?_, List.append_assoc]
    · rfl
    · simp only [List.length_append, List.length_flatten, List.map_replicate, List.sum_replicate_nat,
        List.length_cons, List.length_nil, List.length_replicate]
      decide
  obtain ⟨s1, headers, held, clear, stack⟩ := @decodeTagsAndLens_replicate 127 [outerTag]
    ⟨manyCall.b, initialGlobals⟩ _ held rfl (by decide)
  have room : s1.glob.tlStkG.length < TL_STK_SIZE := by
    rw [stack, List.length_append, List.length_replicate]
    decide
  obtain ⟨s2, header, held, clear, pushed⟩ := @decodeTagsAndLens_outer [] s1 _ 0 0 held clear room
    (.inl ⟨by decide, rfl⟩)
  rw [stack] at pushed
  have last : (lastTL : Dec SBuf TagNLen).run s2 = .ok ⟨0xA0000000, 0, 2⟩ s2 := by
    rw [EStateM.run, lastTL, pushed]
  have popped : (popTL : Dec SBuf Unit).run s2 = .ok () ⟨s2.buf, { s2.glob with
      tlStkG := List.replicate 127 ⟨0xA0000000, INDEFINITE_LEN, 2⟩ }⟩ := by
    rw [EStateM.run, popTL, pushed]
    rfl
  let outer := List.replicate 127 outerTag
  obtain ⟨n, s3, ends⟩ := @popTagsAndLens_replicate outer (0 + 2) ⟨s2.buf, { s2.glob with
      tlStkG := List.replicate 127 ⟨0xA0000000, INDEFINITE_LEN, 2⟩ }⟩ []
    (by rw [held, List.length_replicate, List.append_nil]) clear
    (by rw [List.length_replicate])
  refine ⟨(.asnNull, 0 + n), decoded_tblOf.2 ⟨s3, ?_⟩⟩
  · have tags : ownTags manyTags false = List.replicate 127 outerTag ++ [outerTag] :=
      List.replicate_succ'
    have headed : (tblDecodeTagsAndLens manyTags false).run ⟨manyCall.b, initialGlobals⟩ =
        .ok () s2 := by
      rw [tblDecodeTagsAndLens, tags]
      exact headers.trans header
    have null : (tblDecodeContent manyCall.tbl (fun tag => tagsMatch manyCall.tbl tag 1)
        (tblDecodeType manyCall.tbl 1) 1 false manyTags).run s2 = .ok (.asnNull, 0) s2 :=
      run_bind_of_ok last
    have footed : (tblPopTagsAndLens manyTags false 0).run s2 = .ok n s3 := by
      rw [tblPopTagsAndLens, tags, List.reverse_append, List.reverse_replicate]
      refine (run_bind_of_ok last).trans ?_
      refine (run_bind_of_ok ?_).trans ((run_bind_of_ok popped).trans ends)
      rfl
    change (tblDecodeType manyCall.tbl 2 manyTags false 0).run ⟨manyCall.b, initialGlobals⟩ = _
    rw [tblDecodeType]
    refine (run_bind_of_ok headed).trans ?_
    refine (run_bind_of_ok null).trans ?_
    exact run_bind_of_ok footed

theorem stack_of_manyCall {glob : Globals} {r : AVal × AsnLen}
    (value : manyCall.decoded glob = .ok (some r)) : glob.tlStkG = [] := by
  obtain ⟨s, ran⟩ := decoded_tblOf.1 value
  obtain ⟨⟨⟩, s1, header, -⟩ := run_bind_eq_ok.1 ran
  have room := room_of_decodeTagsAndLens (by decide) header
  change glob.tlStkG.length + TL_STK_SIZE ≤ TL_STK_SIZE at room
  exact List.eq_nil_of_length_eq_zero (by omega)

/-- A BIT STRING without pieces shows the count of unused bits that is left. -/
theorem decoded_bitsCall (strStkG : StrStk) (unusedBitsG : UInt16) :
    (bitsCall [0x23, 0x00] 2).decoded ⟨strStkG, unusedBitsG, []⟩ =
      .ok (some (.asnBits ⟨intOf (0 * 8 - unusedBitsG.toUInt64), []⟩, 2)) := by
  have held : (bufferOf [0x23, 0x00]).unread = [0x23, 0x00] := by decide
  have held1 : ((bufferOf [0x23, 0x00]).advance 1).unread = [0x00] := by decide
  have tagged := bDecTag_short (s := ⟨bufferOf [0x23, 0x00], strStkG, unusedBitsG, []⟩) 0 held
    (by decide) rfl
  have measured := bDecLen_short
    (s := ⟨(bufferOf [0x23, 0x00]).advance 1, strStkG, unusedBitsG, []⟩) 1 held1 (by decide) rfl
  -- The header is pushed, the contents are empty, and the header is popped.
  have header : (tblDecodeTagsAndLens bitsType false).run
      ⟨bufferOf [0x23, 0x00], strStkG, unusedBitsG, []⟩ =
      .ok () ⟨((bufferOf [0x23, 0x00]).advance 1).advance 1, strStkG, unusedBitsG,
        [⟨0x23000000, 0, 2⟩]⟩ := by
    rw [tblDecodeTagsAndLens]
    refine (run_bind_of_ok tagged).trans ?_
    refine (run_bind_of_ok measured).trans ?_
    rfl
  have content (s : DecState SBuf) (stack : s.glob.tlStkG = [⟨0x23000000, 0, 2⟩]) :
      (decodePrimType .BITSTRING 1).run s =
        .ok (.asnBits ⟨intOf (0 * 8 - s.glob.unusedBitsG.toUInt64), []⟩, 0) s.resetStrStk := by
    have last : lastTL.run s = .ok ⟨0x23000000, 0, 2⟩ s := by
      rw [EStateM.run, lastTL, stack]
    rw [decodePrimType]
    refine (run_bind_of_ok last).trans ?_
    refine (run_bind_of_ok (BitsCall.run_no_pieces s)).trans ?_
    rfl
  refine decoded_tblOf.2 ⟨⟨((bufferOf [0x23, 0x00]).advance 1).advance 1, ⟨[], 0⟩, unusedBitsG, []⟩,
    ?_⟩
  rw [tblDecodeType]
  refine (run_bind_of_ok header).trans ?_
  refine (run_bind_of_ok (content _ rfl)).trans ?_
  rfl

/-- Calls are decoded as a first call is where and only where the stack is empty and no bits
are counted as unused. -/
theorem as_first_iff {glob : Globals} :
    (∀ call : TblCall SBuf, call.decoded glob = call.decoded initialGlobals) ↔
      SameTrace glob initialGlobals := by
  constructor
  · intro asFirst
    -- The stack shows in a call that needs all of it.
    have empty : glob.tlStkG = [] := by
      obtain ⟨r, first⟩ := manyCall_first
      exact stack_of_manyCall ((asFirst manyCall).trans first)
    -- The count shows in a BIT STRING without pieces.
    have shown := asFirst (bitsCall [0x23, 0x00] 2)
    obtain ⟨strStkG, unusedBitsG, tlStkG⟩ := glob
    change tlStkG = [] at empty
    subst empty
    have first := decoded_bitsCall initialGlobals.strStkG initialGlobals.unusedBitsG
    rw [decoded_bitsCall] at shown
    have same := shown.trans first
    injection same with same
    injection same with same
    injection same with same
    injection same with same
    injection same with same
    exact ⟨rfl, BitsCall.unusedBits_inj same⟩
  · intro same call
    exact call.decoded_eq same

end Esnacc
