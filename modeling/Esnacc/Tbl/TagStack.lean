import Esnacc.Tbl.Traces

/-! What is popped and what is left of the tags and lengths that a table decode pushes. -/

namespace Esnacc

open Lib

variable {β : Type}

/-- The stack of tags and lengths is the given one. -/
def StackIs (stk : List TagNLen) (s : DecState β) : Prop :=
  s.glob.tlStkG = stk

/-- What looks at the buffer only keeps the stack. -/
theorem keeps_of_respects {α : Type} {x : Dec β α}
    (reads : ∀ rel, Respects (OnSameBuf rel) x) (stk : List TagNLen) : Keeps (StackIs stk) x := by
  intro s holds
  -- The run is compared with itself, under a relation that says what the stack is.
  have related : OnSameBuf (fun g _ => g.tlStkG = stk) s s := ⟨rfl, holds⟩
  have alike := reads _ related
  cases ran : x.run s with
  | ok r t =>
    rw [ran] at alike
    exact alike.2.2
  | error e t =>
    rw [ran] at alike
    exact alike.2.2

/-! ## Strings -/

section

variable (stk : List TagNLen)

theorem keeps_resetStrStk : Keeps (StackIs stk) (resetStrStk : Dec β Unit) :=
  fun _ holds => holds

theorem keeps_pushStr (strPtr : Option Ptr) (strsLen : UInt64) :
    Keeps (StackIs stk) (pushStr strPtr strsLen : Dec β Unit) :=
  fun _ holds => holds

theorem keeps_getTotalByteLen : Keeps (StackIs stk) (getTotalByteLen : Dec β UInt64) :=
  fun _ holds => holds

theorem keeps_getUnusedBitsG : Keeps (StackIs stk) (getUnusedBitsG : Dec β UInt16) :=
  fun _ holds => holds

theorem keeps_setUnusedBitsG (unusedBits : UInt16) :
    Keeps (StackIs stk) (setUnusedBitsG unusedBits : Dec β Unit) :=
  fun _ holds => holds

theorem keeps_storeInto (size : Nat) (octets : List UInt8) :
    Keeps (StackIs stk) (storeInto size octets : Dec β (List UInt8)) :=
  Keeps.ite (Keeps.pure _) (Keeps.throw _)

theorem keeps_mergePieces (size : Nat) :
    Keeps (StackIs stk) (mergePieces size : Dec β (List UInt8)) := by
  intro s holds
  rw [EStateM.run, mergePieces]
  cases copyPieces s.glob.strStkG.stk.reverse with
  | none => exact holds
  | some octets => exact keeps_storeInto stk size octets holds

variable [GenBuf β]

theorem keeps_octetPieceLoop (elmtLen1 : AsnLen) (fuel : Nat) (refdLen totalRefdLen : UInt64) :
    Keeps (StackIs stk) (octetPieceLoop elmtLen1 fuel refdLen totalRefdLen : Dec β Unit) := by
  induction fuel generalizing refdLen totalRefdLen with
  | zero => exact Keeps.throw _
  | succ fuel ih =>
    refine Keeps.bind (keeps_of_respects (fun _ => respects_bufGetSeg _) stk) fun seg => ?_
    refine Keeps.bind (keeps_pushStr stk _ _) fun _ => Keeps.ite (Keeps.pure _) ?_
    exact Keeps.ite (Keeps.throw _) (ih _ _)

theorem keeps_bitPieceLoop (fuel : Nat) (lenToRef : UInt64) :
    Keeps (StackIs stk) (bitPieceLoop fuel lenToRef : Dec β Unit) := by
  induction fuel generalizing lenToRef with
  | zero => exact Keeps.throw _
  | succ fuel ih =>
    refine Keeps.ite ?_ (Keeps.pure _)
    refine Keeps.bind (keeps_of_respects (fun _ => respects_bufGetSeg _) stk) fun seg => ?_
    refine Keeps.ite (Keeps.throw _) ?_
    exact Keeps.bind (keeps_pushStr stk _ _) fun _ => ih _

theorem keeps_bitPiece (fuel : Nat) (elmtLen1 : AsnLen) :
    Keeps (StackIs stk) (bitPiece fuel elmtLen1 : Dec β Unit) := by
  refine Keeps.ite (Keeps.throw _) ?_
  refine Keeps.bind (keeps_getUnusedBitsG stk) fun unused => Keeps.ite (Keeps.throw _) ?_
  refine Keeps.bind (keeps_of_respects (fun _ => respects_bufGetByte) stk) fun octet => ?_
  exact Keeps.bind (keeps_setUnusedBitsG stk _) fun _ => keeps_bitPieceLoop stk _ _

/-- A collector keeps what its treatment of a primitive piece keeps. -/
theorem keeps_fillStringStk {tagCode : UInt32} {wrongTag : Exit} {piece : AsnLen → Dec β Unit}
    (keeps : ∀ len, Keeps (StackIs stk) (piece len)) (exhausted : Exit) (fuel : Nat)
    (pos : StkPos) :
    Keeps (StackIs stk) ((fillStringStk tagCode wrongTag piece).run exhausted fuel pos) := by
  refine Loop.run_keeps (fun pos => ?_) fuel pos
  -- One turn reads a tag and either ends or treats the element.
  refine Keeps.bind (keeps_of_respects (fun _ => respects_bDecTag _) stk) fun tag => ?_
  refine Keeps.ite ?_ ?_
  · exact Keeps.bind (keeps_of_respects (fun _ => respects_bDec2ndEocOctet _) stk) fun _ =>
      Keeps.pure _
  · refine Keeps.bind (keeps_of_respects (fun _ => respects_bDecLen _) stk) fun len => ?_
    refine Keeps.ite (Keeps.bind (keeps _) fun _ => Keeps.pure _) ?_
    exact Keeps.ite (Keeps.pure _) (Keeps.throw _)

theorem keeps_bDecAsnOctsContent (fuel : Nat) (tag : AsnTag) (len bytesDecoded : AsnLen) :
    Keeps (StackIs stk) (bDecAsnOctsContent fuel tag len bytesDecoded : Dec β _) := by
  by_cases constructed : tagIsCons tag = true
  · rw [bDecAsnOctsContent, if_pos constructed]
    refine Keeps.bind (keeps_resetStrStk stk) fun _ => ?_
    refine Keeps.bind ?_ fun _ => Keeps.bind (keeps_getTotalByteLen stk) fun _ => ?_
    · exact Keeps.bind (keeps_fillStringStk stk (keeps_octetPieceLoop stk · fuel _ 0) _ _ _)
        fun _ => Keeps.pure _
    · refine Keeps.bind (Keeps.ite (Keeps.throw _) (Keeps.pure _)) fun _ => ?_
      refine Keeps.bind (keeps_mergePieces stk _) fun _ => ?_
      exact Keeps.bind (keeps_storeInto stk _ _) fun _ => Keeps.pure _
  · exact keeps_of_respects (fun _ => respects_primitive_octs fuel constructed len bytesDecoded) stk

theorem keeps_bDecAsnBitsContent (fuel : Nat) (tag : AsnTag) (len bytesDecoded : AsnLen) :
    Keeps (StackIs stk) (bDecAsnBitsContent fuel tag len bytesDecoded : Dec β _) := by
  by_cases constructed : tagIsCons tag = true
  · rw [bDecAsnBitsContent, if_pos constructed]
    refine Keeps.bind (keeps_resetStrStk stk) fun _ => ?_
    refine Keeps.bind ?_ fun _ => Keeps.bind (keeps_getTotalByteLen stk) fun _ => ?_
    · exact Keeps.bind (keeps_fillStringStk stk (keeps_bitPiece stk fuel) _ _ _)
        fun _ => Keeps.pure _
    · refine Keeps.bind (keeps_getUnusedBitsG stk) fun _ => ?_
      refine Keeps.bind (Keeps.ite (Keeps.throw _) (Keeps.pure _)) fun _ => ?_
      exact Keeps.bind (keeps_mergePieces stk _) fun _ => Keeps.pure _
  · exact keeps_of_respects (fun _ => respects_primitive_bits fuel constructed len bytesDecoded) stk

end

/-! ## Balanced decoding -/

/-- A decoder that gives back the stack as it was, and only pushes on it where it fails. -/
def Balanced {α : Type} (x : Dec β α) : Prop :=
  ∀ s, match x.run s with
    | .ok _ t => t.glob.tlStkG = s.glob.tlStkG
    | .error _ t => s.glob.tlStkG <:+ t.glob.tlStkG

namespace Balanced

variable {α γ : Type}

theorem of_keeps {x : Dec β α} (keeps : ∀ stk, Keeps (StackIs stk) x) : Balanced x := by
  intro s
  have kept := keeps s.glob.tlStkG (s := s) rfl
  cases ran : x.run s with
  | ok r t =>
    rw [ran] at kept
    exact kept
  | error e t =>
    rw [ran] at kept
    exact ⟨[], kept.symm⟩

theorem of_respects {x : Dec β α} (reads : ∀ rel, Respects (OnSameBuf rel) x) : Balanced x :=
  of_keeps (keeps_of_respects reads)

theorem pure (r : α) : Balanced (pure r : Dec β α) := of_keeps fun _ => Keeps.pure r

theorem throw (e : Exit) : Balanced (throw e : Dec β α) := of_keeps fun _ => Keeps.throw e

theorem bind {x : Dec β α} {f : α → Dec β γ} (first : Balanced x)
    (later : ∀ a, Balanced (f a)) : Balanced (x >>= f) := by
  intro s
  have mid := first s
  rw [EStateM.run_bind]
  cases ran : x.run s with
  | ok a t =>
    rw [ran] at mid
    have last := later a t
    rw [mid] at last
    exact last
  | error e t =>
    rw [ran] at mid
    exact mid

theorem ite {c : Prop} [Decidable c] {x y : Dec β α} (pos : Balanced x) (neg : Balanced y) :
    Balanced (if c then x else y) := by
  by_cases holds : c
  · rw [if_pos holds]
    exact pos
  · rw [if_neg holds]
    exact neg

end Balanced

theorem balanced_ofExcept {α : Type} (answer : Except Exit α) :
    Balanced (ofExcept answer : Dec β α) := by
  cases answer with
  | ok a => exact Balanced.pure a
  | error e => exact Balanced.throw e

theorem balanced_lastTL : Balanced (lastTL : Dec β TagNLen) := by
  apply Balanced.of_keeps
  intro stk s holds
  rw [EStateM.run, lastTL]
  cases s.glob.tlStkG with
  | nil => exact holds
  | cons entry rest => exact holds

theorem balanced_withinLen (bytesDecoded : AsnLen) :
    Balanced (withinLen bytesDecoded : Dec β Bool) :=
  Balanced.bind balanced_lastTL fun _ => Balanced.pure _

section

variable [GenBuf β]

theorem balanced_notEoc (bytesDecoded : AsnLen) : Balanced (notEoc bytesDecoded : Dec β Bool) :=
  Balanced.of_respects fun _ => respects_notEoc bytesDecoded

theorem balanced_peekTag : Balanced (peekTag : Dec β AsnTag) :=
  Balanced.of_respects fun _ => respects_peekTag

/-! ## The header of a type -/

/-- What reads the tags of a type pushes one entry for each. -/
theorem pushed_of_decodeTagsAndLens (tags : List TBLTag) (s : DecState β) :
    match (decodeTagsAndLens tags).run s with
    | .ok _ t => ∃ entries : List TagNLen, entries.length = tags.length ∧
        t.glob.tlStkG = entries ++ s.glob.tlStkG
    | .error _ t => s.glob.tlStkG <:+ t.glob.tlStkG := by
  -- The induction is on the tags that are to be read.
  induction tags generalizing s with
  | nil => exact ⟨[], rfl, rfl⟩
  | cons tblTag rest ih =>
    have tagged := Balanced.of_respects (fun _ => respects_bDecTag 0) s
    rw [decodeTagsAndLens, EStateM.run_bind]
    cases ranTag : (bDecTag 0).run s with
    | error e s1 =>
      rw [ranTag] at tagged
      exact tagged
    | ok tag s1 =>
      rw [ranTag] at tagged
      dsimp only at tagged ⊢
      have measured := Balanced.of_respects (fun _ => respects_bDecLen tag.2) s1
      rw [EStateM.run_bind]
      cases ranLen : (bDecLen tag.2).run s1 with
      | error e s2 =>
        rw [ranLen, tagged] at measured
        exact measured
      | ok len s2 =>
        rw [ranLen, tagged] at measured
        dsimp only at measured ⊢
        by_cases other : (!tagsEquiv tag.1 tblTag) = true
        · rw [if_pos other]
          exact ⟨[], measured.symm⟩
        · rw [if_neg other, EStateM.run_bind, EStateM.run, pushTL]
          by_cases full : s2.glob.tlStkG.length ≥ TL_STK_SIZE
          · rw [if_pos full]
            exact ⟨[], measured.symm⟩
          · rw [if_neg full]
            have later := ih ⟨s2.buf, { s2.glob with
              tlStkG := ⟨tag.1, len.1, len.2.toUInt32⟩ :: s2.glob.tlStkG }⟩
            dsimp only at later ⊢
            rw [measured] at later ⊢
            cases ran : (decodeTagsAndLens rest).run ⟨s2.buf, { s2.glob with
                tlStkG := ⟨tag.1, len.1, len.2.toUInt32⟩ :: s.glob.tlStkG }⟩ with
            | ok r t =>
              rw [ran] at later
              obtain ⟨entries, counted, stack⟩ := later
              refine ⟨entries ++ [⟨tag.1, len.1, len.2.toUInt32⟩], ?_, ?_⟩
              · rw [List.length_append, counted, List.length_singleton, List.length_cons]
              · rw [stack, List.append_assoc, List.singleton_append]
            | error e t =>
              rw [ran] at later
              exact (List.suffix_cons _ _).trans later

/-- What checks the lengths of a type pops one entry for each. -/
theorem popped_of_popTagsAndLens {tags : List TBLTag} {entries base : List TagNLen}
    (counted : entries.length = tags.length) (bytesDecoded : AsnLen) {s : DecState β}
    (stack : s.glob.tlStkG = entries ++ base) :
    match (popTagsAndLens tags bytesDecoded).run s with
    | .ok _ t => t.glob.tlStkG = base
    | .error _ t => base <:+ t.glob.tlStkG := by
  -- The induction is on the tags, whose entries are on top.
  induction tags generalizing entries bytesDecoded s with
  | nil =>
    have none := List.eq_nil_of_length_eq_zero counted
    subst none
    exact stack
  | cons tblTag rest ih =>
    obtain ⟨entry, more, rfl⟩ := List.exists_cons_of_length_eq_add_one counted
    have last : lastTL.run s = .ok entry s := by
      rw [EStateM.run, lastTL, stack]
      rfl
    have checked : Balanced (if entry.len = INDEFINITE_LEN then bDecEoc bytesDecoded
        else if bytesDecoded ≠ entry.len then longjmp (-1003)
        else pure bytesDecoded : Dec β AsnLen) := by
      refine Balanced.ite (Balanced.of_respects fun _ => respects_bDecEoc _) ?_
      exact Balanced.ite (Balanced.throw _) (Balanced.pure _)
    have mid := checked s
    rw [popTagsAndLens, run_bind_of_ok last, EStateM.run_bind]
    cases ran : EStateM.run (if entry.len = INDEFINITE_LEN then bDecEoc bytesDecoded
        else if bytesDecoded ≠ entry.len then longjmp (-1003)
        else pure bytesDecoded : Dec β AsnLen) s with
    | error e t =>
      rw [ran, stack] at mid
      exact (List.suffix_append _ _).trans mid
    | ok n t =>
      rw [ran, stack] at mid
      have pop : popTL.run t = .ok () ⟨t.buf, { t.glob with tlStkG := more ++ base }⟩ := by
        rw [EStateM.run, popTL, mid]
        rfl
      dsimp only
      rw [run_bind_of_ok pop]
      exact ih (Nat.succ_inj.mp counted) _ rfl

/-! ## Contents -/

section

variable {isMatch : AsnTag → TBLType → Except Exit Bool}
  {decodeType : TBLType → Bool → AsnLen → Dec β (AVal × AsnLen)}

theorem balanced_decodePrimType (typeId : TBLPrimTypeId) (turns : Nat) :
    Balanced (decodePrimType typeId turns : Dec β _) := by
  refine Balanced.bind balanced_lastTL fun last => ?_
  cases typeId with
  | BOOLEAN =>
    refine Balanced.bind (Balanced.of_respects fun _ => ?_) fun _ => Balanced.pure _
    exact respects_bDecAsnBoolContent _ _ _
  | INTEGER =>
    refine Balanced.bind (Balanced.of_respects fun _ => ?_) fun _ => Balanced.pure _
    exact respects_bDecAsnIntContent _ _ _
  | ENUMERATED =>
    refine Balanced.bind (Balanced.of_respects fun _ => ?_) fun _ => Balanced.pure _
    exact respects_bDecAsnIntContent _ _ _
  | BITSTRING =>
    refine Balanced.bind (Balanced.of_keeps fun stk => ?_) fun _ => Balanced.pure _
    exact keeps_bDecAsnBitsContent stk _ _ _ _
  | OCTETSTRING =>
    refine Balanced.bind (Balanced.of_keeps fun stk => ?_) fun _ => Balanced.pure _
    exact keeps_bDecAsnOctsContent stk _ _ _ _
  | NULL =>
    refine Balanced.bind (Balanced.of_respects fun _ => ?_) fun _ => Balanced.pure _
    exact respects_bDecAsnNullContent _ _ _
  | OID =>
    refine Balanced.bind (Balanced.of_respects fun _ => ?_) fun _ => Balanced.pure _
    exact respects_bDecAsnOidContent _ _ _
  | REAL =>
    refine Balanced.bind (Balanced.of_respects fun _ => ?_) fun _ => Balanced.pure _
    exact respects_bDecAsnRealContent _ _ _ _

variable (balanced : ∀ t implicit n, Balanced (decodeType t implicit n))

include balanced

theorem balanced_decodeSequence (currElmt : Nat) (elmts : List TBLType)
    (stores : List (Nat × AVal)) (n : AsnLen) :
    Balanced (decodeSequence isMatch decodeType currElmt elmts stores n) := by
  induction elmts generalizing currElmt stores n with
  | nil => exact Balanced.pure _
  | cons t rest ih =>
    refine Balanced.bind balanced_peekTag fun asnTag => ?_
    refine Balanced.bind (balanced_ofExcept _) fun begins => Balanced.ite ?_ ?_
    · exact Balanced.bind (balanced _ _ _) fun _ => ih _ _ _
    · exact Balanced.ite (Balanced.throw _) (ih _ _ _)

theorem balanced_decodeSetElmts (elmts : List TBLType) {more : AsnLen → Dec β Bool}
    (asks : ∀ n, Balanced (more n)) (noMatch : Int32) (turns : Nat) (x : ASetVal) (n : AsnLen) :
    Balanced (decodeSetElmts isMatch decodeType elmts more noMatch turns x n) := by
  induction turns generalizing x n with
  | zero => exact Balanced.throw _
  | succ turns ih =>
    refine Balanced.bind (asks _) fun goesOn => Balanced.ite ?_ (Balanced.pure _)
    refine Balanced.bind (Balanced.bind balanced_peekTag fun asnTag => ?_) fun _ => ih _ _
    refine Balanced.bind (balanced_ofExcept _) fun found => ?_
    cases found with
    | none => exact Balanced.throw _
    | some component => exact Balanced.bind (balanced _ _ _) fun _ => Balanced.pure _

theorem balanced_decodeSet (elmts : List TBLType) (turns : Nat) :
    Balanced (decodeSet isMatch decodeType elmts turns) := by
  refine Balanced.bind balanced_lastTL fun last => Balanced.bind (Balanced.ite ?_ ?_) fun _ =>
    Balanced.ite (Balanced.throw _) (Balanced.pure _)
  · exact balanced_decodeSetElmts balanced elmts balanced_notEoc _ _ _ _
  · exact balanced_decodeSetElmts balanced elmts balanced_withinLen _ _ _ _

omit [GenBuf β] in
theorem balanced_decodeListElmts (listElmtType : TBLType) {more : AsnLen → Dec β Bool}
    (asks : ∀ n, Balanced (more n)) (turns : Nat) (vs : List AVal) (n : AsnLen) :
    Balanced (decodeListElmts decodeType listElmtType more turns vs n) := by
  induction turns generalizing vs n with
  | zero => exact Balanced.throw _
  | succ turns ih =>
    refine Balanced.bind (asks _) fun goesOn => Balanced.ite ?_ (Balanced.pure _)
    exact Balanced.bind (balanced _ _ _) fun _ => ih _ _

theorem balanced_decodeList (elmts : List TBLType) (turns : Nat) :
    Balanced (decodeList decodeType elmts turns) := by
  cases elmts with
  | nil => exact Balanced.throw _
  | cons listElmtType rest =>
    refine Balanced.bind balanced_lastTL fun last => Balanced.ite ?_ ?_
    · exact balanced_decodeListElmts balanced listElmtType balanced_notEoc _ _ _
    · exact balanced_decodeListElmts balanced listElmtType balanced_withinLen _ _ _

theorem balanced_decodeChoice (elmts : List TBLType) :
    Balanced (decodeChoice isMatch decodeType elmts) := by
  refine Balanced.bind balanced_peekTag fun asnTag => ?_
  refine Balanced.bind (balanced_ofExcept _) fun found => ?_
  cases found with
  | some component => exact Balanced.bind (balanced _ _ _) fun _ => Balanced.pure _
  | none =>
    cases elmts.getLast? with
    | some t => exact Balanced.bind (balanced _ _ _) fun _ => Balanced.pure _
    | none => exact Balanced.throw _

theorem balanced_tblDecodeContent (tbl : TBL) (turns : Nat) (implicit : Bool) (t : TBLType) :
    Balanced (tblDecodeContent tbl isMatch decodeType turns implicit t) := by
  cases t with
  | primType typeId optional tagList => exact balanced_decodePrimType typeId turns
  | elmts typeId optional tagList elmts =>
    cases typeId with
    | SEQUENCE =>
      exact Balanced.bind (balanced_decodeSequence balanced _ _ _ _) fun _ => Balanced.pure _
    | SET => exact Balanced.bind (balanced_decodeSet balanced _ _) fun _ => Balanced.pure _
    | SEQUENCEOF => exact Balanced.bind (balanced_decodeList balanced _ _) fun _ => Balanced.pure _
    | SETOF => exact Balanced.bind (balanced_decodeList balanced _ _) fun _ => Balanced.pure _
    | CHOICE => exact Balanced.bind (balanced_decodeChoice balanced _) fun _ => Balanced.pure _
  | typeRef optional tagList typeDef implicitRef =>
    rw [tblDecodeContent]
    cases tblFindTypeDefByIndex tbl typeDef with
    | none => exact Balanced.throw _
    | some tblTd => exact balanced _ _ _

end

/-- Decoding a type pops as many tags as it pushed, where it does not fail. -/
theorem balanced_tblDecodeType (tbl : TBL) (turns : Nat) (t : TBLType) (implicit : Bool)
    (n : AsnLen) : Balanced (tblDecodeType tbl turns t implicit n : Dec β _) := by
  -- The induction is on the calls that the stack has room for.
  induction turns generalizing t implicit n with
  | zero => exact Balanced.throw _
  | succ turns ih =>
    intro s
    have pushed := pushed_of_decodeTagsAndLens (ownTags t implicit) s
    rw [tblDecodeType, tblDecodeTagsAndLens, EStateM.run_bind]
    cases header : (decodeTagsAndLens (ownTags t implicit)).run s with
    | error e s1 =>
      rw [header] at pushed
      exact pushed
    | ok u s1 =>
      rw [header] at pushed
      obtain ⟨entries, counted, stack⟩ := pushed
      let isMatch := fun tag => tagsMatch tbl tag turns
      have inner : Balanced (tblDecodeContent tbl isMatch (tblDecodeType tbl turns) turns implicit t) :=
        balanced_tblDecodeContent ih tbl turns implicit t
      have content := inner s1
      dsimp only
      rw [EStateM.run_bind]
      cases decoded : (tblDecodeContent tbl isMatch (tblDecodeType tbl turns) turns implicit t).run
          s1 with
      | error e s2 =>
        rw [decoded, stack] at content
        exact (List.suffix_append _ _).trans content
      | ok v s2 =>
        rw [decoded, stack] at content
        dsimp only at content ⊢
        -- The tags are popped from the last one on.
        have counted' : entries.length = (ownTags t implicit).reverse.length := by
          rw [counted, List.length_reverse]
        have popped := popped_of_popTagsAndLens counted' v.2 content
        rw [tblPopTagsAndLens, EStateM.run_bind]
        cases last : (popTagsAndLens (ownTags t implicit).reverse v.2).run s2 with
        | error e s3 =>
          rw [last] at popped
          exact popped
        | ok m s3 =>
          rw [last] at popped
          exact popped

end

end Esnacc
