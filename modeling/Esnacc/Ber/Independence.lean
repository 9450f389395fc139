import Esnacc.Ber.Strings

/-! Decoders that read the buffer only: their outcome does not depend on the file-level variables. -/

namespace Esnacc

open Lib

variable {β : Type} {rel : Globals → Globals → Prop}

/-- The same buffer, under file-level variables that are related. -/
def OnSameBuf (rel : Globals → Globals → Prop) (s s' : DecState β) : Prop :=
  s.buf = s'.buf ∧ rel s.glob s'.glob

theorem OnSameBuf.advance {s s' : DecState β} (related : OnSameBuf rel s s') (next : β → β) :
    OnSameBuf rel { s with buf := next s.buf } { s' with buf := next s'.buf } :=
  ⟨congrArg next related.1, related.2⟩

/-! ## Errors and allocations -/

theorem respects_asn1Error {α : Type} (str : String) (val : Int32) :
    Respects (OnSameBuf rel) (asn1Error str val : Dec β α) :=
  Respects.throw _

theorem respects_longjmp {α : Type} (val : Int32) :
    Respects (OnSameBuf rel) (longjmp val : Dec β α) :=
  Respects.throw _

theorem respects_asn1Alloc (size : UInt64) :
    Respects (OnSameBuf rel) (asn1Alloc size : Dec β Nat) :=
  Respects.ite (Respects.throw _) (Respects.pure _)

theorem respects_storeInto (size : Nat) (octets : List UInt8) :
    Respects (OnSameBuf rel) (storeInto size octets : Dec β (List UInt8)) :=
  Respects.ite (Respects.pure _) (Respects.throw _)

variable [GenBuf β]

/-! ## Reads of the buffer -/

theorem respects_bufGetByte : Respects (OnSameBuf rel) (bufGetByte : Dec β UInt8) := by
  intro s s' related
  refine ⟨?_, related.advance fun b => (GenBuf.getByte b).2⟩
  rw [related.1]

theorem respects_bufPeekByte : Respects (OnSameBuf rel) (bufPeekByte : Dec β UInt8) := by
  intro s s' related
  refine ⟨?_, related.advance fun b => (GenBuf.peekByte b).2⟩
  rw [related.1]

theorem respects_bufReadError : Respects (OnSameBuf rel) (bufReadError : Dec β Bool) := by
  intro s s' related
  refine ⟨?_, related⟩
  rw [related.1]

theorem respects_bufGetSeg (lenPtr : UInt64) :
    Respects (OnSameBuf rel) (bufGetSeg lenPtr : Dec β (Option Ptr × UInt64)) := by
  intro s s' related
  refine ⟨?_, related.advance fun b => (GenBuf.getSeg b lenPtr).2.2⟩
  rw [related.1]

theorem respects_bufCopy (size : Nat) (len : UInt64) :
    Respects (OnSameBuf rel) (bufCopy size len : Dec β (List UInt8)) := by
  intro s s' related
  rw [run_bufCopy, run_bufCopy, ← related.1]
  -- A copy that completes leaves the same buffer behind in both runs.
  cases GenBuf.copy s.buf len with
  | none => exact ⟨rfl, related⟩
  | some copied => exact respects_storeInto size copied.1 (related.advance fun _ => copied.2)

theorem respects_shiftOctetsIn (n : Nat) (val : UInt64) :
    Respects (OnSameBuf rel) (shiftOctetsIn n val : Dec β UInt64) := by
  induction n generalizing val with
  | zero => exact Respects.pure val
  | succ n ih => exact Respects.bind respects_bufGetByte fun byte => ih _

theorem respects_checked {α : Type} (str : String) (val : Int32) {x : Dec β α}
    (read : Respects (OnSameBuf rel) x) :
    Respects (OnSameBuf rel) (do if ← bufReadError then asn1Error str val else x : Dec β α) :=
  Respects.bind respects_bufReadError fun _ => Respects.ite (respects_asn1Error str val) read

/-! ## Tags and lengths -/

theorem respects_bDecTagLoop (room : Nat) (tagId : AsnTag) (bytesDecoded : AsnLen) :
    Respects (OnSameBuf rel) (bDecTagLoop room tagId bytesDecoded : Dec β _) := by
  induction room generalizing tagId bytesDecoded with
  | zero => exact Respects.pure _
  | succ room ih =>
    refine Respects.bind respects_bufGetByte fun tmpTagId => ?_
    exact Respects.ite (ih _ _) (Respects.pure _)

theorem respects_bDecTag (bytesDecoded : AsnLen) :
    Respects (OnSameBuf rel) (bDecTag bytesDecoded : Dec β _) := by
  refine Respects.bind respects_bufGetByte fun byte => ?_
  refine Respects.bind (Respects.ite (respects_bDecTagLoop _ _ _) (Respects.pure _)) fun read => ?_
  exact Respects.ite (respects_asn1Error _ _) (respects_checked _ _ (Respects.pure _))

theorem respects_bDecLen (bytesDecoded : AsnLen) :
    Respects (OnSameBuf rel) (bDecLen bytesDecoded : Dec β _) := by
  refine Respects.bind respects_bufGetByte fun byte => respects_checked _ _ ?_
  refine Respects.ite (Respects.pure _) (Respects.ite (Respects.pure _) ?_)
  refine Respects.ite (respects_asn1Error _ _) ?_
  exact Respects.bind (respects_shiftOctetsIn _ _) fun len =>
    respects_checked _ _ (Respects.pure _)

theorem respects_bDec2ndEocOctet (bytesDecoded : AsnLen) :
    Respects (OnSameBuf rel) (bDec2ndEocOctet bytesDecoded : Dec β _) := by
  refine Respects.bind respects_bufGetByte fun byte => ?_
  exact Respects.ite (respects_asn1Error _ _) (respects_checked _ _ (Respects.pure _))

theorem respects_bDecEoc (bytesDecoded : AsnLen) :
    Respects (OnSameBuf rel) (bDecEoc bytesDecoded : Dec β _) := by
  refine Respects.bind respects_bufGetByte fun first => Respects.ite (respects_asn1Error _ _) ?_
  refine Respects.bind respects_bufGetByte fun second => Respects.ite (respects_asn1Error _ _) ?_
  exact respects_checked _ _ (Respects.pure _)

/-! ## Contents -/

theorem respects_bDecAsnBoolContent (tagId : AsnTag) (len bytesDecoded : AsnLen) :
    Respects (OnSameBuf rel) (bDecAsnBoolContent tagId len bytesDecoded : Dec β _) := by
  refine Respects.ite (respects_asn1Error _ _) ?_
  exact Respects.bind respects_bufGetByte fun byte => respects_checked _ _ (Respects.pure _)

omit [GenBuf β] in
theorem respects_bDecAsnNullContent (tagId : AsnTag) (len bytesDecoded : AsnLen) :
    Respects (OnSameBuf rel) (bDecAsnNullContent tagId len bytesDecoded : Dec β _) :=
  Respects.ite (respects_asn1Error _ _) (Respects.pure _)

theorem respects_bDecAsnIntContent (tagId : AsnTag) (len bytesDecoded : AsnLen) :
    Respects (OnSameBuf rel) (bDecAsnIntContent tagId len bytesDecoded : Dec β _) := by
  refine Respects.ite (respects_asn1Error _ _) (Respects.bind respects_bufGetByte fun byte => ?_)
  exact Respects.bind (respects_shiftOctetsIn _ _) fun retVal =>
    respects_checked _ _ (Respects.pure _)

theorem respects_bDecAsnOidContent (tagId : AsnTag) (len bytesDecoded : AsnLen) :
    Respects (OnSameBuf rel) (bDecAsnOidContent tagId len bytesDecoded : Dec β _) := by
  refine Respects.ite (respects_asn1Error _ _) (Respects.bind (respects_asn1Alloc _) fun size => ?_)
  exact Respects.bind (respects_bufCopy _ _) fun octs => respects_checked _ _ (Respects.pure _)

theorem respects_primitive_octs (fuel : Nat) {tag : AsnTag} (primitive : ¬ tagIsCons tag = true)
    (len bytesDecoded : AsnLen) :
    Respects (OnSameBuf rel) (bDecAsnOctsContent fuel tag len bytesDecoded : Dec β _) := by
  rw [bDecAsnOctsContent, if_neg primitive]
  refine Respects.ite (respects_asn1Error _ _) (Respects.bind (respects_asn1Alloc _) fun size => ?_)
  refine Respects.bind (respects_bufCopy _ _) fun octs => respects_checked _ _ ?_
  exact Respects.bind (respects_storeInto _ _) fun _ => Respects.pure _

theorem respects_expOctetsLoop (i : Int32) (fuel : Nat) (exponent : UInt64) :
    Respects (OnSameBuf rel) (expOctetsLoop i fuel exponent : Dec β UInt64) := by
  induction fuel generalizing exponent with
  | zero => exact Respects.throw _
  | succ fuel ih =>
    exact Respects.ite (Respects.bind respects_bufGetByte fun byte => ih _) (Respects.pure _)

theorem respects_decExponent (fuel : Nat) (firstOctet firstExpOctet : UInt8) :
    Respects (OnSameBuf rel) (decExponent fuel firstOctet firstExpOctet : Dec β _) := by
  -- The exponent has one, two or three octets, or as many as an octet of their own says.
  refine Respects.ite (Respects.pure _) (Respects.ite ?_ (Respects.ite ?_ ?_))
  · exact Respects.bind respects_bufGetByte fun byte => Respects.pure _
  · exact Respects.bind respects_bufGetByte fun byte =>
      Respects.bind respects_bufGetByte fun byte => Respects.pure _
  · exact Respects.bind respects_bufGetByte fun byte =>
      Respects.bind (respects_expOctetsLoop _ _ _) fun exponent => Respects.pure _

theorem respects_mantissaOctets (n : Nat) (mantissa : Float) :
    Respects (OnSameBuf rel) (mantissaOctets n mantissa : Dec β Float) := by
  induction n generalizing mantissa with
  | zero => exact Respects.pure _
  | succ n ih => exact Respects.bind respects_bufGetByte fun byte => ih _

theorem respects_bDecBinaryReal (fuel : Nat) (firstOctet : UInt8) (len bytesDecoded : AsnLen) :
    Respects (OnSameBuf rel) (bDecBinaryReal fuel firstOctet len bytesDecoded : Dec β _) := by
  refine Respects.bind respects_bufGetByte fun firstExpOctet => ?_
  refine Respects.bind (respects_decExponent _ _ _) fun exponent => ?_
  refine Respects.bind (respects_mantissaOctets _ _) fun mantissa => ?_
  -- The base is a part of the first octet.
  cases realBase firstOctet with
  | none => exact respects_asn1Error _ _
  | some base => exact Respects.pure _

theorem respects_bDecAsnRealContent (fuel : Nat) (tagId : AsnTag) (len bytesDecoded : AsnLen) :
    Respects (OnSameBuf rel) (bDecAsnRealContent fuel tagId len bytesDecoded : Dec β _) := by
  refine Respects.ite (Respects.pure _) (Respects.ite (respects_asn1Error _ _) ?_)
  refine Respects.bind respects_bufGetByte fun firstOctet => Respects.ite ?_ (Respects.ite ?_ ?_)
  · exact Respects.ite (Respects.pure _) (Respects.ite (Respects.pure _) (respects_asn1Error _ _))
  · exact respects_bDecBinaryReal _ _ _ _
  · exact respects_asn1Error _ _

end Esnacc
