import Esnacc.Ber.Independence
import Esnacc.Ber.Progress
import Esnacc.Lib.Run

/-! What one decoding of a bit string leaves behind for the next one. -/

namespace Esnacc

open Lib

/-! ## Collecting the pieces under related file-level variables -/

section

variable {β : Type} [GenBuf β] {rel : Globals → Globals → Prop}

theorem respects_fillStringStk_turn {tagCode : UInt32} {wrongTag : Exit}
    {primitivePiece : AsnLen → Dec β Unit}
    (pieces : ∀ len, Respects (OnSameBuf rel) (primitivePiece len)) (p : StkPos) :
    Respects (OnSameBuf rel) ((fillStringStk tagCode wrongTag primitivePiece).turn p) := by
  refine Respects.bind (respects_bDecTag _) fun tag => ?_
  -- A turn meets the end of contents, a piece, an inner string or a foreign tag.
  refine Respects.ite (Respects.bind (respects_bDec2ndEocOctet _) fun _ => Respects.pure _) ?_
  refine Respects.bind (respects_bDecLen _) fun len => ?_
  refine Respects.ite (Respects.bind (pieces _) fun _ => Respects.pure _) ?_
  exact Respects.ite (Respects.pure _) (Respects.throw _)

theorem respects_bitPieceLoop
    (push : ∀ str len, Respects (OnSameBuf rel) (pushStr str len : Dec β Unit)) (fuel : Nat)
    (lenToRef : UInt64) : Respects (OnSameBuf rel) (bitPieceLoop fuel lenToRef : Dec β Unit) := by
  induction fuel generalizing lenToRef with
  | zero => exact Respects.throw _
  | succ fuel ih =>
    rw [bitPieceLoop]
    refine Respects.ite (Respects.bind (respects_bufGetSeg _) fun seg => ?_) (Respects.pure _)
    exact Respects.ite (respects_asn1Error _ _) (Respects.bind (push _ _) fun _ => ih _)

/-- Decoding the pieces and merging them respects what each of the steps does. -/
theorem respects_mergedBits {fuel : Nat}
    (pieces : ∀ len, Respects (OnSameBuf rel) (bitPiece fuel len : Dec β Unit))
    (total : Respects (OnSameBuf rel) (getTotalByteLen : Dec β UInt64))
    (counted : Respects (OnSameBuf rel) (getUnusedBitsG : Dec β UInt16))
    (merge : ∀ size, Respects (OnSameBuf rel) (mergePieces size : Dec β (List UInt8)))
    (len bytesDecoded : AsnLen) :
    Respects (OnSameBuf rel) (do
      let bytesDecoded ← fillBitStringStk fuel len bytesDecoded
      let totalByteLen ← getTotalByteLen
      let bitLen := intOf (totalByteLen * 8 - (← getUnusedBitsG).toUInt64)
      let size ← asn1Alloc totalByteLen
      let bits ← mergePieces size
      return (⟨bitLen, bits⟩, bytesDecoded) : Dec β (AsnBits × AsnLen)) := by
  have filled : Respects (OnSameBuf rel)
      ((bitStringLoop fuel).run .outOfTurns fuel ⟨len, 0⟩ : Dec β AsnLen) :=
    Loop.run_respects (respects_fillStringStk_turn pieces) _ _
  refine Respects.bind (Respects.bind filled fun _ => Respects.pure _) fun n => ?_
  refine Respects.bind total fun totalByteLen => Respects.bind counted fun unusedBits => ?_
  refine Respects.bind (respects_asn1Alloc _) fun size => ?_
  exact Respects.bind (merge _) fun bits => Respects.pure _

theorem respects_primitive_bits (fuel : Nat) {tag : AsnTag}
    (primitive : ¬ tagIsCons tag = true) (len bytesDecoded : AsnLen) :
    Respects (OnSameBuf rel) (bDecAsnBitsContent fuel tag len bytesDecoded : Dec β _) := by
  rw [bDecAsnBitsContent, if_neg primitive]
  refine Respects.ite (respects_asn1Error _ _) (Respects.ite (respects_asn1Error _ _) ?_)
  refine Respects.bind respects_bufGetByte fun byte => ?_
  refine Respects.bind (respects_asn1Alloc _) fun size => ?_
  exact Respects.bind (respects_bufCopy _ _) fun bits => respects_checked _ _ (Respects.pure _)

end

/-! ## Equal collected pieces -/

/-- The same pieces collected so far and the same count of unused bits. -/
def SameCollected (g g' : Globals) : Prop :=
  g.strStkG = g'.strStkG ∧ g.unusedBitsG = g'.unusedBitsG

/-- The same count of unused bits. -/
def SameUnusedBits (g g' : Globals) : Prop :=
  g.unusedBitsG = g'.unusedBitsG

section

variable {β : Type}

theorem respects_pushStr (strPtr : Option Ptr) (strsLen : UInt64) :
    Respects (OnSameBuf SameCollected) (pushStr strPtr strsLen : Dec β Unit) := by
  intro s s' related
  obtain ⟨sameBuf, sameStk, sameBits⟩ := related
  refine ⟨rfl, sameBuf, ?_, sameBits⟩
  simp only [DecState.pushStr, sameStk]

theorem respects_getTotalByteLen :
    Respects (OnSameBuf SameCollected) (getTotalByteLen : Dec β UInt64) := by
  intro s s' related
  refine ⟨?_, related⟩
  rw [related.2.1]

theorem respects_getUnusedBitsG :
    Respects (OnSameBuf SameCollected) (getUnusedBitsG : Dec β UInt16) := by
  intro s s' related
  exact ⟨related.2.2, related⟩

theorem respects_mergePieces (size : Nat) :
    Respects (OnSameBuf SameCollected) (mergePieces size : Dec β (List UInt8)) := by
  intro s s' related
  rw [EStateM.run, EStateM.run, mergePieces, mergePieces, ← related.2.1]
  cases copyPieces s.glob.strStkG.stk.reverse with
  | none => exact ⟨rfl, related⟩
  | some octets => exact respects_storeInto size octets related

variable [GenBuf β]

theorem respects_bitPiece (fuel : Nat) (elmtLen1 : AsnLen) :
    Respects (OnSameBuf SameCollected) (bitPiece fuel elmtLen1 : Dec β Unit) := by
  have stored (unusedBits : UInt16) :
      Respects (OnSameBuf SameCollected) (setUnusedBitsG unusedBits : Dec β Unit) := by
    intro s s' related
    exact ⟨rfl, related.1, related.2.1, rfl⟩
  refine Respects.ite (respects_asn1Error _ _) ?_
  -- Both runs find the same count of unused bits left by the piece before.
  refine Respects.bind respects_getUnusedBitsG fun unusedBits => ?_
  refine Respects.ite (respects_asn1Error _ _) ?_
  refine Respects.bind respects_bufGetByte fun byte => Respects.bind (stored _) fun _ => ?_
  exact respects_bitPieceLoop respects_pushStr _ _

/-- A bit string is decoded alike wherever the same count of unused bits is left. -/
theorem respects_bDecAsnBitsContent (fuel : Nat) (tag : AsnTag) (len bytesDecoded : AsnLen) :
    Respects (OnSameBuf SameUnusedBits) (bDecAsnBitsContent fuel tag len bytesDecoded : Dec β _) := by
  by_cases constructed : tagIsCons tag = true
  · intro s s' related
    rw [bDecAsnBitsContent, if_pos constructed]
    -- The pieces of earlier strings are dropped first.
    have dropped : OnSameBuf SameCollected s.resetStrStk s'.resetStrStk :=
      ⟨related.1, rfl, related.2⟩
    have merged := respects_mergedBits (respects_bitPiece fuel) respects_getTotalByteLen
      respects_getUnusedBitsG respects_mergePieces len bytesDecoded dropped
    exact EndsAlike.mono merged fun _ _ alike => ⟨alike.1, alike.2.2⟩
  · exact respects_primitive_bits fuel constructed len bytesDecoded

end

/-! ## A count that is left stays -/

/-- The same file-level variables, in which the given count of unused bits is left. -/
def LeftWith (unusedBits : UInt16) (g g' : Globals) : Prop :=
  g = g' ∧ g.unusedBitsG = unusedBits

section

variable {β : Type} [GenBuf β] {unusedBits : UInt16}

/-- After unused bits no piece is collected, so their count is not stored again. -/
theorem bitPiece_leftWith (unaligned : unusedBits ≠ 0) (fuel : Nat) (elmtLen1 : AsnLen) :
    Respects (OnSameBuf (LeftWith unusedBits)) (bitPiece fuel elmtLen1 : Dec β Unit) := by
  refine Respects.ite (respects_asn1Error _ _) ?_
  intro s s' related
  have left : (s.glob.unusedBitsG != 0) = true := by
    rw [related.2.2]
    simpa using unaligned
  have left' : (s'.glob.unusedBitsG != 0) = true := by
    rw [← related.2.1]
    exact left
  rw [EStateM.run_bind, EStateM.run_bind, run_getUnusedBitsG, run_getUnusedBitsG]
  dsimp only
  rw [if_pos left, if_pos left']
  exact ⟨rfl, related⟩

/-- Decoding a bit string keeps a count of unused bits that is not zero. -/
theorem bDecAsnBitsContent_leftWith (unaligned : unusedBits ≠ 0) (fuel : Nat) (tag : AsnTag)
    (len bytesDecoded : AsnLen) :
    Respects (OnSameBuf (LeftWith unusedBits))
      (bDecAsnBitsContent fuel tag len bytesDecoded : Dec β _) := by
  by_cases constructed : tagIsCons tag = true
  · intro s s' related
    rw [bDecAsnBitsContent, if_pos constructed]
    have dropped : OnSameBuf (LeftWith unusedBits) s.resetStrStk s'.resetStrStk :=
      ⟨related.1, congrArg (fun g => { g with strStkG := ⟨[], 0⟩ }) related.2.1, related.2.2⟩
    have total : Respects (OnSameBuf (LeftWith unusedBits)) (getTotalByteLen : Dec β UInt64) := by
      intro t t' alike
      refine ⟨?_, alike⟩
      rw [alike.2.1]
    have counted : Respects (OnSameBuf (LeftWith unusedBits)) (getUnusedBitsG : Dec β UInt16) := by
      intro t t' alike
      refine ⟨?_, alike⟩
      rw [alike.2.1]
    have merge (size : Nat) :
        Respects (OnSameBuf (LeftWith unusedBits)) (mergePieces size : Dec β (List UInt8)) := by
      intro t t' alike
      rw [EStateM.run, EStateM.run, mergePieces, mergePieces, ← alike.2.1]
      cases copyPieces t.glob.strStkG.stk.reverse with
      | none => exact ⟨rfl, alike⟩
      | some octets => exact respects_storeInto size octets alike
    exact respects_mergedBits (bitPiece_leftWith unaligned fuel) total counted merge len
      bytesDecoded dropped
  · exact respects_primitive_bits fuel constructed len bytesDecoded

end

/-! ## Histories of decodings -/

/-- One call of the decoder: where it reads, what it is told, and the turns granted to its loops. -/
structure BitsCall (β : Type) where
  b : β
  tagId : AsnTag
  len : AsnLen
  bytesDecoded : AsnLen
  turns : Nat

namespace BitsCall

variable {β : Type} [GenBuf β]

/-- A call made while the file-level variables are the given ones. -/
def result (glob : Globals) (call : BitsCall β) :
    EStateM.Result Exit (DecState β) (AsnBits × AsnLen) :=
  (bDecAsnBitsContent call.turns call.tagId call.len call.bytesDecoded).run ⟨call.b, glob⟩

/-- The decoded value of a call, or how it failed. -/
def decoded (glob : Globals) (call : BitsCall β) : Except Exit AsnBits :=
  (outcome (call.result glob)).map Prod.fst

/-- A call after which the program goes on: one that returns or jumps to its caller. -/
def step (glob : Globals) (call : BitsCall β) : Option (Globals × Except Exit AsnBits) :=
  match call.result glob with
  | .ok (bits, _) s => some (s.glob, .ok bits)
  | .error (.longjmp report val) s => some (s.glob, .error (.longjmp report val))
  | .error _ _ => none

/-- What a completed call leaves behind is what its run ends with. -/
theorem of_step {glob glob' : Globals} {call : BitsCall β} {out : Except Exit AsnBits}
    (stepped : step glob call = some (glob', out)) :
    (∃ r s, call.result glob = .ok r s ∧ s.glob = glob') ∨
      ∃ e s, call.result glob = .error e s ∧ s.glob = glob' := by
  rw [step] at stepped
  split at stepped
  · rename_i bits n s ended
    cases stepped
    exact Or.inl ⟨_, s, ended, rfl⟩
  · rename_i report val s ended
    cases stepped
    exact Or.inr ⟨_, s, ended, rfl⟩
  · cases stepped

/-- A count of unused bits that is left behind is found by every later call. -/
theorem unusedBitsG_of_run {glob glob' : Globals} {calls : List (BitsCall β)}
    {outs : List (Except Exit AsnBits)} (left : glob.unusedBitsG ≠ 0)
    (ran : run step glob calls = some (glob', outs)) :
    glob'.unusedBitsG = glob.unusedBitsG := by
  -- One call that finds the count leaves it.
  have stays : ∀ (g : Globals) (call : BitsCall β) (g' : Globals) (out : Except Exit AsnBits),
      g.unusedBitsG = glob.unusedBitsG → step g call = some (g', out) →
      g'.unusedBitsG = glob.unusedBitsG := by
    intro g call g' out same stepped
    have found : OnSameBuf (LeftWith glob.unusedBitsG) (DecState.mk call.b g) ⟨call.b, g⟩ :=
      ⟨rfl, rfl, same⟩
    have kept := bDecAsnBitsContent_leftWith left call.turns call.tagId call.len call.bytesDecoded
      found
    rcases of_step stepped with ⟨r, s, ended, rfl⟩ | ⟨e, s, ended, rfl⟩
    · rw [result] at ended
      rw [ended] at kept
      exact kept.2.2.2
    · rw [result] at ended
      rw [ended] at kept
      exact kept.2.2.2
  exact run_invariant stays rfl ran

/-- A constructed string without pieces shows the count of unused bits that is left. -/
theorem run_no_pieces (s : DecState β) :
    (bDecAsnBitsContent 1 0x23000000 0 0).run s =
      .ok (⟨intOf (0 * 8 - s.glob.unusedBitsG.toUInt64), []⟩, 0) s.resetStrStk := by
  -- The loop over the pieces is not entered.
  have filled (s : DecState β) : (fillBitStringStk 1 0 0).run s = .ok 0 s := by
    rw [fillBitStringStk, EStateM.run_bind, Loop.run_of_not_test Bool.false_ne_true]
    rfl
  rw [bDecAsnBitsContent, if_pos (by decide), bDecConsAsnBits, EStateM.run_bind,
    run_resetStrStk]
  dsimp only
  rw [EStateM.run_bind, filled]
  rfl

theorem decoded_no_pieces (b : β) (glob : Globals) :
    decoded glob ⟨b, 0x23000000, 0, 0, 1⟩ =
      .ok ⟨intOf (0 * 8 - glob.unusedBitsG.toUInt64), []⟩ := by
  rw [decoded, result, run_no_pieces]
  rfl

/-- The bit count of a string without octets tells any two counts of unused bits apart. -/
theorem unusedBits_inj {u v : UInt16}
    (same : intOf (0 * 8 - u.toUInt64) = intOf (0 * 8 - v.toUInt64)) : u = v := by
  have bound := UInt16.toNat_lt u
  have bound' := UInt16.toNat_lt v
  have value := congrArg Int32.toInt same
  simp only [toInt_intOf, UInt64.zero_mul, UInt64.zero_sub, UInt64.toNat_neg,
    UInt16.toNat_toUInt64] at value
  apply UInt16.toNat_inj.mp
  have residue := Int.bmod_eq_bmod_iff_bmod_sub_eq_zero.mp value
  have divides := Int.dvd_of_bmod_eq_zero residue
  have size : UInt64.size = 2 ^ 64 := rfl
  rw [size] at divides
  omega

end BitsCall

/-- A constructed bit string of one piece, which holds one octet and the given unused bits. -/
def onePiece (unusedBits : UInt8) : BitsCall SBuf :=
  ⟨bufferOf [3, 2, unusedBits, 0xf0], 0x23000000, 4, 0, 3⟩

theorem unusedBitsG_of_run_four :
    ∃ glob outs, run BitsCall.step { initialGlobals with unusedBitsG := 4 } [onePiece 0] =
      some (glob, outs) ∧ glob.unusedBitsG = 4 := by
  have ran : run BitsCall.step { initialGlobals with unusedBitsG := 4 } [onePiece 0] =
      some (_, _) := rfl
  exact ⟨_, _, ran, BitsCall.unusedBitsG_of_run (by decide) ran⟩

end Esnacc
