import Esnacc.Ber.Collectors

/-! Constructed OCTET STRINGs: what is read for them, and when it ends with their length. -/

namespace Esnacc

open Lib

section

variable {β : Type} [GenBuf β] {inv : β → Prop} {handles : UInt64 → Prop}
  {unread : β → List UInt8}

/-- A primitive piece is read, and all its octets are referred to. -/
theorem Segments.octetPiece_reads (segments : Segments inv handles unread)
    (handled : ∀ {len}, len.toNat < 2 ^ 31 → handles len) (fuel : Nat) :
    PieceReads inv unread [] Gathers fun elmtLen1 => octetPieceLoop elmtLen1 fuel elmtLen1 0 where
  onTop := octetPieceLoop_extends
  reads := by
    intro s s' len ran valid bounded
    rw [show octetPieceLoop len fuel len 0 = octetPieceLoop len fuel (len - 0) 0 by
      rw [UInt64.sub_zero]] at ran
    obtain ⟨octets, covered, refers⟩ := segments.octetPieceLoop_refers handled ran bounded
    obtain ⟨holds', tape, error⟩ := refers.reads valid.1
    obtain ⟨before, -, few⟩ := refers.gathers.bounded bounded
    rw [UInt64.sub_zero] at covered
    exact ⟨octets, unread s'.buf, covered, by omega, by rw [List.append_nil, tape],
      .inl ⟨⟨holds', error.trans valid.2⟩, (List.append_nil _).symm⟩, refers.gathers⟩

theorem AfterAll.gathers {g g' : Globals} {leaves : List (List UInt8)}
    (all : AfterAll Gathers g leaves g') : Gathers g leaves.flatten g' := by
  induction all with
  | nil => exact .refl _
  | cons first _ ih => exact first.trans ih

/-- What a completed decoding of the pieces of an OCTET STRING has read, and returns. -/
theorem Segments.bDecConsAsnOcts_reads (segments : Segments inv handles unread)
    (handled : ∀ {len}, len.toNat < 2 ^ 31 → handles len) {fuel : Nat} {len n m : AsnLen}
    {r : AsnOcts} {s s' : DecState β} (holds : inv s.buf)
    (ran : (bDecConsAsnOcts fuel len n).run s = .ok (r, m) s') :
    ∃ w leaves, Passed OCTETSTRING_TAG_CODE (fun _ _ => True) len 0 w leaves ∧
      unread s.buf = w ++ unread s'.buf ∧ m = n + UInt64.ofNat w.length ∧
      r = ⟨UInt64.ofNat leaves.flatten.length, leaves.flatten⟩ := by
  rw [bDecConsAsnOcts, EStateM.run_bind, run_resetStrStk] at ran
  dsimp only at ran
  obtain ⟨count, s1, filled, ran⟩ := run_bind_eq_ok.mp ran
  obtain ⟨total, s1', looped, filled⟩ := run_bind_eq_ok.mp filled
  obtain ⟨rfl, rfl⟩ := run_pure_eq_ok.mp filled
  rw [EStateM.run_bind, run_getTotalByteLen] at ran
  dsimp only at ran
  obtain ⟨size, s2, allocated, ran⟩ := run_bind_eq_ok.mp ran
  have small := asn1Alloc_lt allocated
  obtain rfl := asn1Alloc_eq_ok allocated
  obtain ⟨block, s3, merged, ran⟩ := run_bind_eq_ok.mp ran
  obtain ⟨rfl, octets, gathered, fits, rfl⟩ := mergePieces_eq_ok merged
  obtain ⟨stored, s4, ended, ran⟩ := run_bind_eq_ok.mp ran
  obtain rfl := storeInto_eq_ok ended
  obtain ⟨rfl, result⟩ := run_pure_eq_ok.mp ran
  obtain ⟨rfl, rfl⟩ := Prod.mk.inj result
  have bounded : s'.glob.Bounded := ⟨octets, gathered, by omega⟩
  obtain ⟨w, leaves, passed, tape, rfl, gathers⟩ : ∃ w leaves,
      Passed OCTETSTRING_TAG_CODE (fun _ _ => True) len 0 w leaves ∧
        unread s.buf = w ++ unread s'.buf ∧ total = UInt64.ofNat w.length ∧
        Gathers s.resetStrStk.glob leaves.flatten s'.glob := by
    by_cases failed : GenBuf.readError s.buf = true
    · -- Behind a read error nothing is left to do.
      obtain ⟨finished, rfl, rfl⟩ := segments.loop_of_failed (s := s.resetStrStk) holds failed looped
      exact ⟨[], [], .done finished, rfl, rfl, .refl _⟩
    · have valid : (decTape inv unread).valid s.resetStrStk := ⟨holds, by simpa using failed⟩
      obtain ⟨w, leaves, tape', passed, tape, stands, rfl, all⟩ :=
        (segments.octetPiece_reads handled fuel).loop_passed segments.toInOrder
          (.inl ⟨valid, (List.append_nil _).symm⟩) looped bounded
      rcases stands with ⟨-, rfl⟩ | ⟨beyond, -⟩
      · refine ⟨w, leaves, passed, ?_, UInt64.zero_add _, all.gathers⟩
        rwa [List.append_nil] at tape
      · exact absurd rfl beyond
  have whole : octets = leaves.flatten := by
    have all := gathers.gathered
    rw [gathered] at all
    exact Option.some.inj all
  have totalLength : s'.glob.strStkG.totalByteLen = UInt64.ofNat octets.length := by
    rw [whole]
    exact gathers.total.trans (UInt64.zero_add _)
  have taken : (octets ++ List.replicate (size - octets.length) 0).take
      (UInt64.ofNat octets.length).toNat = octets := by
    rw [UInt64.toNat_ofNat_of_lt' (by rw [UInt64.size]; omega)]
    exact List.take_left
  refine ⟨w, leaves, passed, tape, rfl, ?_⟩
  rw [totalLength, taken, whole]

end

/-! ## Strings that end with their length -/

/-- A constructed OCTET STRING of a definite length is decoded from exactly as many octets, every
element in them ends at or before the end of the one that contains it, and the result is the contents
of the leaves, one after another. -/
structure StaysInside {β : Type} (unread : β → List UInt8) (len n : AsnLen) (s : DecState β)
    (r : AsnOcts) (m : AsnLen) (s' : DecState β) : Prop where
  enough : len.toNat ≤ (unread s.buf).length
  consumed : unread s'.buf = (unread s.buf).drop len.toNat
  counted : m = n + len
  contents : ∃ w leaves, unread s.buf = w ++ unread s'.buf ∧
    Passed OCTETSTRING_TAG_CODE EndsInside len 0 w leaves ∧
    r = ⟨UInt64.ofNat leaves.flatten.length, leaves.flatten⟩

/-- The first octets of the data, as many as the length says, are complete elements. -/
def CompleteWithin (len : AsnLen) (tape : List UInt8) : Prop :=
  ∃ w leaves, w.length = len.toNat ∧ w <+: tape ∧ StringElements OCTETSTRING_TAG_CODE w leaves

section

variable {β : Type} [GenBuf β] {inv : β → Prop} {handles : UInt64 → Prop}
  {unread : β → List UInt8}

/-- A decoded string stays inside its length where complete elements make up its contents. -/
theorem Segments.staysInside_iff (segments : Segments inv handles unread)
    (handled : ∀ {len}, len.toNat < 2 ^ 31 → handles len) {fuel : Nat} {tag : AsnTag}
    {len n m : AsnLen} {r : AsnOcts} {s s' : DecState β} (holds : inv s.buf)
    (constructed : tagIsCons tag = true) (isDefinite : len ≠ INDEFINITE_LEN)
    (ran : (bDecAsnOctsContent fuel tag len n).run s = .ok (r, m) s') :
    StaysInside unread len n s r m s' ↔ CompleteWithin len (unread s.buf) := by
  rw [bDecAsnOctsContent, if_pos constructed] at ran
  have bound := len.toNat_lt
  constructor
  · rintro ⟨enough, consumed, -, w, leaves, tape, passed, -⟩
    have size : w.length = len.toNat := by
      have whole := congrArg List.length tape
      rw [consumed, List.length_append, List.length_drop] at whole
      omega
    have inside := (passed.elements (by rw [UInt64.toNat_zero]; omega)).1 isDefinite UInt64.zero_le
    exact ⟨w, leaves, size, ⟨_, tape.symm⟩, inside.2⟩
  · rintro ⟨w, leaves, size, ⟨rest, tape⟩, elements⟩
    have inside := (elements.passed 0).1 len isDefinite (by rw [UInt64.toNat_zero]; omega)
    obtain ⟨w', leaves', passed, tape', rfl, rfl⟩ :=
      segments.bDecConsAsnOcts_reads handled holds ran
    obtain ⟨rfl, rfl⟩ := inside.unique threeTags_octets passed (tape.trans tape')
    refine ⟨?_, ?_, ?_, w, leaves, tape', inside, rfl⟩
    · rw [tape', List.length_append]
      omega
    · rw [tape', ← size, List.drop_left]
    · rw [size, UInt64.ofNat_toNat]

end

/-- In simple buffers and in chains, constructed OCTET STRINGs stay inside their length exactly where
complete elements make up their contents. -/
theorem constructed_octets_stay_inside_iff {fuel : Nat} {tag : AsnTag} {len n m : AsnLen}
    {r : AsnOcts} (constructed : tagIsCons tag = true) (isDefinite : len ≠ INDEFINITE_LEN) :
    (∀ s s' : DecState SBuf, (bDecAsnOctsContent fuel tag len n).run s = .ok (r, m) s' →
      (StaysInside SBuf.unread len n s r m s' ↔ CompleteWithin len s.buf.unread)) ∧
    ∀ s s' : DecState ExpBufRef, s.buf.Steady →
      (bDecAsnOctsContent fuel tag len n).run s = .ok (r, m) s' →
        (StaysInside ExpBufRef.unread len n s r m s' ↔ CompleteWithin len s.buf.unread) :=
  ⟨fun _ _ => sBuf_segments.staysInside_iff (fun _ => trivial) trivial constructed isDefinite,
    fun _ _ steady => expBuf_segments.staysInside_iff id steady constructed isDefinite⟩

/-- A string of one piece of one octet. -/
theorem constructed_octets_stay_inside_one_piece :
    (∃ s', StaysInside SBuf.unread 3 0
      ⟨sBufInstallData (fun a => if a = 4096 then 4 else 1) 4096 3, initialGlobals⟩ ⟨1, [1]⟩ 3 s') ∧
    ∃ s', StaysInside ExpBufRef.unread 3 0
      ⟨expBufInstallDataInBuf ⟨fun a => if a = 4096 then 4 else 1, 4096⟩ 3, initialGlobals⟩
      ⟨1, [1]⟩ 3 s' := by
  have tagged : TagRead [4] (makeTagId UNIV PRIM OCTETSTRING_TAG_CODE) :=
    ⟨4, [], rfl, rfl, by rw [if_neg (by decide)]⟩
  have measured : LenRead [1] 1 := .inr ⟨1, .inl ⟨1, rfl, by decide, rfl⟩, by decide, rfl⟩
  have leaf : StringElements OCTETSTRING_TAG_CODE ([4] ++ ([1] ++ ([1] ++ []))) [[1]] :=
    .leaf tagged measured rfl .nil
  have complete : CompleteWithin 3 [4, 1, 1] := ⟨_, _, rfl, List.prefix_refl _, leaf⟩
  have steady : (expBufInstallDataInBuf ⟨fun a => if a = 4096 then 4 else 1, 4096⟩ 3).Steady :=
    ⟨⟨⟨by decide, by decide⟩, fun _ linked => absurd linked List.not_mem_nil⟩,
      fun set => absurd set (by decide), fun _ linked => absurd linked List.not_mem_nil,
      by decide⟩
  obtain ⟨ofSBuf, ofChain⟩ := @constructed_octets_stay_inside_iff 3 0x24000000 3 0 3 ⟨1, [1]⟩
    (by decide) (by decide)
  exact ⟨⟨_, (ofSBuf _ _ rfl).mpr complete⟩, ⟨_, (ofChain _ _ steady rfl).mpr complete⟩⟩

/-- A piece of five octets in a string of four is read to its end. -/
theorem not_constructed_octets_stay_inside :
    ¬ ∀ (fuel : Nat) (tag : AsnTag) (len n m : AsnLen) (r : AsnOcts) (s s' : DecState SBuf),
      tagIsCons tag = true → len ≠ INDEFINITE_LEN →
        (bDecAsnOctsContent fuel tag len n).run s = .ok (r, m) s' →
          StaysInside SBuf.unread len n s r m s' := by
  intro stays
  have inside := stays 3 0x24000000 4 0 7 ⟨5, [5, 5, 5, 5, 5]⟩
    ⟨sBufInstallData (fun a => if a = 4096 then 4 else 5) 4096 7, initialGlobals⟩ _
    (by decide) (by decide) rfl
  exact absurd inside.counted (by decide)

end Esnacc
