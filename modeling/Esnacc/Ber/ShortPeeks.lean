import Esnacc.Ber.InOrder
import Esnacc.Buf.ChainPeeks

/-! Peeks at the few octets that a tag may have: all that are held, or too few. -/

namespace Esnacc

open Lib

/-- A copy without passing over the octets delivers those that are there, while a buffer is ready for
it, and fewer than were asked for otherwise. -/
structure PeeksHeld {β : Type} [GenBuf β] (unread : β → List UInt8) (ready : Prop) (b : β) :
    Prop where
  held : ∀ k : Nat, 0 < k → k ≤ 4 → ready → k ≤ (unread b).length →
    ∃ number, GenBuf.peekCopy b (UInt64.ofNat k) = some ((unread b).take k, number, b)
  short : ∀ k : Nat, 0 < k → k ≤ 4 → ¬ (ready ∧ k ≤ (unread b).length) → ∀ octets number b',
    GenBuf.peekCopy b (UInt64.ofNat k) = some (octets, number, b') → octets.length < k

theorem SBuf.peeksHeld (b : SBuf) : PeeksHeld SBuf.unread True b where
  held := by
    intro k some few _ enough
    have value : (UInt64.ofNat k).toNat = k := UInt64.toNat_ofNat_of_lt' (by rw [UInt64.size]; omega)
    have fits := enough
    rw [length_unread] at fits
    have bound := UInt64.toNat_lt b.dataEnd
    have sum : (b.readLoc + UInt64.ofNat k).toNat = b.readLoc.toNat + k := by
      rw [UInt64.toNat_add, value]
      omega
    have notPast : ¬ b.readLoc + UInt64.ofNat k > b.dataEnd := by
      rw [gt_iff_lt, UInt64.lt_iff_toNat_lt]
      omega
    have inSpace : b.readLoc.toNat + k < 2 ^ 64 := by omega
    refine ⟨intOf (UInt64.ofNat k), ?_⟩
    change sBufPeekCopy b _ = _
    rw [sBufPeekCopy, if_neg notPast]
    simp only [memcpy, value, if_pos inSpace, unread, take_slice _ _ fits]
    rfl
  short := by
    intro k some few missing octets number b' peeked
    rw [true_and, length_unread, Nat.not_le] at missing
    have value : (UInt64.ofNat k).toNat = k := UInt64.toNat_ofNat_of_lt' (by rw [UInt64.size]; omega)
    have bound := UInt64.toNat_lt b.dataEnd
    have start := UInt64.toNat_lt b.readLoc
    change sBufPeekCopy b _ = _ at peeked
    rw [sBufPeekCopy] at peeked
    split at peeked
    · -- What lies between the location and the end is copied, which is all there is.
      obtain ⟨cut, taken, rest⟩ := Option.bind_eq_some_iff.mp peeked
      simp only [Option.pure_def, Option.some.injEq, Prod.mk.injEq] at rest
      obtain ⟨rfl, -⟩ := rest
      simp only [memcpy, Option.ite_none_right_eq_some, Option.some.injEq] at taken
      obtain ⟨inSpace, rfl⟩ := taken
      rw [length_slice]
      rw [UInt64.toNat_sub] at inSpace ⊢
      omega
    · rename_i within
      obtain ⟨all, taken, rest⟩ := Option.bind_eq_some_iff.mp peeked
      simp only [Option.pure_def, Option.some.injEq, Prod.mk.injEq] at rest
      obtain ⟨rfl, -⟩ := rest
      simp only [memcpy, Option.ite_none_right_eq_some, Option.some.injEq] at taken
      obtain ⟨inSpace, -⟩ := taken
      rw [gt_iff_lt, UInt64.lt_iff_toNat_lt, UInt64.toNat_add, value] at within
      rw [value] at inSpace
      omega

namespace ExpBufRef

theorem skipNoData_of_filled (prev : List ExpBuf) {n : ExpBuf} (rest : List ExpBuf)
    (ready : n.Ready) (filled : 0 < n.left) : skipNoData prev n rest = ⟨prev, n, rest⟩ := by
  have data : ¬ expBufHasNoData n = true := by
    rw [ready.noData_iff]
    omega
  cases rest <;> simp [skipNoData, data]

/-- The loop of a peek finds no more octets than there are. -/
theorem length_peekCopyLoop_le {len : UInt64} {origBuf : ExpBufRef} {fuel : Nat} {b b' : ExpBufRef}
    {gotLen total : UInt64} {octets : List UInt8} {number : Int32} (readable : b.Readable)
    (filled : ∀ n ∈ b.next, 0 < n.left) (small : ∀ n ∈ b.buf :: b.next, n.left < 2 ^ 31)
    (sum : total.toNat + gotLen.toNat = len.toNat) (few : len.toNat < 2 ^ 31)
    (peeked : expBufPeekCopyLoop len origBuf fuel b gotLen total = some (octets, number, b')) :
    octets.length ≤ b.unread.length := by
  induction fuel generalizing b gotLen total octets number b' with
  | zero => cases peeked
  | succ fuel ih =>
    have front : b.unread.length = b.buf.left + (b.next.flatMap ExpBuf.unread).length := by
      rw [ExpBufRef.unread, List.length_append, ExpBuf.length_unread]
    -- One segment lies within its block.
    obtain ⟨seg, got, found, covers, least⟩ : ∃ seg got, expBufPeekSeg b gotLen = (seg, got) ∧
        (∀ octets, copySeg seg got = some octets → octets.length ≤ b.buf.left) ∧
        got.toNat ≤ gotLen.toNat := by
      by_cases eod : expBufAtEod b.buf = true
      · refine ⟨none, 0, by rw [expBufPeekSeg, if_pos eod], ?_, by simp⟩
        intro octets copied
        cases copied
        simp
      · have inBlock : SegFits gotLen.toNat b.buf.left := .inl (small _ List.mem_cons_self)
        obtain ⟨got, found, covers⟩ :=
          expBufPeekSeg_spec readable.inside (by omega) inBlock eod
        refine ⟨_, got, found, ?_, by omega⟩
        intro octets copied
        rw [copySeg_of_inside readable.inside (by omega), Option.some.injEq] at copied
        rw [← copied, List.length_take, ExpBuf.length_unread]
        omega
    rw [expBufPeekCopyLoop, found] at peeked
    obtain ⟨first, copied, peeked⟩ := Option.bind_eq_some_iff.mp peeked
    have within := covers first copied
    cases linked : b.next with
    | nil =>
      simp only [linked, Option.pure_def, Option.some.injEq, Prod.mk.injEq] at peeked
      rw [← peeked.1]
      omega
    | cons n rest =>
      simp only [linked] at peeked
      split at peeked
      · simp only [Option.pure_def, Option.some.injEq, Prod.mk.injEq] at peeked
        rw [← peeked.1]
        omega
      rename_i short
      split at peeked
      · simp only [Option.pure_def, Option.some.injEq, Prod.mk.injEq] at peeked
        rw [← peeked.1]
        omega
      obtain ⟨⟨more, count, last⟩, later, peeked⟩ := Option.bind_eq_some_iff.mp peeked
      simp only [Option.pure_def, Option.some.injEq, Prod.mk.injEq] at peeked
      have ready := readable.later n (by simp [linked])
      have stops := skipNoData_of_filled (b.buf :: b.prev) rest ready (filled n (by simp [linked]))
      have ready' : (ExpBufRef.mk (b.buf :: b.prev) n rest).buf.Ready := ready
      rw [stops, rewind_of_ready ready'] at later
      have bound := UInt64.toNat_lt len
      have grown : (total + got).toNat = total.toNat + got.toNat := by
        rw [UInt64.toNat_add]
        omega
      have remaining : (len - (total + got)).toNat = len.toNat - (total + got).toNat := by
        rw [UInt64.toNat_sub_of_le _ _ (by rw [UInt64.le_iff_toNat_le]; omega)]
      have size := @ih ⟨b.buf :: b.prev, n, rest⟩ last (len - (total + got)) (total + got) more count
        ⟨ready.inside, fun m on => readable.later m (by simp [linked, on])⟩
        (fun m on => filled m (by simp [linked, on]))
        (fun m on => small m (by
          rw [linked]
          exact List.mem_cons_of_mem _ on))
        (by omega) later
      have tail : (ExpBufRef.mk (b.buf :: b.prev) n rest).unread.length =
          (b.next.flatMap ExpBuf.unread).length := by
        rw [linked]
        rfl
      rw [← peeked.1, List.length_append]
      omega

theorem Steady.peeksHeld {b : ExpBufRef} (steady : b.Steady) :
    PeeksHeld ExpBufRef.unread (expBufAtEod b.buf = false) b where
  held := by
    intro k some few ready enough
    have value : (UInt64.ofNat k).toNat = k := UInt64.toNat_ofNat_of_lt' (by rw [UInt64.size]; omega)
    have sizes : ∀ left ∈ b.buf.left :: b.next.map ExpBuf.left, left < 2 ^ 31 := by
      have bounded := steady.small
      intro left member
      rw [← List.map_cons] at member
      obtain ⟨n, listed, rfl⟩ := List.mem_map.mp member
      exact bounded n listed
    have turn : PeekTurn (UInt64.ofNat k) b b (UInt64.ofNat k) 0 :=
      ⟨steady.readable, segsFit _ sizes _, by rwa [value], by simp, restore_self b, Nat.le_refl _⟩
    have peek := turn.run (by omega) (by simp [ready]) (Nat.lt_succ_self _)
    rw [value] at peek
    exact ⟨_, peek⟩
  short := by
    intro k some few missing octets number b' peeked
    have value : (UInt64.ofNat k).toNat = k := UInt64.toNat_ofNat_of_lt' (by rw [UInt64.size]; omega)
    change expBufPeekCopy b _ = _ at peeked
    by_cases eod : expBufAtEod b.buf = true
    · -- The exhausted block is not left, so nothing is found.
      rw [expBufPeekCopy, expBufPeekCopyLoop, expBufPeekSeg, if_pos eod] at peeked
      obtain ⟨first, copied, peeked⟩ := Option.bind_eq_some_iff.mp peeked
      cases copied
      have none : octets = [] := by
        cases linked : b.next with
        | nil =>
          simp only [linked, Option.pure_def, Option.some.injEq, Prod.mk.injEq] at peeked
          exact peeked.1.symm
        | cons n rest =>
          simp only [linked, beq_self_eq_true, if_true, Option.pure_def] at peeked
          split at peeked
          all_goals
            simp only [Option.some.injEq, Prod.mk.injEq] at peeked
            exact peeked.1.symm
      rw [none]
      exact some
    · have size := length_peekCopyLoop_le steady.readable steady.filled steady.small
        (by simp) (by omega) peeked
      have going : expBufAtEod b.buf = false := by simpa using eod
      rw [not_and, Nat.not_le] at missing
      exact Nat.lt_of_le_of_lt size (missing going)

end ExpBufRef

end Esnacc
