import Esnacc.Ber.Accounting

/-! Tags and lengths that are decoded have been read octet by octet, without a read error. -/

namespace Esnacc

open Lib

variable {β : Type} [GenBuf β] {s s' : DecState β}

/-- A number of octets, at least one, has been read and no read error is set. -/
def HasRead (s s' : DecState β) : Prop :=
  ∃ m, 0 < m ∧ s' = { s with buf := afterOctets m s.buf } ∧ GenBuf.readError s'.buf = false

/-- The loop over a long tag reads an octet in every turn. -/
theorem bDecTagLoop_eq_ok {room i : Nat} {tagId tagId' : AsnTag} {n n' : AsnLen}
    (done : (bDecTagLoop room tagId n).run s = .ok (i, tagId', n') s') :
    ∃ m, s' = { s with buf := afterOctets m s.buf } := by
  induction room generalizing tagId n s with
  | zero =>
    cases done
    exact ⟨0, rfl⟩
  | succ room ih =>
    rw [bDecTagLoop, EStateM.run_bind, run_bufGetByte] at done
    dsimp only at done
    split at done
    · obtain ⟨m, rfl⟩ := ih done
      exact ⟨m + 1, rfl⟩
    · cases done
      exact ⟨1, rfl⟩

theorem bDecTag_hasRead {n n' : AsnLen} {tagId : AsnTag}
    (done : (bDecTag n).run s = .ok (tagId, n') s') : HasRead s s' := by
  rw [bDecTag, EStateM.run_bind, run_bufGetByte] at done
  dsimp only at done
  obtain ⟨⟨i, tag, k⟩, t, looped, done⟩ := run_bind_eq_ok.mp done
  -- The octets after the first are those of a long tag.
  have more : ∃ m, t = { s with buf := afterOctets (1 + m) s.buf } := by
    split at looped
    · obtain ⟨m, rfl⟩ := bDecTagLoop_eq_ok looped
      exact ⟨m, by rw [afterOctets_add]; rfl⟩
    · obtain ⟨rfl, -⟩ := run_pure_eq_ok.mp looped
      exact ⟨0, rfl⟩
  obtain ⟨m, rfl⟩ := more
  dsimp only at done
  split at done
  · simp at done
  · obtain ⟨rfl, clear, -⟩ := checked_eq_ok.mp done
    exact ⟨1 + m, by omega, rfl, clear⟩

theorem bDecLen_hasRead {n n' len : AsnLen} (done : (bDecLen n).run s = .ok (len, n') s') :
    HasRead s s' := by
  rw [bDecLen, EStateM.run_bind, run_bufGetByte] at done
  dsimp only at done
  rw [EStateM.run_bind, run_bufReadError] at done
  dsimp only at done
  split at done
  · simp at done
  rename_i clear
  split at done
  · obtain ⟨rfl, -⟩ := run_pure_eq_ok.mp done
    exact ⟨1, by omega, rfl, by simpa using clear⟩
  split at done
  · obtain ⟨rfl, -⟩ := run_pure_eq_ok.mp done
    exact ⟨1, by omega, rfl, by simpa using clear⟩
  split at done
  · simp at done
  · obtain ⟨val, read⟩ := run_shiftOctetsIn ((GenBuf.getByte s.buf).1 &&& 0x7f).toNat 0
      { s with buf := (GenBuf.getByte s.buf).2 }
    rw [EStateM.run_bind, read] at done
    obtain ⟨rfl, clear', -⟩ := checked_eq_ok.mp done
    exact ⟨_ + 1, by omega, rfl, clear'⟩

theorem bDec2ndEocOctet_hasRead {n n' : AsnLen} (done : (bDec2ndEocOctet n).run s = .ok n' s') :
    HasRead s s' := by
  rw [bDec2ndEocOctet, EStateM.run_bind, run_bufGetByte] at done
  dsimp only at done
  split at done
  · simp at done
  · obtain ⟨rfl, clear, -⟩ := checked_eq_ok.mp done
    exact ⟨1, by omega, rfl, clear⟩

/-! ## Headers never run out of turns -/

theorem checked_eq_error {α : Type} {str : String} {val : Int32} {v : α} {e : Exit}
    (failed : (do if ← bufReadError then asn1Error str val else return v : Dec β α).run s =
      .error e s') : e = .longjmp (some str) val := by
  rw [EStateM.run_bind, run_bufReadError] at failed
  dsimp only at failed
  split at failed
  · cases failed
    rfl
  · cases failed

theorem bDecTagLoop_ne_error {room : Nat} {tagId : AsnTag} {n : AsnLen} {e : Exit} :
    (bDecTagLoop room tagId n).run s ≠ .error e s' := by
  induction room generalizing tagId n s with
  | zero =>
    intro failed
    cases failed
  | succ room ih =>
    intro failed
    rw [bDecTagLoop, EStateM.run_bind, run_bufGetByte] at failed
    dsimp only at failed
    split at failed
    · exact ih failed
    · cases failed

theorem bDecTag_ne_outOfTurns {n : AsnLen} : (bDecTag n).run s ≠ .error .outOfTurns s' := by
  intro failed
  rw [bDecTag, EStateM.run_bind, run_bufGetByte] at failed
  dsimp only at failed
  rcases run_bind_eq_error.mp failed with looped | ⟨⟨i, tag, k⟩, t, -, failed⟩
  · split at looped
    · exact bDecTagLoop_ne_error looped
    · rw [EStateM.run_pure] at looped
      cases looped
  · dsimp only at failed
    split at failed
    · cases failed
    · cases checked_eq_error failed

theorem bDecLen_ne_outOfTurns {n : AsnLen} : (bDecLen n).run s ≠ .error .outOfTurns s' := by
  intro failed
  rw [bDecLen, EStateM.run_bind, run_bufGetByte] at failed
  dsimp only at failed
  rw [EStateM.run_bind, run_bufReadError] at failed
  dsimp only at failed
  split at failed
  · cases failed
  split at failed
  · rw [EStateM.run_pure] at failed
    cases failed
  split at failed
  · rw [EStateM.run_pure] at failed
    cases failed
  split at failed
  · cases failed
  · obtain ⟨val, read⟩ := run_shiftOctetsIn ((GenBuf.getByte s.buf).1 &&& 0x7f).toNat 0
      { s with buf := (GenBuf.getByte s.buf).2 }
    rw [EStateM.run_bind, read] at failed
    cases checked_eq_error failed

theorem bDec2ndEocOctet_ne_outOfTurns {n : AsnLen} :
    (bDec2ndEocOctet n).run s ≠ .error .outOfTurns s' := by
  intro failed
  rw [bDec2ndEocOctet, EStateM.run_bind, run_bufGetByte] at failed
  dsimp only at failed
  split at failed
  · cases failed
  · cases checked_eq_error failed

/-! ## Headers in the simple buffer -/

/-- Octets read from the simple buffer without an error were there, and are passed over. -/
theorem SBuf.afterOctets_of_clear {m : Nat} {b : SBuf}
    (clear : GenBuf.readError (afterOctets m b) = false) :
    m ≤ b.unread.length ∧ afterOctets m b = b.advance m := by
  induction m generalizing b with
  | zero => exact ⟨Nat.zero_le _, by simp [afterOctets]⟩
  | succ m ih =>
    have taken := sBuf_inOrder.length_of_clear trivial (m + 1) clear
    refine ⟨by omega, ?_⟩
    cases held : b.unread with
    | nil =>
      rw [held, List.length_nil] at taken
      omega
    | cons x rest =>
      rw [afterOctets, getByte_cons held] at clear ⊢
      rw [(ih clear).2, advance_advance, Nat.add_comm]

theorem HasRead.forward {s s' : DecState SBuf} (read : HasRead s s') :
    s.buf.readLoc.toNat < s'.buf.readLoc.toNat ∧ s'.buf.readLoc.toNat ≤ s'.buf.dataEnd.toNat := by
  obtain ⟨m, pos, rfl, clear⟩ := read
  obtain ⟨room, same⟩ := SBuf.afterOctets_of_clear clear
  have moved := SBuf.toNat_readLoc_advance room
  rw [SBuf.length_unread] at room
  simp only [same, moved, SBuf.advance_dataEnd]
  omega

/-! ## Headers that are there -/

/-- The word that octets shifted in one after another make of a word. -/
def shiftedIn (val : UInt64) (octets : List UInt8) : UInt64 :=
  octets.foldl (fun val byte => val <<< 8 ||| byte.toUInt64) val

/-- Octets that are there are shifted into the word in order. -/
theorem shiftOctetsIn_held {octets rest : List UInt8} {s : DecState SBuf} (val : UInt64)
    (held : s.buf.unread = octets ++ rest) :
    (shiftOctetsIn octets.length val).run s =
      .ok (shiftedIn val octets) { s with buf := s.buf.advance octets.length } := by
  induction octets generalizing val s with
  | nil =>
    rw [List.length_nil, SBuf.advance_zero]
    rfl
  | cons x octets ih =>
    rw [List.length_cons, shiftOctetsIn, EStateM.run_bind, run_bufGetByte,
      SBuf.getByte_cons held]
    have after : (s.buf.advance 1).unread = octets ++ rest := by
      rw [SBuf.unread_advance (by simp [held]), held]
      rfl
    refine (ih (s := { s with buf := s.buf.advance 1 }) (val <<< 8 ||| x.toUInt64) after).trans ?_
    rw [SBuf.advance_advance, Nat.add_comm]
    rfl

theorem bDecTag_short {x : UInt8} {rest : List UInt8} {s : DecState SBuf} (n : AsnLen)
    (held : s.buf.unread = x :: rest) (short : x.toUInt32 <<< 24 &&& LONG_TAG ≠ LONG_TAG)
    (clear : s.buf.readError = false) :
    (bDecTag n).run s = .ok (x.toUInt32 <<< 24, n + 1) { s with buf := s.buf.advance 1 } := by
  have noError : GenBuf.readError (s.buf.advance 1) = false := clear
  simp only [bDecTag, EStateM.run_bind, run_bufGetByte, SBuf.getByte_cons held, beq_iff_eq, short,
    if_false, EStateM.run_pure, show ¬ 2 > 5 by decide, run_bufReadError, noError,
    Bool.false_eq_true]

theorem bDecLen_short {x : UInt8} {rest : List UInt8} {s : DecState SBuf} (n : AsnLen)
    (held : s.buf.unread = x :: rest) (short : x < 128) (clear : s.buf.readError = false) :
    (bDecLen n).run s = .ok (x.toUInt64, n + 1) { s with buf := s.buf.advance 1 } := by
  have noError : GenBuf.readError (s.buf.advance 1) = false := clear
  simp only [bDecLen, EStateM.run_bind, run_bufGetByte, SBuf.getByte_cons held, run_bufReadError,
    noError, Bool.false_eq_true, if_false, short, if_true, EStateM.run_pure]

/-- A length of several octets, the first of which counts the others. -/
theorem bDecLen_long {x : UInt8} {octets rest : List UInt8} {s : DecState SBuf} (n : AsnLen)
    (held : s.buf.unread = x :: (octets ++ rest)) (long : ¬ x < 128) (definite : x ≠ 0x80)
    (counted : (x &&& 0x7f).toNat = octets.length) (few : octets.length ≤ 8)
    (clear : s.buf.readError = false) :
    (bDecLen n).run s =
      .ok (shiftedIn 0 octets, n + 1 + UInt64.ofNat octets.length)
        { s with buf := s.buf.advance (1 + octets.length) } := by
  have noError : GenBuf.readError (s.buf.advance 1) = false := clear
  have noError' : GenBuf.readError (s.buf.advance (1 + octets.length)) = false := clear
  have after : (s.buf.advance 1).unread = octets ++ rest := by
    rw [SBuf.unread_advance (by simp [held]), held]
    rfl
  have shifted := shiftOctetsIn_held (s := { s with buf := s.buf.advance 1 }) 0 after
  rw [SBuf.advance_advance] at shifted
  simp only [bDecLen, EStateM.run_bind, run_bufGetByte, SBuf.getByte_cons held, run_bufReadError,
    noError, Bool.false_eq_true, if_false, long, beq_iff_eq, definite, counted,
    show ¬ octets.length > 8 by omega, shifted, noError', EStateM.run_pure]

end Esnacc
