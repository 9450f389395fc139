import Esnacc.Cxx.FlatBuf
import Esnacc.Cxx.Contents

/-! Buffers that answer every read as flat octets do, and what completed reads take from them. -/

namespace Esnacc.Cxx

open Lib

/--
A buffer whose reads all answer as flat octets do.

Its cards have data or were begun, an `int` can measure each, and a `long` all that is to come.
-/
structure AsnBuf.Sound (b : AsnBuf) : Prop where
  reading : b.Reading
  ready : ∀ c ∈ b.ahead, c.Ready
  small : Small b.ahead
  fits : b.unread.length < 2 ^ 63

theorem entered_of_ready {cards : List AsnRvsBuf} (ready : ∀ c ∈ cards, c.Ready) (n : Nat) :
    Entered cards n := by
  induction cards generalizing n with
  | nil => cases n <;> trivial
  | cons c rest ih =>
    cases n with
    | zero => trivial
    | succ n =>
      exact ⟨ready c List.mem_cons_self,
        ih (fun d listed => ready d (List.mem_cons_of_mem c listed)) _⟩

/-- Reading on keeps a buffer sound. -/
theorem AsnBuf.Sound.onward {b b' : AsnBuf} (sound : b.Sound) (onward : Onward b.ahead b'.ahead)
    (shrinks : b'.unread.length ≤ b.unread.length) : b'.Sound where
  reading := onward.reading
  ready := by
    intro c' listed
    obtain ⟨c, among, octets, begun⟩ := onward.kept c' listed
    -- A card keeps its data, and stays begun.
    rcases sound.ready c among with was | data
    · exact .inl (begun was)
    · exact .inr (octets ▸ data)
  small := onward.small sound.small
  fits := Nat.lt_of_le_of_lt shrinks sound.fits

/-- A buffer made of given octets, at least one of them, answers every read. -/
theorem AsnBuf.ofSeg_sound {seg : List UInt8} (some : seg ≠ []) (small : seg.length < 2 ^ 31) :
    (AsnBuf.ofSeg seg).Sound := by
  have card : ∀ c ∈ (AsnBuf.ofSeg seg).ahead, c = .ofSeg seg := fun c listed =>
    List.mem_singleton.mp listed
  constructor
  case reading =>
    intro c listed area begun
    rw [card c listed] at begun
    cases begun
  case ready =>
    intro c listed
    rw [card c listed]
    exact .inr some
  case small =>
    intro c listed
    rw [card c listed]
    exact small
  case fits =>
    have unread : (AsnBuf.ofSeg seg).unread = seg := List.append_nil seg
    rw [unread]
    omega

/-! ## Routines one after the other -/

section

variable {α β : Type} {x : BufM α} {f : α → BufM β} {b : AsnBuf}

theorem Acts.pure (sound : b.Sound) (r : α) : Acts (pure r) b (.ok r, b.unread) :=
  ⟨b, rfl, rfl, .refl sound.reading⟩

theorem Acts.throw (sound : b.Sound) (thrown : Thrown) :
    Acts (throw thrown : BufM α) b (.error thrown, b.unread) :=
  ⟨b, rfl, rfl, .refl sound.reading⟩

theorem Acts.bind {a : α} {rest : List UInt8} {result : Except Thrown β × List UInt8}
    (first : Acts x b (.ok a, rest)) (sound : b.Sound) (shrinks : rest.length ≤ b.unread.length)
    (later : ∀ b' : AsnBuf, b'.Sound → b'.unread = rest → Acts (f a) b' result) :
    Acts (x >>= f) b result := by
  obtain ⟨mid, ran, left, onward⟩ := first
  obtain ⟨b', ranLater, last, onward'⟩ := later mid (sound.onward onward (left ▸ shrinks)) left
  refine ⟨b', ?_, last, onward.trans onward'⟩
  rw [run_bind_of_ok ran, ranLater]

theorem Acts.bind_error {thrown : Thrown} {rest : List UInt8}
    (first : Acts x b (.error thrown, rest)) : Acts (x >>= f) b (.error thrown, rest) := by
  obtain ⟨b', ran, left, onward⟩ := first
  refine ⟨b', ?_, left, onward⟩
  rw [EStateM.run_bind, ran]

/-- What a completed run returns and leaves is what the routine is known to do. -/
theorem Acts.eq_of_ok {result : Except Thrown α × List UInt8} {r : α} {b' : AsnBuf}
    (acts : Acts x b result) (ran : x.run b = .ok r b') :
    result.1 = .ok r ∧ b'.unread = result.2 ∧ Onward b.ahead b'.ahead := by
  obtain ⟨c, same, left, onward⟩ := acts
  obtain ⟨outcome, rest⟩ := result
  cases outcome with
  | ok v =>
    rw [ran] at same
    cases same
    exact ⟨rfl, left, onward⟩
  | error thrown =>
    rw [ran] at same
    cases same

end

/-! ## Single reads -/

section

variable {b : AsnBuf}

theorem AsnBuf.Sound.getByte_acts (sound : b.Sound) : Acts getByte b (flatGetByte b.unread) :=
  Cxx.getByte_acts sound.reading (entered_of_ready sound.ready 1)

theorem AsnBuf.Sound.getByte_cons (sound : b.Sound) {octet : UInt8} {rest : List UInt8}
    (unread : b.unread = octet :: rest) : Acts getByte b (.ok octet, rest) := by
  have acts := sound.getByte_acts
  rwa [unread] at acts

theorem AsnBuf.Sound.getByte_nil (sound : b.Sound) (unread : b.unread = []) :
    Acts getByte b (.error pastEnd, []) := by
  have acts := sound.getByte_acts
  rwa [unread] at acts

theorem AsnBuf.Sound.getSeg_acts (sound : b.Sound) (segLen : Int64) :
    Acts (getSeg segLen) b (flatGetSeg b.unread segLen.toInt.toNat) :=
  Cxx.getSeg_acts sound.reading (entered_of_ready sound.ready _)

theorem AsnBuf.Sound.length_acts (sound : b.Sound) :
    Acts length b (.ok (UInt64.ofNat b.unread.length), b.unread) := by
  obtain ⟨b', ran, left, onward, -⟩ := Cxx.length_acts sound.reading sound.small
  exact ⟨b', ran, left, onward⟩

theorem AsnBuf.Sound.toNat_length (sound : b.Sound) :
    (UInt64.ofNat b.unread.length).toNat = b.unread.length := by
  have fits := sound.fits
  rw [UInt64.toNat_ofNat']
  omega

/-- A number of octets is read one by one. -/
theorem AsnBuf.Sound.getBytes_acts (sound : b.Sound) (n : Nat) :
    Acts (getBytes n) b (flatGetSeg b.unread n) := by
  induction n generalizing b with
  | zero => exact Acts.pure sound []
  | succ n ih =>
    cases unread : b.unread with
    | nil => exact (sound.getByte_nil unread).bind_error
    | cons octet rest =>
      have first := sound.getByte_cons unread
      refine first.bind sound (by simp [unread]) fun mid soundMid left => ?_
      have later := ih soundMid
      rw [left] at later
      rw [flatGetSeg] at later ⊢
      -- The first octet is there, so that the rest decides.
      by_cases short : rest.length < n
      · rw [if_pos short] at later
        rw [if_pos (by simpa using short)]
        exact later.bind_error
      · rw [if_neg short] at later
        rw [if_neg (by simpa using short)]
        refine later.bind soundMid (by simp [left]) fun b' sound' left' => ?_
        have done := Acts.pure sound' (octet :: rest.take n)
        rw [left'] at done
        exact done

end

/-! ## What completed reads take -/

/-- A read takes a number of the octets to come, the first ones. -/
structure Takes (b b' : AsnBuf) (n : Nat) : Prop where
  sound : b'.Sound
  within : n ≤ b.unread.length
  unread : b'.unread = b.unread.drop n

section

variable {b b' mid : AsnBuf}

theorem Takes.refl (sound : b.Sound) : Takes b b 0 :=
  ⟨sound, Nat.zero_le _, rfl⟩

theorem Takes.trans {m n : Nat} (first : Takes b mid m) (second : Takes mid b' n) :
    Takes b b' (m + n) where
  sound := second.sound
  within := by
    have within := second.within
    have before := first.within
    rw [first.unread, List.length_drop] at within
    omega
  unread := by rw [second.unread, first.unread, List.drop_drop]

theorem Takes.length_eq {n : Nat} (takes : Takes b b' n) :
    b.unread.length = b'.unread.length + n := by
  have within := takes.within
  rw [takes.unread, List.length_drop]
  omega

theorem Acts.takes {α : Type} {x : BufM α} {n : Nat} {result : Except Thrown α × List UInt8} {r : α}
    (acts : Acts x b result) (sound : b.Sound) (ran : x.run b = .ok r b')
    (left : result.1 = .ok r → n ≤ b.unread.length ∧ result.2 = b.unread.drop n) :
    Takes b b' n := by
  obtain ⟨returned, rest, onward⟩ := acts.eq_of_ok ran
  obtain ⟨within, same⟩ := left returned
  have unread := rest.trans same
  refine ⟨sound.onward onward ?_, within, unread⟩
  rw [unread, List.length_drop]
  omega

theorem getByte_takes (sound : b.Sound) {octet : UInt8} (ran : getByte.run b = .ok octet b') :
    Takes b b' 1 ∧ b.unread.head? = some octet := by
  cases unread : b.unread with
  | nil =>
    obtain ⟨returned, -⟩ := (sound.getByte_nil unread).eq_of_ok ran
    cases returned
  | cons first rest =>
    have acts := sound.getByte_cons unread
    obtain ⟨returned, -⟩ := acts.eq_of_ok ran
    cases returned
    exact ⟨acts.takes sound ran fun _ => by simp [unread], rfl⟩

theorem takes_of_flatGetSeg {x : BufM (List UInt8)} {n : Nat} {seg : List UInt8}
    (acts : Acts x b (flatGetSeg b.unread n)) (sound : b.Sound) (ran : x.run b = .ok seg b') :
    Takes b b' n ∧ seg = b.unread.take n := by
  rw [flatGetSeg] at acts
  by_cases short : b.unread.length < n
  · rw [if_pos short] at acts
    cases (acts.eq_of_ok ran).1
  · rw [if_neg short] at acts
    have returned := (acts.eq_of_ok ran).1
    cases returned
    exact ⟨acts.takes sound ran fun _ => ⟨Nat.le_of_not_lt short, rfl⟩, rfl⟩

theorem getBytes_takes (sound : b.Sound) {n : Nat} {seg : List UInt8}
    (ran : (getBytes n).run b = .ok seg b') : Takes b b' n ∧ seg = b.unread.take n :=
  takes_of_flatGetSeg (sound.getBytes_acts n) sound ran

theorem getSeg_takes (sound : b.Sound) {segLen : Int64} {seg : List UInt8}
    (ran : (getSeg segLen).run b = .ok seg b') :
    Takes b b' segLen.toInt.toNat ∧ seg = b.unread.take segLen.toInt.toNat :=
  takes_of_flatGetSeg (sound.getSeg_acts segLen) sound ran

theorem length_takes (sound : b.Sound) {total : UInt64} (ran : length.run b = .ok total b') :
    Takes b b' 0 ∧ total.toNat = b.unread.length := by
  have acts := sound.length_acts
  have returned := (acts.eq_of_ok ran).1
  cases returned
  exact ⟨acts.takes sound ran fun _ => ⟨Nat.zero_le _, rfl⟩, sound.toNat_length⟩

theorem toNat_toInt_toInt64 {n : UInt64} (small : n.toNat < 2 ^ 63) :
    n.toInt64.toInt.toNat = n.toNat := by
  have same : n.toInt64.toInt = (n.toNat : Int).bmod (2 ^ 64) :=
    BitVec.toInt_eq_toNat_bmod n.toBitVec
  rw [same, Int.bmod_eq_of_le (by omega) (by omega), Int.toNat_natCast]

theorem getUSeg_takes (sound : b.Sound) {segLen : AsnLen} {seg : List UInt8}
    (ran : (getUSeg segLen).run b = .ok seg b') :
    Takes b b' segLen.toNat ∧ seg = b.unread.take segLen.toNat := by
  rw [getUSeg] at ran
  by_cases large : 2 ^ 63 ≤ segLen.toNat
  · rw [if_pos large] at ran
    cases ran
  · rw [if_neg large] at ran
    have read := getSeg_takes sound ran
    rwa [toNat_toInt_toInt64 (Nat.lt_of_not_le large)] at read

/-- Octets that are read into a string are as many as were asked for, where that is not 0. -/
theorem getSegStr_takes (sound : b.Sound) {segLen : AsnLen} {seg : List UInt8} (some : segLen ≠ 0)
    (ran : (getSegStr segLen.toInt64).run b = .ok seg b') :
    Takes b b' segLen.toNat ∧ seg = b.unread.take segLen.toNat := by
  have acts := Cxx.getSegStr_acts sound.reading sound.small segLen.toInt64
  have nonzero : segLen.toInt64 ≠ 0 := by
    intro zero
    apply some
    have back := congrArg Int64.toUInt64 zero
    exact back
  rw [flatGetSegStr] at acts
  simp only [if_neg nonzero] at acts
  have same : segLen.toInt64.toUInt64 = segLen := rfl
  rw [same] at acts
  by_cases short : UInt64.ofNat b.unread.length < segLen
  · rw [if_pos short] at acts
    cases (acts.eq_of_ok ran).1
  · rw [if_neg short] at acts
    -- No more is asked for than is to come, which is below the sign bit.
    have within : segLen.toNat ≤ b.unread.length := by
      rw [UInt64.lt_iff_toNat_lt, sound.toNat_length] at short
      omega
    have fits := sound.fits
    rw [toNat_toInt_toInt64 (by omega)] at acts
    exact takes_of_flatGetSeg acts sound ran

end

end Esnacc.Cxx
