import Esnacc.Cxx.AsnBuf

/-! What reading, seeking and measuring leave of the octets that cards hold. -/

namespace Esnacc.Cxx

open Lib

/-! ## Reading from a card -/

section

variable {c c' : AsnRvsBuf}

theorem AsnRvsBuf.underflow_octets {answer : Option UInt8}
    (ran : c.underflow = .ok (answer, c')) : c'.octets = c.octets := by
  rw [underflow] at ran
  by_cases begun : c.get.map GetArea.eback = some c.octets.length
  · rw [if_pos begun] at ran
    cases ran
    rfl
  · rw [if_neg begun] at ran
    cases octets : c.octets with
    | nil =>
      rw [octets] at ran
      cases ran
    | cons octet rest =>
      simp only [octets] at ran
      cases ran
      exact octets

theorem AsnRvsBuf.buffered_octets {octet : UInt8} (found : c.buffered = some (octet, c')) :
    c'.octets = c.octets := by
  rw [buffered] at found
  cases begun : c.get with
  | none =>
    rw [begun] at found
    cases found
  | some area =>
    simp only [begun, Option.map_eq_some_iff] at found
    obtain ⟨next, -, same⟩ := found
    cases same
    rfl

theorem AsnRvsBuf.sbumpc_octets {answer : Option UInt8} (ran : c.sbumpc = .ok (answer, c')) :
    c'.octets = c.octets := by
  rw [sbumpc] at ran
  cases found : c.buffered with
  | some next =>
    obtain ⟨octet, d⟩ := next
    rw [found] at ran
    cases ran
    exact buffered_octets found
  | none =>
    rw [found] at ran
    cases under : c.underflow with
    | error thrown =>
      rw [under] at ran
      cases ran
    | ok next =>
      obtain ⟨octet, d⟩ := next
      have same := underflow_octets under
      rw [under] at ran
      cases octet with
      | none =>
        cases ran
        exact same
      | some octet =>
        cases ran
        exact same

theorem AsnRvsBuf.sgetn_octets {n : Nat} {octets : List UInt8}
    (ran : c.sgetn n = .ok (octets, c')) : c'.octets = c.octets := by
  induction n generalizing c octets with
  | zero =>
    cases ran
    rfl
  | succ n ih =>
    rw [sgetn] at ran
    cases bumped : c.sbumpc with
    | error thrown =>
      rw [bumped] at ran
      cases ran
    | ok next =>
      obtain ⟨octet, d⟩ := next
      have same := sbumpc_octets bumped
      rw [bumped] at ran
      cases octet with
      | none =>
        cases ran
        exact same
      | some octet =>
        dsimp only [Bind.bind, Except.bind] at ran
        cases more : d.sgetn n with
        | error thrown =>
          rw [more] at ran
          cases ran
        | ok last =>
          rw [more] at ran
          cases ran
          exact (ih more).trans same

theorem AsnRvsBuf.seekoff_octets (c : AsnRvsBuf) (off : Int) (way : SeekDir) :
    (c.seekoff off way).2.octets = c.octets := by
  rw [seekoff]
  split <;> rfl

theorem AsnRvsBuf.length_octets (c : AsnRvsBuf) : c.length.2.octets = c.octets := by
  simp only [length, seekpos, seekoff_octets]

end

/-! ## Reading from the deck -/

theorem map_octets_shift {c d : AsnRvsBuf} (same : d.octets = c.octets)
    (passed rest : List AsnRvsBuf) : (passed ++ [d] ++ rest).map AsnRvsBuf.octets =
      (passed ++ c :: rest).map AsnRvsBuf.octets := by
  simp [same]

theorem bumpCards_octets {passed cards : List AsnRvsBuf} {answer : Option UInt8} {b : AsnBuf}
    (ran : bumpCards passed cards = .ok (answer, b)) :
    b.deck.map AsnRvsBuf.octets = (passed ++ cards).map AsnRvsBuf.octets := by
  -- The induction is on the cards; each one that is passed keeps its octets.
  induction cards generalizing passed with
  | nil =>
    cases ran
    rfl
  | cons c rest ih =>
    rw [bumpCards] at ran
    cases bumped : c.sbumpc with
    | error thrown =>
      rw [bumped] at ran
      cases ran
    | ok next =>
      obtain ⟨octet, d⟩ := next
      have same := AsnRvsBuf.sbumpc_octets bumped
      rw [bumped] at ran
      rw [← map_octets_shift same]
      cases octet with
      | none => exact ih ran
      | some octet =>
        cases ran
        simp [AsnBuf.deck]

theorem segCards_octets {passed cards : List AsnRvsBuf} {n missing : Nat} {octets : List UInt8}
    {b : AsnBuf} (ran : segCards passed cards n = .ok ((octets, missing), b)) :
    b.deck.map AsnRvsBuf.octets = (passed ++ cards).map AsnRvsBuf.octets := by
  induction cards generalizing passed n octets missing b with
  | nil =>
    cases n <;> cases ran <;> rfl
  | cons c rest ih =>
    cases n with
    | zero =>
      cases ran
      rfl
    | succ n =>
      have turn : segCards passed (c :: rest) (n + 1) = (do
          let r ← c.sgetn (n + 1)
          if r.1.length = n + 1 then return ((r.1, 0), ⟨passed, r.2 :: rest⟩)
          else
            let t ← segCards (passed ++ [r.2]) rest (n + 1 - r.1.length)
            return ((r.1 ++ t.1.1, t.1.2), t.2)) := rfl
      rw [turn] at ran
      cases read : c.sgetn (n + 1) with
      | error thrown =>
        rw [read] at ran
        cases ran
      | ok next =>
        obtain ⟨front, d⟩ := next
        rw [read] at ran
        rw [← map_octets_shift (AsnRvsBuf.sgetn_octets read)]
        dsimp only [Bind.bind, Except.bind] at ran
        by_cases enough : front.length = n + 1
        · rw [if_pos enough] at ran
          cases ran
          simp [AsnBuf.deck]
        · rw [if_neg enough] at ran
          cases later : segCards (passed ++ [d]) rest (n + 1 - front.length) with
          | error thrown =>
            rw [later] at ran
            cases ran
          | ok last =>
            obtain ⟨⟨more, left⟩, b'⟩ := last
            rw [later] at ran
            cases ran
            exact ih later

theorem measure_octets (c : AsnRvsBuf) : (measure c).2.octets = c.octets := by
  simp only [measure, AsnRvsBuf.seekpos, AsnRvsBuf.seekoff_octets]

theorem lengthCards_octets (cards : List AsnRvsBuf) :
    (lengthCards cards).2.map AsnRvsBuf.octets = cards.map AsnRvsBuf.octets := by
  induction cards with
  | nil => rfl
  | cons c rest ih =>
    rw [lengthCards, List.map_cons, List.map_cons, measure_octets, ih]

end Esnacc.Cxx
