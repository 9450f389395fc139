import Esnacc.Python.AsnBase
import Mathlib.Data.List.Sort

/-! Lists of elements of the Python library, and what their decoders leave of them. -/

namespace Esnacc.Python

open Lib

variable {α : Type}

/-! ## Contents of lists -/

/-- The class that the elements of a list are expected to be of. -/
structure Expected (α : Type) where
  bEnc : α → BufM Nat
  bDec : Int → BufM (α × Int)
  le : α → α → Bool

/-- Put elements behind the buffer, one after the other. -/
def Expected.bEncElmts (expected : Expected α) : List α → BufM Nat
  | [] => return 0
  | x :: elemts => do
    let enclength ← expected.bEnc x
    return enclength + (← expected.bEncElmts elemts)

/-- Put the contents of a set behind the buffer, the last element first; the elements stay. -/
def Expected.asnSetOfBEncContent (expected : Expected α) (elemts : List α) :
    BufM (Nat × List α) := do
  return (← expected.bEncElmts elemts.reverse, elemts)

/-- Take the contents of a set away from the buffer; the elements that the set has stay. -/
@[grind =] def Expected.asnSetOfBDecContent (expected : Expected α) (elemts : List α) :
    Nat → Int → BufM (Option (List α))
  | 0, _ => return none
  | fuel + 1, contentlen =>
    if contentlen ≤ 0 then return some elemts
    else do
      -- The element that was decoded is not appended.
      let (_, len) ← expected.bDec contentlen
      expected.asnSetOfBDecContent elemts fuel (contentlen - len)

/-- Put the contents of a sequence behind the buffer; its elements are sorted before that. -/
def Expected.asnSequenceOfBEncContent (expected : Expected α) (elemts : List α) :
    BufM (Nat × List α) :=
  expected.asnSetOfBEncContent (elemts.mergeSort expected.le)

/-- Take the contents of a sequence away from the buffer; its elements are sorted after that. -/
def Expected.asnSequenceOfBDecContent (expected : Expected α) (elemts : List α) (fuel : Nat)
    (contentlen : Int) : BufM (Option (List α)) := do
  match ← expected.asnSetOfBDecContent elemts fuel contentlen with
  | none => return none
  | some elemts => return some (elemts.mergeSort expected.le)

/-! ## Round trips -/

/-- The elements decode as what was encoded, and as many octets are counted as were taken. -/
def Expected.Undoes (expected : Expected α) : Prop :=
  ∀ x, ∃ octets : List PyObj,
    (∀ buf, (expected.bEnc x).run buf = .ok octets.length (buf ++ octets)) ∧
      ∀ asnlen rest, (expected.bDec asnlen).run (octets ++ rest) =
        .ok (x, asnlen + octets.length) rest

/-- Encoding the contents of a list leaves the list as it is, and a new list that decodes them takes
exactly these octets and holds what it should. -/
def RoundTripsAs (holds : List α → Prop) (enc : List α → BufM (Nat × List α))
    (dec : List α → Nat → Int → BufM (Option (List α))) (elemts : List α) : Prop :=
  ∃ n octets, (enc elemts).run [] = .ok (n, elemts) octets ∧ n = octets.length ∧
    ∀ following, ∃ decoded, holds decoded ∧ ∃ turns, ∀ fuel ≥ turns,
      (dec [] fuel n).run (octets ++ following) = .ok (some decoded) following

/-- A sequence reads back with the same elements in the same order. -/
def Expected.SequenceRoundTrips (expected : Expected α) (elemts : List α) : Prop :=
  RoundTripsAs (· = elemts) expected.asnSequenceOfBEncContent expected.asnSequenceOfBDecContent
    elemts

/-- A set reads back with the same elements in any order. -/
def Expected.SetRoundTrips (expected : Expected α) (elemts : List α) : Prop :=
  RoundTripsAs (·.Perm elemts) expected.asnSetOfBEncContent expected.asnSetOfBDecContent elemts

variable {expected : Expected α}

/-- A set that decodes contents keeps the elements that it had. -/
theorem asnSetOfBDecContent_elemts {elemts decoded : List α} {fuel : Nat} {contentlen : Int}
    {buf rest : List PyObj}
    (ran : (expected.asnSetOfBDecContent elemts fuel contentlen).run buf =
      .ok (some decoded) rest) : decoded = elemts := by
  -- Along the turns of the loop.
  induction fuel generalizing contentlen buf with
  | zero => cases ran
  | succ fuel ih =>
    rw [Expected.asnSetOfBDecContent] at ran
    split at ran
    · cases ran
      rfl
    · obtain ⟨_, _, -, later⟩ := run_bind_eq_ok.1 ran
      exact ih later

theorem asnSequenceOfBDecContent_elemts {elemts decoded : List α} {fuel : Nat} {contentlen : Int}
    {buf rest : List PyObj}
    (ran : (expected.asnSequenceOfBDecContent elemts fuel contentlen).run buf =
      .ok (some decoded) rest) : decoded = elemts.mergeSort expected.le := by
  obtain ⟨result, _, decodes, returns⟩ := run_bind_eq_ok.1 ran
  cases result with
  | none => cases returns
  | some kept =>
    cases returns
    rw [asnSetOfBDecContent_elemts decodes]

theorem asnSetOfBDecContent_nil (fuel : Nat) (buf : List PyObj) :
    (expected.asnSetOfBDecContent [] (fuel + 1) 0).run buf = .ok (some []) buf := by
  rw [Expected.asnSetOfBDecContent, if_pos (by omega)]
  rfl

/-- A set reads back exactly when it is empty. -/
theorem setRoundTrips_iff (elemts : List α) : expected.SetRoundTrips elemts ↔ elemts = [] := by
  constructor
  · -- A new set has no elements, and decoding adds none.
    rintro ⟨n, octets, -, -, decodes⟩
    obtain ⟨decoded, same, turns, ran⟩ := decodes []
    rw [asnSetOfBDecContent_elemts (ran turns (Nat.le_refl turns))] at same
    exact List.nil_perm.1 same
  · rintro rfl
    refine ⟨0, [], rfl, rfl, fun following => ⟨[], List.Perm.nil, 1, ?_⟩⟩
    intro fuel enough
    obtain ⟨fuel, rfl⟩ := Nat.exists_eq_add_of_le' enough
    exact asnSetOfBDecContent_nil fuel following

/-- A sequence reads back exactly when it is empty. -/
theorem sequenceRoundTrips_iff (elemts : List α) :
    expected.SequenceRoundTrips elemts ↔ elemts = [] := by
  constructor
  · -- Nothing is there to be sorted behind the decoder.
    rintro ⟨n, octets, -, -, decodes⟩
    obtain ⟨decoded, same, turns, ran⟩ := decodes []
    rw [← same, asnSequenceOfBDecContent_elemts (ran turns (Nat.le_refl turns))]
    exact List.mergeSort_nil
  · rintro rfl
    refine ⟨0, [], ?_, rfl, fun following => ⟨[], rfl, 1, ?_⟩⟩
    · unfold Expected.asnSequenceOfBEncContent
      rw [List.mergeSort_nil]
      rfl
    · intro fuel enough
      obtain ⟨fuel, rfl⟩ := Nat.exists_eq_add_of_le' enough
      have set : (expected.asnSetOfBDecContent [] (fuel + 1) 0).run following =
          .ok (some []) following := asnSetOfBDecContent_nil fuel following
      change (expected.asnSequenceOfBDecContent [] (fuel + 1) 0).run following = _
      unfold Expected.asnSequenceOfBDecContent
      rw [run_bind_of_ok set]
      change EStateM.Result.ok (some ([].mergeSort expected.le)) following = _
      rw [List.mergeSort_nil]

/-- Of the contents of a list that is not empty, the decoder takes its last element only. -/
theorem asnSetOfBDecContent_takes_last (undoes : expected.Undoes) (front : List α) (last : α) :
    ∃ n octets, (expected.asnSetOfBEncContent (front ++ [last])).run [] =
        .ok (n, front ++ [last]) octets ∧ n = octets.length ∧
      ∃ first rest, octets = first ++ rest ∧ (expected.bEnc last).run [] = .ok first.length first ∧
        ∀ fuel following, (n : Int) ≤ 0 ∨
          (expected.asnSetOfBDecContent [] (fuel + 2) n).run (octets ++ following) =
            .ok (some []) (rest ++ following) := by
  -- Elements are put one behind the other, from the last one on.
  have writes (elemts : List α) : ∃ octets : List PyObj, ∀ buf,
      (expected.bEncElmts elemts).run buf = .ok octets.length (buf ++ octets) := by
    induction elemts with
    | nil => exact ⟨[], fun buf => by simp [Expected.bEncElmts]⟩
    | cons x elemts ih =>
      obtain ⟨more, later⟩ := ih
      obtain ⟨octets, now, -⟩ := undoes x
      refine ⟨octets ++ more, fun buf => ?_⟩
      rw [Expected.bEncElmts, run_bind_of_ok (now buf), run_bind_of_ok (later _)]
      simp
  obtain ⟨first, now, decodes⟩ := undoes last
  obtain ⟨rest, later⟩ := writes front.reverse
  have encoded : (expected.bEncElmts (front ++ [last]).reverse).run [] =
      .ok (first.length + rest.length) (first ++ rest) := by
    rw [List.reverse_concat, Expected.bEncElmts, run_bind_of_ok (now []),
      run_bind_of_ok (later _)]
    rfl
  refine ⟨first.length + rest.length, first ++ rest, ?_, by simp, first, rest, rfl, now [], ?_⟩
  · exact run_bind_of_ok encoded
  · intro fuel following
    by_cases empty : ((first.length + rest.length : Nat) : Int) ≤ 0
    · exact .inl empty
    · -- The length that the element returns includes the one that was passed to it.
      right
      rw [List.append_assoc, Expected.asnSetOfBDecContent, if_neg empty,
        run_bind_of_ok (decodes _ _)]
      change (expected.asnSetOfBDecContent [] (fuel + 1) _).run _ = _
      rw [Expected.asnSetOfBDecContent, if_pos (by omega)]
      rfl

/-- Lists read back exactly when they are empty, for every class of elements. -/
theorem lists_roundTrip_iff (expected : Expected α) (elemts : List α) :
    (expected.SequenceRoundTrips elemts ∧ expected.SetRoundTrips elemts ↔ elemts = []) ∧
      (expected.SequenceRoundTrips elemts ↔ elemts = []) ∧
      (expected.SetRoundTrips elemts ↔ elemts = []) := by
  refine ⟨?_, sequenceRoundTrips_iff elemts, setRoundTrips_iff elemts⟩
  rw [sequenceRoundTrips_iff, setRoundTrips_iff, and_self]

/-- Elements of one octet, in their order. -/
def octetElmts : Expected UInt8 where
  bEnc c := putBuf [.chr c]
  bDec asnlen := do
    match ← getByte with
    | .chr c => return (c, asnlen + 1)
    | .int _ => throw .typeError
  le a b := a ≤ b

theorem asnSetOfBDecContent_takes_last_octets :
    ∃ n octets, (octetElmts.asnSetOfBEncContent [5, 7]).run [] = .ok (n, [5, 7]) octets ∧
      n = octets.length := by
  have undoes : octetElmts.Undoes := fun c => ⟨[.chr c], fun _ => rfl, fun _ _ => rfl⟩
  obtain ⟨n, octets, ran, counted, -⟩ := asnSetOfBDecContent_takes_last undoes [5] 7
  exact ⟨n, octets, ran, counted⟩

/-- A sequence and a set of one element do not read back, though the element does. -/
theorem one_element_lost : ¬ ∀ (expected : Expected UInt8), expected.Undoes →
    ∀ elemts, expected.SequenceRoundTrips elemts ∧ expected.SetRoundTrips elemts := by
  intro claimed
  have undoes : octetElmts.Undoes := fun c => ⟨[.chr c], fun _ => rfl, fun _ _ => rfl⟩
  have none := (setRoundTrips_iff [7]).1 (claimed octetElmts undoes [7]).2
  simp at none

end Esnacc.Python
