import Esnacc.Cxx.OidArcs

/-! Walking along the octets of C++ object identifiers, and the buffers that their arcs need. -/

namespace Esnacc.Cxx

open Lib

/-! ## Walking along the arcs -/

/-- Octets are walked along arc by arc, and the last arc may be broken off. -/
theorem arcs_induction {P : List UInt8 → Prop} (nil : P [])
    (cut : ∀ octets, octets ≠ [] → (∀ c ∈ octets, hasMore c) → P octets)
    (arc : ∀ more last behind, (∀ c ∈ more, hasMore c) → hasMore last = false → P behind →
      P (more ++ last :: behind)) (octets : List UInt8) : P octets := by
  induction size : octets.length using Nat.strong_induction_on generalizing octets with
  | h n ih =>
    have parts : octets.takeWhile hasMore ++ octets.dropWhile hasMore = octets :=
      List.takeWhile_append_dropWhile
    have more : ∀ c ∈ octets.takeWhile hasMore, hasMore c := fun c => List.mem_takeWhile_imp
    have stops := List.head?_dropWhile_not hasMore octets
    generalize octets.takeWhile hasMore = front at parts more
    generalize octets.dropWhile hasMore = back at parts stops
    subst parts
    cases back with
    | nil =>
      rw [List.append_nil] at size ⊢
      by_cases none : front = []
      · rw [none]
        exact nil
      · exact cut front none more
    | cons last behind =>
      refine arc front last behind more (by simpa using stops) (ih behind.length ?_ behind rfl)
      rw [List.length_append, List.length_cons] at size
      omega

theorem countArcs_of_ne_nil {octets : List UInt8} (some : octets ≠ []) :
    countArcs octets = countArcs ((octets.dropWhile hasMore).drop 1) + 1 := by
  cases octets with
  | nil => exact absurd rfl some
  | cons c rest => rw [countArcs]

theorem countArcs_cut {octets : List UInt8} (some : octets ≠ []) (more : ∀ c ∈ octets, hasMore c) :
    countArcs octets = 1 := by
  rw [countArcs_of_ne_nil some, List.dropWhile_eq_nil_iff.mpr more, List.drop_nil, countArcs]

theorem countArcs_arc {more behind : List UInt8} {last : UInt8} (lead : ∀ c ∈ more, hasMore c)
    (clear : hasMore last = false) :
    countArcs (more ++ last :: behind) = countArcs behind + 1 := by
  have ends : ¬hasMore last = true := by
    rw [clear]
    exact Bool.false_ne_true
  rw [countArcs_of_ne_nil (by simp), List.dropWhile_append_of_pos lead,
    List.dropWhile_cons_of_neg ends]
  rfl

theorem shiftArc_eq {iArc : Nat} {oidArray : List UInt64} {v : UInt64}
    (held : oidArray[iArc]? = some v) (c : UInt8) :
    shiftArc iArc c oidArray = .ok (oidArray.set iArc (shiftIn v c)) := by
  rw [shiftArc, held]
  rfl

/-- The octets of an arc up to its last one are shifted into its entry. -/
theorem shiftMore_spec {done more rest : List UInt8} (lead : ∀ c ∈ more, hasMore c)
    (ends : ∀ c ∈ rest.head?, hasMore c = false) {iArc : Nat} {oidArray : List UInt64} {v : UInt64}
    (held : oidArray[iArc]? = some v) :
    shiftMore (done ++ (more ++ rest)) iArc done.length oidArray =
      .ok (done.length + more.length, oidArray.set iArc (more.foldl shiftIn v)) := by
  induction more generalizing done oidArray v with
  | nil =>
    have same : oidArray.set iArc v = oidArray := by
      obtain ⟨inside, rfl⟩ := List.getElem?_eq_some_iff.mp held
      exact List.set_getElem_self inside
    have here : (done ++ ([] ++ rest))[done.length]? = rest.head? := by
      rw [List.nil_append, List.getElem?_append_right (Nat.le_refl _), Nat.sub_self,
        List.head?_eq_getElem?]
    rw [shiftMore, here, List.foldl_nil, same]
    cases last : rest.head? with
    | none =>
      rw [List.head?_eq_none_iff.mp last, if_neg (by simp)]
      rfl
    | some c =>
      have some : rest ≠ [] := by
        rintro rfl
        cases last
      have positive := List.length_pos_iff.mpr some
      rw [if_pos (by simp; omega)]
      dsimp only
      rw [ends c last, if_neg Bool.false_ne_true]
      rfl
  | cons c more ih =>
    have here : (done ++ (c :: more ++ rest))[done.length]? = some c := by
      rw [List.getElem?_append_right (Nat.le_refl _), Nat.sub_self]
      rfl
    have inside := (List.getElem?_eq_some_iff.mp held).1
    have again := @ih (done ++ [c]) (fun d behind => lead d (List.mem_cons_of_mem _ behind))
      (oidArray.set iArc (shiftIn v c)) (shiftIn v c) (by simp [inside])
    rw [List.append_assoc, List.length_append, List.length_singleton, List.set_set] at again
    rw [shiftMore, if_pos (by simp), here]
    dsimp only
    rw [if_pos (lead c List.mem_cons_self), shiftArc_eq held]
    refine Eq.trans again ?_
    rw [List.length_cons, List.foldl_cons, Nat.add_assoc, Nat.add_comm 1]

/-- The octets of an arc that is broken off are refused. -/
theorem getArcs_cut {mIsRelative : Bool} {done octets : List UInt8} (some : octets ≠ [])
    (more : ∀ c ∈ octets, hasMore c) {iArc : Nat} {oidArray : List UInt64}
    (inside : iArc < oidArray.length) :
    getArcs mIsRelative (done ++ octets) done.length iArc oidArray =
      .error (oidException "Invalid encoded OID") := by
  have positive := List.length_pos_iff.mpr some
  have shifted := @shiftMore_spec done octets [] more nofun iArc oidArray _
    (List.getElem?_eq_getElem inside)
  rw [List.append_nil] at shifted
  rw [getArcs, dif_pos (by rw [List.length_append]; omega)]
  split
  next e ran =>
    rw [shifted] at ran
    cases ran
  next i oidArray' ran =>
    rw [shifted] at ran
    injection ran with ran
    injection ran with place
    rw [if_pos (by rw [List.length_append]; exact place.symm)]
    rfl

/-- An arc is got, and the loop goes on behind it. -/
theorem getArcs_arc {mIsRelative : Bool} {done more behind : List UInt8} {last : UInt8}
    (lead : ∀ c ∈ more, hasMore c) (clear : hasMore last = false) {iArc : Nat}
    {oidArray : List UInt64} {v : UInt64} (held : oidArray[iArc]? = some v) :
    getArcs mIsRelative (done ++ (more ++ last :: behind)) done.length iArc oidArray =
      if !mIsRelative ∧ iArc = 0 then do
        let oidArray ← unmunge (oidArray.set iArc ((more ++ [last]).foldl shiftIn v))
        getArcs mIsRelative (done ++ (more ++ last :: behind)) (done.length + more.length + 1)
          (iArc + 2) oidArray
      else getArcs mIsRelative (done ++ (more ++ last :: behind)) (done.length + more.length + 1)
          (iArc + 1) (oidArray.set iArc ((more ++ [last]).foldl shiftIn v)) := by
  have shifted := @shiftMore_spec done more (last :: behind) lead
    (fun c first => Option.some.inj first ▸ clear) iArc oidArray v held
  have inside := (List.getElem?_eq_some_iff.mp held).1
  have here : (done ++ (more ++ last :: behind))[done.length + more.length]? = some last := by
    rw [← List.append_assoc, List.getElem?_append_right (by simp), List.length_append,
      Nat.sub_self]
    rfl
  have entry : (oidArray.set iArc (more.foldl shiftIn v))[iArc]? = some (more.foldl shiftIn v) := by
    simp [inside]
  rw [getArcs, dif_pos (by simp)]
  split
  next e ran =>
    rw [shifted] at ran
    cases ran
  next i oidArray' ran =>
    rw [shifted] at ran
    injection ran with ran
    injection ran with place filled
    subst place filled
    rw [if_neg (by simp), here]
    dsimp only
    rw [shiftArc_eq entry, List.set_set, List.foldl_append, List.foldl_cons, List.foldl_nil]
    rfl

/-- The array needs an entry for each arc, and one more for the first two. -/
theorem getArcs_inside {mIsRelative : Bool} (octets : List UInt8) {done : List UInt8} {iArc : Nat}
    {oidArray : List UInt64}
    (enough : iArc + countArcs octets +
      (if mIsRelative = false ∧ iArc = 0 ∧ octets ≠ [] then 1 else 0) ≤ oidArray.length) :
    getArcs mIsRelative (done ++ octets) done.length iArc oidArray ≠ .error .fault := by
  induction octets using arcs_induction generalizing done iArc oidArray with
  | nil =>
    rw [getArcs, dif_neg (by simp)]
    exact nofun
  | cut octets some more =>
    rw [countArcs_cut some more] at enough
    rw [getArcs_cut some more (by omega)]
    exact nofun
  | arc more last behind lead clear ih =>
    rw [countArcs_arc lead clear] at enough
    have inside : iArc < oidArray.length := by omega
    have place : done.length + more.length + 1 = (done ++ (more ++ [last])).length := by
      simp [Nat.add_assoc]
    have parts : done ++ (more ++ last :: behind) = done ++ (more ++ [last]) ++ behind := by simp
    rw [getArcs_arc lead clear (List.getElem?_eq_getElem inside), place, parts]
    split
    next first =>
      obtain ⟨absolute, rfl⟩ := first
      rw [if_pos ⟨by simpa using absolute, rfl, by simp⟩] at enough
      obtain ⟨one, two, rest, rfl⟩ : ∃ one two rest, oidArray = one :: two :: rest := by
        rcases oidArray with _ | ⟨one, _ | ⟨two, rest⟩⟩
        · simp at inside
        · simp at enough
        · exact ⟨one, two, rest, rfl⟩
      refine ih ?_
      simp only [List.length_cons] at enough ⊢
      rw [if_neg (by simp)]
      omega
    next =>
      refine ih ?_
      rw [List.length_set, if_neg (by simp)]
      omega

/-! ## Both buffers -/

/-- All accesses stay inside: setting arcs writes in its buffer, and getting them reads octets that are there and writes entries that are counted. -/
def BuffersHold (x : AsnRelativeOid) (arcNumArr : List UInt64) (y : AsnRelativeOid) : Prop :=
  x.setArcs arcNumArr ≠ .error .fault ∧
    y.getOidArray (List.replicate y.numArcs 0) ≠ .error .fault

/-- The octets of the arcs have room in the buffer, and an `unsigned int` counts the arcs. -/
def FitsBuffer (mIsRelative : Bool) (arcNumArr : List UInt64) : Prop :=
  (liveArcs arcNumArr).length < 2 ^ 32 ∧
    (arcOctets (arcNumbers mIsRelative (liveArcs arcNumArr))).length ≤ arcNumArr.length * 5

theorem AsnRelativeOid.numArcs_eq (y : AsnRelativeOid) : y.numArcs = countArcs y.oid +
    if y.mIsRelative = false ∧ 0 = 0 ∧ y.oid ≠ [] then 1 else 0 := by
  have some : 0 < countArcs y.oid ↔ y.oid ≠ [] := by
    by_cases none : y.oid = []
    · simp [none, countArcs]
    · simp [none, countArcs_of_ne_nil none]
  by_cases both : y.mIsRelative = false ∧ y.oid ≠ []
  · rw [numArcs, if_pos ⟨by rw [both.1]; rfl, some.mpr both.2⟩, if_pos ⟨both.1, rfl, both.2⟩]
  · rw [numArcs, if_neg fun all => both ⟨by simpa using all.1, some.mp all.2⟩,
      if_neg fun all => both ⟨all.1, all.2.2⟩]
    rfl

theorem AsnRelativeOid.getOidArray_inside (y : AsnRelativeOid) :
    y.getOidArray (List.replicate y.numArcs 0) ≠ .error .fault := by
  refine @getArcs_inside y.mIsRelative y.oid [] 0 _ ?_
  rw [List.length_replicate, y.numArcs_eq, Nat.zero_add]

/-- Where the buffers hold: those to get arcs into always, the one to set them in where it has room. -/
theorem buffersHold_iff {x : AsnRelativeOid} {arcNumArr : List UInt64}
    (accepted : AcceptsArcs x.mIsRelative arcNumArr) (y : AsnRelativeOid) :
    BuffersHold x arcNumArr y ↔ FitsBuffer x.mIsRelative arcNumArr := by
  rw [BuffersHold, and_iff_left y.getOidArray_inside, AsnRelativeOid.setArcs_spec accepted rfl,
    FitsBuffer]
  split
  next fits => exact iff_of_true nofun fits
  next full => exact iff_of_false (fun kept => kept rfl) full

/-- The arcs 1 and 2, and the octets of the arcs 1, 2 and 840. -/
theorem buffersHold_iff_two : BuffersHold ⟨false, []⟩ [1, 2] ⟨false, [0x2A, 0x86, 0x48]⟩ ↔
    FitsBuffer false [1, 2] :=
  buffersHold_iff (x := ⟨false, []⟩) ⟨List.cons_ne_nil _ _, fun _ first here _ => by
    cases here
    exact ⟨by decide, 2, rfl, by decide⟩⟩ _

/-- The arc 2 ^ 35 has six octets, but five are allocated for it. -/
theorem not_buffersHold : ¬∀ (x : AsnRelativeOid) (arcNumArr : List UInt64) (y : AsnRelativeOid),
    AcceptsArcs x.mIsRelative arcNumArr → BuffersHold x arcNumArr y := by
  intro always
  have accepted : AcceptsArcs true [0x800000000] := ⟨List.cons_ne_nil _ _, nofun⟩
  obtain ⟨inside, -⟩ := always ⟨true, []⟩ [0x800000000] ⟨true, [1]⟩ accepted
  have more : ¬(groupOctets 0x800000000).length ≤ 5 := by
    intro few
    have below := foldl_addGroup_lt 0 (groupOctets 0x800000000)
    have power := Nat.pow_le_pow_right (n := 128) (by decide) few
    rw [foldl_groupOctets] at below
    omega
  apply inside
  rw [AsnRelativeOid.setArcs_spec (x := ⟨true, []⟩) accepted rfl]
  refine if_neg fun fits => more ?_
  have room := fits.2
  have octets : arcOctets (arcNumbers true (liveArcs [0x800000000])) =
      groupOctets 0x800000000 ++ [] := rfl
  rwa [octets, List.append_nil] at room

end Esnacc.Cxx
