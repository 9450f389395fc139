import Esnacc.Der.Canonical
import Mathlib.Data.List.Sort

/-! What the DER encoder of a SET OF writes, for every order of its elements. -/

namespace Esnacc

open Lib

/-- The octets in the buffer of an element. -/
def EncodedElmt.octets (e : EncodedElmt) : List UInt8 :=
  e.b.unread

/-- The result of the comparison that the sorting routine is handed. -/
def cmpElmts (a b : EncodedElmt) : Int :=
  (encodedElmtCmp a b).1

/-- Every allocation of every element succeeds. -/
def ElmtAllocs.Sound (allocs : ElmtAllocs) (size : UInt64) : Prop :=
  ∀ i, (allocs i).1.addr.toNat + size.toNat < 2 ^ 64 ∧ Allocates (allocs i).2 size

/-! ## Sorting elements -/

section

variable {bufs : List EncodedElmt} (loaded : ∀ e ∈ bufs, e.Loaded e.octets)

include loaded

theorem cmpElmts_eq {a b : EncodedElmt} (inA : a ∈ bufs) (inB : b ∈ bufs) :
    cmpElmts a b = verdict a.octets b.octets := by
  rw [cmpElmts, encodedElmtCmp_eq (loaded a inA) (loaded b inB)]

/-- The comparison orders elements exactly when it orders their encodings. -/
theorem consistent_cmpElmts :
    Consistent cmpElmts bufs ↔ Consistent verdict (bufs.map EncodedElmt.octets) := by
  -- A pair of the list is a pair of loaded elements.
  have pairs : (bufs.Pairwise fun x y => (cmpElmts x y < 0 ↔ 0 < cmpElmts y x) ∧
        (0 < cmpElmts x y ↔ cmpElmts y x < 0)) ↔
      bufs.Pairwise fun x y =>
        (verdict x.octets y.octets < 0 ↔ 0 < verdict y.octets x.octets) ∧
        (0 < verdict x.octets y.octets ↔ verdict y.octets x.octets < 0) := by
    apply List.Pairwise.iff_of_mem
    intro x y inX inY
    rw [cmpElmts_eq loaded inX inY, cmpElmts_eq loaded inY inX]
  constructor
  · intro consistent
    refine ⟨List.pairwise_map.mpr (pairs.mp consistent.opposite), ?_⟩
    simp only [List.forall_mem_map]
    intro x inX y inY z inZ first second
    rw [← cmpElmts_eq loaded inX inY] at first
    rw [← cmpElmts_eq loaded inY inZ] at second
    rw [← cmpElmts_eq loaded inX inZ]
    exact consistent.trans x inX y inY z inZ first second
  · intro consistent
    refine ⟨pairs.mpr (List.pairwise_map.mp consistent.opposite), ?_⟩
    intro x inX y inY z inZ first second
    rw [cmpElmts_eq loaded inX inY] at first
    rw [cmpElmts_eq loaded inY inZ] at second
    rw [cmpElmts_eq loaded inX inZ]
    exact consistent.trans _ (List.mem_map_of_mem inX) _ (List.mem_map_of_mem inY) _
      (List.mem_map_of_mem inZ) first second

theorem pairwise_verdict_of_sorted {arr : List EncodedElmt} (moved : arr.Perm bufs)
    (sorted : arr.Pairwise fun x y => cmpElmts x y ≤ 0) :
    (arr.map EncodedElmt.octets).Pairwise fun x y => verdict x y ≤ 0 := by
  refine List.pairwise_map.mpr (sorted.imp_of_mem ?_)
  intro x y inX inY notMore
  rw [cmpElmts_eq loaded (moved.mem_iff.mp inX) (moved.mem_iff.mp inY)] at notMore
  exact notMore

theorem mapM_copyElmt {arr : List EncodedElmt} (inside : ∀ e ∈ arr, e ∈ bufs) :
    arr.mapM copyElmt = some (arr.map EncodedElmt.octets) := by
  induction arr with
  | nil => rfl
  | cons e rest ih =>
    have here := (loaded e (inside e List.mem_cons_self)).copy
    have later := ih fun x inX => inside x (List.mem_cons_of_mem e inX)
    rw [List.mapM_cons, here, later]
    rfl

end

/-- Where a list is mapped without a failure, each of its members is. -/
theorem copied_of_mapM {arr : List EncodedElmt} {segs : List (List UInt8)}
    (copied : arr.mapM copyElmt = some segs) {e : EncodedElmt} (inside : e ∈ arr) :
    ∃ octets, copyElmt e = some octets := by
  induction arr generalizing segs with
  | nil => cases inside
  | cons first rest ih =>
    rw [List.mapM_cons] at copied
    obtain ⟨octets, here, more⟩ := Option.bind_eq_some_iff.mp copied
    obtain ⟨others, later, -⟩ := Option.bind_eq_some_iff.mp more
    rcases List.mem_cons.mp inside with rfl | other
    · exact ⟨octets, here⟩
    · exact ih later other

/-! ## The encoder -/

section

variable {size : UInt64} (atLeastOne : 1 ≤ size.toNat) (small : size.toNat < 2 ^ 31)
  {allocs : ElmtAllocs} (sound : allocs.Sound size) {components : List (List WriteCall)}
  (short : ∀ calls ∈ components, (written calls).length < 2 ^ 31)

include atLeastOne small sound short

/-- Elements for which a block has room come to stand in the array with their encodings. -/
theorem encodeElmts_loaded (room : ∀ calls ∈ components, (written calls).length ≤ size.toNat)
    (i : Nat) :
    ∃ bufs, encodeElmts size allocs i components = some bufs ∧
      bufs.map EncodedElmt.octets = components.map written ∧
      ∀ e ∈ bufs, e.Loaded e.octets := by
  induction components generalizing i with
  | nil => exact ⟨[], rfl, rfl, by simp⟩
  | cons calls rest ih =>
    obtain ⟨addressable, allocates⟩ := sound i
    obtain ⟨e, encoded, loaded⟩ := encodeElmt_loaded atLeastOne small allocates addressable
      (short calls List.mem_cons_self) (room calls List.mem_cons_self)
    obtain ⟨bufs, later, octets, all⟩ := ih
      (fun other inside => short other (List.mem_cons_of_mem calls inside))
      (fun other inside => room other (List.mem_cons_of_mem calls inside)) (i + 1)
    have holds : e.octets = written calls := loaded.reads.unread
    refine ⟨e :: bufs, ?_, by rw [List.map_cons, List.map_cons, holds, octets], ?_⟩
    · rw [encodeElmts, encoded, later]
      rfl
    · intro x inside
      rcases List.mem_cons.mp inside with rfl | other
      · rwa [holds]
      · exact all x other

/-- Where all elements have room, the encodings are written as the sorting routine leaves them. -/
theorem encodeSetOf_eq (room : ∀ calls ∈ components, (written calls).length ≤ size.toNat)
    {qsort : (EncodedElmt → EncodedElmt → Int) → List EncodedElmt → List EncodedElmt}
    (correct : CorrectQsort qsort) :
    ∃ bufs listLen, bufs.map EncodedElmt.octets = (components.map written).reverse ∧
      (∀ e ∈ bufs, e.Loaded e.octets) ∧
      encodeSetOf size allocs qsort components =
        some (((qsort cmpElmts bufs).map EncodedElmt.octets).reverse.map .seg, listLen) := by
  obtain ⟨bufs, encoded, octets, loaded⟩ := encodeElmts_loaded atLeastOne small sound
    (fun calls inside => short calls (List.mem_reverse.mp inside))
    (fun calls inside => room calls (List.mem_reverse.mp inside)) 0
  have copied := mapM_copyElmt loaded (fun e inside =>
    (correct.perm cmpElmts bufs).mem_iff.mp (List.mem_reverse.mp inside))
  refine ⟨bufs, (bufs.map EncodedElmt.len).sum, by rw [octets, List.map_reverse], loaded, ?_⟩
  rw [← List.map_reverse]
  change (do
    let bufs ← encodeElmts size allocs 0 components.reverse
    let segs ← (qsort cmpElmts bufs).reverse.mapM copyElmt
    return (segs.map WriteCall.seg, (bufs.map EncodedElmt.len).sum) : Option _) = _
  rw [encoded]
  change (do
    let segs ← (qsort cmpElmts bufs).reverse.mapM copyElmt
    return (segs.map WriteCall.seg, (bufs.map EncodedElmt.len).sum) : Option _) = _
  rw [copied]
  rfl

omit atLeastOne small sound short in
/-- Each element of the array is the encoding of a component. -/
theorem encodeElmts_member {i : Nat} {bufs : List EncodedElmt}
    (encoded : encodeElmts size allocs i components = some bufs) {calls : List WriteCall}
    (inside : calls ∈ components) :
    ∃ j, ∃ e ∈ bufs, encodeElmt size (allocs j).1 (allocs j).2 calls = some e := by
  induction components generalizing i bufs with
  | nil => cases inside
  | cons first rest ih =>
    rw [encodeElmts] at encoded
    obtain ⟨e, here, more⟩ := Option.bind_eq_some_iff.mp encoded
    obtain ⟨others, later, made⟩ := Option.bind_eq_some_iff.mp more
    cases made
    rcases List.mem_cons.mp inside with rfl | other
    · exact ⟨i, e, List.mem_cons_self, here⟩
    · obtain ⟨j, x, inX, encodedX⟩ := ih later other
      exact ⟨j, x, List.mem_cons_of_mem e inX, encodedX⟩

/-- Only where all elements have room is anything written. -/
theorem room_of_encodeSetOf
    {qsort : (EncodedElmt → EncodedElmt → Int) → List EncodedElmt → List EncodedElmt}
    (correct : CorrectQsort qsort) {output : List WriteCall × UInt64}
    (encoded : encodeSetOf size allocs qsort components = some output) :
    ∀ calls ∈ components, (written calls).length ≤ size.toNat := by
  intro calls inside
  by_contra long
  obtain ⟨bufs, made, more⟩ := Option.bind_eq_some_iff.mp encoded
  obtain ⟨segs, copied, -⟩ := Option.bind_eq_some_iff.mp more
  obtain ⟨j, e, inE, here⟩ := encodeElmts_member made (List.mem_reverse.mpr inside)
  obtain ⟨addressable, allocates⟩ := sound j
  have none := copyElmt_of_long atLeastOne small allocates addressable (short calls inside)
    (Nat.lt_of_not_le long) here
  -- All copies came out, the one of this element among them.
  have inArr : e ∈ (qsort cmpElmts bufs).reverse :=
    List.mem_reverse.mpr ((correct.perm _ bufs).mem_iff.mpr inE)
  obtain ⟨octets, came⟩ := copied_of_mapM copied inArr
  rw [none] at came
  cases came

end

/-! ## Canonical encodings -/

/-- However the elements are ordered, their encodings are written in ascending order. -/
def Canonical (size : UInt64) (components : List (List WriteCall)) : Prop :=
  ∃ sorted : List (List UInt8), sorted.Perm (components.map written) ∧ sorted.Pairwise (· ≤ ·) ∧
    ∀ (allocs : ElmtAllocs) (qsort : (EncodedElmt → EncodedElmt → Int) → List EncodedElmt →
        List EncodedElmt) (ys : List (List WriteCall)),
      allocs.Sound size → CorrectQsort qsort → ys.Perm components →
        ∃ listLen, encodeSetOf size allocs qsort ys = some (sorted.reverse.map .seg, listLen)

/-- What is the same however a list is ordered is the same for all objects in it. -/
theorem eq_of_forall_perm {α β : Type} {f : α → β} {xs : List α}
    (same : ∀ ys : List α, ys.Perm xs → ys.map f = xs.map f) :
    ∀ x ∈ xs, ∀ y ∈ xs, f x = f y := by
  -- Any object of the list may stand first.
  have first : ∀ x ∈ xs, (xs.map f).head? = some (f x) := by
    intro x inside
    obtain ⟨front, back, split⟩ := List.append_of_mem inside
    have moved : (x :: (front ++ back)).Perm xs := by
      rw [split]
      exact List.perm_middle.symm
    rw [← same _ moved]
    rfl
  intro x inX y inY
  have both := first x inX
  rw [first y inY] at both
  exact (Option.some.inj both).symm

section

variable {size : UInt64} (atLeastOne : 1 ≤ size.toNat) (small : size.toNat < 2 ^ 31)
  {components : List (List WriteCall)}
  (short : ∀ calls ∈ components, (written calls).length < 2 ^ 31)

include atLeastOne small short

/-- A canonical encoder has room for all elements, which are equal or agree. -/
theorem agree_of_canonical (canonical : Canonical size components) :
    (∀ calls ∈ components, (written calls).length ≤ size.toNat) ∧
      ((∀ x ∈ components, ∀ y ∈ components, written x = written y) ∨
        (components.map written).Pairwise Agree) := by
  obtain ⟨sorted, moved, ascending, runs⟩ := canonical
  obtain ⟨qsort, correct, leaves⟩ := @exists_correctQsort EncodedElmt
  -- One place in memory is enough to allocate from.
  have addressable : (0 : UInt64).toNat + size.toNat < 2 ^ 64 := by
    rw [UInt64.toNat_zero]
    omega
  have sound : ElmtAllocs.Sound (fun _ => (⟨fun _ => 0, 0⟩, fun _ => some ⟨fun _ => 0, 0⟩)) size :=
    fun _ => ⟨addressable, fun _ => ⟨_, rfl, addressable⟩⟩
  have room : ∀ calls ∈ components, (written calls).length ≤ size.toNat := by
    obtain ⟨listLen, encoded⟩ := runs _ qsort components sound correct (.refl _)
    exact room_of_encodeSetOf atLeastOne small sound short correct encoded
  -- Each order of the elements comes out sorted the same way.
  have arrays : ∀ ys : List (List WriteCall), ys.Perm components →
      ∃ bufs, bufs.map EncodedElmt.octets = (ys.map written).reverse ∧
        (∀ e ∈ bufs, e.Loaded e.octets) ∧
        (qsort cmpElmts bufs).map EncodedElmt.octets = sorted := by
    intro ys order
    obtain ⟨bufs, _, octets, loaded, encoded⟩ := encodeSetOf_eq atLeastOne small sound
      (fun calls inside => short calls (order.mem_iff.mp inside))
      (fun calls inside => room calls (order.mem_iff.mp inside)) correct
    obtain ⟨_, same⟩ := runs _ qsort ys sound correct order
    rw [encoded] at same
    have segs := (List.map_inj_right (fun _ _ equal => WriteCall.seg.inj equal)).mp
      (Prod.mk.inj (Option.some.inj same)).1
    exact ⟨bufs, octets, loaded, List.reverse_injective segs⟩
  refine ⟨room, ?_⟩
  by_cases consistent : Consistent verdict (components.map written)
  · -- The sorting routine must sort.
    obtain ⟨bufs, octets, loaded, output⟩ := arrays components (.refl _)
    have ordered : Consistent cmpElmts bufs := by
      rw [consistent_cmpElmts loaded, octets]
      exact consistent.perm (List.reverse_perm _)
    have less := pairwise_verdict_of_sorted loaded (correct.perm cmpElmts bufs)
      (correct.sorted cmpElmts bufs ordered)
    rw [output] at less
    exact .inr ((moved.pairwise_iff Agree.symm).mp
      (agree_of_sorted (consistent.perm moved) less ascending))
  · -- The sorting routine may leave the elements as they are.
    have kept : ∀ ys : List (List WriteCall), ys.Perm components →
        ys.map written = sorted.reverse := by
      intro ys order
      obtain ⟨bufs, octets, loaded, output⟩ := arrays ys order
      have disordered : ¬Consistent cmpElmts bufs := by
        rw [consistent_cmpElmts loaded, octets]
        intro ordered
        exact consistent (ordered.perm ((order.symm.map written).trans
          (List.reverse_perm _).symm))
      rw [leaves cmpElmts bufs disordered, octets] at output
      rw [← output, List.reverse_reverse]
    exact .inl (eq_of_forall_perm fun ys order => by rw [kept ys order, kept _ (.refl _)])

/-- The encoder is canonical for elements that have room, and are equal or agree. -/
theorem canonical_of_agree (room : ∀ calls ∈ components, (written calls).length ≤ size.toNat)
    (agree : (∀ x ∈ components, ∀ y ∈ components, written x = written y) ∨
      (components.map written).Pairwise Agree) : Canonical size components := by
  have moved := List.perm_insertionSort (· ≤ ·) (components.map written)
  have ascending := List.pairwise_insertionSort (· ≤ ·) (components.map written)
  refine ⟨_, moved, ascending, ?_⟩
  intro allocs qsort ys sound correct order
  obtain ⟨bufs, listLen, octets, loaded, encoded⟩ := encodeSetOf_eq atLeastOne small sound
    (fun calls inside => short calls (order.mem_iff.mp inside))
    (fun calls inside => room calls (order.mem_iff.mp inside)) correct
  have arranged : (bufs.map EncodedElmt.octets).Perm (components.map written) := by
    rw [octets]
    exact (List.reverse_perm _).trans (order.map written)
  have all : ((qsort cmpElmts bufs).map EncodedElmt.octets).Perm (components.map written) :=
    ((correct.perm cmpElmts bufs).map _).trans arranged
  -- What the sorting routine leaves is in ascending order.
  have sorted : ((qsort cmpElmts bufs).map EncodedElmt.octets).Pairwise (· ≤ ·) := by
    rcases agree with equal | agree
    · have same : ∀ x ∈ components.map written, ∀ y ∈ components.map written, x = y := by
        simp only [List.forall_mem_map]
        exact equal
      refine List.pairwise_of_forall_mem_list fun x inX y inY => ?_
      exact (same x (all.mem_iff.mp inX) y (all.mem_iff.mp inY)).le
    · obtain ⟨consistent, verdicts⟩ := consistent_of_agree agree
      have ordered : Consistent cmpElmts bufs :=
        (consistent_cmpElmts loaded).mpr (consistent.perm arranged)
      refine (pairwise_verdict_of_sorted loaded (correct.perm cmpElmts bufs)
        (correct.sorted cmpElmts bufs ordered)).imp_of_mem ?_
      intro x y inX inY
      exact (verdicts x (all.mem_iff.mp inX) y (all.mem_iff.mp inY)).mp
  have same := List.Perm.eq_of_pairwise (fun x y _ _ => le_antisymm) sorted ascending
    (all.trans moved.symm)
  exact ⟨listLen, by rw [encoded, same]⟩

end

/--
The encoder is canonical exactly for elements whose encodings each fit one block, and are all equal
or agree in pairs, and the comparison tells two encodings apart as it should exactly where they
agree.
-/
theorem setOf_canonical_iff (size : UInt64) (atLeastOne : 1 ≤ size.toNat)
    (small : size.toNat < 2 ^ 31) :
    (∀ components : List (List WriteCall),
      (∀ calls ∈ components, (written calls).length < 2 ^ 31) →
        (Canonical size components ↔
          (∀ calls ∈ components, (written calls).length ≤ size.toNat) ∧
            ((∀ x ∈ components, ∀ y ∈ components, written x = written y) ∨
              (components.map written).Pairwise Agree))) ∧
      ∀ (a b : EncodedElmt) (x y : List UInt8), a.Loaded x → b.Loaded y →
        (Tells x y (encodedElmtCmp a b).1 ∧ Tells y x (encodedElmtCmp b a).1 ↔ Agree x y) := by
  refine ⟨fun components short => ⟨agree_of_canonical atLeastOne small short, ?_⟩, ?_⟩
  · rintro ⟨room, agree⟩
    exact canonical_of_agree atLeastOne small short room agree
  · intro a b x y left right
    exact tells_iff_agree left right

theorem setOf_canonical_iff_two_integers :
    Canonical 1024 [[.seg [2, 1, 5]], [.seg [2, 1, 3]]] := by
  apply ((setOf_canonical_iff 1024 (by decide) (by decide)).1 _ (by decide)).mpr
  refine ⟨by decide, .inr ?_⟩
  exact .cons (by rintro y (_ | ⟨_, ⟨⟩⟩); exact ⟨(5, 3), by decide, by decide⟩) (.cons nofun .nil)

/-- An octet of all ones becomes the smallest one before the comparison looks at it. -/
theorem setOf_not_canonical :
    ¬ ∀ (size : UInt64) (components : List (List WriteCall)), 1 ≤ size.toNat →
      size.toNat < 2 ^ 31 → (∀ calls ∈ components, (written calls).length < 2 ^ 31) →
        Canonical size components := by
  intro canonical
  have bad := canonical 1024 [[.seg [2, 1, 0]], [.seg [2, 1, 255]]] (by decide) (by decide)
    (by decide)
  obtain ⟨-, equal | agree⟩ := agree_of_canonical (by decide) (by decide) (by decide) bad
  · have same := equal _ List.mem_cons_self _ (List.mem_cons_of_mem _ List.mem_cons_self)
    revert same
    decide
  · obtain ⟨data, last, order⟩ := List.rel_of_pairwise_cons agree List.mem_cons_self
    have zeroOnes : lastDifference [2, 1, 0] [2, 1, 255] = some (0, 255) := by decide
    cases zeroOnes.symm.trans last
    revert order
    decide

end Esnacc
