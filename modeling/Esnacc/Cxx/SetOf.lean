import Esnacc.Cxx.CardOctets
import Esnacc.Cxx.FlatBuf
import Esnacc.Lib.ListSort
import Mathlib.Data.List.Lex

/-! The contents of a C++ SET OF are its elements' encodings in ascending order. -/

namespace Esnacc.Cxx

open Lib

/-- Octets are ordered as numbers, and strings of octets as in a dictionary. -/
local instance dataOrder : LinearOrder UInt8 := byteOrder

/-- The octets written to a buffer. -/
@[grind =] def AsnBuf.data (b : AsnBuf) : List UInt8 :=
  b.deck.flatMap AsnRvsBuf.octets

/-! ## Source -/

/-- Compare two buffers octet by octet; the turns allow for every octet of the left one. -/
def lessTurns : Nat → Bool → AsnBuf → AsnBuf → Except Thrown (Bool × AsnBuf × AsnBuf)
  | 0, _, _, _ => throw .fault
  | turns + 1, firstTime, lhs, rhs => do
    let (ch1, lhs) ← bumpCards lhs.passed lhs.ahead
    let (ch2, rhs) ← bumpCards rhs.passed rhs.ahead
    match ch1, ch2 with
    -- Buffers that end together are in order, unless they are both empty.
    | none, none => return (!firstTime, lhs, rhs)
    | some _, none => return (false, lhs, rhs)
    | none, some _ => return (true, lhs, rhs)
    | some ch1, some ch2 =>
      if ch2 < ch1 then return (false, lhs, rhs)
      else if ch1 < ch2 then return (true, lhs, rhs)
      else lessTurns turns false lhs rhs

/-- The comparison of two buffers, which are both set to be read from their starts again. -/
def lessThan (lhs rhs : AsnBuf) : Except Thrown (Bool × AsnBuf × AsnBuf) := do
  let lhs := lhs.resetMode
  let rhs := rhs.resetMode
  let (less, lhs, rhs) ← lessTurns (lhs.unread.length + 1) true lhs rhs
  return (less, lhs.resetMode, rhs.resetMode)

/-- A buffer whose current card is deleted where it has no octets still to come. -/
def AsnBuf.dropSpent (b : AsnBuf) : AsnBuf :=
  match b.ahead with
  | [] => b
  | c :: rest =>
    let (length, c) := c.length
    if length = 0 then { b with ahead := rest } else { b with ahead := c :: rest }

/-- Move all cards of a buffer in front of those of another one, with the length of the first. -/
def AsnBuf.splice (b src : AsnBuf) : Int64 × AsnBuf :=
  let b := b.dropSpent
  let (length, ahead) := lengthCards src.ahead
  match src.passed ++ ahead with
  | [] => (length.toInt64, b)
  | deck => (length.toInt64, ⟨[], deck ++ b.deck⟩)

section

variable {T : Type} (bEnc : T → AsnBuf → Except Thrown (AsnBuf × UInt64))

/-- Encode each component into a buffer of its own, and add up the lengths. -/
def encodeEach : List T → UInt64 → Except Thrown (List AsnBuf × UInt64)
  | [], totalLen => return ([], totalLen)
  | i :: rest, totalLen => do
    let (buf, len) ← bEnc i .empty
    let (bufList, totalLen) ← encodeEach rest (totalLen + len)
    return (buf :: bufList, totalLen)

/-- Splice buffers into a buffer, the last one first. -/
def spliceEach (b : AsnBuf) (bufList : List AsnBuf) : AsnBuf :=
  bufList.foldr (fun buf b => (b.splice buf).2) b

/-- Encode the components of a SET OF, sort their encodings, and splice them into a buffer. -/
def bEncContent (components : List T) (b : AsnBuf) : Except Thrown (AsnBuf × UInt64) := do
  let (bufList, totalLen) ← encodeEach bEnc components 0
  let bufList ← listSort lessThan bufList
  return (spliceEach b bufList, totalLen)

end

/-! ## The comparison -/

/-- A buffer that is set to be read from its start. -/
structure AsnBuf.Rewound (b : AsnBuf) : Prop where
  passed : b.passed = []
  start : ∀ c ∈ b.ahead, c.get = some ⟨c.octets.length, c.octets.length⟩

theorem AsnBuf.resetMode_rewound (b : AsnBuf) : b.resetMode.Rewound := by
  refine ⟨rfl, fun c listed => ?_⟩
  obtain ⟨d, -, rfl⟩ := List.mem_map.mp listed
  rw [d.seekpos_zero]
  rfl

@[simp] theorem AsnBuf.data_resetMode (b : AsnBuf) : b.resetMode.data = b.data := by
  have cards : b.resetMode.deck = b.deck.map fun c => c.setg c.octets.length :=
    List.map_congr_left fun c _ => c.seekpos_zero
  rw [data, cards, List.flatMap_map]
  rfl

theorem AsnBuf.Rewound.unread {b : AsnBuf} (rewound : b.Rewound) : b.unread = b.data := by
  rw [AsnBuf.unread, data, deck, rewound.passed, List.nil_append]
  apply List.flatMap_congr
  intro c listed
  rw [AsnRvsBuf.unread, rewound.start c listed]
  simp

theorem AsnBuf.Rewound.begun {b : AsnBuf} (rewound : b.Rewound) :
    b.Reading ∧ ∀ c ∈ b.ahead, c.get ≠ none := by
  constructor
  · intro c listed area same
    rw [rewound.start c listed, Option.some.injEq] at same
    subst same
    exact ⟨rfl, Nat.le_refl _⟩
  · intro c listed
    rw [rewound.start c listed]
    simp

theorem AsnBuf.data_eq_of_octets {b b' : AsnBuf}
    (same : b'.deck.map AsnRvsBuf.octets = b.deck.map AsnRvsBuf.octets) : b'.data = b.data := by
  rw [data, data, List.flatMap_def, List.flatMap_def, same]

theorem nil_le_octets (seg : List UInt8) : [] ≤ seg :=
  not_lt.mp fun before => by cases before

theorem cons_le_of_lt {ch1 ch2 : UInt8} (less : ch1 < ch2) (octets others : List UInt8) :
    ch1 :: octets ≤ ch2 :: others :=
  le_of_lt (List.Lex.rel less)

/-- Comparing what is to come of two buffers leaves their data, and tells their order. -/
theorem lessTurns_spec {turns : Nat} (firstTime : Bool) {lhs rhs : AsnBuf}
    (reading : lhs.Reading ∧ ∀ c ∈ lhs.ahead, c.get ≠ none)
    (readingRight : rhs.Reading ∧ ∀ c ∈ rhs.ahead, c.get ≠ none)
    (enough : lhs.unread.length < turns) :
    ∃ less lhs' rhs', lessTurns turns firstTime lhs rhs = .ok (less, lhs', rhs') ∧
      lhs'.data = lhs.data ∧ rhs'.data = rhs.data ∧
      (less = true → lhs.unread ≤ rhs.unread) ∧ (less = false → rhs.unread ≤ lhs.unread) := by
  induction turns generalizing firstTime lhs rhs with
  | zero => omega
  | succ turns ih =>
    obtain ⟨left, ran, rest, onward⟩ :=
      bumpCards_spec reading.1 (entered_of_begun reading.2 1) lhs.passed
    obtain ⟨right, ranRight, restRight, onwardRight⟩ :=
      bumpCards_spec readingRight.1 (entered_of_begun readingRight.2 1) rhs.passed
    have data : left.data = lhs.data := AsnBuf.data_eq_of_octets (bumpCards_octets ran)
    have dataRight : right.data = rhs.data := AsnBuf.data_eq_of_octets (bumpCards_octets ranRight)
    rw [lessTurns, ran, ranRight]
    rw [AsnBuf.unread] at enough
    simp only [AsnBuf.unread] at rest restRight ⊢
    dsimp only [Bind.bind, Except.bind]
    cases unread : unreadOf lhs.ahead with
    | nil =>
      cases unreadRight : unreadOf rhs.ahead with
      | nil => exact ⟨_, left, right, rfl, data, dataRight, fun _ => le_rfl, fun _ => le_rfl⟩
      | cons ch2 others =>
        exact ⟨_, left, right, rfl, data, dataRight, fun _ => nil_le_octets _, (fun no => by cases no)⟩
    | cons ch1 octets =>
      cases unreadRight : unreadOf rhs.ahead with
      | nil => exact ⟨_, left, right, rfl, data, dataRight, (fun no => by cases no), fun _ => nil_le_octets _⟩
      | cons ch2 others =>
        simp only [List.head?_cons]
        by_cases above : ch2 < ch1
        · rw [if_pos above]
          exact ⟨_, left, right, rfl, data, dataRight, (fun no => by cases no), fun _ => cons_le_of_lt above _ _⟩
        · rw [if_neg above]
          by_cases below : ch1 < ch2
          · rw [if_pos below]
            exact ⟨_, left, right, rfl, data, dataRight, fun _ => cons_le_of_lt below _ _, (fun no => by cases no)⟩
          · -- The octets are equal, so that those behind them decide.
            rw [if_neg below]
            obtain rfl : ch1 = ch2 := le_antisymm (not_lt.mp above) (not_lt.mp below)
            simp only [unread, unreadRight, List.tail_cons] at rest restRight
            have shorter : left.unread.length < turns := by
              rw [AsnBuf.unread, rest]
              rw [unread, List.length_cons] at enough
              omega
            obtain ⟨less, lhs', rhs', ranRest, same, sameRight, before, after⟩ :=
              ih false ⟨onward.reading, onward.begun reading.2⟩
                ⟨onwardRight.reading, onwardRight.begun readingRight.2⟩ shorter
            simp only [AsnBuf.unread, rest, restRight] at before after
            exact ⟨less, lhs', rhs', ranRest, same.trans data, sameRight.trans dataRight,
              fun yes => List.cons_le_cons ch1 (before yes),
              fun no => List.cons_le_cons ch1 (after no)⟩

/-- The comparison of buffers compares the octets written to them. -/
theorem lessThan_compares : Compares AsnBuf.data AsnBuf.Rewound lessThan := by
  intro lhs rhs
  have left := lhs.resetMode_rewound
  have right := rhs.resetMode_rewound
  obtain ⟨less, lhs', rhs', ran, same, sameRight, before, after⟩ :=
    lessTurns_spec true left.begun right.begun (Nat.lt_succ_self _)
  rw [left.unread, right.unread, lhs.data_resetMode, rhs.data_resetMode] at before after
  refine ⟨less, lhs'.resetMode, rhs'.resetMode, ?_, ?_, ?_, before, after,
    lhs'.resetMode_rewound, rhs'.resetMode_rewound⟩
  · rw [lessThan, ran]
    rfl
  · rw [lhs'.data_resetMode, same, lhs.data_resetMode]
  · rw [rhs'.data_resetMode, sameRight, rhs.data_resetMode]

/-! ## Splicing -/

/-- A buffer of whose current card nothing was read. -/
def AsnBuf.Unspent (b : AsnBuf) : Prop :=
  ∀ c ∈ b.ahead.head?, c.length.1 = c.octets.length

/-- A buffer of whose current card nothing was read loses no data with it. -/
theorem AsnBuf.Unspent.data_dropSpent {b : AsnBuf} (unspent : b.Unspent) :
    b.dropSpent.data = b.data := by
  obtain ⟨passed, ahead⟩ := b
  cases ahead with
  | nil => rfl
  | cons c rest =>
    have size : c.length.1 = c.octets.length := unspent c rfl
    rw [dropSpent]
    dsimp only
    by_cases none : c.length.1 = 0
    · rw [if_pos none]
      have octets : c.octets = [] := List.eq_nil_of_length_eq_zero (size.symm.trans none)
      simp [data, deck, octets]
    · rw [if_neg none]
      simp [data, deck, c.length_octets]

/-- Splicing puts the data of a buffer in front of those that the other one keeps. -/
theorem AsnBuf.data_splice (b src : AsnBuf) :
    (b.splice src).2.data = src.data ++ b.dropSpent.data := by
  have same : src.data = (src.passed ++ (lengthCards src.ahead).2).flatMap AsnRvsBuf.octets := by
    rw [data, deck, List.flatMap_def, List.flatMap_def, List.map_append, List.map_append,
      lengthCards_octets]
  rw [same, splice]
  cases cards : src.passed ++ (lengthCards src.ahead).2 with
  | nil => simp only [cards, List.flatMap_nil, List.nil_append]
  | cons c rest =>
    simp only [cards]
    rw [data, deck, List.nil_append, List.flatMap_append]
    rfl

/-- A card set to be read from its start is so after it was measured. -/
theorem measure_start {c : AsnRvsBuf} (start : c.get = some ⟨c.octets.length, c.octets.length⟩) :
    (measure c).2 = c.setg c.octets.length := by
  have reading : c.Reading := by
    intro area same
    rw [start, Option.some.injEq] at same
    subst same
    exact ⟨rfl, Nat.le_refl _⟩
  have current := AsnRvsBuf.seekoff_cur reading (n := 0) (Nat.zero_le _) (.inr rfl)
  have whole : c.unread.length = c.octets.length := by
    rw [AsnRvsBuf.unread, start]
    simp
  simp only [whole, Int.natCast_zero, Nat.sub_zero, Nat.sub_self] at current
  rw [measure, current]
  dsimp only
  have place : posOf (some 0) = 0 := by decide
  rw [place, if_neg (by decide), AsnRvsBuf.seekoff_end]
  exact (AsnRvsBuf.seekpos_zero _)

/-- The current card of a buffer is a whole one after a buffer set to its start was spliced in. -/
theorem AsnBuf.Rewound.splice_unspent {src : AsnBuf} (rewound : src.Rewound) (b : AsnBuf)
    (some : src.data ≠ []) : (b.splice src).2.Unspent := by
  obtain ⟨passed, ahead⟩ := src
  obtain rfl : passed = [] := rewound.passed
  cases ahead with
  | nil => exact absurd rfl some
  | cons c rest =>
    intro d current
    obtain rfl : (measure c).2 = d := Option.some.inj current
    have start := rewound.start c List.mem_cons_self
    have at_ := c.setg_at (Nat.le_refl _)
    obtain ⟨c', measured, -⟩ := AsnRvsBuf.length_eq at_.reading
    rw [measure_start start, measured, at_.unread, Nat.sub_self, List.drop_zero]
    rfl

/-- Splicing buffers in, the last one first, puts their data in front in their order. -/
theorem data_spliceEach (b : AsnBuf) {bufList : List AsnBuf}
    (rewound : ∀ buf ∈ bufList.tail, buf.Rewound) (some : ∀ buf ∈ bufList, buf.data ≠ []) :
    (spliceEach b bufList).data = bufList.flatMap AsnBuf.data ++
      (if bufList = [] then b else b.dropSpent).data := by
  induction bufList with
  | nil => rfl
  | cons buf rest ih =>
    have behind := ih (fun t listed => rewound t (List.mem_of_mem_tail listed))
      (fun t listed => some t (List.mem_cons_of_mem buf listed))
    rw [if_neg (List.cons_ne_nil buf rest), spliceEach, List.foldr_cons, AsnBuf.data_splice,
      List.flatMap_cons, List.append_assoc]
    change _ ++ (spliceEach b rest).dropSpent.data = _
    cases rest with
    | nil => rfl
    | cons next others =>
      -- The current card is the first one of the buffer spliced in before.
      have current : (spliceEach b (next :: others)).Unspent :=
        (rewound next List.mem_cons_self).splice_unspent _
          (some next (List.mem_cons_of_mem buf List.mem_cons_self))
      rw [current.data_dropSpent, behind, if_neg (List.cons_ne_nil next others)]

/-! ## The encoding -/

variable {T : Type} {bEnc : T → AsnBuf → Except Thrown (AsnBuf × UInt64)} {tlv : T → List UInt8}

/-- Encoding a component into an empty buffer gives one complete TLV, and returns its length. -/
def EncodesTo (bEnc : T → AsnBuf → Except Thrown (AsnBuf × UInt64)) (tlv : T → List UInt8) : Prop :=
  ∀ i, tlv i ≠ [] ∧
    ∃ buf, bEnc i .empty = .ok (buf, UInt64.ofNat (tlv i).length) ∧ buf.data = tlv i

theorem encodeEach_spec (encodes : EncodesTo bEnc tlv) (components : List T) (totalLen : UInt64) :
    ∃ bufList, encodeEach bEnc components totalLen =
        .ok (bufList, totalLen + UInt64.ofNat (components.flatMap tlv).length) ∧
      bufList.map AsnBuf.data = components.map tlv := by
  induction components generalizing totalLen with
  | nil => exact ⟨[], by simp [encodeEach]; rfl, rfl⟩
  | cons i rest ih =>
    obtain ⟨-, buf, ran, data⟩ := encodes i
    obtain ⟨bufList, ranRest, same⟩ := ih (totalLen + UInt64.ofNat (tlv i).length)
    refine ⟨buf :: bufList, ?_, by rw [List.map_cons, List.map_cons, data, same]⟩
    rw [encodeEach, ran]
    dsimp only [Bind.bind, Except.bind]
    rw [ranRest, List.flatMap_cons, List.length_append, UInt64.ofNat_add, UInt64.add_assoc]
    rfl

/-- The contents of a SET OF are its components' encodings in ascending order. -/
theorem bEncContent_sorts (encodes : EncodesTo bEnc tlv) (components : List T) (b : AsnBuf) :
    ∃ b', ∃ sorted : List (List UInt8),
        bEncContent bEnc components b = .ok (b', UInt64.ofNat sorted.flatten.length) ∧
      sorted.Perm (components.map tlv) ∧ sorted.Pairwise (· ≤ ·) ∧
      b'.data = sorted.flatten ++ (if components = [] then b else b.dropSpent).data := by
  obtain ⟨bufList, ran, same⟩ := encodeEach_spec encodes components 0
  obtain ⟨sortedList, sorts, ascending, compared, perm⟩ :=
    listSort_ordered lessThan_compares bufList
  rw [same] at perm
  have size : (components.flatMap tlv).length = (sortedList.map AsnBuf.data).flatten.length := by
    rw [List.flatMap_def]
    exact perm.flatten.length_eq.symm
  have some : ∀ buf ∈ sortedList, buf.data ≠ [] := by
    intro buf listed
    obtain ⟨i, -, data⟩ := List.mem_map.mp (perm.mem_iff.mp (List.mem_map_of_mem listed))
    rw [← data]
    exact (encodes i).1
  have none : (sortedList = []) = (components = []) := by
    have lengths := perm.length_eq
    simp only [List.length_map] at lengths
    rw [← List.length_eq_zero_iff, ← List.length_eq_zero_iff (l := components), lengths]
  refine ⟨spliceEach b sortedList, sortedList.map AsnBuf.data, ?_, perm, ascending, ?_⟩
  · rw [bEncContent, ran]
    dsimp only [Bind.bind, Except.bind]
    rw [sorts, size, UInt64.zero_add]
    rfl
  · rw [data_spliceEach b compared.tail some, List.flatMap_def]
    simp only [none]

/--
The contents of a SET OF do not depend on the sequence of its components.

They are the encodings in ascending order, in front of what the buffer held.
-/
theorem bEncContent_canonical (encodes : EncodesTo bEnc tlv) {components permuted : List T}
    (perm : components.Perm permuted) (b : AsnBuf) :
    ∃ b' b'', ∃ sorted : List (List UInt8),
      sorted.Perm (components.map tlv) ∧ sorted.Pairwise (· ≤ ·) ∧
      bEncContent bEnc components b = .ok (b', UInt64.ofNat sorted.flatten.length) ∧
      bEncContent bEnc permuted b = .ok (b'', UInt64.ofNat sorted.flatten.length) ∧
      b''.data = b'.data ∧ (b.Unspent → b'.data = sorted.flatten ++ b.data) := by
  obtain ⟨b', sorted, ran, same, ascending, data⟩ := bEncContent_sorts encodes components b
  obtain ⟨b'', sorted', ran', same', ascending', data'⟩ := bEncContent_sorts encodes permuted b
  -- There is only one ascending sequence of the same encodings.
  obtain rfl : sorted' = sorted := by
    apply List.Perm.eq_of_pairwise (fun p q _ _ => le_antisymm) ascending' ascending
    exact same'.trans ((perm.symm.map tlv).trans same.symm)
  have none : (permuted = []) = (components = []) := by
    rw [← List.length_eq_zero_iff, ← List.length_eq_zero_iff (l := components), perm.length_eq]
  refine ⟨b', b'', sorted', same, ascending, ran, ran', ?_, fun unspent => ?_⟩
  · rw [data, data']
    simp only [none]
  · rw [data]
    split
    · rfl
    · rw [unspent.data_dropSpent]

/-- What was only written is whole, and is what was written. -/
theorem AsnBuf.Written.unspent {b : AsnBuf} {data : List UInt8} (written : b.Written data) :
    b.Unspent ∧ b.data = data := by
  constructor
  · intro c current
    have fresh := (written.fresh c (List.mem_of_mem_head? current)).get
    have reading : c.Reading := by
      intro area same
      rw [fresh] at same
      cases same
    obtain ⟨c', measured, -⟩ := AsnRvsBuf.length_eq reading
    rw [measured, AsnRvsBuf.unread, fresh]
  · rw [AsnBuf.data, deck, written.passed, List.nil_append, written.data]

/-- An INTEGER of one octet, written to a buffer. -/
def bEncOctet (octet : UInt8) (b : AsnBuf) : Except Thrown (AsnBuf × UInt64) := do
  return (← b.putSegRvs [2, 1, octet], 3)

theorem bEncOctet_encodesTo : EncodesTo bEncOctet fun octet => [2, 1, octet] := by
  intro octet
  obtain ⟨buf, ran, written⟩ := AsnBuf.empty_written.putSegRvs [2, 1, octet]
  refine ⟨List.cons_ne_nil _ _, buf, ?_, ?_⟩
  · rw [bEncOctet, ran]
    rfl
  · rw [written.unspent.2, List.append_nil]

/-- Three integers, two of them the same, in two sequences, in front of an octet. -/
theorem bEncContent_canonical_integers :
    ∃ b' b'', ∃ sorted : List (List UInt8),
      sorted.Perm ([1, 0, 1].map fun octet : UInt8 => [2, 1, octet]) ∧
      sorted.Pairwise (· ≤ ·) ∧
      bEncContent bEncOctet [1, 0, 1] (.ofSeg [9]) =
        .ok (b', UInt64.ofNat sorted.flatten.length) ∧
      bEncContent bEncOctet [1, 1, 0] (.ofSeg [9]) =
        .ok (b'', UInt64.ofNat sorted.flatten.length) ∧
      b''.data = b'.data ∧
      ((AsnBuf.ofSeg [9]).Unspent → b'.data = sorted.flatten ++ (AsnBuf.ofSeg [9]).data) :=
  bEncContent_canonical bEncOctet_encodesTo (by decide) (.ofSeg [9])

end Esnacc.Cxx
