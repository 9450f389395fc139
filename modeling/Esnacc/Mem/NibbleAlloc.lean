import Mathlib.Data.List.Pairwise
import Mathlib.Data.Set.Lattice
import Mathlib.Logic.Relation
import Mathlib.Order.CompletePartialOrder
import Mathlib.Order.Interval.Set.Basic
import Mathlib.Tactic.Common

/-! Memory for decoded values, handed out from the fronts of a few large blocks. -/

namespace Esnacc

/-- A block: what lies between `curr` and its end has not been handed out. -/
structure NibbleBuf where
  start : Nat
  stop : Nat
  curr : Nat
  deriving DecidableEq

/-- The addresses of a block. -/
def NibbleBuf.block (buf : NibbleBuf) : Set Nat :=
  Set.Ico buf.start buf.stop

def NibbleBuf.Apart (buf buf' : NibbleBuf) : Prop :=
  Disjoint buf.block buf'.block

instance : Std.Symm NibbleBuf.Apart :=
  ⟨fun _ _ apart => Disjoint.symm apart⟩

/-- A list of blocks that ends with the current one. -/
structure NibbleMem where
  earlierNibbleBufs : List NibbleBuf
  currNibbleBuf : NibbleBuf
  incrementSize : UInt64
  deriving DecidableEq

namespace NibbleMem

def firstNibbleBuf (nm : NibbleMem) : NibbleBuf :=
  nm.earlierNibbleBufs.headD nm.currNibbleBuf

/-- The blocks from the first one on. -/
def bufs (nm : NibbleMem) : List NibbleBuf :=
  nm.earlierNibbleBufs ++ [nm.currNibbleBuf]

end NibbleMem

/-- The octets of the memory and what the global structure says of the blocks. -/
structure NibbleHeap where
  octets : Nat → UInt8
  nm : NibbleMem

def memzero (octets : Nat → UInt8) (start len : Nat) : Nat → UInt8 := fun place =>
  if start ≤ place ∧ place < start + len then 0 else octets place

/-- Set up the first block, given where it was allocated. -/
def initNibbleMem (initialSize incrementSize : UInt64) (malloc : Nat) (octets : Nat → UInt8) :
    NibbleHeap where
  octets := memzero octets malloc initialSize.toNat
  nm :=
    { earlierNibbleBufs := []
      currNibbleBuf := { start := malloc, stop := malloc + initialSize.toNat, curr := malloc }
      incrementSize }

namespace NibbleHeap

/-- The size of a block that a request asks for. -/
def newBufSize (h : NibbleHeap) (size : UInt64) : UInt64 :=
  if size > h.nm.incrementSize then size else h.nm.incrementSize

/-- Make a new block the current one, given where it was allocated. -/
def serviceNibbleFault (h : NibbleHeap) (size : UInt64) (malloc : Nat) : NibbleHeap where
  octets := memzero h.octets malloc (h.newBufSize size).toNat
  nm :=
    { h.nm with
      earlierNibbleBufs := h.nm.bufs
      currNibbleBuf :=
        { start := malloc, stop := malloc + (h.newBufSize size).toNat, curr := malloc } }

/-- Whether the current block has too little left, by the signed distance of two pointers. -/
def faults (h : NibbleHeap) (size : UInt64) : Bool :=
  Int64.ofInt (h.nm.currNibbleBuf.stop - h.nm.currNibbleBuf.curr) < size.toUInt32.toInt32.toInt64

/-- Where the next request is served from, in whole words within the block. -/
def advanced (buf : NibbleBuf) (size : UInt64) : Nat :=
  let ndiff := size % 8
  if ndiff ≠ 0 then
    let curr := buf.curr + (size + 8 - ndiff).toNat
    if curr > buf.stop then buf.stop else curr
  else buf.curr + size.toNat

/-- Move the front of the current block behind what is handed out. -/
def advance (h : NibbleHeap) (size : UInt64) : NibbleHeap :=
  { h with
    nm :=
      { h.nm with
        currNibbleBuf := { h.nm.currNibbleBuf with curr := advanced h.nm.currNibbleBuf size } } }

/-- Hand out memory, given where a block is allocated if one is needed. -/
def nibbleAlloc (h : NibbleHeap) (size : UInt64) (malloc : Nat) : Option Nat × NibbleHeap :=
  if size > 1024 * 1024 then (none, h)
  else
    let h := if h.faults size then h.serviceNibbleFault size malloc else h
    (some h.nm.currNibbleBuf.curr, h.advance size)

/-- Clear what was handed out of the first block, and free the other ones. -/
def resetNibbleMem (h : NibbleHeap) : NibbleHeap where
  octets := memzero h.octets h.nm.firstNibbleBuf.start
    (h.nm.firstNibbleBuf.curr - h.nm.firstNibbleBuf.start)
  nm :=
    { h.nm with
      earlierNibbleBufs := []
      currNibbleBuf := { h.nm.firstNibbleBuf with curr := h.nm.firstNibbleBuf.start } }

/-- A block that is allocated shares no address with the ones there are. -/
def Fresh (h : NibbleHeap) (malloc : Nat) (size : UInt64) : Prop :=
  ∀ buf ∈ h.nm.bufs, Disjoint buf.block (Set.Ico malloc (malloc + size.toNat))

end NibbleHeap

/-! ## Runs -/

/-- Memory that was handed out, which its holder has until the next reset. -/
structure Region where
  start : Nat
  size : UInt64

/-- The addresses of a region. -/
def Region.places (region : Region) : Set Nat :=
  Set.Ico region.start (region.start + region.size.toNat)

/-- What happens between two states of the memory, with the regions handed out since a reset. -/
inductive NibbleTurn : NibbleHeap × List Region → NibbleHeap × List Region → Prop
  | alloc {h h' : NibbleHeap} {regions : List Region} {size : UInt64} {malloc start : Nat}
      (fresh : h.faults size → h.Fresh malloc (h.newBufSize size))
      (handed : h.nibbleAlloc size malloc = (some start, h')) :
      NibbleTurn (h, regions) (h', ⟨start, size⟩ :: regions)
  | refuse {h h' : NibbleHeap} {regions : List Region} {size : UInt64} {malloc : Nat}
      (refused : h.nibbleAlloc size malloc = (none, h')) : NibbleTurn (h, regions) (h', regions)
  | reset {h : NibbleHeap} {regions : List Region} : NibbleTurn (h, regions) (h.resetNibbleMem, [])
  -- A holder writes into its own region.
  | write {h : NibbleHeap} {regions : List Region} {region : Region} {place : Nat} {octet : UInt8}
      (held : region ∈ regions) (inside : place ∈ region.places) :
      NibbleTurn (h, regions) ({ h with octets := Function.update h.octets place octet }, regions)
  -- The rest of the program writes outside the blocks.
  | elsewhere {h : NibbleHeap} {regions : List Region} {place : Nat} {octet : UInt8}
      (outside : ∀ buf ∈ h.nm.bufs, place ∉ buf.block) :
      NibbleTurn (h, regions) ({ h with octets := Function.update h.octets place octet }, regions)

/-- What is true of the memory between any two calls. -/
structure Tidy (h : NibbleHeap) (regions : List Region) : Prop where
  ordered : ∀ buf ∈ h.nm.bufs, buf.start ≤ buf.curr ∧ buf.curr ≤ buf.stop
  apart : h.nm.bufs.Pairwise NibbleBuf.Apart
  covered : ∀ region ∈ regions, ∃ buf ∈ h.nm.bufs,
    buf.start ≤ region.start ∧ region.start + region.size.toNat ≤ buf.curr
  disjoint : regions.Pairwise fun region region' => Disjoint region.places region'.places
  zero : ∀ buf ∈ h.nm.bufs, ∀ place ∈ Set.Ico buf.curr buf.stop, h.octets place = 0

section

variable {h : NibbleHeap} {regions : List Region} {size : UInt64} {malloc : Nat}

theorem memzero_of_mem {octets : Nat → UInt8} {start len place : Nat}
    (inside : place ∈ Set.Ico start (start + len)) : memzero octets start len place = 0 :=
  if_pos inside

theorem memzero_of_not_mem {octets : Nat → UInt8} {start len place : Nat}
    (outside : place ∉ Set.Ico start (start + len)) :
    memzero octets start len place = octets place :=
  if_neg outside

theorem NibbleMem.mem_bufs {nm : NibbleMem} {buf : NibbleBuf} :
    buf ∈ nm.bufs ↔ buf ∈ nm.earlierNibbleBufs ∨ buf = nm.currNibbleBuf := by
  rw [bufs, List.mem_append, List.mem_singleton]

theorem NibbleMem.firstNibbleBuf_mem (nm : NibbleMem) : nm.firstNibbleBuf ∈ nm.bufs := by
  rw [mem_bufs, firstNibbleBuf]
  cases nm.earlierNibbleBufs with
  | nil => exact .inr rfl
  | cons first others => exact .inl List.mem_cons_self

theorem tidy_initNibbleMem (initialSize incrementSize : UInt64) (malloc : Nat)
    (octets : Nat → UInt8) : Tidy (initNibbleMem initialSize incrementSize malloc octets) [] where
  ordered buf among := by
    rw [List.mem_singleton.mp among]
    exact ⟨Nat.le_refl _, Nat.le_add_right ..⟩
  apart := List.pairwise_singleton ..
  covered := nofun
  disjoint := .nil
  zero buf among place free := by
    rw [List.mem_singleton.mp among] at free
    exact memzero_of_mem free

/-- A new block leaves the memory tidy. -/
theorem Tidy.serviceNibbleFault (tidy : Tidy h regions)
    (fresh : h.Fresh malloc (h.newBufSize size)) :
    Tidy (h.serviceNibbleFault size malloc) regions where
  ordered buf among := by
    rcases NibbleMem.mem_bufs.mp among with earlier | rfl
    · exact tidy.ordered buf earlier
    · exact ⟨Nat.le_refl _, Nat.le_add_right ..⟩
  apart := by
    refine List.pairwise_append.mpr ⟨tidy.apart, List.pairwise_singleton .., ?_⟩
    intro buf earlier buf' new
    rw [List.mem_singleton.mp new]
    exact fresh buf earlier
  covered region among := by
    obtain ⟨buf, there, within⟩ := tidy.covered region among
    exact ⟨buf, NibbleMem.mem_bufs.mpr (.inl there), within⟩
  disjoint := tidy.disjoint
  zero buf among place free := by
    rcases NibbleMem.mem_bufs.mp among with earlier | rfl
    · -- What is cleared lies in the new block only.
      have inBlock : place ∈ buf.block := ⟨(tidy.ordered buf earlier).1.trans free.1, free.2⟩
      have outside := Set.disjoint_left.mp (fresh buf earlier) inBlock
      exact (memzero_of_not_mem outside).trans (tidy.zero buf earlier place free)
    · exact memzero_of_mem free

/-- The front moves behind the request, and not behind the end of the block. -/
theorem advanced_spec {buf : NibbleBuf} (small : size ≤ 1024 * 1024)
    (room : buf.curr + size.toNat ≤ buf.stop) :
    buf.curr + size.toNat ≤ NibbleHeap.advanced buf size ∧
      NibbleHeap.advanced buf size ≤ buf.stop := by
  have few : size.toNat ≤ 1048576 := small
  have rest : (size % 8).toNat = size.toNat % 8 := UInt64.toNat_mod ..
  have rounded : (size + 8 - size % 8).toNat = size.toNat + 8 - size.toNat % 8 := by
    have sum : (size + 8).toNat = size.toNat + 8 := by
      rw [UInt64.toNat_add]
      change (size.toNat + 8) % 2 ^ 64 = _
      omega
    rw [UInt64.toNat_sub_of_le, sum, rest]
    rw [UInt64.le_iff_toNat_le, sum, rest]
    omega
  unfold NibbleHeap.advanced
  dsimp only
  rw [rounded]
  split_ifs <;> omega

/-- Where the current block has room, what is handed out is free, and the memory stays tidy. -/
theorem Tidy.advance (tidy : Tidy h regions) (small : size ≤ 1024 * 1024)
    (room : h.nm.currNibbleBuf.curr + size.toNat ≤ h.nm.currNibbleBuf.stop) :
    Tidy (h.advance size) (⟨h.nm.currNibbleBuf.curr, size⟩ :: regions) := by
  obtain ⟨behind, within⟩ := advanced_spec small room
  have current : h.nm.currNibbleBuf ∈ h.nm.bufs := NibbleMem.mem_bufs.mpr (.inr rfl)
  obtain ⟨earlier, -, between⟩ := List.pairwise_append.mp tidy.apart
  constructor
  case ordered =>
    intro buf among
    rcases NibbleMem.mem_bufs.mp among with before | rfl
    · exact tidy.ordered buf (NibbleMem.mem_bufs.mpr (.inl before))
    · exact ⟨(tidy.ordered _ current).1.trans ((Nat.le_add_right ..).trans behind), within⟩
  case apart =>
    refine List.pairwise_append.mpr ⟨earlier, List.pairwise_singleton .., ?_⟩
    intro buf before buf' same
    rw [List.mem_singleton.mp same]
    exact between buf before h.nm.currNibbleBuf List.mem_cons_self
  case covered =>
    intro region among
    rcases List.mem_cons.mp among with rfl | before
    · exact ⟨_, NibbleMem.mem_bufs.mpr (.inr rfl), (tidy.ordered _ current).1, behind⟩
    · obtain ⟨buf, there, start, stop⟩ := tidy.covered region before
      rcases NibbleMem.mem_bufs.mp there with before | rfl
      · exact ⟨buf, NibbleMem.mem_bufs.mpr (.inl before), start, stop⟩
      · exact ⟨_, NibbleMem.mem_bufs.mpr (.inr rfl), start,
          stop.trans ((Nat.le_add_right ..).trans behind)⟩
  case disjoint =>
    refine List.pairwise_cons.mpr ⟨fun region among => ?_, tidy.disjoint⟩
    rw [Set.disjoint_left]
    rintro place ⟨least, less⟩ ⟨least', less'⟩
    dsimp only at least less
    obtain ⟨buf, there, start, stop⟩ := tidy.covered region among
    rcases NibbleMem.mem_bufs.mp there with before | rfl
    · have ordered := tidy.ordered buf there
      have ordered' := tidy.ordered _ current
      have left : place ∈ buf.block := ⟨start.trans least', less'.trans_le (stop.trans ordered.2)⟩
      have right : place ∈ h.nm.currNibbleBuf.block := ⟨ordered'.1.trans least, less.trans_le room⟩
      exact Set.disjoint_left.mp (between buf before _ List.mem_cons_self) left right
    · omega
  case zero =>
    intro buf among place free
    rcases NibbleMem.mem_bufs.mp among with before | rfl
    · exact tidy.zero buf (NibbleMem.mem_bufs.mpr (.inl before)) place free
    · exact tidy.zero _ current place ⟨(Nat.le_add_right ..).trans (behind.trans free.1), free.2⟩

/-- A reset leaves a first block that is free and zero. -/
theorem Tidy.resetNibbleMem (tidy : Tidy h regions) : Tidy h.resetNibbleMem [] where
  ordered buf among := by
    have ordered := tidy.ordered _ h.nm.firstNibbleBuf_mem
    rw [List.mem_singleton.mp among]
    exact ⟨Nat.le_refl _, ordered.1.trans ordered.2⟩
  apart := List.pairwise_singleton ..
  covered := nofun
  disjoint := .nil
  zero buf among place free := by
    have ordered := tidy.ordered _ h.nm.firstNibbleBuf_mem
    rw [List.mem_singleton.mp among] at free
    obtain ⟨least, less⟩ := free
    by_cases handed : place < h.nm.firstNibbleBuf.curr
    · apply memzero_of_mem
      exact ⟨least, by omega⟩
    · -- The rest of the block was never handed out.
      refine (memzero_of_not_mem ?_).trans
        (tidy.zero _ h.nm.firstNibbleBuf_mem place ⟨Nat.le_of_not_lt handed, less⟩)
      rintro ⟨-, inside⟩
      omega

theorem Tidy.update (tidy : Tidy h regions) {place : Nat} (octet : UInt8)
    (held : ∀ buf ∈ h.nm.bufs, place ∉ Set.Ico buf.curr buf.stop) :
    Tidy { h with octets := Function.update h.octets place octet } regions :=
  { tidy with
    zero := by
      intro buf among other free
      have apart : other ≠ place := fun same => held buf among (same ▸ free)
      exact (Function.update_of_ne apart ..).trans (tidy.zero buf among other free) }

/-- A place in a region is not free. -/
theorem Tidy.held (tidy : Tidy h regions) {region : Region} (among : region ∈ regions) {place : Nat}
    (inside : place ∈ region.places) : ∀ buf ∈ h.nm.bufs, place ∉ Set.Ico buf.curr buf.stop := by
  intro buf there free
  obtain ⟨least, less⟩ := inside
  obtain ⟨holder, there', start, stop⟩ := tidy.covered region among
  by_cases same : holder = buf
  · rw [same] at stop
    have behind := free.1
    omega
  · have disjoint := tidy.apart.forall there' there same
    refine Set.disjoint_left.mp disjoint ?_ ⟨(tidy.ordered buf there).1.trans free.1, free.2⟩
    exact ⟨start.trans least, less.trans_le (stop.trans (tidy.ordered holder there').2)⟩

theorem toInt_request (small : size ≤ 1024 * 1024) :
    size.toUInt32.toInt32.toInt64.toInt = size.toNat := by
  have few : size.toNat ≤ 1048576 := small
  have word : size.toUInt32.toNat = size.toNat := by
    rw [UInt64.toNat_toUInt32]
    omega
  rw [Int32.toInt_toInt64, ← word]
  refine BitVec.toInt_eq_toNat_of_lt ?_
  change 2 * size.toUInt32.toNat < _
  omega

theorem toInt_distance_le {distance : Int} (ahead : 0 ≤ distance) :
    (Int64.ofInt distance).toInt ≤ distance := by
  have words : Int64.size = 18446744073709551616 := rfl
  rw [Int64.toInt_ofInt, Int.bmod_def, words]
  split <;> omega

theorem room_of_not_faults (small : size ≤ 1024 * 1024)
    (ordered : h.nm.currNibbleBuf.curr ≤ h.nm.currNibbleBuf.stop) (enough : h.faults size = false) :
    h.nm.currNibbleBuf.curr + size.toNat ≤ h.nm.currNibbleBuf.stop := by
  rw [NibbleHeap.faults, decide_eq_false_iff_not, Int64.lt_iff_toInt_lt, toInt_request small]
    at enough
  have ahead : 0 ≤ (h.nm.currNibbleBuf.stop : Int) - h.nm.currNibbleBuf.curr := by omega
  have distance := toInt_distance_le ahead
  omega

/-- What a call hands out, in the state that it leaves. -/
structure HandsOut (h' : NibbleHeap) (regions : List Region) (region : Region) : Prop where
  inside : ∃ buf ∈ h'.nm.bufs,
    buf.start ≤ region.start ∧ region.start + region.size.toNat ≤ buf.stop
  disjoint : ∀ other ∈ regions, Disjoint region.places other.places
  zero : ∀ place ∈ region.places, h'.octets place = 0

theorem Tidy.handsOut (tidy : Tidy h regions) (small : size ≤ 1024 * 1024)
    (room : h.nm.currNibbleBuf.curr + size.toNat ≤ h.nm.currNibbleBuf.stop) :
    HandsOut (h.advance size) regions ⟨h.nm.currNibbleBuf.curr, size⟩ := by
  have current : h.nm.currNibbleBuf ∈ h.nm.bufs := NibbleMem.mem_bufs.mpr (.inr rfl)
  refine ⟨⟨_, NibbleMem.mem_bufs.mpr (.inr rfl), (tidy.ordered _ current).1, room⟩, ?_, ?_⟩
  · exact (List.pairwise_cons.mp (tidy.advance small room).disjoint).1
  · rintro place ⟨least, less⟩
    exact tidy.zero _ current place ⟨least, less.trans_le room⟩

/-- A call that hands out memory leaves the memory tidy. -/
theorem Tidy.nibbleAlloc {h' : NibbleHeap} {start : Nat} (tidy : Tidy h regions)
    (fresh : h.faults size → h.Fresh malloc (h.newBufSize size))
    (handed : h.nibbleAlloc size malloc = (some start, h')) :
    HandsOut h' regions ⟨start, size⟩ ∧ Tidy h' (⟨start, size⟩ :: regions) := by
  rw [NibbleHeap.nibbleAlloc] at handed
  by_cases large : size > 1024 * 1024
  · rw [if_pos large] at handed
    cases handed
  rw [if_neg large] at handed
  have small : size ≤ 1024 * 1024 := UInt64.not_lt.mp large
  cases short : h.faults size with
  | false =>
    rw [short] at handed
    cases handed
    have room := room_of_not_faults small
      (tidy.ordered _ (NibbleMem.mem_bufs.mpr (.inr rfl))).2 short
    exact ⟨tidy.handsOut small room, tidy.advance small room⟩
  | true =>
    rw [short] at handed
    cases handed
    have tidy' := tidy.serviceNibbleFault (fresh short)
    -- A new block is as large as what is asked for at least.
    have enough : size.toNat ≤ (h.newBufSize size).toNat := by
      rw [NibbleHeap.newBufSize]
      split
      · exact Nat.le_refl _
      · rename_i least
        exact UInt64.le_iff_toNat_le.mp (UInt64.not_lt.mp least)
    have room := Nat.add_le_add_left enough malloc
    exact ⟨tidy'.handsOut small room, tidy'.advance small room⟩

/-- Every turn leaves the memory tidy. -/
theorem Tidy.turn {s : NibbleHeap × List Region} (tidy : Tidy h regions)
    (turn : NibbleTurn (h, regions) s) : Tidy s.1 s.2 := by
  cases turn with
  | alloc fresh handed => exact (tidy.nibbleAlloc fresh handed).2
  | refuse refused =>
    rw [NibbleHeap.nibbleAlloc] at refused
    split at refused
    · cases refused
      exact tidy
    · cases refused
  | reset => exact tidy.resetNibbleMem
  | write among inside => exact tidy.update _ (tidy.held among inside)
  | elsewhere outside =>
    refine tidy.update _ fun buf among free => outside buf among ?_
    exact ⟨(tidy.ordered buf among).1.trans free.1, free.2⟩

end

theorem tidy_of_run {initialSize incrementSize : UInt64} {malloc : Nat} {octets : Nat → UInt8}
    {s : NibbleHeap × List Region}
    (run : Relation.ReflTransGen NibbleTurn
      (initNibbleMem initialSize incrementSize malloc octets, []) s) :
    Tidy s.1 s.2 := by
  induction run with
  | refl => exact tidy_initNibbleMem ..
  | tail _ turn tidy => exact tidy.turn turn

/--
In every run, what is handed out lies in one block, shares no address with what was handed out
since the last reset, and is zero.
-/
theorem nibbleAlloc_handsOut (initialSize incrementSize : UInt64) (first : Nat)
    (octets : Nat → UInt8) {h h' : NibbleHeap} {regions : List Region}
    (run : Relation.ReflTransGen NibbleTurn
      (initNibbleMem initialSize incrementSize first octets, []) (h, regions))
    {size : UInt64} {malloc start : Nat}
    (fresh : h.faults size → h.Fresh malloc (h.newBufSize size))
    (handed : h.nibbleAlloc size malloc = (some start, h')) :
    HandsOut h' regions ⟨start, size⟩ :=
  ((tidy_of_run run).nibbleAlloc fresh handed).1

/-- Two requests, the second of which asks for a block of its own. -/
theorem nibbleAlloc_handsOut_twenty :
    HandsOut (((initNibbleMem 16 8 1000 fun _ => 7).nibbleAlloc 3 0).2.nibbleAlloc 20 2000).2
      [⟨1000, 3⟩] ⟨2000, 20⟩ := by
  have run : NibbleTurn (initNibbleMem 16 8 1000 fun _ => 7, [])
      (((initNibbleMem 16 8 1000 fun _ => 7).nibbleAlloc 3 0).2, [⟨1000, 3⟩]) :=
    .alloc (fun faults => absurd faults (by decide)) rfl
  refine nibbleAlloc_handsOut 16 8 1000 (fun _ => 7) (.single run) (fun _ buf among => ?_) rfl
  rw [List.mem_singleton.mp among, Set.disjoint_left]
  rintro place ⟨-, less⟩ ⟨least, -⟩
  change place < 1016 at less
  omega

end Esnacc
