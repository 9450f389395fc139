import Esnacc.Cxx.PerField

/-! What it is for a value to be got back from the bits of a C++ bit buffer where it was put. -/

namespace Esnacc.Cxx

open Lib

variable {α : Type}

/--
A value that is put behind other bits is got back from there.

The writes in front of it bring it to a position in an octet, any writes may follow it, and the reads that mirror those in front of it bring a reader to the same position.
-/
def RoundTrips (bAlign : Bool) (pos : Nat) (pEnc : BitsM UInt64)
    (pDec : UInt64 → BitsM (α × UInt64)) (same : α → Prop) : Prop :=
  ∀ before reads, Mirrors before reads →
    ∀ b counts, run writeStep (.make bAlign) before = some (b, counts) →
      b.queued.length % 8 = pos % 8 →
      ∃ len b₁, pEnc.run b = .ok len b₁ ∧
        ∀ after b₂ countsAfter, run writeStep b₁ after = some (b₂, countsAfter) →
          -- The bits written can be counted.
          b₂.queued.length < 2 ^ 64 →
          ∀ bitsDecoded, ∃ r answers y r' rest,
            run readStep b₂ reads = some (r, answers) ∧
            (pDec bitsDecoded).run r = .ok (y, bitsDecoded + len) r' ∧ same y ∧
            b₂.queued = b₁.queued ++ rest ∧ r'.Stands b₁.queued.length rest

/-- A routine that gets a value from the given bits, wherever they come next at a position. -/
def Gets (bAlign : Bool) (pos : Nat) (bits : List Bool) (pDec : UInt64 → BitsM (α × UInt64))
    (same : α → Prop) : Prop :=
  ∀ r rest, r.bAlign = bAlign → r.Stands pos (bits ++ rest) → (bits ++ rest).length < 2 ^ 64 →
    ∀ bitsDecoded, ∃ y r', (pDec bitsDecoded).run r = .ok (y, bitsDecoded + .ofNat bits.length) r' ∧
      same y ∧ r'.bAlign = bAlign ∧ r'.Stands (pos + bits.length) rest

/-- Whether the bits from a position in an octet on can be counted. -/
def Countable (pos : Nat) (bits : List Bool) : Prop :=
  pos % 8 + bits.length < 2 ^ 64

theorem Gets.congr {bAlign : Bool} {pos pos' : Nat} {bits : List Bool}
    {pDec : UInt64 → BitsM (α × UInt64)} {same : α → Prop} (gets : Gets bAlign pos bits pDec same)
    (whole : pos % 8 = pos' % 8) : Gets bAlign pos' bits pDec same := by
  -- A reader at one position stands at the other one as well.
  intro r rest mode stands countable bitsDecoded
  obtain ⟨y, r', ran, got, mode', behind⟩ :=
    gets r rest mode (stands.congr fun _ => whole.symm) countable bitsDecoded
  exact ⟨y, r', ran, got, mode', behind.congr fun _ => by omega⟩

theorem Gets.mono {bAlign : Bool} {pos : Nat} {bits : List Bool}
    {pDec : UInt64 → BitsM (α × UInt64)} {same weaker : α → Prop}
    (gets : Gets bAlign pos bits pDec same) (weakens : ∀ y, same y → weaker y) :
    Gets bAlign pos bits pDec weaker := by
  intro r rest mode stands countable bitsDecoded
  obtain ⟨y, r', ran, right, others⟩ := gets r rest mode stands countable bitsDecoded
  exact ⟨y, r', ran, weakens y right, others⟩

theorem gets_pure (bAlign : Bool) (pos : Nat) (y : α) :
    Gets bAlign pos [] (fun bitsDecoded => pure (y, bitsDecoded)) (· = y) := by
  intro r rest mode stands countable bitsDecoded
  have none : bitsDecoded + UInt64.ofNat ([] : List Bool).length = bitsDecoded := UInt64.add_zero _
  rw [none]
  exact ⟨y, r, rfl, rfl, mode, stands⟩

/-- The zeros of a gap are skipped in front of a value. -/
theorem Gets.align {bAlign : Bool} {pos : Nat} {bits : List Bool}
    {pDec : UInt64 → BitsM (α × UInt64)} {same : α → Prop}
    (gets : Gets bAlign (pos + padding bAlign pos) bits pDec same) :
    Gets bAlign pos (List.replicate (padding bAlign pos) false ++ bits)
      (fun bitsDecoded => do
        let skipped ← octetAlignRead
        pDec (bitsDecoded + .ofNat skipped)) same := by
  intro r rest mode stands countable bitsDecoded
  subst mode
  rw [List.append_assoc] at stands countable
  obtain ⟨r₁, skips, mode₁, stands₁⟩ := stands.octetAlignRead
  have behindGap : (bits ++ rest).length < 2 ^ 64 := by
    rw [List.length_append] at countable
    omega
  obtain ⟨y, r', ran, right, mode', behind⟩ :=
    gets r₁ rest mode₁ stands₁ behindGap (bitsDecoded + .ofNat (padding r.bAlign pos))
  refine ⟨y, r', ?_, right, mode', ?_⟩
  · rw [run_bind_of_ok skips, ran, List.length_append, List.length_replicate, UInt64.ofNat_add,
      UInt64.add_assoc]
  · rwa [List.length_append, List.length_replicate, ← Nat.add_assoc]

variable {γ : Type}

theorem Gets.behind {bAlign : Bool} {pos : Nat} {bits rest : List Bool}
    {pDec : UInt64 → BitsM (α × UInt64)} {same : α → Prop} (first : Gets bAlign pos bits pDec same)
    {r : AsnBufBits} (mode : r.bAlign = bAlign) (stands : r.Stands pos (bits ++ rest))
    (countable : (bits ++ rest).length < 2 ^ 64) (bitsDecoded : UInt64) :
    ∃ x r₁, same x ∧ r₁.bAlign = bAlign ∧ r₁.Stands (pos + bits.length) rest ∧
      ∀ next : α → UInt64 → BitsM (γ × UInt64),
        (do let (x, bitsDecoded) ← pDec bitsDecoded; next x bitsDecoded).run r =
          (next x (bitsDecoded + .ofNat bits.length)).run r₁ := by
  obtain ⟨x, r₁, ran, right, mode₁, behind⟩ := first r rest mode stands countable bitsDecoded
  exact ⟨x, r₁, right, mode₁, behind, fun next => run_bind_of_ok ran⟩

/-- Two values that are got one behind the other. -/
theorem Gets.bind {bAlign : Bool} {pos : Nat} {bits more : List Bool}
    {pDec : UInt64 → BitsM (α × UInt64)} {same : α → Prop} {sameNext : γ → Prop}
    (first : Gets bAlign pos bits pDec same) (next : α → UInt64 → BitsM (γ × UInt64))
    (second : ∀ x, same x → Gets bAlign (pos + bits.length) more (next x) sameNext) :
    Gets bAlign pos (bits ++ more)
      (fun bitsDecoded => do
        let (x, bitsDecoded) ← pDec bitsDecoded
        next x bitsDecoded) sameNext := by
  intro r rest mode stands countable bitsDecoded
  rw [List.append_assoc] at stands countable
  obtain ⟨x, r₁, right, mode₁, stands₁, ran⟩ := first.behind mode stands countable bitsDecoded
  have behindFirst : (more ++ rest).length < 2 ^ 64 := by
    rw [List.length_append] at countable
    omega
  obtain ⟨y, r', got, rightNext, mode', behind⟩ :=
    second x right r₁ rest mode₁ stands₁ behindFirst (bitsDecoded + .ofNat bits.length)
  refine ⟨y, r', ?_, rightNext, mode', ?_⟩
  · rw [ran next, got, List.length_append, UInt64.ofNat_add, UInt64.add_assoc]
  · rwa [List.length_append, ← Nat.add_assoc]

theorem RoundTrips.mono {bAlign : Bool} {pos : Nat} {pEnc : BitsM UInt64}
    {pDec : UInt64 → BitsM (α × UInt64)} {same weaker : α → Prop}
    (trips : RoundTrips bAlign pos pEnc pDec same) (weakens : ∀ y, same y → weaker y) :
    RoundTrips bAlign pos pEnc pDec weaker := by
  intro before reads mirrored b counts ran position
  obtain ⟨len, b₁, ranValue, behind⟩ := trips before reads mirrored b counts ran position
  refine ⟨len, b₁, ranValue, ?_⟩
  intro after b₂ countsAfter ranAfter countable bitsDecoded
  obtain ⟨r, answers, y, r', rest, reaches, got, right, others⟩ :=
    behind after b₂ countsAfter ranAfter countable bitsDecoded
  exact ⟨r, answers, y, r', rest, reaches, got, weakens y right, others⟩

/-- The bits that writes have brought into a fresh buffer. -/
theorem run_writes_make {bAlign : Bool} {before : List WriteCall} {b : AsnBufBits}
    {counts : List Nat} (ran : run writeStep (.make bAlign) before = some (b, counts)) :
    (AsnBufBits.make bAlign).Wrote b.queued b ∧
      b.queued = laidOut bAlign 0 (putGroups before counts).1 (putGroups before counts).2 ∧
      bitCounts (before.map WriteCall.amount) =
        ((putGroups before counts).1.length, (putGroups before counts).2.map List.length) := by
  -- The writes lay out their groups in the empty buffer.
  obtain ⟨b', counts', ran', wrote, -, -, amounts⟩ :=
    run_writes (AsnBufBits.make_wellFormed bAlign) 0 (fun _ => rfl) before
  rw [ran] at ran'
  cases ran'
  have all := wrote.queued
  rw [show (AsnBufBits.make bAlign).queued = [] from rfl, List.nil_append] at all
  refine ⟨?_, all, amounts⟩
  rw [all]
  exact wrote

theorem AsnBufBits.Wrote.writePosition {bAlign : Bool} {bits : List Bool} {b : AsnBufBits}
    (wrote : (make bAlign).Wrote bits b) : (8 - b.writeBitPos) % 8 = bits.length % 8 := by
  -- A fresh buffer has no partial octet.
  have position := wrote.position
  change _ = (0 + bits.length) % 8 at position
  rwa [Nat.zero_add] at position

/-- A reader that mirrors the writes in front of a value comes to stand before its bits. -/
theorem reads_reach {bAlign : Bool} {before : List WriteCall} {reads : List ReadCall}
    (mirrored : Mirrors before reads) {b b₂ : AsnBufBits} {counts : List Nat}
    (ran : run writeStep (.make bAlign) before = some (b, counts)) {bits : List Bool}
    (wrote : b.Wrote bits b₂) (countable : b₂.queued.length < 2 ^ 64) :
    ∃ r answers, run readStep b₂ reads = some (r, answers) ∧ r.bAlign = bAlign ∧
      r.Stands b.queued.length bits := by
  obtain ⟨front, laid, amounts⟩ := run_writes_make ran
  have all := front.trans wrote
  have stands := all.stands
  have mode : b₂.bAlign = bAlign := all.bAlign
  -- The groups laid out in front are those that the reads ask for.
  rw [laid, ← mode] at stands
  rw [wrote.queued, laid, ← mode] at countable
  obtain ⟨r, answers, reaches, -, -, modeRead, here⟩ :=
    run_reads stands (mirrored.symm.trans amounts) (.inl countable)
  rw [mode, ← laid, Nat.zero_add] at here
  exact ⟨r, answers, reaches, modeRead.trans mode, here⟩

/-- A value that is put as bits from which it is got, where they can be counted, makes the round trip. -/
theorem roundTrips_of_countable {bAlign : Bool} {pos : Nat} {pEnc : BitsM UInt64}
    {pDec : UInt64 → BitsM (α × UInt64)} {same : α → Prop}
    (field : ∀ b : AsnBufBits, b.WellFormed → b.bAlign = bAlign →
      (8 - b.writeBitPos) % 8 = pos % 8 →
      ∃ len b₁ bits, pEnc.run b = .ok len b₁ ∧ b.Wrote bits b₁ ∧
        (Countable pos bits → len = .ofNat bits.length ∧ Gets bAlign pos bits pDec same)) :
    RoundTrips bAlign pos pEnc pDec same := by
  intro before reads mirrored b counts ran position
  obtain ⟨front, -, -⟩ := run_writes_make ran
  have place := front.writePosition
  obtain ⟨len, b₁, bits, ranValue, wrote, counted⟩ :=
    field b front.wellFormed front.bAlign (place.trans position)
  refine ⟨_, b₁, ranValue, ?_⟩
  intro after b₂ countsAfter ranAfter countable bitsDecoded
  -- What follows the value stands behind its bits.
  obtain ⟨b', counts', ran', wroteAfter, -, -, -⟩ :=
    run_writes wrote.wellFormed (8 - b₁.writeBitPos) (fun _ => rfl) after
  rw [ranAfter] at ran'
  cases ran'
  generalize laidOut b₁.bAlign (8 - b₁.writeBitPos) (putGroups after countsAfter).1
    (putGroups after countsAfter).2 = rest at wroteAfter
  obtain ⟨r, answers, reaches, mode, stands⟩ :=
    reads_reach mirrored ran (wrote.trans wroteAfter) countable
  rw [(wrote.trans wroteAfter).queued, List.length_append] at countable
  have behindAll : (bits ++ rest).length < 2 ^ 64 := by omega
  -- The bits in front of the value fill at least its place in an octet.
  have room : Countable pos bits := by
    rw [List.length_append] at behindAll countable
    unfold Countable
    omega
  obtain ⟨rfl, gets⟩ := counted room
  obtain ⟨y, r', got, right, -, behind⟩ :=
    gets.congr position.symm r rest mode stands behindAll bitsDecoded
  refine ⟨r, answers, y, r', rest, reaches, got, right, wroteAfter.queued, ?_⟩
  rwa [wrote.queued, List.length_append]

theorem roundTrips_of_puts {bAlign : Bool} {pos : Nat} {pEnc : BitsM UInt64}
    {pDec : UInt64 → BitsM (α × UInt64)} {same : α → Prop}
    (field : ∀ b : AsnBufBits, b.WellFormed → b.bAlign = bAlign →
      (8 - b.writeBitPos) % 8 = pos % 8 →
      ∃ bits, Puts pEnc b bits ∧ Gets bAlign pos bits pDec same) :
    RoundTrips bAlign pos pEnc pDec same := by
  apply roundTrips_of_countable
  intro b wellFormed mode position
  obtain ⟨bits, ⟨b₁, ran, wrote⟩, gets⟩ := field b wellFormed mode position
  exact ⟨_, b₁, bits, ran, wrote, fun _ => ⟨rfl, gets⟩⟩

/-- A value that makes the round trip is put, and is got by some reader of its bits alone. -/
theorem RoundTrips.got {bAlign : Bool} {pos : Nat} {pEnc : BitsM UInt64}
    {pDec : UInt64 → BitsM (α × UInt64)} {same : α → Prop}
    (trips : RoundTrips bAlign pos pEnc pDec same) :
    ∃ b : AsnBufBits, b.WellFormed ∧ b.bAlign = bAlign ∧ (8 - b.writeBitPos) % 8 = pos % 8 ∧
      ∃ len b₁, pEnc.run b = .ok len b₁ ∧
        ∀ bits, b.Wrote bits b₁ → Countable pos bits →
          ∃ r y r', r.bAlign = bAlign ∧ r.Stands pos bits ∧
            (pDec 0).run r = .ok (y, len) r' ∧ same y ∧ r'.Stands (pos + bits.length) [] := by
  -- Some bits of a zero octet bring the value to its position.
  have inside : (UInt64.ofNat (pos % 8)).toNat ≤ 8 * [(0 : UInt8)].length := by
    rw [UInt64.toNat_ofNat', List.length_singleton]
    omega
  have mirrored : Mirrors [.putBits ⟨[0], .ofNat (pos % 8), inside⟩] [.getBits (.ofNat (pos % 8))] :=
    rfl
  obtain ⟨b, counts, ran, wroteFront, -, -, -⟩ :=
    run_writes (AsnBufBits.make_wellFormed bAlign) 0 (fun _ => rfl)
      [.putBits ⟨[0], .ofNat (pos % 8), inside⟩]
  obtain ⟨front, laid, amounts⟩ := run_writes_make ran
  have size : b.queued.length = pos % 8 := by
    have sizes := congrArg Prod.fst amounts
    have later := congrArg Prod.snd amounts
    have none : (putGroups [.putBits ⟨[0], .ofNat (pos % 8), inside⟩] counts).2 = [] :=
      List.map_eq_nil_iff.mp later.symm
    rw [laid, none]
    refine sizes.symm.trans ?_
    change (UInt64.ofNat (pos % 8)).toNat + 0 = _
    rw [UInt64.toNat_ofNat']
    omega
  have place := front.writePosition
  obtain ⟨len, b₁, ranValue, reads⟩ := trips _ _ mirrored b counts ran (by omega)
  refine ⟨b, front.wellFormed, front.bAlign, by omega, len, b₁, ranValue, ?_⟩
  intro bits wrote room
  have countable : b₁.queued.length < 2 ^ 64 := by
    unfold Countable at room
    rw [wrote.queued, List.length_append]
    omega
  obtain ⟨r, answers, y, r', rest, reaches, got, right, queued, behind⟩ :=
    reads [] b₁ [] rfl countable 0
  -- Nothing follows the value.
  obtain rfl : rest = [] := List.append_right_eq_self.mp queued.symm
  obtain ⟨r₀, answers₀, reaches₀, mode, stands⟩ := reads_reach mirrored ran wrote countable
  rw [reaches] at reaches₀
  cases reaches₀
  rw [UInt64.zero_add] at got
  refine ⟨r, y, r', mode, stands.congr fun _ => by omega, got, right, behind.congr fun _ => ?_⟩
  rw [wrote.queued, List.length_append]
  omega

end Esnacc.Cxx
