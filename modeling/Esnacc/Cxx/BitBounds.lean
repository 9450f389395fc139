import Esnacc.Cxx.BitFifo

/-! The C++ bit buffer and reads that ask for bits which are not there. -/

namespace Esnacc.Cxx

open Lib

/-- The buffer after a call that reads, and its answer or what it throws. -/
def attempt (b : AsnBufBits) (call : ReadCall) :
    Option (AsnBufBits × Except Thrown ReadAnswer) :=
  match (readCall call).run b with
  | .ok answer b' => some (b', .ok answer)
  | .error thrown b' => some (b', .error thrown)

/-- The number of bits that a call returned. -/
def returnedBits : Except Thrown ReadAnswer → Nat
  | .ok answer => ((answer.moved).getD []).length
  | .error _ => 0

/-- A call leaves no more bits than there were, and throws if it asks for more than there were. -/
def KeepsCount (b : AsnBufBits) (call : ReadCall) : Prop :=
  ∀ b' answer, attempt b call = some (b', answer) →
    b'.bitsLeft ≤ b.bitsLeft ∧
    ∀ n, call.amount = some n → b.bitsLeft.toNat < n → b' = b ∧ ∃ thrown, answer = .error thrown

/-- After any writes to a fresh buffer, reads keep the count and return no more than was written. -/
def YieldsOnlyWritten (bAlign : Bool) (writes : List WriteCall) (reads : List ReadCall) : Prop :=
  ∀ b counts, run writeStep (.make bAlign) writes = some (b, counts) →
    Along attempt KeepsCount b reads ∧
    ∀ part, part <+: reads → ∀ b' answers, run attempt b part = some (b', answers) →
      (answers.map returnedBits).sum ≤ counts.sum

/-- An alignment skips no more bits than are left. -/
def SkipsOnlyLeft (b : AsnBufBits) (call : ReadCall) : Prop :=
  call = .octetAlignRead → b.bAlign → 8 - b.readBitPos ≤ b.bitsLeft.toNat

/-- After any writes to a fresh buffer, every alignment skips no more bits than are left. -/
def AlignsWithin (bAlign : Bool) (writes : List WriteCall) (reads : List ReadCall) : Prop :=
  ∀ b counts, run writeStep (.make bAlign) writes = some (b, counts) →
    Along attempt SkipsOnlyLeft b reads

/-- A request for more bits than are left throws and changes nothing. -/
theorem readCall_refused {b : AsnBufBits} {call : ReadCall} {n : Nat}
    (amount : call.amount = some n) (more : b.bitsLeft.toNat < n) :
    ∃ thrown, (readCall call).run b = .error thrown b := by
  cases call with
  | getBits numBits =>
    simp only [ReadCall.amount, Option.some.injEq] at amount
    have less : b.bitsLeft < numBits := UInt64.lt_iff_toNat_lt.mpr (amount ▸ more)
    refine ⟨tooManyBits, run_bind_eq_error.mpr (.inl ?_)⟩
    rw [getBits, run_bind_of_ok (EStateM.run_get b), if_pos less]
    rfl
  | getBit =>
    simp only [ReadCall.amount, Option.some.injEq] at amount
    have none : b.bitsLeft = 0 := UInt64.toNat_inj.mp (by simp; omega)
    refine ⟨bufferException "No more bits in the buffer", run_bind_eq_error.mpr (.inl ?_)⟩
    rw [getBit, run_bind_of_ok (EStateM.run_get b), if_pos none]
    rfl
  | getByte =>
    simp only [ReadCall.amount, Option.some.injEq] at amount
    have less : b.bitsLeft < 8 := by
      rw [UInt64.lt_iff_toNat_lt]
      change _ < 8
      omega
    refine ⟨tooManyBits, run_bind_eq_error.mpr (.inl ?_)⟩
    rw [AsnBufBits.getByte, run_bind_of_ok (EStateM.run_get b), if_pos less]
    rfl
  | octetAlignRead => simp [ReadCall.amount] at amount

/-- A buffer whose octets hold all the bits it counts. -/
structure AsnBufBits.Counted (b : AsnBufBits) : Prop where
  wellFormed : b.WellFormed
  backed : b.bitsLeft.toNat ≤ b.stored.length

theorem AsnBufBits.Counted.read {b b' : AsnBufBits} {n : Nat} (counted : b.Counted)
    (read : b.Read n b') (within : n ≤ b.bitsLeft.toNat) : b'.Counted := by
  obtain ⟨k, stored⟩ := read.stored
  have backed := counted.backed
  refine ⟨read.wellFormed, ?_⟩
  rw [read.toNat_bitsLeft within, stored, List.length_append, List.length_drop]
  omega

/-- A call that skips no more than is left keeps the count, which covers the bits it returns. -/
theorem attempt_counted {b : AsnBufBits} (counted : b.Counted) {call : ReadCall}
    (skips : SkipsOnlyLeft b call) :
    ∃ b' answer, attempt b call = some (b', answer) ∧ b'.Counted ∧
      returnedBits answer + b'.bitsLeft.toNat ≤ b.bitsLeft.toNat ∧
      ∀ n, call.amount = some n → b.bitsLeft.toNat < n →
        b' = b ∧ ∃ thrown, answer = .error thrown := by
  cases amount : call.amount with
  | some n =>
    by_cases within : n ≤ b.bitsLeft.toNat
    · have enough := Nat.le_trans within counted.backed
      obtain ⟨answer, b', ran, moved, -, read⟩ :=
        readCall_read counted.wellFormed amount within enough
      refine ⟨b', .ok answer, by rw [attempt, ran], counted.read read within, ?_, ?_⟩
      · rw [returnedBits, moved, Option.getD_some, List.length_take, read.toNat_bitsLeft within]
        omega
      · intro m same more
        simp only [Option.some.injEq] at same
        omega
    · obtain ⟨thrown, ran⟩ := readCall_refused amount (by omega : b.bitsLeft.toNat < n)
      refine ⟨b, .error thrown, by rw [attempt, ran], counted, ?_, fun _ _ _ => ⟨rfl, thrown, rfl⟩⟩
      simp [returnedBits]
  | none =>
    obtain rfl : call = .octetAlignRead := by
      cases call <;> simp [ReadCall.amount] at amount ⊢
    by_cases aligned : b.bAlign
    · have within := skips rfl aligned
      obtain ⟨b', ran, read⟩ := octetAlignRead_read counted.wellFormed aligned
      refine ⟨b', .ok (.octetAlignRead (8 - b.readBitPos)), ?_, counted.read read within, ?_,
        fun _ none => by cases none⟩
      · rw [attempt, readCall, run_bind_of_ok ran]
        rfl
      · rw [read.toNat_bitsLeft within]
        change 0 + _ ≤ _
        omega
    · refine ⟨b, .ok (.octetAlignRead 0), ?_, counted, ?_, fun _ none => by cases none⟩
      · rw [attempt, readCall, run_bind_of_ok (octetAlignRead_of_not_bAlign aligned)]
        rfl
      · change 0 + _ ≤ _
        omega

/-- An alignment that skips more bits than are left raises their number. -/
theorem not_keepsCount {b : AsnBufBits} (counted : b.Counted) {call : ReadCall}
    (beyond : ¬SkipsOnlyLeft b call) : ¬KeepsCount b call := by
  intro keeps
  apply beyond
  rintro rfl aligned
  obtain ⟨b', ran, read⟩ := octetAlignRead_read counted.wellFormed aligned
  have answered : attempt b .octetAlignRead =
      some (b', .ok (.octetAlignRead (8 - b.readBitPos))) := by
    rw [attempt, readCall, run_bind_of_ok ran]
    rfl
  have lowered := UInt64.le_iff_toNat_le.mp (keeps _ _ answered).1
  have least := counted.wellFormed.readPos
  -- The subtraction would wrap around and leave more than before.
  by_contra more
  rw [read.bitsLeft, UInt64.toNat_sub, UInt64.toNat_ofNat'] at lowered
  omega

/-- Where every alignment skips no more than is left, calls keep the count on the whole way. -/
theorem run_counted {b : AsnBufBits} (counted : b.Counted) {calls : List ReadCall}
    (skips : Along attempt SkipsOnlyLeft b calls) :
    Along attempt KeepsCount b calls ∧
      ∀ part, part <+: calls → ∀ b' answers, run attempt b part = some (b', answers) →
        (answers.map returnedBits).sum + b'.bitsLeft.toNat ≤ b.bitsLeft.toNat := by
  induction calls generalizing b with
  | nil =>
    refine ⟨trivial, fun part front b' answers ran => ?_⟩
    obtain rfl := List.prefix_nil.mp front
    simp only [run_nil, Option.some.injEq, Prod.mk.injEq] at ran
    simp [← ran.1, ← ran.2]
  | cons call calls ih =>
    obtain ⟨here, later⟩ := skips
    obtain ⟨b', answer, answered, counted', kept, refused⟩ := attempt_counted counted here
    obtain ⟨rest, parts⟩ := ih counted' (later b' answer answered)
    -- The call has one result only.
    have only : ∀ last reply, attempt b call = some (last, reply) → last = b' ∧ reply = answer := by
      intro last reply same
      rw [answered, Option.some.injEq, Prod.mk.injEq] at same
      exact ⟨same.1.symm, same.2.symm⟩
    refine ⟨⟨?_, ?_⟩, ?_⟩
    · intro last reply same
      obtain ⟨rfl, rfl⟩ := only last reply same
      exact ⟨UInt64.le_iff_toNat_le.mpr (by omega), refused⟩
    · intro last reply same
      obtain ⟨rfl, rfl⟩ := only last reply same
      exact rest
    · intro part front last answers ran
      cases part with
      | nil =>
        simp only [run_nil, Option.some.injEq, Prod.mk.injEq] at ran
        simp [← ran.1, ← ran.2]
      | cons first part =>
        obtain ⟨rfl, behind⟩ := List.cons_prefix_cons.mp front
        obtain ⟨mid, out, outs, step, ranPart, rfl⟩ := run_cons_eq_some.mp ran
        obtain ⟨rfl, rfl⟩ := only mid out step
        have total := parts part behind last outs ranPart
        rw [List.map_cons, List.sum_cons]
        omega

/-- Calls that keep the count never skip more bits than are left. -/
theorem skips_of_keeps {b : AsnBufBits} (counted : b.Counted) {calls : List ReadCall}
    (keeps : Along attempt KeepsCount b calls) : Along attempt SkipsOnlyLeft b calls := by
  induction calls generalizing b with
  | nil => trivial
  | cons call calls ih =>
    obtain ⟨here, later⟩ := keeps
    have skips : SkipsOnlyLeft b call := by
      by_contra beyond
      exact not_keepsCount counted beyond here
    obtain ⟨b', answer, answered, counted', -, -⟩ := attempt_counted counted skips
    refine ⟨skips, fun last reply same => ?_⟩
    rw [answered, Option.some.injEq, Prod.mk.injEq] at same
    obtain ⟨rfl, rfl⟩ := same
    exact ih counted' (later b' answer answered)

/-- Writes to a fresh buffer store all the bits they return, and count them within a word. -/
theorem run_writes_counted {bAlign : Bool} {writes : List WriteCall} {b : AsnBufBits}
    {counts : List Nat} (ran : run writeStep (.make bAlign) writes = some (b, counts)) :
    b.Counted ∧ b.bitsLeft.toNat ≤ counts.sum := by
  obtain ⟨b', counts', ran', wrote, -, total, -⟩ :=
    run_writes (AsnBufBits.make_wellFormed bAlign) 0 (fun _ => rfl) writes
  rw [ran, Option.some.injEq, Prod.mk.injEq] at ran'
  obtain ⟨rfl, rfl⟩ := ran'
  have left : b.bitsLeft.toNat ≤ counts.sum := by
    rw [wrote.bitsLeft, total]
    change (0 + UInt64.ofNat _).toNat ≤ _
    rw [UInt64.zero_add, UInt64.toNat_ofNat']
    exact Nat.mod_le _ _
  refine ⟨⟨wrote.wellFormed, ?_⟩, left⟩
  rw [total] at left
  rw [AsnBufBits.stored, wrote.queued, List.length_append, List.length_append]
  omega

/-- Reads yield only what was written exactly when every alignment skips bits that are there. -/
theorem yields_only_written_iff (bAlign : Bool) (writes : List WriteCall)
    (reads : List ReadCall) :
    YieldsOnlyWritten bAlign writes reads ↔ AlignsWithin bAlign writes reads := by
  constructor
  · intro yields b counts ran
    exact skips_of_keeps (run_writes_counted ran).1 (yields b counts ran).1
  · intro aligns b counts ran
    obtain ⟨counted, left⟩ := run_writes_counted ran
    obtain ⟨keeps, totals⟩ := run_counted counted (aligns b counts ran)
    refine ⟨keeps, fun part front b' answers ranPart => ?_⟩
    have total := totals part front b' answers ranPart
    omega

/-- After three bits were put and read, an alignment leaves more bits than there ever were. -/
theorem alignment_yields_more : ¬∀ bAlign writes reads, YieldsOnlyWritten bAlign writes reads := by
  intro always
  have yields := always true [.putBits ⟨[0xA0], 3, by decide⟩] [.getBits 3, .octetAlignRead] _ _ rfl
  -- The bits are read, and the alignment skips the other five bits of their octet.
  have later := yields.1.2 _ _ rfl
  have raised := (later.1 _ _ rfl).1
  exact absurd raised (by decide)

end Esnacc.Cxx
