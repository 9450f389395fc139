import Esnacc.Cxx.BitWrites

/-! What each routine that reads from a bit buffer takes from the bits it stores. -/

namespace Esnacc.Cxx

open Lib

/-- A buffer after some of its first bits were taken; zeros may follow the last bits by then. -/
structure AsnBufBits.Took (b : AsnBufBits) (n : Nat) (b' : AsnBufBits) : Prop where
  wellFormed : b'.WellFormed
  bAlign : b'.bAlign = b.bAlign
  bitsLeft : b'.bitsLeft = b.bitsLeft
  stored : ∃ k, b'.stored = b.stored.drop n ++ List.replicate k false
  position : b'.readBitPos % 8 = (b.readBitPos + n) % 8

/-- The buffer after an octet was read behind the one being read. -/
structure AsnBufBits.Fetched (b : AsnBufBits) (next : UInt8) (b' : AsnBufBits) : Prop where
  wellFormed : b'.WellFormed
  bAlign : b'.bAlign = b.bAlign
  bitsLeft : b'.bitsLeft = b.bitsLeft
  readCharBuf : b'.readCharBuf = b.readCharBuf
  readBitPos : b'.readBitPos = b.readBitPos
  queued : ∃ k, bitsOf next ++ b'.queued = b.queued ++ List.replicate k false

/-- An octet can be read while there are bits behind the one being read. -/
theorem readByte_fetched {b : AsnBufBits} (wellFormed : b.WellFormed) (more : b.queued ≠ []) :
    ∃ next b', readByte.run b = .ok next b' ∧ b.Fetched next b' := by
  cases octets : b.pbuf with
  | cons ch pbuf =>
    refine ⟨ch, { b with pbuf := pbuf }, ?_, ?_⟩
    · rw [readByte, run_bind_of_ok (EStateM.run_get b), octets]
      rfl
    · constructor
      case wellFormed =>
        exact ⟨wellFormed.readPos, wellFormed.read, wellFormed.writePos, wellFormed.written⟩
      case queued =>
        exact ⟨0, by simp [AsnBufBits.queued, octets, AsnBufBits.partWritten]⟩
      all_goals rfl
  | nil =>
    -- The octet being filled is the last one; the zeros behind its bits come along.
    have queued : b.queued = b.partWritten := by
      simp [AsnBufBits.queued, octets]
    have partly : b.writeBitPos < 8 := by
      by_contra empty
      apply more
      rw [queued]
      apply List.eq_nil_of_length_eq_zero
      rw [AsnBufBits.length_partWritten]
      omega
    refine ⟨b.writeCharBuf, { b with writeBitPos := 8, writeCharBuf := 0 }, ?_, ?_⟩
    · rw [readByte, run_bind_of_ok (EStateM.run_get b), octets]
      dsimp only
      rw [if_pos partly]
      rfl
    · constructor
      case wellFormed =>
        exact ⟨wellFormed.readPos, wellFormed.read, ⟨Nat.le_of_ble_eq_true rfl, Nat.le_refl 8⟩,
          holds_zero⟩
      case queued =>
        refine ⟨8 - b.partWritten.length, ?_⟩
        rw [queued, ← wellFormed.written]
        simp [AsnBufBits.queued, octets, AsnBufBits.partWritten]
      all_goals rfl

theorem AsnBufBits.Fetched.take {b b' : AsnBufBits} {next : UInt8} (fetched : b.Fetched next b')
    {n : Nat} (most : n ≤ 8) (enough : n ≤ b.queued.length) :
    (bitsOf next).take n = b.queued.take n := by
  obtain ⟨k, queued⟩ := fetched.queued
  have front := congrArg (List.take n) queued
  rwa [List.take_append_of_le_length (by simpa using most),
    List.take_append_of_le_length enough] at front

theorem AsnBufBits.Fetched.drop {b b' : AsnBufBits} {next : UInt8} (fetched : b.Fetched next b')
    {n : Nat} (most : n ≤ 8) (enough : n ≤ b.queued.length) :
    ∃ k, (bitsOf next).drop n ++ b'.queued = b.queued.drop n ++ List.replicate k false := by
  obtain ⟨k, queued⟩ := fetched.queued
  have back := congrArg (List.drop n) queued
  rw [List.drop_append_of_le_length (by simpa using most),
    List.drop_append_of_le_length enough] at back
  exact ⟨k, back⟩

theorem AsnBufBits.Fetched.front {b b' : AsnBufBits} {next : UInt8} (fetched : b.Fetched next b')
    {m : Nat} (most : m ≤ 8) (enough : 8 - b.readBitPos + m ≤ b.stored.length) :
    b.stored.take (8 - b.readBitPos + m) = b.partRead ++ (bitsOf next).take m := by
  have behind : m ≤ b.queued.length := by
    rw [stored, List.length_append, length_partRead] at enough
    omega
  rw [fetched.take most behind, stored, ← length_partRead, List.take_append,
    List.take_of_length_le (Nat.le_add_right ..), Nat.add_sub_cancel_left]

/-- The next octet becomes the one being read once some of its bits are taken. -/
theorem AsnBufBits.Fetched.took {b b' : AsnBufBits} {next c : UInt8}
    (fetched : b.Fetched next b') {m : Nat} (least : 1 ≤ m) (most : m ≤ 8)
    (enough : 8 - b.readBitPos + m ≤ b.stored.length)
    (held : Holds c ((bitsOf next).drop m)) :
    b.Took (8 - b.readBitPos + m) { b' with readCharBuf := c, readBitPos := m } := by
  have behind : m ≤ b.queued.length := by
    rw [stored, List.length_append, length_partRead] at enough
    omega
  have readMost : b.readBitPos ≤ 8 := fetched.readBitPos ▸ fetched.wellFormed.readPos.2
  have part : (bitsOf c).take (8 - m) = (bitsOf next).drop m := by
    rw [held, List.take_left' (by simp)]
  constructor
  case wellFormed =>
    refine ⟨⟨least, most⟩, ?_, fetched.wellFormed.writePos, fetched.wellFormed.written⟩
    rw [partRead, part]
    exact held
  case bAlign => exact fetched.bAlign
  case bitsLeft => exact fetched.bitsLeft
  case stored =>
    obtain ⟨k, back⟩ := fetched.drop most behind
    refine ⟨k, ?_⟩
    have skipped : b.stored.drop (8 - b.readBitPos + m) = b.queued.drop m := by
      rw [stored, ← length_partRead, List.drop_append, List.drop_of_length_le (Nat.le_add_right ..),
        List.nil_append, Nat.add_sub_cancel_left]
    rw [skipped, ← back, stored, partRead, part]
    rfl
  case position =>
    change m % 8 = _
    omega

/-- Where the octet being read is used up, the next one holds the first eight bits stored. -/
theorem AsnBufBits.Fetched.whole {b b' : AsnBufBits} {next : UInt8} (fetched : b.Fetched next b')
    (empty : b.readBitPos = 8) (enough : 8 ≤ b.stored.length) :
    bitsOf next = b.stored.take 8 ∧ b.Took 8 b' := by
  have nothing : 8 - b.readBitPos = 0 := by omega
  have none : b.partRead = [] := List.eq_nil_of_length_eq_zero (by rw [length_partRead, nothing])
  have held : Holds b'.readCharBuf ((bitsOf next).drop 8) := by
    have old := fetched.wellFormed.read
    rw [partRead, fetched.readCharBuf, fetched.readBitPos] at old
    rw [List.drop_of_length_le (by simp), fetched.readCharBuf, ← none]
    exact old
  have front := fetched.front (m := 8) (by omega) (by omega)
  have took := fetched.took (by omega) (Nat.le_refl 8) (by omega) held
  rw [nothing, Nat.zero_add] at front took
  constructor
  · rw [front, none, List.take_of_length_le (by simp), List.nil_append]
  · have same : { b' with readCharBuf := b'.readCharBuf, readBitPos := 8 } = b' := by
      rw [← empty, ← fetched.readBitPos]
    rwa [same] at took

/-- What is left of the octet being read and the first bits of the next make eight bits. -/
theorem AsnBufBits.Fetched.across {b b' : AsnBufBits} {next octet : UInt8}
    (fetched : b.Fetched next b') (enough : 8 ≤ b.stored.length)
    (joined : bitsOf octet = b.partRead ++ (bitsOf next).take b.readBitPos) :
    bitsOf octet = b.stored.take 8 ∧
      b.Took 8 { b' with readCharBuf := shl next b'.readBitPos } := by
  obtain ⟨least, most⟩ := fetched.readBitPos ▸ fetched.wellFormed.readPos
  have total : 8 - b.readBitPos + b.readBitPos = 8 := by omega
  have front := fetched.front most (by omega)
  have took := fetched.took least most (by omega) (holds_shl (c := next) most)
  rw [total] at front took
  rw [← fetched.readBitPos] at took
  exact ⟨joined.trans front.symm, took⟩

theorem AsnBufBits.queued_ne_nil {b : AsnBufBits}
    (enough : 8 - b.readBitPos < b.stored.length) : b.queued ≠ [] := by
  intro none
  rw [stored, none, List.append_nil, length_partRead] at enough
  omega

/-- A whole octet of a request holds the first eight bits stored. -/
theorem getOctet_took {b : AsnBufBits} (wellFormed : b.WellFormed) (enough : 8 ≤ b.stored.length) :
    ∃ octet b', getOctet.run b = .ok octet b' ∧ bitsOf octet = b.stored.take 8 ∧ b.Took 8 b' := by
  obtain ⟨least, most⟩ := wellFormed.readPos
  have more := AsnBufBits.queued_ne_nil (b := b) (by omega)
  obtain ⟨next, b', ran, fetched⟩ := readByte_fetched wellFormed more
  rw [getOctet, run_bind_of_ok (EStateM.run_get b), run_bind_of_ok ran]
  by_cases empty : b.readBitPos = 8
  · rw [if_pos empty]
    exact ⟨next, b', rfl, fetched.whole empty enough⟩
  · rw [if_neg empty]
    have masked := holds_maskBits (c := next) (n := b.readBitPos) (by omega) most
    have joined := wellFormed.read.or_shr (maskBits next b.readBitPos)
    rw [AsnBufBits.length_partRead, show 8 - (8 - b.readBitPos) = b.readBitPos by omega, masked,
      List.take_left' (by simp [most])] at joined
    exact ⟨_, _, rfl, fetched.across enough joined⟩

theorem drop_zeros {bits more : List Bool} {n k : Nat} (within : n ≤ bits.length)
    (same : more = bits ++ List.replicate k false) :
    more.drop n = bits.drop n ++ List.replicate k false := by
  rw [same, List.drop_append_of_le_length within]

theorem AsnBufBits.Took.trans {b b' b'' : AsnBufBits} {m n : Nat} (first : b.Took m b')
    (second : b'.Took n b'') (within : m + n ≤ b.stored.length) : b.Took (m + n) b'' where
  wellFormed := second.wellFormed
  bAlign := second.bAlign.trans first.bAlign
  bitsLeft := second.bitsLeft.trans first.bitsLeft
  stored := by
    obtain ⟨j, here⟩ := first.stored
    obtain ⟨k, there⟩ := second.stored
    refine ⟨j + k, ?_⟩
    rw [there, drop_zeros (by simp; omega) here, List.drop_drop, List.append_assoc,
      List.replicate_append_replicate]
  position := by
    have here := first.position
    have there := second.position
    omega

theorem AsnBufBits.Took.take {b b' : AsnBufBits} {m n : Nat} (first : b.Took m b')
    (within : m + n ≤ b.stored.length) :
    b.stored.take (m + n) = b.stored.take m ++ b'.stored.take n ∧ n ≤ b'.stored.length := by
  obtain ⟨k, stored⟩ := first.stored
  constructor
  · rw [stored, List.take_append_of_le_length (by simp; omega), List.take_add]
  · rw [stored]
    simp
    omega

/-- The whole octets of a request hold the first bits stored. -/
theorem getOctets_took {b : AsnBufBits} (wellFormed : b.WellFormed) (count : Nat)
    (enough : 8 * count ≤ b.stored.length) :
    ∃ octets b', (getOctets count).run b = .ok octets b' ∧
      octets.flatMap bitsOf = b.stored.take (8 * count) ∧ b.Took (8 * count) b' := by
  induction count generalizing b with
  | zero =>
    exact ⟨[], b, rfl, rfl, wellFormed, rfl, rfl, ⟨0, by simp⟩, rfl⟩
  | succ count ih =>
    rw [show 8 * (count + 1) = 8 + 8 * count by omega] at enough ⊢
    obtain ⟨octet, mid, ran, here, took⟩ := getOctet_took wellFormed (by omega)
    obtain ⟨split, left⟩ := took.take enough
    obtain ⟨octets, b', ranRest, rest, tookRest⟩ := ih took.wellFormed left
    refine ⟨octet :: octets, b', ?_, ?_, took.trans tookRest enough⟩
    · rw [getOctets, run_bind_of_ok ran, run_bind_of_ok ranRest]
      rfl
    · rw [List.flatMap_cons, here, rest, split]

/-- Bits taken from the octet being read alone. -/
theorem AsnBufBits.WellFormed.took {b : AsnBufBits} (wellFormed : b.WellFormed) {n : Nat}
    (inside : n ≤ 8 - b.readBitPos) : b.Took n { b with
      readCharBuf := shl b.readCharBuf n, readBitPos := b.readBitPos + n } := by
  obtain ⟨readLeast, readMost⟩ := wellFormed.readPos
  have within : n ≤ b.partRead.length := by
    rwa [length_partRead]
  have shifted := wellFormed.read.shl within
  have part : (bitsOf (shl b.readCharBuf n)).take (8 - (b.readBitPos + n)) =
      b.partRead.drop n := by
    rw [shifted, List.take_left' (by simp; omega)]
  constructor
  case wellFormed =>
    refine ⟨⟨Nat.le_trans readLeast (Nat.le_add_right ..), ?_⟩, ?_, wellFormed.writePos,
      wellFormed.written⟩
    · change b.readBitPos + n ≤ 8
      omega
    · rw [partRead, part]
      exact shifted
  case stored =>
    refine ⟨0, ?_⟩
    rw [stored, partRead, part, stored, List.drop_append_of_le_length within]
    simp [queued, partWritten]
  all_goals rfl

/-- The last octet of a request holds the first bits stored, fewer than eight. -/
theorem getExtra_took {b : AsnBufBits} (wellFormed : b.WellFormed) {n : Nat} (least : 0 < n)
    (most : n < 8) (enough : n ≤ b.stored.length) :
    ∃ octet b', (getExtra n).run b = .ok octet b' ∧ Holds octet (b.stored.take n) ∧
      b.Took n b' := by
  obtain ⟨readLeast, readMost⟩ := wellFormed.readPos
  rw [getExtra, run_bind_of_ok (EStateM.run_get b)]
  by_cases inside : n ≤ 8 - b.readBitPos
  · -- The octet being read has enough bits.
    rw [if_pos inside]
    have within : n ≤ b.partRead.length := by
      rwa [AsnBufBits.length_partRead]
    refine ⟨_, _, rfl, ?_, wellFormed.took inside⟩
    have masked := holds_maskBits (c := b.readCharBuf) least (by omega)
    rw [AsnBufBits.stored, List.take_append_of_le_length within, AsnBufBits.partRead,
      List.take_take, Nat.min_eq_left inside]
    exact masked
  · rw [if_neg inside]
    have more := AsnBufBits.queued_ne_nil (b := b) (by omega)
    obtain ⟨next, b', ran, fetched⟩ := readByte_fetched wellFormed more
    rw [run_bind_of_ok ran]
    let m := n - (8 - b.readBitPos)
    have total : 8 - b.readBitPos + m = n := by omega
    have front := fetched.front (m := m) (by omega) (by omega)
    have took := fetched.took (m := m) (by omega) (by omega) (by omega)
      (holds_shl (c := next) (by omega))
    rw [total] at front took
    refine ⟨_, _, rfl, ?_, took⟩
    have masked := holds_maskBits (c := next) (n := m) (by omega) (by omega)
    -- A shift by no bits changes nothing, so both branches shift.
    have shifts : (if b.readBitPos ≠ 8 then shr (maskBits next m) (8 - b.readBitPos)
        else maskBits next m) = shr (maskBits next m) (8 - b.readBitPos) := by
      by_cases partly : b.readBitPos ≠ 8
      · rw [if_pos partly]
      · rw [if_neg partly, show 8 - b.readBitPos = 0 by omega, shr_zero]
    have joined := wellFormed.read.or_shr (maskBits next m)
    have size : ((bitsOf next).take m).length = m := by
      simp
      omega
    rw [AsnBufBits.length_partRead, show 8 - (8 - b.readBitPos) = b.readBitPos by omega, masked,
      List.take_append, List.take_of_length_le (by omega), List.take_replicate, size] at joined
    rw [shifts, front, Holds, joined, List.append_assoc]
    congr 3
    simp only [List.length_append, AsnBufBits.length_partRead, size]
    omega

/-- A buffer after a read returned some of its first bits and counted them. -/
structure AsnBufBits.Read (b : AsnBufBits) (n : Nat) (b' : AsnBufBits) : Prop where
  wellFormed : b'.WellFormed
  bAlign : b'.bAlign = b.bAlign
  stored : ∃ k, b'.stored = b.stored.drop n ++ List.replicate k false
  position : b'.readBitPos % 8 = (b.readBitPos + n) % 8
  bitsLeft : b'.bitsLeft = b.bitsLeft - UInt64.ofNat n

theorem AsnBufBits.Took.read {b b' : AsnBufBits} {n : Nat} {count : UInt64} (took : b.Took n b')
    (counted : count = UInt64.ofNat n) :
    b.Read n { b' with bitsLeft := b'.bitsLeft - count } where
  wellFormed := ⟨took.wellFormed.readPos, took.wellFormed.read, took.wellFormed.writePos,
    took.wellFormed.written⟩
  bAlign := took.bAlign
  stored := took.stored
  position := took.position
  bitsLeft := by rw [took.bitsLeft, counted]

theorem AsnBufBits.Read.toNat_bitsLeft {b b' : AsnBufBits} {n : Nat} (read : b.Read n b')
    (within : n ≤ b.bitsLeft.toNat) : b'.bitsLeft.toNat = b.bitsLeft.toNat - n := by
  have bound := b.bitsLeft.toNat_lt
  have small : (UInt64.ofNat n).toNat = n := by
    rw [UInt64.toNat_ofNat']
    omega
  have fits : UInt64.ofNat n ≤ b.bitsLeft := by
    rw [UInt64.le_iff_toNat_le, small]
    exact within
  rw [read.bitsLeft, UInt64.toNat_sub_of_le _ _ fits, small]

/-- A request for as many bits as are left and stored returns the first ones. -/
theorem getBits_read {b : AsnBufBits} (wellFormed : b.WellFormed) {n : UInt64}
    (left : n ≤ b.bitsLeft) (enough : n.toNat ≤ b.stored.length) :
    ∃ octets b', (getBits n).run b = .ok octets b' ∧
      (octets.flatMap bitsOf).take n.toNat = b.stored.take n.toNat ∧ b.Read n.toNat b' := by
  have split : 8 * (n.toNat / 8) + n.toNat % 8 = n.toNat := Nat.div_add_mod ..
  obtain ⟨octets, mid, ran, whole, took⟩ :=
    getOctets_took wellFormed (n.toNat / 8) (by omega)
  obtain ⟨front, more⟩ := took.take (n := n.toNat % 8) (by omega)
  rw [split] at front
  have size : (octets.flatMap bitsOf).length = 8 * (n.toNat / 8) := by
    rw [whole]
    simp
    omega
  -- The last octet, where there is one, holds the bits behind the whole octets.
  have last : ∃ last b', (if 0 < n.toNat % 8 then (do return [← getExtra (n.toNat % 8)])
        else return [] : BitsM (List UInt8)).run mid = .ok last b' ∧
      (∃ k, last.flatMap bitsOf = mid.stored.take (n.toNat % 8) ++ List.replicate k false) ∧
      mid.Took (n.toNat % 8) b' := by
    by_cases extra : 0 < n.toNat % 8
    · obtain ⟨octet, b', ranExtra, held, tookExtra⟩ :=
        getExtra_took took.wellFormed extra (Nat.mod_lt _ (by decide)) more
      refine ⟨[octet], b', ?_, ?_, tookExtra⟩
      · rw [if_pos extra, run_bind_of_ok ranExtra]
        rfl
      · exact ⟨_, by rw [List.flatMap_singleton, held]⟩
    · have none : n.toNat % 8 = 0 := by omega
      refine ⟨[], mid, ?_, ⟨0, by simp [none]⟩, ?_⟩
      · rw [if_neg extra]
        rfl
      · rw [none]
        exact ⟨took.wellFormed, rfl, rfl, ⟨0, by simp⟩, rfl⟩
  obtain ⟨last, b', ranLast, ⟨k, lastBits⟩, tookLast⟩ := last
  have all := took.trans tookLast (by omega)
  rw [split] at all
  rw [getBits, run_bind_of_ok (EStateM.run_get b), if_neg (UInt64.not_lt.mpr left),
    run_bind_of_ok ran]
  dsimp only
  rw [run_bind_of_ok ranLast]
  refine ⟨octets ++ last ++ [0], _, rfl, ?_, all.read UInt64.ofNat_toNat.symm⟩
  rw [List.flatMap_append, List.flatMap_append, lastBits, whole, List.append_assoc,
    ← List.append_assoc, ← List.append_assoc, ← front, List.append_assoc]
  exact List.take_left' (by simp [enough])

/-- A bit is read while one is left and stored: the first one. -/
theorem getBit_read {b : AsnBufBits} (wellFormed : b.WellFormed) (left : b.bitsLeft ≠ 0)
    (enough : 1 ≤ b.stored.length) :
    ∃ bit b', getBit.run b = .ok bit b' ∧ [bit] = b.stored.take 1 ∧ b.Read 1 b' := by
  obtain ⟨readLeast, readMost⟩ := wellFormed.readPos
  rw [getBit, run_bind_of_ok (EStateM.run_get b), if_neg left]
  by_cases empty : b.readBitPos = 8
  · have more : b.queued ≠ [] := by
      intro none
      rw [AsnBufBits.stored, none, List.append_nil, AsnBufBits.length_partRead] at enough
      omega
    obtain ⟨next, b', ran, fetched⟩ := readByte_fetched wellFormed more
    have nothing : b.partRead = [] := by
      apply List.eq_nil_of_length_eq_zero
      rw [AsnBufBits.length_partRead]
      omega
    have front := fetched.front (m := 1) (by omega) (by omega)
    have took := fetched.took (m := 1) (by omega) (by omega) (by omega)
      (holds_shl (c := next) (by omega))
    rw [empty, nothing] at front
    rw [empty] at took
    rw [if_pos empty, EStateM.run_bind, ran]
    refine ⟨_, _, rfl, ?_, took.read rfl⟩
    exact (head_bitsOf next).symm.trans front.symm
  · rw [if_neg empty]
    have within : 1 ≤ b.partRead.length := by
      rw [AsnBufBits.length_partRead]
      omega
    refine ⟨_, _, rfl, ?_, (wellFormed.took (n := 1) (by omega)).read rfl⟩
    rw [AsnBufBits.stored, List.take_append_of_le_length within, AsnBufBits.partRead,
      List.take_take, Nat.min_eq_left (by omega)]
    exact (head_bitsOf b.readCharBuf).symm

/-- An octet is read while its bits are left and stored: the first eight ones. -/
theorem getByte_read {b : AsnBufBits} (wellFormed : b.WellFormed) (left : 8 ≤ b.bitsLeft)
    (enough : 8 ≤ b.stored.length) :
    ∃ octet b', AsnBufBits.getByte.run b = .ok octet b' ∧ bitsOf octet = b.stored.take 8 ∧
      b.Read 8 b' := by
  obtain ⟨least, most⟩ := wellFormed.readPos
  have more := AsnBufBits.queued_ne_nil (b := b) (by omega)
  obtain ⟨next, b', ran, fetched⟩ := readByte_fetched wellFormed more
  rw [AsnBufBits.getByte, run_bind_of_ok (EStateM.run_get b), if_neg (UInt64.not_lt.mpr left),
    run_bind_of_ok ran]
  by_cases empty : b.readBitPos = 8
  · rw [if_pos empty]
    obtain ⟨same, took⟩ := fetched.whole empty enough
    exact ⟨next, _, rfl, same, took.read rfl⟩
  · rw [if_neg empty]
    have joined := wellFormed.read.or_shr next
    rw [AsnBufBits.length_partRead, show 8 - (8 - b.readBitPos) = b.readBitPos by omega] at joined
    obtain ⟨same, took⟩ := fetched.across enough joined
    exact ⟨_, _, rfl, same, took.read rfl⟩

/-- Skipping to the next octet takes what is left of the one being read. -/
theorem octetAlignRead_read {b : AsnBufBits} (wellFormed : b.WellFormed) (aligned : b.bAlign) :
    ∃ b', octetAlignRead.run b = .ok (8 - b.readBitPos) b' ∧ b.Read (8 - b.readBitPos) b' := by
  have most := wellFormed.readPos.2
  -- Clearing the octet being read is shifting out what is left of it.
  have cleared : shl b.readCharBuf (8 - b.readBitPos) = 0 := by
    apply bitsOf_injective
    have shifted := wellFormed.read.shl (n := 8 - b.readBitPos) (by simp)
    rw [List.drop_of_length_le (by simp)] at shifted
    exact shifted
  have took := (wellFormed.took (Nat.le_refl _)).read rfl
  rw [cleared, show b.readBitPos + (8 - b.readBitPos) = 8 by omega] at took
  refine ⟨_, ?_, took⟩
  rw [octetAlignRead, run_bind_of_ok (EStateM.run_get b), if_pos aligned]
  rfl

theorem octetAlignRead_of_not_bAlign {b : AsnBufBits} (unaligned : ¬b.bAlign) :
    octetAlignRead.run b = .ok 0 b := by
  rw [octetAlignRead, run_bind_of_ok (EStateM.run_get b), if_neg unaligned]
  rfl

end Esnacc.Cxx
