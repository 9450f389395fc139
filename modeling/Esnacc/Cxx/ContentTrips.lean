import Esnacc.Cxx.GenEnc

/-! Contents that are encoded into a C++ buffer and decoded again. -/

namespace Esnacc.Cxx

open Lib

/-- Put a segment in front of the data. -/
def putSegRvs (seg : List UInt8) : BufM Unit :=
  onBuf fun b => do return ((), ← b.putSegRvs seg)

/-- A routine puts octets in front of those that were written and returns their number. -/
def WritesFront (enc : BufM AsnLen) (octets : List UInt8) : Prop :=
  ∀ (b : AsnBuf) (data : List UInt8), b.Written data →
    ∃ b', enc.run b = .ok (.ofNat octets.length) b' ∧ b'.Written (octets ++ data)

/-- Something that holds of a buffer with the octets written, and that both ways to write keep. -/
structure KeptByWrites (holds : AsnBuf → List UInt8 → Prop) : Prop where
  putByteRvs : ∀ {b : AsnBuf} {data : List UInt8}, holds b data → ∀ octet,
    ∃ b', b.putByteRvs octet = .ok b' ∧ holds b' (octet :: data)
  putSegRvs : ∀ {b : AsnBuf} {data : List UInt8}, holds b data → ∀ seg,
    ∃ b', b.putSegRvs seg = .ok b' ∧ holds b' (seg ++ data)

theorem written_keptByWrites : KeptByWrites AsnBuf.Written where
  putByteRvs written := written.putByteRvs
  putSegRvs written := written.putSegRvs

/-- A routine puts octets in front of those that were written, and keeps what holds of the buffer. -/
def WritesKeeping (holds : AsnBuf → List UInt8 → Prop) (enc : BufM AsnLen) (octets : List UInt8) :
    Prop :=
  ∀ (b : AsnBuf) (data : List UInt8), holds b data →
    ∃ b', enc.run b = .ok (.ofNat octets.length) b' ∧ holds b' (octets ++ data)

section

variable {holds : AsnBuf → List UInt8 → Prop} {b : AsnBuf} {data : List UInt8}

theorem KeptByWrites.run_putByteRvs (kept : KeptByWrites holds) (here : holds b data)
    (octet : UInt8) :
    ∃ b', (Cxx.putByteRvs octet).run b = .ok () b' ∧ holds b' (octet :: data) := by
  obtain ⟨b', put, wrote⟩ := kept.putByteRvs here octet
  refine ⟨b', ?_, wrote⟩
  apply run_onBuf_of_ok
  rw [put]
  rfl

theorem KeptByWrites.run_putSegRvs (kept : KeptByWrites holds) (here : holds b data)
    (seg : List UInt8) :
    ∃ b', (Cxx.putSegRvs seg).run b = .ok () b' ∧ holds b' (seg ++ data) := by
  obtain ⟨b', put, wrote⟩ := kept.putSegRvs here seg
  refine ⟨b', ?_, wrote⟩
  apply run_onBuf_of_ok
  rw [put]
  rfl

theorem KeptByWrites.run_putEachRvs (kept : KeptByWrites holds) (here : holds b data)
    (octets : List UInt8) :
    ∃ b', (Cxx.putEachRvs octets).run b = .ok () b' ∧ holds b' (octets.reverse ++ data) := by
  induction octets generalizing b data with
  | nil => exact ⟨b, rfl, here⟩
  | cons octet rest ih =>
    obtain ⟨mid, first, wrote⟩ := kept.run_putByteRvs here octet
    obtain ⟨b', ran, last⟩ := ih wrote
    refine ⟨b', ?_, ?_⟩
    · rw [Cxx.putEachRvs, run_bind_of_ok first, ran]
    · rwa [List.reverse_cons, List.append_assoc]

end

theorem writesFront_putSegRvs (seg : List UInt8) :
    WritesFront (do putSegRvs seg; return .ofNat seg.length) seg := by
  intro b data written
  obtain ⟨b', ran, wrote⟩ := written_keptByWrites.run_putSegRvs written seg
  exact ⟨b', by rw [run_bind_of_ok ran]; rfl, wrote⟩

variable {α : Type}

/--
Contents that are encoded are decoded again.

Whatever was written before, the decoder gives the value back from the octets in front, with their
number counted, and leaves the others; a `long` counts all of them.
-/
def ContentTrips (enc : BufM AsnLen) (dec : AsnLen → AsnLen → BufM (α × AsnLen)) (v : α) : Prop :=
  ∀ (b : AsnBuf) (data : List UInt8), b.Written data → ∃ len b', enc.run b = .ok len b' ∧
    (b'.data.length < 2 ^ 63 → ∀ bytesDecoded, ∃ b'',
      (dec len bytesDecoded).run b'.resetMode = .ok (v, bytesDecoded + len) b'' ∧
        b''.unread = data)

theorem AsnBuf.Written.data_eq {b : AsnBuf} {data : List UInt8} (written : b.Written data) :
    b.data = data := by
  rw [AsnBuf.data, deck, written.passed, List.nil_append, written.data]

theorem WritesFront.unique {enc : BufM AsnLen} {octets octets' : List UInt8}
    (writes : WritesFront enc octets) (writes' : WritesFront enc octets') : octets = octets' := by
  obtain ⟨b, ran, wrote⟩ := writes .empty [] AsnBuf.empty_written
  obtain ⟨b', ran', wrote'⟩ := writes' .empty [] AsnBuf.empty_written
  obtain ⟨-, rfl⟩ := EStateM.Result.ok.inj (ran.symm.trans ran')
  have same := wrote.data_eq.symm.trans wrote'.data_eq
  rwa [List.append_nil, List.append_nil] at same

theorem AsnBuf.Written.sound {b : AsnBuf} {data : List UInt8} (written : b.Written data)
    (small : data.length < 2 ^ 63) : b.resetMode.Sound ∧ b.resetMode.unread = data := by
  obtain ⟨readable, unread⟩ := written.resetMode
  exact ⟨⟨readable.reading, fun c isIn => .inl (readable.begun c isIn), readable.small,
    by rw [unread]; exact small⟩, unread⟩

/-- What is decoded from the octets that are written makes the trip. -/
theorem WritesFront.trips {enc : BufM AsnLen} {octets : List UInt8} (writes : WritesFront enc octets)
    {dec : AsnLen → AsnLen → BufM (α × AsnLen)} {v : α}
    (reads : ∀ (b : AsnBuf) (data : List UInt8) (n : AsnLen), b.Sound →
      b.unread = octets ++ data →
      ∃ b', (dec (.ofNat octets.length) n).run b = .ok (v, n + .ofNat octets.length) b' ∧
        b'.unread = data) : ContentTrips enc dec v := by
  intro b data written
  obtain ⟨b', ran, wrote⟩ := writes b data written
  refine ⟨_, b', ran, fun small n => ?_⟩
  rw [wrote.data_eq] at small
  obtain ⟨sound, unread⟩ := wrote.sound small
  exact reads b'.resetMode data n sound unread

/-- What makes the trip is decoded from some buffer that has the octets alone. -/
theorem ContentTrips.decoded {enc : BufM AsnLen} {octets : List UInt8}
    {dec : AsnLen → AsnLen → BufM (α × AsnLen)} {v : α} (trips : ContentTrips enc dec v)
    (writes : WritesFront enc octets) (small : octets.length < 2 ^ 63) :
    ∃ (b : AsnBuf) (b' : AsnBuf), b.Sound ∧ b.unread = octets ∧
      (dec (.ofNat octets.length) 0).run b = .ok (v, .ofNat octets.length) b' := by
  obtain ⟨b, ran, wrote⟩ := writes .empty [] AsnBuf.empty_written
  obtain ⟨len, last, again, back⟩ := trips .empty [] AsnBuf.empty_written
  rw [ran] at again
  cases again
  rw [List.append_nil] at wrote
  obtain ⟨sound, unread⟩ := wrote.sound small
  obtain ⟨b', decoded, -⟩ := back (by rw [wrote.data_eq]; exact small) 0
  rw [UInt64.zero_add] at decoded
  exact ⟨b.resetMode, b', sound, unread, decoded⟩

/-- Octets that are there are read into a new array. -/
theorem getUSeg_append {b : AsnBuf} (sound : b.Sound) {octets data : List UInt8}
    (unread : b.unread = octets ++ data) :
    ∃ b' : AsnBuf, (getUSeg (.ofNat octets.length)).run b = .ok octets b' ∧ b'.Sound ∧
      b'.unread = data := by
  have fits := sound.fits
  rw [unread, List.length_append] at fits
  have count : (UInt64.ofNat octets.length).toNat = octets.length :=
    UInt64.toNat_ofNat_of_lt' (by rw [UInt64.size]; omega)
  have acts := sound.getSeg_acts (UInt64.ofNat octets.length).toInt64
  rw [toNat_toInt_toInt64 (by omega), count, unread, flatGetSeg,
    if_neg (by rw [List.length_append]; omega), List.take_left, List.drop_left] at acts
  obtain ⟨b', ran, left, onward⟩ := acts
  refine ⟨b', ?_, sound.onward onward (by rw [left, unread]; simp), left⟩
  rw [getUSeg, if_neg (by omega)]
  exact ran

end Esnacc.Cxx
