import Esnacc.Cxx.PerParts
import Esnacc.Cxx.RealTrips

/-! PER of C++ values whose contents follow a length of one octet, and which of them come back. -/

namespace Esnacc.Cxx

open Lib

/-! ## Object identifiers -/

/-- Put an object identifier into a bit buffer; the number of bits is returned. -/
def AsnRelativeOid.pEnc (x : AsnRelativeOid) : BitsM UInt64 := do
  let len ← pEncDefLenTo127 x.oid.length
  let len := len + (← putAlignment)
  let _ ← putSeg x.oid (x.oid.length * 8)
  return len + .ofNat (x.oid.length * 8)

/-! ## Real numbers -/

/-- Run a routine on a buffer of its own. -/
def onTempBuf {α : Type} (x : BufM α) : Except Thrown α :=
  match x.run .empty with
  | .ok r _ => .ok r
  | .error thrown _ => .error thrown

namespace AsnReal

/-- Put a real number into a bit buffer, as its BER contents; the number of bits is returned. -/
def pEnc {R : Type} (A : RealLib R) (value : R) : BitsM UInt64 := do
  let (templen, seg) ← ofExcept (onTempBuf do
    let templen ← bEncContent A value
    let seg ← getSeg templen.toInt64
    return (templen, seg))
  let len ← pEncDefLenTo127 templen.toNat
  if 0 < templen.toInt64 then
    let len := len + (← putAlignment)
    return len + (← putSeg seg (templen.toNat * 8))
  else return len

/-- Get the contents of a real number, of that many octets. -/
def getContents (lseg : Nat) (bitsDecoded : AsnLen) : BitsM (AsnReal × AsnLen) := do
  let seg ← getBits (.ofNat (lseg * 8))
  let (value, bytesDecoded) ← ofExcept (onTempBuf do
    putSegRvs (seg.take lseg)
    bDecContent (.ofNat lseg) 0)
  return (value, bitsDecoded + bytesDecoded * 8)

/-- Get a real number from a bit buffer. -/
def pDec (bitsDecoded : AsnLen) : BitsM (AsnReal × AsnLen) := do
  let seg ← getBits 8
  -- The alignment is not left out where there are no contents.
  let skipped ← octetAlignRead
  getContents (seg.headD 0).toNat (bitsDecoded + (8 + .ofNat skipped))

end AsnReal

/-! ## Octets behind their length -/

/-- The bits of octets behind their length, of which there are as many as a word counts. -/
@[grind =] def octetsBits (bAlign : Bool) (pos : Nat) (octets : List UInt8) : List Bool :=
  bitsOf (.ofNat octets.length) ++ (List.replicate (padding bAlign pos) false ++
    (octets.flatMap bitsOf).take (octets.length * 8 % 2 ^ 64))

theorem octetsBits_of_lt {octets : List UInt8} (few : octets.length < 2 ^ 61) (bAlign : Bool)
    (pos : Nat) : octetsBits bAlign pos octets = bitsOf (.ofNat octets.length) ++
      (List.replicate (padding bAlign pos) false ++ octets.flatMap bitsOf) := by
  rw [octetsBits, List.take_of_length_le]
  rw [length_flatMap_bitsOf, Nat.mod_eq_of_lt (by omega)]
  omega

theorem length_octetsBits (bAlign : Bool) (pos : Nat) (octets : List UInt8) :
    (octetsBits bAlign pos octets).length =
      8 + (padding bAlign pos + octets.length * 8 % 2 ^ 64) := by
  rw [octetsBits, List.length_append, List.length_append, length_bitsOf, List.length_replicate,
    List.length_take, length_flatMap_bitsOf]
  omega

theorem AsnBufBits.Wrote.gap_eq {b b' : AsnBufBits} {c : UInt8} (wrote : b.Wrote (bitsOf c) b')
    {pos : Nat} (position : (8 - b.writeBitPos) % 8 = pos % 8) :
    b'.gap = List.replicate (padding b.bAlign pos) false := by
  have here := wrote.position
  rw [length_bitsOf] at here
  rw [gap, wrote.bAlign, padding_congr (n := pos) fun _ => by omega]

theorem pEncDefLenTo127_puts {b : AsnBufBits} (wellFormed : b.WellFormed) (len : Nat) :
    Puts (pEncDefLenTo127 len) b (bitsOf (.ofNat len)) := by
  obtain ⟨b', ran, wrote⟩ := putOctet_puts wellFormed (.ofNat len)
  refine ⟨b', ?_, wrote⟩
  rw [pEncDefLenTo127, run_bind_of_ok ran]
  rfl

/-- Octets are put behind their length and a gap. -/
theorem octets_puts {b : AsnBufBits} (wellFormed : b.WellFormed) {pos : Nat}
    (position : (8 - b.writeBitPos) % 8 = pos % 8) (octets : List UInt8) :
    Puts (do
      let len ← pEncDefLenTo127 octets.length
      let len := len + (← putAlignment)
      return len + (← putSeg octets (octets.length * 8))) b (octetsBits b.bAlign pos octets) := by
  -- The number of bits is a word, so that only its remainder counts.
  have word : putSeg octets (octets.length * 8) = putSeg octets (octets.length * 8 % 2 ^ 64) := by
    have same : UInt64.ofNat (octets.length * 8) = .ofNat (octets.length * 8 % 2 ^ 64) := by
      apply UInt64.toNat_inj.mp
      rw [UInt64.toNat_ofNat', UInt64.toNat_ofNat', Nat.mod_mod]
    unfold putSeg
    rw [same]
  have bound : octets.length * 8 % 2 ^ 64 < 2 ^ 64 := Nat.mod_lt _ (by decide)
  have length := pEncDefLenTo127_puts wellFormed octets.length
  have aligned := length.add fun b' wrote => by
    have put := putGap_puts wrote.wellFormed
    rwa [wrote.gap_eq position] at put
  have all := aligned.add fun b' wrote =>
    putSeg_puts wrote.wellFormed octets (by omega) bound
  rw [List.append_assoc, ← octetsBits] at all
  rw [word]
  simpa only [bind_assoc, pure_bind] using all

/-! ## Buffers of one card -/

/-- A buffer that was only written to, on a single card as long as that has room. -/
structure AsnBuf.OnOneCard (b : AsnBuf) (data : List UInt8) : Prop where
  written : b.Written data
  single : data.length ≤ 4096 → b.ahead.length ≤ 1

theorem AsnBuf.empty_onOneCard : empty.OnOneCard [] :=
  ⟨empty_written, fun _ => Nat.zero_le 1⟩

/-- The card that is written to next, which has room for what the first card can hold. -/
theorem AsnBuf.OnOneCard.withCard {b : AsnBuf} {data : List UInt8} (here : b.OnOneCard data)
    (few : data.length ≤ 4096) :
    ∃ c : AsnRvsBuf, b.withCard = ⟨[], [c]⟩ ∧ c.room + data.length = 4096 := by
  obtain ⟨c, rest, card, start⟩ := here.written.withCard
  obtain ⟨fresh, -, -, same⟩ := start.of_cons
  -- No card is added to the one that there is.
  have none : rest = [] := by
    have most := here.single few
    have cards := congrArg (fun b : AsnBuf => b.ahead.length) card
    rw [AsnBuf.withCard] at cards
    split at cards
    · exact List.length_eq_zero_iff.mp (Nat.succ_inj.mp cards.symm)
    · dsimp only at cards
      rw [List.length_cons] at cards
      exact List.length_eq_zero_iff.mp (by omega)
  subst none
  rw [List.flatMap_nil, List.append_nil] at same
  exact ⟨c, card, by rw [← same]; exact fresh.size⟩

theorem AsnBuf.OnOneCard.putByteRvs {b : AsnBuf} {data : List UInt8} (here : b.OnOneCard data)
    (octet : UInt8) : ∃ b', b.putByteRvs octet = .ok b' ∧ b'.OnOneCard (octet :: data) := by
  obtain ⟨b', put, wrote⟩ := here.written.putByteRvs octet
  refine ⟨b', put, wrote, fun few => ?_⟩
  rw [List.length_cons] at few
  obtain ⟨c, card, room⟩ := here.withCard (by omega)
  rw [AsnBuf.putByteRvs, card] at put
  dsimp only at put
  rw [AsnRvsBuf.sputc, if_pos (by omega)] at put
  cases put
  exact Nat.le_refl 1

theorem AsnBuf.OnOneCard.putSegRvs {b : AsnBuf} {data : List UInt8} (here : b.OnOneCard data)
    (seg : List UInt8) : ∃ b', b.putSegRvs seg = .ok b' ∧ b'.OnOneCard (seg ++ data) := by
  obtain ⟨b', put, wrote⟩ := here.written.putSegRvs seg
  refine ⟨b', put, wrote, fun few => ?_⟩
  rw [List.length_append] at few
  obtain ⟨c, card, room⟩ := here.withCard (by omega)
  rw [AsnBuf.putSegRvs, card, AsnBuf.putTurns] at put
  by_cases none : seg = []
  · rw [if_pos none] at put
    cases put
    exact Nat.le_refl 1
  · have fits : seg.length ≤ c.room := by omega
    rw [if_neg none] at put
    dsimp only at put
    rw [AsnRvsBuf.sputn, if_pos fits] at put
    dsimp only at put
    rw [Nat.sub_self, List.take_zero, if_pos rfl] at put
    cases put
    exact Nat.le_refl 1

theorem onOneCard_keptByWrites : KeptByWrites AsnBuf.OnOneCard where
  putByteRvs here := here.putByteRvs
  putSegRvs here := here.putSegRvs

/-- A card with data is read from its start, though no place to read was set. -/
theorem AsnBuf.OnOneCard.sound {b : AsnBuf} {data : List UInt8} (here : b.OnOneCard data)
    (some : data ≠ []) (few : data.length ≤ 4096) : b.Sound ∧ b.unread = data := by
  obtain ⟨written, single⟩ := here
  obtain ⟨passed, ahead⟩ := b
  have most : ahead.length ≤ 1 := single few
  have whole : ahead.flatMap AsnRvsBuf.octets = data := written.data
  obtain ⟨c, rfl⟩ : ∃ c, ahead = [c] := by
    cases ahead with
    | nil => exact absurd whole.symm some
    | cons c rest =>
      rw [List.length_cons] at most
      obtain rfl : rest = [] := List.length_eq_zero_iff.mp (by omega)
      exact ⟨c, rfl⟩
  have fresh : c.get = none := (written.fresh c List.mem_cons_self).get
  rw [List.flatMap_singleton] at whole
  have unread : AsnBuf.unread ⟨passed, [c]⟩ = data := by
    rw [AsnBuf.unread, unreadOf, List.flatMap_singleton, AsnRvsBuf.unread, fresh]
    exact whole
  refine ⟨⟨?_, ?_, ?_, ?_⟩, unread⟩
  · intro d listed area begun
    obtain rfl := List.mem_singleton.mp listed
    rw [fresh] at begun
    cases begun
  · intro d listed
    obtain rfl := List.mem_singleton.mp listed
    exact .inr (whole.symm ▸ some)
  · intro d listed
    obtain rfl := List.mem_singleton.mp listed
    rw [whole]
    omega
  · rw [unread]
    omega

theorem onTempBuf_of_ok {α : Type} {x : BufM α} {r : α} {b : AsnBuf}
    (ran : x.run .empty = .ok r b) : onTempBuf x = .ok r := by
  rw [onTempBuf, ran]

/-! ## Real numbers and their contents -/

theorem getSeg_zero (b : AsnBuf) : (getSeg 0).run b = .ok [] b := by
  have segs : (onBuf fun b => segCards b.passed b.ahead (0 : Int64).toInt.toNat).run b =
      .ok ([], 0) b := by
    obtain ⟨passed, ahead⟩ := b
    cases ahead <;> exact run_onBuf_of_ok rfl
  rw [getSeg, run_bind_of_ok segs]
  rfl

namespace AsnReal

/--
A double whose contents are written and read back as it: zero, an infinity, or one that is exact.
-/
def Carried (value : ExactReal) : Prop :=
  value = .finite 0 ∨ value = .plusInfinity ∨ value = .minusInfinity ∨
    ∃ q, value = .finite q ∧ IsDouble q ∧ q ≠ 0 ∧ Exact q

/-- Octets that a number is written as, and that are read back as it. -/
structure Contents (value : ExactReal) (octets : List UInt8) : Prop where
  few : octets.length < 128
  none : octets = [] ↔ value = .finite 0
  writes : WritesKeeping AsnBuf.OnOneCard (bEncContent exactLib value) octets
  reads : ∀ b : AsnBuf, (octets ≠ [] → b.Sound ∧ b.unread = octets) → ∃ v b',
    (bDecContent (.ofNat octets.length) 0).run b = .ok (v, .ofNat octets.length) b' ∧
      v.value exactLib = value

theorem contents_zero : Contents (.finite 0) [] where
  few := by decide
  none := iff_of_true rfl rfl
  writes b data here := ⟨b, rfl, here⟩
  reads b _ := ⟨.zero, b, rfl, rfl⟩

/-- The contents of an infinity are one octet. -/
theorem contents_infinity {value : ExactReal} {v : AsnReal} {c : UInt8}
    (number : v.value exactLib = value) (infinite : value ≠ .finite 0)
    (writes : bEncContent exactLib value = do putByteRvs c; return 1)
    (reads : ∀ b b', getByte.run b = .ok c b' → (bDecContent 1 0).run b = .ok (v, 1) b') :
    Contents value [c] where
  few := by simp
  none := iff_of_false (List.cons_ne_nil c []) infinite
  writes b data here := by
    obtain ⟨b', ran, wrote⟩ := onOneCard_keptByWrites.run_putByteRvs here c
    refine ⟨b', ?_, wrote⟩
    rw [writes, run_bind_of_ok ran]
    rfl
  reads b here := by
    obtain ⟨sound, unread⟩ := here (List.cons_ne_nil c [])
    obtain ⟨b', ran, -, -⟩ := sound.getByte_cons unread
    exact ⟨v, b', reads b b' ran, number⟩

theorem contents_plusInfinity : Contents .plusInfinity [ENC_PLUS_INFINITY] := by
  refine contents_infinity (v := .plusInfinity) rfl (by decide) rfl fun b b' ran => ?_
  have definite : (1 : AsnLen) ≠ INDEFINITE_LEN := by decide
  rw [bDecContent, if_neg (by decide), if_neg definite, run_bind_of_ok ran]
  rfl

theorem contents_minusInfinity : Contents .minusInfinity [ENC_MINUS_INFINITY] := by
  refine contents_infinity (v := .minusInfinity) rfl (by decide) rfl fun b b' ran => ?_
  have definite : (1 : AsnLen) ≠ INDEFINITE_LEN := by decide
  rw [bDecContent, if_neg (by decide), if_neg definite, run_bind_of_ok ran]
  rfl

/-- The contents of a double other than zero are its format, exponent and mantissa. -/
theorem contents_finite {q : ℚ} (double : IsDouble q) (nonzero : q ≠ 0) (exact : Exact q) :
    ∃ octets, Contents (.finite q) octets := by
  obtain ⟨digits, expLen, z, parts, -, keeping⟩ := bEncContent_writes double nonzero
  obtain ⟨octets, writes, reads⟩ := exact
  -- What is read back exactly is what is written on any buffer.
  obtain rfl := writes.unique (keeping written_keptByWrites)
  refine ⟨_, ?_, ?_, keeping onOneCard_keptByWrites, fun b here => ?_⟩
  · have few := parts.few
    have short := parts.short
    rw [List.length_cons, List.length_append, length_lowOctets]
    omega
  · exact iff_of_false (List.cons_ne_nil _ _) fun zero => nonzero (ExactReal.finite.inj zero)
  · obtain ⟨sound, unread⟩ := here (List.cons_ne_nil _ _)
    obtain ⟨v, b', ran, -, number⟩ := reads b [] 0 sound (by rw [unread, List.append_nil])
    rw [UInt64.zero_add] at ran
    exact ⟨v, b', ran, number⟩

theorem Carried.contents {value : ExactReal} (carried : Carried value) :
    ∃ octets, Contents value octets := by
  rcases carried with rfl | rfl | rfl | ⟨q, rfl, double, nonzero, exact⟩
  · exact ⟨[], contents_zero⟩
  · exact ⟨_, contents_plusInfinity⟩
  · exact ⟨_, contents_minusInfinity⟩
  · exact contents_finite double nonzero exact

variable {value : ExactReal} {octets : List UInt8}

/-- The contents are written to a buffer of their own, and read from it as a segment. -/
theorem Contents.encoded (contents : Contents value octets) :
    (onTempBuf do
      let templen ← bEncContent exactLib value
      let seg ← getSeg templen.toInt64
      return (templen, seg)) = .ok (.ofNat octets.length, octets) := by
  have few := contents.few
  obtain ⟨b, ran, wrote⟩ := contents.writes .empty [] AsnBuf.empty_onOneCard
  rw [List.append_nil] at wrote
  obtain ⟨b', got⟩ : ∃ b', (getSeg (UInt64.ofNat octets.length).toInt64).run b =
      .ok octets b' := by
    by_cases none : octets = []
    · rw [none]
      exact ⟨b, getSeg_zero b⟩
    · obtain ⟨sound, unread⟩ := wrote.sound none (by omega)
      have word : (UInt64.ofNat octets.length).toNat = octets.length :=
        UInt64.toNat_ofNat_of_lt' (by rw [UInt64.size]; omega)
      have acts := sound.getSeg_acts (UInt64.ofNat octets.length).toInt64
      rw [toNat_toInt_toInt64 (by omega), word, unread, flatGetSeg, if_neg (Nat.lt_irrefl _),
        List.take_length] at acts
      obtain ⟨b', read, -⟩ := acts
      exact ⟨b', read⟩
  apply onTempBuf_of_ok (b := b')
  rw [run_bind_of_ok ran, run_bind_of_ok got]
  rfl

theorem Contents.decoded (contents : Contents value octets) :
    ∃ v, v.value exactLib = value ∧ (onTempBuf do
      putSegRvs octets
      bDecContent (.ofNat octets.length) 0) = .ok (v, .ofNat octets.length) := by
  have few := contents.few
  obtain ⟨b, ran, wrote⟩ :=
    onOneCard_keptByWrites.run_putSegRvs AsnBuf.empty_onOneCard octets
  rw [List.append_nil] at wrote
  obtain ⟨v, b', read, number⟩ := contents.reads b fun some => wrote.sound some (by omega)
  refine ⟨v, number, onTempBuf_of_ok (b := b') ?_⟩
  rw [run_bind_of_ok ran, read]

end AsnReal

/-! ## Getting -/

/-- Get a length of one octet. -/
def getLength (bitsDecoded : AsnLen) : BitsM (Nat × AsnLen) := do
  let seg ← getBits 8
  return ((seg.headD 0).toNat, bitsDecoded + 8)

theorem getLength_gets (bAlign : Bool) (pos : Nat) (c : UInt8) :
    Gets bAlign pos (bitsOf c) getLength (· = c.toNat) := by
  intro r rest mode stands countable bitsDecoded
  obtain ⟨seg, r', ran, first, mode', behind⟩ := stands.getOctet countable
  refine ⟨c.toNat, r', ?_, rfl, mode'.trans mode, ?_⟩
  · rw [getLength, run_bind_of_ok ran, first, length_bitsOf]
    rfl
  · rwa [length_bitsOf]

/-- Octets that come next are got as they were put. -/
theorem AsnBufBits.Stands.getOctets {b : AsnBufBits} {pos : Nat} {octets : List UInt8}
    {more : List Bool} (stands : b.Stands pos (octets.flatMap bitsOf ++ more))
    (countable : (octets.flatMap bitsOf ++ more).length < 2 ^ 64) :
    ∃ seg b', (Cxx.getBits (.ofNat (octets.length * 8))).run b = .ok seg b' ∧
      seg.take octets.length = octets ∧ b'.bAlign = b.bAlign ∧
      b'.Stands (pos + octets.length * 8) more := by
  have size := length_flatMap_units length_bitsOf octets
  obtain ⟨seg, b', ran, front, mode, behind⟩ := stands.getBits countable size
  refine ⟨seg, b', ran, ?_, mode, behind⟩
  -- Octets are known by their bits.
  rw [(flatMap_take_drop length_bitsOf seg octets.length).1] at front
  exact flatMap_bitsOf_injective front

/-- Octets behind their length are got by what looks at the length first. -/
theorem Gets.behindLength {α : Type} {bAlign : Bool} {pos : Nat} {octets : List UInt8}
    (few : octets.length < 256) {next : Nat → UInt64 → BitsM (α × UInt64)} {same : α → Prop}
    (gets : ∀ pos, Gets bAlign pos (List.replicate (padding bAlign pos) false ++
      octets.flatMap bitsOf) (next octets.length) same) :
    Gets bAlign pos (octetsBits bAlign pos octets)
      (fun bitsDecoded => do
        let (lseg, bitsDecoded) ← getLength bitsDecoded
        next lseg bitsDecoded) same := by
  rw [octetsBits_of_lt (by omega)]
  apply (getLength_gets bAlign pos _).bind next
  rintro lseg rfl
  -- The length leaves the position in an octet as it was.
  have gap : padding bAlign pos =
      padding bAlign (pos + (bitsOf (.ofNat octets.length)).length) :=
    padding_congr fun _ => by rw [length_bitsOf]; omega
  rw [gap, UInt8.toNat_ofNat_of_lt' (by rw [UInt8.size]; omega)]
  exact gets _

/-- What is skipped to the next octet goes by the position alone. -/
theorem AsnBufBits.Stands.skips {b : AsnBufBits} {pos : Nat} {bits : List Bool}
    (stands : b.Stands pos bits) :
    ∃ b', Cxx.octetAlignRead.run b = .ok (padding b.bAlign pos) b' := by
  by_cases aligned : b.bAlign
  · obtain ⟨b', ran, -⟩ := octetAlignRead_read stands.wellFormed aligned
    have here := stands.position aligned
    have place := stands.wellFormed.readPos
    have gap : padding b.bAlign pos = 8 - b.readBitPos := by
      rw [padding, if_pos aligned]
      omega
    exact ⟨b', gap ▸ ran⟩
  · refine ⟨b, ?_⟩
    rw [octetAlignRead_of_not_bAlign aligned, padding, if_neg aligned]

/-! ## Real numbers that come back -/

namespace AsnReal

/-- Get the contents of a real number behind a gap. -/
def getBehindGap (lseg : Nat) (bitsDecoded : AsnLen) : BitsM (AsnReal × AsnLen) := do
  let skipped ← octetAlignRead
  getContents lseg (bitsDecoded + .ofNat skipped)

theorem pDec_eq : pDec = fun bitsDecoded => (do
    let (lseg, bitsDecoded) ← getLength bitsDecoded
    getBehindGap lseg bitsDecoded) := by
  funext bitsDecoded
  simp only [pDec, getLength, getBehindGap, bind_assoc, pure_bind, UInt64.add_assoc]

variable {value : ExactReal} {octets : List UInt8}

theorem Contents.gets (contents : Contents value octets) (bAlign : Bool) (pos : Nat) :
    Gets bAlign pos (octets.flatMap bitsOf) (getContents octets.length)
      (fun v => v.value exactLib = value) := by
  intro r rest mode stands countable bitsDecoded
  obtain ⟨seg, r', ran, front, mode', behind⟩ := stands.getOctets countable
  obtain ⟨v, number, decoded⟩ := contents.decoded
  have size := length_flatMap_units length_bitsOf octets
  refine ⟨v, r', ?_, number, mode'.trans mode, ?_⟩
  · rw [getContents, run_bind_of_ok ran, front, decoded, size, UInt64.ofNat_mul]
    rfl
  · rwa [size]

/-- Contents are put behind their length, and no gap where there are none. -/
theorem Contents.puts (contents : Contents value octets) {b : AsnBufBits}
    (wellFormed : b.WellFormed) {pos : Nat} (position : (8 - b.writeBitPos) % 8 = pos % 8) :
    Puts (pEnc exactLib value) b
      (if octets = [] then bitsOf 0 else octetsBits b.bAlign pos octets) := by
  have few := contents.few
  have word : (UInt64.ofNat octets.length).toNat = octets.length :=
    UInt64.toNat_ofNat_of_lt' (by rw [UInt64.size]; omega)
  rw [pEnc, contents.encoded]
  simp only [ofExcept_ok, pure_bind, word]
  by_cases none : octets = []
  · rw [if_pos none, none]
    have length := pEncDefLenTo127_puts wellFormed 0
    simpa using length
  · rw [if_neg none]
    have some : 0 < (UInt64.ofNat octets.length).toInt64 := by
      have same := toNat_toInt_toInt64 (n := UInt64.ofNat octets.length) (by omega)
      have positive := List.length_pos_iff.mpr none
      have zero : (0 : Int64).toInt = 0 := rfl
      rw [Int64.lt_iff_toInt_lt, zero]
      omega
    simpa only [if_pos some] using octets_puts wellFormed position octets

theorem count_of_getContents_zero {y : AsnReal} {n n' : AsnLen} {r r' : AsnBufBits}
    (ran : (getContents 0 n).run r = .ok (y, n') r') : n' = n := by
  obtain ⟨v, -, decoded⟩ := contents_zero.decoded
  rw [List.length_nil] at decoded
  rw [getContents] at ran
  obtain ⟨seg, r₁, -, last⟩ := run_bind_eq_ok.mp ran
  rw [List.take_zero, decoded, ofExcept_ok, pure_bind] at last
  obtain ⟨-, same⟩ := run_pure_eq_ok.mp last
  rw [(Prod.mk.inj same).2]
  exact UInt64.add_zero n

/-- A number makes the round trip exactly if it is not zero, or no gap could follow its length. -/
theorem roundTrips_iff_of_contents (contents : Contents value octets) (bAlign : Bool) (pos : Nat) :
    RoundTrips bAlign pos (pEnc exactLib value) pDec (fun v => v.value exactLib = value) ↔
      (value = .finite 0 → padding bAlign pos = 0) := by
  have few := contents.few
  constructor
  · rintro trips zero
    obtain rfl := contents.none.mpr zero
    obtain ⟨b, wellFormed, rfl, position, len, b₁, ran, reads⟩ := trips.got
    obtain ⟨b', put, wrote⟩ := contents.puts wellFormed position
    rw [put, if_pos rfl] at ran
    cases ran
    rw [if_pos rfl] at wrote
    have room : Countable pos (bitsOf 0) := by
      unfold Countable
      rw [length_bitsOf]
      omega
    obtain ⟨r, y, r', mode, stands, got, -, -⟩ := reads _ wrote room
    -- The decoder counts the gap, which the encoder has left out.
    rw [← List.append_nil (bitsOf 0)] at stands
    obtain ⟨lseg, r₁, rfl, mode₁, stands₁, later⟩ := (getLength_gets b.bAlign pos 0).behind mode
      stands (by simp) 0
    rw [pDec_eq, later getBehindGap, getBehindGap] at got
    obtain ⟨r₂, skips⟩ := stands₁.skips
    have none : (0 : UInt8).toNat = 0 := rfl
    rw [run_bind_of_ok skips, none] at got
    have counted := count_of_getContents_zero got
    have gap : padding r₁.bAlign (pos + (bitsOf 0).length) = padding b.bAlign pos := by
      rw [mode₁, length_bitsOf]
      exact padding_congr fun _ => by omega
    have most : padding b.bAlign pos < 8 := by
      unfold padding
      split <;> omega
    have eight : (UInt64.ofNat (bitsOf 0).length).toNat = 8 := rfl
    have numbers := congrArg UInt64.toNat counted
    rw [gap, UInt64.zero_add, UInt64.toNat_add, eight, UInt64.toNat_ofNat'] at numbers
    omega
  · intro nonzero
    apply roundTrips_of_puts
    rintro b wellFormed rfl position
    refine ⟨_, contents.puts wellFormed position, ?_⟩
    have bits : (if octets = [] then bitsOf 0 else octetsBits b.bAlign pos octets) =
        octetsBits b.bAlign pos octets := by
      by_cases none : octets = []
      · rw [if_pos none, octetsBits, nonzero (contents.none.mp none), none]
        rfl
      · rw [if_neg none]
    rw [bits, pDec_eq]
    exact Gets.behindLength (by omega) fun pos => (contents.gets b.bAlign _).align

end AsnReal

/-! ## Object identifiers that come back -/

theorem putBits_count (b : AsnBufBits) (bits : BitSegment) : (putBits b bits).2 = bits.numBits := by
  unfold putBits
  dsimp only
  split <;> rfl

namespace AsnRelativeOid

theorem pEnc_puts (x : AsnRelativeOid) {b : AsnBufBits} (wellFormed : b.WellFormed) {pos : Nat}
    (position : (8 - b.writeBitPos) % 8 = pos % 8) :
    Puts x.pEnc b (octetsBits b.bAlign pos x.oid) := by
  -- What is put last returns the number of bits that is added without it.
  have counted : ∀ (seg : List UInt8) (n : Nat) (r r' : AsnBufBits) (count : UInt64),
      (putSeg seg n).run r = .ok count r' → count = .ofNat n := by
    intro seg n r r' count ran
    rw [putSeg, run_bind_of_ok (EStateM.run_get r)] at ran
    split at ran
    · cases ran
      exact putBits_count _ _
    · cases ran
  obtain ⟨b', ran, wrote⟩ := octets_puts wellFormed position x.oid
  refine ⟨b', ?_, wrote⟩
  obtain ⟨len, b₁, first, ran₁⟩ := run_bind_eq_ok.mp ran
  obtain ⟨gap, b₂, second, ran₂⟩ := run_bind_eq_ok.mp ran₁
  obtain ⟨count, b₃, third, last⟩ := run_bind_eq_ok.mp ran₂
  rw [pEnc, run_bind_of_ok first, run_bind_of_ok second, run_bind_of_ok third, ← last,
    counted _ _ _ _ _ third]

/-- Get the octets of an object identifier behind a gap, unless there are none. -/
def getBehindGap (x : AsnRelativeOid) (lseg : Nat) (bitsDecoded : AsnLen) :
    BitsM (AsnRelativeOid × AsnLen) := do
  if 0 < lseg then
    let skipped ← octetAlignRead
    let seg ← getBits (.ofNat (lseg * 8))
    return ({ x with oid := seg.take lseg }, bitsDecoded + .ofNat skipped + .ofNat (lseg * 8))
  else return (x, bitsDecoded)

theorem pDec_eq (x : AsnRelativeOid) : x.pDec = fun bitsDecoded => (do
    let (lseg, bitsDecoded) ← getLength bitsDecoded
    x.getBehindGap lseg bitsDecoded) := by
  funext bitsDecoded
  simp only [pDec, getLength, getBehindGap, bind_assoc, pure_bind]

/-- The octets of an object identifier are got as they were put. -/
theorem contents_gets (x : AsnRelativeOid) (octets : List UInt8) (bAlign : Bool) (pos : Nat) :
    Gets bAlign pos (octets.flatMap bitsOf) (fun bitsDecoded => do
      let seg ← getBits (.ofNat (octets.length * 8))
      return (AsnRelativeOid.mk x.mIsRelative (seg.take octets.length),
        bitsDecoded + .ofNat (octets.length * 8))) (fun y => y.oid = octets) := by
  intro r rest mode stands countable bitsDecoded
  obtain ⟨seg, r', ran, front, mode', behind⟩ := stands.getOctets countable
  have size := length_flatMap_units length_bitsOf octets
  refine ⟨⟨x.mIsRelative, octets⟩, r', ?_, rfl, mode'.trans mode, ?_⟩
  · rw [run_bind_of_ok ran, front, size]
    rfl
  · rwa [size]

/-- Whether an object identifier comes back into an object, from the gap behind its length. -/
def ComesBack (x old : AsnRelativeOid) (gap : Nat) : Prop :=
  if x.oid.length % 2 ^ 61 = 0 then old.oid = x.oid ∧ gap = 0 else x.oid.length < 256

/-- An object keeps its octets behind a length of zero, and has no more than the length says. -/
theorem of_got {x y : AsnRelativeOid} {c : UInt8} {pos : Nat} {more : List Bool}
    {r r' : AsnBufBits} (stands : r.Stands pos (bitsOf c ++ more))
    (countable : (bitsOf c ++ more).length < 2 ^ 64) {len : AsnLen}
    (got : (x.pDec 0).run r = .ok (y, len) r') :
    (c = 0 → y = x ∧ len = 8) ∧ (c ≠ 0 → y.oid.length < 256) := by
  obtain ⟨lseg, r₁, rfl, -, -, later⟩ :=
    (getLength_gets r.bAlign pos c).behind rfl stands countable 0
  rw [pDec_eq, later x.getBehindGap, getBehindGap] at got
  constructor
  · rintro rfl
    obtain ⟨-, same⟩ := run_pure_eq_ok.mp got
    exact Prod.mk.inj same
  · intro some
    have positive : 0 < c.toNat :=
      Nat.pos_of_ne_zero fun zero => some (UInt8.toNat_inj.mp zero)
    rw [if_pos positive] at got
    obtain ⟨skipped, r₂, -, got₁⟩ := run_bind_eq_ok.mp got
    obtain ⟨seg, r₃, -, last⟩ := run_bind_eq_ok.mp got₁
    obtain ⟨-, same⟩ := run_pure_eq_ok.mp last
    have bound := c.toNat_lt
    rw [(Prod.mk.inj same).1, List.length_take]
    omega

/-- An object identifier makes the round trip exactly if it comes back into the object. -/
theorem roundTrips_iff_comesBack (x old : AsnRelativeOid) (bAlign : Bool) (pos : Nat) :
    RoundTrips bAlign pos x.pEnc old.pDec (fun y => y.oid = x.oid) ↔
      (Countable pos (octetsBits bAlign pos x.oid) → x.ComesBack old (padding bAlign pos)) := by
  have size := length_octetsBits bAlign pos x.oid
  have most : padding bAlign pos < 8 := by
    unfold padding
    split <;> omega
  constructor
  · intro trips room
    obtain ⟨b, wellFormed, rfl, position, len, b₁, ran, reads⟩ := trips.got
    obtain ⟨b', put, wrote⟩ := x.pEnc_puts wellFormed position
    rw [put] at ran
    cases ran
    obtain ⟨r, y, r', mode, stands, got, same, -⟩ := reads _ wrote room
    unfold Countable at room
    obtain ⟨none, some⟩ := of_got stands (by rw [← octetsBits]; omega) got
    unfold ComesBack
    by_cases zero : UInt8.ofNat x.oid.length = 0
    · -- The decoder counts the length alone.
      obtain ⟨rfl, counted⟩ := none zero
      have numbers := congrArg UInt64.toNat counted
      have eight : (8 : UInt64).toNat = 8 := rfl
      rw [UInt64.toNat_ofNat', eight] at numbers
      rw [if_pos (by omega)]
      exact ⟨same, by omega⟩
    · have few := some zero
      rw [same] at few
      have positive : x.oid.length ≠ 0 := by
        intro nothing
        exact zero (by rw [nothing]; rfl)
      rw [if_neg (by omega)]
      exact few
  · intro comesBack
    apply roundTrips_of_countable
    rintro b wellFormed rfl position
    obtain ⟨b', put, wrote⟩ := x.pEnc_puts wellFormed position
    refine ⟨_, b', _, put, wrote, fun room => ⟨rfl, ?_⟩⟩
    have back := comesBack room
    unfold ComesBack at back
    rw [pDec_eq]
    by_cases whole : x.oid.length % 2 ^ 61 = 0
    · -- Nothing is put behind the length, of which the last octet is zero.
      rw [if_pos whole] at back
      obtain ⟨same, gap⟩ := back
      have length : UInt8.ofNat x.oid.length = 0 := by
        apply UInt8.toNat_inj.mp
        rw [UInt8.toNat_ofNat', UInt8.toNat_zero]
        omega
      have bits : octetsBits b.bAlign pos x.oid = bitsOf 0 ++ [] := by
        have none : x.oid.length * 8 % 2 ^ 64 = 0 := by omega
        rw [octetsBits, length, gap, none]
        rfl
      rw [bits]
      apply (getLength_gets b.bAlign pos 0).bind old.getBehindGap
      rintro lseg rfl
      exact (gets_pure b.bAlign _ old).mono fun y kept => by rw [kept, same]
    · rw [if_neg whole] at back
      apply Gets.behindLength back fun pos => ?_
      have some : 0 < x.oid.length := by omega
      unfold getBehindGap
      simp only [if_pos some]
      exact (contents_gets old x.oid b.bAlign _).align

end AsnRelativeOid

/--
Which real numbers and object identifiers make the round trip.

A number of no contents needs a position without a gap, and so does an object identifier of none, which keeps what the object had; others come back if their length fits the octet.
-/
theorem behind_length_round_trip_iff (bAlign : Bool) (pos : Nat) :
    (∀ value, AsnReal.Carried value →
      (RoundTrips bAlign pos (AsnReal.pEnc exactLib value) AsnReal.pDec
          (fun v => v.value exactLib = value) ↔ (value = .finite 0 → padding bAlign pos = 0))) ∧
    (∀ x old : AsnRelativeOid,
      RoundTrips bAlign pos x.pEnc old.pDec (fun y => y.oid = x.oid) ↔
        (Countable pos (octetsBits bAlign pos x.oid) → x.ComesBack old (padding bAlign pos))) := by
  constructor
  · intro value carried
    obtain ⟨octets, contents⟩ := carried.contents
    exact AsnReal.roundTrips_iff_of_contents contents bAlign pos
  · intro x old
    exact x.roundTrips_iff_comesBack old bAlign pos

/-- One, and an object identifier of two octets, three bits behind the start. -/
theorem behind_length_round_trip_iff_few :
    RoundTrips true 3 (AsnReal.pEnc exactLib (.finite 1)) AsnReal.pDec
        (fun v => v.value exactLib = .finite 1) ∧
      RoundTrips true 3 (AsnRelativeOid.mk false [42, 3]).pEnc (AsnRelativeOid.mk false []).pDec
        (fun y => y.oid = [42, 3]) := by
  obtain ⟨reals, oids⟩ := behind_length_round_trip_iff true 3
  have double : IsDouble 1 := ⟨1, 0, by decide, by decide, by decide, by norm_num⟩
  have octets : InOctets 1 128 (-7) := ⟨by norm_num, by decide, by decide⟩
  obtain ⟨n, z, inOctets, kept⟩ := AsnReal.exact_iff_kept double one_ne_zero
  have exact : AsnReal.Exact 1 :=
    kept.mpr (by rw [inOctets.unique one_ne_zero octets]; exact .inl (by decide))
  constructor
  · refine (reals _ (.inr (.inr (.inr ⟨1, rfl, double, one_ne_zero, exact⟩)))).mpr fun zero => ?_
    exact absurd (ExactReal.finite.inj zero) one_ne_zero
  · refine (oids ⟨false, [42, 3]⟩ ⟨false, []⟩).mpr fun _ => ?_
    rw [AsnRelativeOid.ComesBack, if_neg (by decide)]
    decide

/-- Zero, one bit behind the start: its length is put, and seven bits of a gap are counted as well. -/
theorem not_behind_length_round_trip :
    ¬ ∀ (bAlign : Bool) (pos : Nat),
      (∀ value, AsnReal.Carried value →
        RoundTrips bAlign pos (AsnReal.pEnc exactLib value) AsnReal.pDec
          (fun v => v.value exactLib = value)) ∧
      (∀ x old : AsnRelativeOid,
        RoundTrips bAlign pos x.pEnc old.pDec (fun y => y.oid = x.oid)) := by
  intro trips
  obtain ⟨reals, -⟩ := trips true 1
  have none := (AsnReal.roundTrips_iff_of_contents AsnReal.contents_zero true 1).mp
    (reals _ (.inl rfl)) rfl
  exact absurd none (by decide)

end Esnacc.Cxx
