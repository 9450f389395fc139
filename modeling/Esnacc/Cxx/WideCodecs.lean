import Esnacc.Ber.Utf8RoundTrips
import Esnacc.Cxx.ContentTrips
import Esnacc.Cxx.Contents

/-! BER of the C++ strings of wide characters. -/

namespace Esnacc.Cxx

open Lib

/-- A `wchar_t` has four octets. -/
def wcharSize : Nat := 4

/-- The exception at characters that a type does not have. -/
def restrictedTypeError (whatStr : String) : Thrown :=
  .snaccException whatStr 6006

/-- Read the octets of a string of wide characters. -/
def wideContent (typeName : String) (turns : Nat) (tagId : AsnTag) (elmtLen bytesDecoded : AsnLen) :
    BufM (List UInt8 × AsnLen) := do
  let tooMuch := memoryException elmtLen.toInt64 "elmtLen requests for too much data"
  if elmtLen = INDEFINITE_LEN then throw tooMuch
  else if (← length) < elmtLen then throw tooMuch
  else if tagIsCons tagId then
    let (encStr, innerBytes) ← combineConsString typeName elmtLen turns 0 []
    return (encStr, bytesDecoded + innerBytes)
  else
    let encStr ← getUSeg elmtLen
    return (encStr, bytesDecoded + elmtLen)

/-! ## Characters of a fixed size -/

/-- Put the last octets of a character, the very last one first; the answer is what is left of it. -/
def putOctetsRvs : Nat → WChar → BufM WChar
  | 0, wc => return wc
  | size + 1, wc => do
    putByteRvs wc.toUInt8
    -- A `wchar_t` has a sign.
    putOctetsRvs size (wc.toInt32 >>> 8).toUInt32

/-- Put characters of some octets each, the last character first. -/
def encWideRvs (typeName : String) (size : Nat) : List WChar → AsnLen → BufM AsnLen
  | [], len => return len
  | wc :: rest, len => do
    let wc ← putOctetsRvs size wc
    if size < wcharSize ∧ wc ≠ 0 then throw (restrictedTypeError ("Invalid " ++ typeName))
    else encWideRvs typeName size rest (len + .ofNat size)

/-- The characters of which the octets are given, a number of octets for each. -/
def wideChars (size : Nat) : Nat → List UInt8 → List WChar
  | 0, _ => []
  | count + 1, encStr =>
    (encStr.take size).foldl (fun wc octet => wc <<< 8 ||| octet.toUInt32) 0 ::
      wideChars size count (encStr.drop size)

/-- Read characters of some octets each. -/
def decWide (typeName : String) (size turns : Nat) (tagId : AsnTag) (elmtLen bytesDecoded : AsnLen) :
    BufM (List WChar × AsnLen) := do
  let (encStr, bytesDecoded) ← wideContent typeName turns tagId elmtLen bytesDecoded
  if encStr.length % size ≠ 0 then
    throw (restrictedTypeError
      ("Invalid " ++ typeName ++ " length not multiple of " ++ toString size))
  else return (wideChars size (encStr.length / size) encStr, bytesDecoded)

def BMPString.bEncContent (str : List WChar) : BufM AsnLen :=
  encWideRvs "BMPString" 2 str.reverse 0

def BMPString.bDecContent (turns : Nat) (tagId : AsnTag) (elmtLen bytesDecoded : AsnLen) :
    BufM (List WChar × AsnLen) :=
  decWide "BMPString" 2 turns tagId elmtLen bytesDecoded

def UniversalString.bEncContent (str : List WChar) : BufM AsnLen :=
  encWideRvs "UniversalString" 4 str.reverse 0

def UniversalString.bDecContent (turns : Nat) (tagId : AsnTag) (elmtLen bytesDecoded : AsnLen) :
    BufM (List WChar × AsnLen) :=
  decWide "UniversalString" 4 turns tagId elmtLen bytesDecoded

/-! ## UTF-8 -/

/-- A row of the table of sizes, with the number of bits that are the same in all first octets. -/
structure Utf8Mask extends MaskValue where
  bits : Nat

def gUTF8Masks : List Utf8Mask :=
  [⟨⟨0x80, 0x00, 0x0000007F⟩, 1⟩, ⟨⟨0xE0, 0xC0, 0x000007FF⟩, 3⟩, ⟨⟨0xF0, 0xE0, 0x0000FFFF⟩, 4⟩,
    ⟨⟨0xF8, 0xF0, 0x0001FFFF⟩, 5⟩, ⟨⟨0xFC, 0xF8, 0x03FFFFFF⟩, 6⟩, ⟨⟨0xFE, 0xFC, 0x07FFFFFF⟩, 7⟩]

/-- The octet at an index of a string, or the zero behind it. -/
def strAt (str : List UInt8) (i : UInt32) : Except Thrown UInt8 :=
  match (str ++ [0])[i.toNat]? with
  | some c => return c
  | none => throw .fault

/-- Add the bits of the octets behind a first one. -/
def addSubsequent (str : List UInt8) : Nat → UInt32 → WChar → Except Thrown (WChar × UInt32)
  | 0, i, tmp => return (tmp, i)
  | j + 1, i, tmp => do
    let c ← strAt str i
    if c &&& 0xC0 ≠ 0x80 then throw (restrictedTypeError "Invalid UTF-8 string")
    else addSubsequent str j (i + 1) (tmp <<< 6 ||| (c &&& 0x3F).toUInt32)

/-- Append the characters of a string from an index on. -/
def setTurns (str : List UInt8) (strLength : UInt32) :
    Nat → UInt32 → List WChar → Except Thrown (List WChar)
  | 0, _, _ => throw .outOfTurns
  | turns + 1, i, chars =>
    if i < strLength then do
      let c ← strAt str i
      let j := gUTF8Masks.findIdx fun m => m.mask &&& c == m.value
      match gUTF8Masks[j]? with
      | none => throw (restrictedTypeError "Invalid UTF-8 string")
      | some m =>
        if strLength ≤ i + .ofNat j then throw (restrictedTypeError "Invalid UTF-8 string")
        else if wcharSize * 8 < ((j * 6 : Nat) - (m.bits : Int)).natAbs then
          throw (restrictedTypeError "UTF-8 character too large for wchar_t")
        else do
          let (tmp, i) ← addSubsequent str j (i + 1) (~~~m.mask &&& c).toUInt32
          setTurns str strLength turns i (chars ++ [tmp])
    else return chars

/-- WideAsnString::set: the characters of a string, given up to its zero. -/
def setWide (str : List UInt8) : Except Thrown (List WChar) :=
  setTurns str (.ofNat str.length) (str.length + 1) 0 []

/-- The octets behind the first one of a character, and what is left of it. -/
def subsequentOctets : Nat → WChar → WChar × List UInt8
  | 0, temp_wchar => (temp_wchar, [])
  | y + 1, temp_wchar =>
    -- No character of a size has the sign bit.
    let (left, octets) := subsequentOctets y (temp_wchar >>> 6)
    (left, octets ++ [(0x80 ||| temp_wchar &&& 0x3F).toUInt8])

/-- The octets of characters. -/
def getAsUTF8 : List WChar → Except Thrown (List UInt8)
  | [] => return []
  | wc :: rest =>
    let j := gUTF8Masks.findIdx fun m => wc.toUInt64 ≤ m.maxCharValue
    match gUTF8Masks[j]? with
    | none => throw (restrictedTypeError "Invalid wide character")
    | some m => do
      let (temp_wchar, octets) := subsequentOctets j wc
      return (m.value ||| ~~~m.mask &&& temp_wchar.toUInt8) :: octets ++ (← getAsUTF8 rest)

def UTF8String.bEncContent (str : List WChar) : BufM AsnLen := do
  let utf8 ← ofExcept (getAsUTF8 str)
  putSegRvs utf8
  return .ofNat utf8.length

def UTF8String.bDecContent (turns : Nat) (tagId : AsnTag) (elmtLen bytesDecoded : AsnLen) :
    BufM (List WChar × AsnLen) := do
  let (encStr, bytesDecoded) ← wideContent "UTF8String" turns tagId elmtLen bytesDecoded
  -- The octets are handed on as a C string.
  let str ← ofExcept (setWide (encStr.takeWhile (· != 0)))
  return (str, bytesDecoded)

/-! ## Octets of primitive contents -/

/-- The octets of primitive contents are read as they are. -/
theorem wideContent_reads (typeName : String) (turns : Nat) {tagId : AsnTag}
    (primitive : tagIsCons tagId = false) {b : AsnBuf} {octets data : List UInt8} (sound : b.Sound)
    (unread : b.unread = octets ++ data) (n : AsnLen) :
    ∃ b', (wideContent typeName turns tagId (.ofNat octets.length) n).run b =
      .ok (octets, n + .ofNat octets.length) b' ∧ b'.unread = data := by
  have fits := sound.fits
  have within := congrArg List.length unread
  rw [List.length_append] at within
  have count : (UInt64.ofNat octets.length).toNat = octets.length :=
    UInt64.toNat_ofNat_of_lt' (by rw [UInt64.size]; omega)
  obtain ⟨b1, measured, left, onward⟩ := sound.length_acts
  have sound1 : b1.Sound := sound.onward onward (by rw [left])
  have known : UInt64.ofNat octets.length ≠ INDEFINITE_LEN := by
    intro endless
    have top : INDEFINITE_LEN.toNat = 18446744073709551615 := rfl
    rw [endless, top] at count
    omega
  have enough : ¬ UInt64.ofNat b.unread.length < UInt64.ofNat octets.length := by
    rw [UInt64.lt_iff_toNat_lt, sound.toNat_length, count]
    omega
  obtain ⟨b2, read, -, left'⟩ := getUSeg_append sound1 (left.trans unread)
  refine ⟨b2, ?_, left'⟩
  rw [wideContent, if_neg known, run_bind_of_ok measured, if_neg enough, if_neg (by simp [primitive]),
    run_bind_of_ok read]
  rfl

/-! ## Round trips of a fixed size -/

/-- The last octets of a character. -/
@[grind =] def wideOctets : Nat → WChar → List UInt8
  | 0, _ => []
  | size + 1, wc => wideOctets size (wc >>> 8) ++ [wc.toUInt8]

@[simp] theorem length_wideOctets (size : Nat) (wc : WChar) :
    (wideOctets size wc).length = size := by
  induction size generalizing wc with
  | zero => rfl
  | succ size ih => rw [wideOctets, List.length_append, ih, List.length_singleton]

theorem toNat_shiftRight_eight (wc : WChar) : (wc >>> 8).toNat = wc.toNat / 256 := by
  rw [UInt32.toNat_shiftRight, Nat.shiftRight_eq_div_pow]
  rfl

/-- The octets of a character are the digits of its number. -/
theorem ofOctets_wideOctets (size : Nat) (wc : WChar) :
    ofOctets (wideOctets size wc) = wc.toNat % 256 ^ size := by
  induction size generalizing wc with
  | zero => simp [wideOctets, Nat.mod_one]
  | succ size ih =>
    have digits : wc.toNat % 256 ^ (size + 1) =
        wc.toNat % 256 + 256 * (wc.toNat / 256 % 256 ^ size) := by
      rw [pow_succ', Nat.mod_mul]
    rw [wideOctets, ofOctets_append, ih, toNat_shiftRight_eight, ofOctets_cons, ofOctets_nil,
      UInt32.toNat_toUInt8, digits]
    simp only [List.length_nil, List.length_singleton]
    omega

theorem shiftRight_of_lt {wc : WChar} (small : wc.toNat < 2 ^ 31) :
    (wc.toInt32 >>> 8).toUInt32 = wc >>> 8 := by
  have clear : wc.toBitVec.msb = false := by
    rw [BitVec.msb_eq_false_iff_two_mul_lt]
    change 2 * wc.toNat < _
    omega
  apply UInt32.eq_of_toBitVec_eq
  change wc.toBitVec.sshiftRight 8 = _
  rw [BitVec.sshiftRight_eq_of_msb_false clear]
  rfl

/-- The last octets of a character are put in front of the data. -/
theorem putOctetsRvs_writes (size : Nat) {wc : WChar} (small : wc.toNat < 2 ^ 31) {b : AsnBuf}
    {data : List UInt8} (written : b.Written data) :
    ∃ left b', (putOctetsRvs size wc).run b = .ok left b' ∧ left.toNat = wc.toNat / 256 ^ size ∧
      b'.Written (wideOctets size wc ++ data) := by
  induction size generalizing wc b data with
  | zero => exact ⟨wc, b, rfl, by rw [pow_zero, Nat.div_one], written⟩
  | succ size ih =>
    obtain ⟨mid, put, wrote⟩ := written.putByteRvs wc.toUInt8
    have ran : (putByteRvs wc.toUInt8).run b = .ok () mid := by
      apply run_onBuf_of_ok
      rw [put]
      rfl
    have smaller : (wc >>> 8).toNat < 2 ^ 31 := by
      rw [toNat_shiftRight_eight]
      omega
    obtain ⟨left, b', ranRest, value, last⟩ := ih smaller wrote
    refine ⟨left, b', ?_, ?_, ?_⟩
    · rw [putOctetsRvs, run_bind_of_ok ran, shiftRight_of_lt small, ranRest]
    · rw [value, toNat_shiftRight_eight, Nat.div_div_eq_div_mul, pow_succ']
    · rwa [wideOctets, List.append_assoc]

/-- A character that has octets enough. -/
def FitsWide (size : Nat) (wc : WChar) : Prop :=
  wc.toNat < 2 ^ 31 ∧ wc.toNat < 256 ^ size

/-- Characters that have octets enough are put in front of the data. -/
theorem encWideRvs_writes (typeName : String) (size : Nat) {rvs : List WChar}
    (fit : ∀ wc ∈ rvs, FitsWide size wc) {b : AsnBuf} {data : List UInt8} (written : b.Written data)
    (len : AsnLen) :
    ∃ b', (encWideRvs typeName size rvs len).run b =
        .ok (len + .ofNat (rvs.reverse.flatMap (wideOctets size)).length) b' ∧
      b'.Written (rvs.reverse.flatMap (wideOctets size) ++ data) := by
  induction rvs generalizing b data len with
  | nil =>
    have none : len + UInt64.ofNat 0 = len := UInt64.add_zero len
    exact ⟨b, by rw [List.reverse_nil, List.flatMap_nil, List.length_nil, none]; rfl, written⟩
  | cons wc rest ih =>
    obtain ⟨⟨small, short⟩, fit⟩ := List.forall_mem_cons.1 fit
    obtain ⟨left, mid, put, value, wrote⟩ := putOctetsRvs_writes size small written
    have none : ¬ (size < wcharSize ∧ left ≠ 0) := by
      rintro ⟨-, some⟩
      apply some
      rw [← UInt32.toNat_inj, value, Nat.div_eq_of_lt short]
      rfl
    obtain ⟨b', ran, last⟩ := ih fit wrote (len + .ofNat size)
    have split : (wc :: rest).reverse.flatMap (wideOctets size) =
        rest.reverse.flatMap (wideOctets size) ++ wideOctets size wc := by
      rw [List.reverse_cons, List.flatMap_append, List.flatMap_singleton]
    refine ⟨b', ?_, ?_⟩
    · rw [encWideRvs, run_bind_of_ok put, if_neg none, ran, split, List.length_append,
        length_wideOctets, Nat.add_comm _ size, UInt64.ofNat_add, UInt64.add_assoc]
    · rwa [split, List.append_assoc]

/-- Octets shifted into a word are the low digits of a number. -/
theorem foldl_octets (octets : List UInt8) (acc : Nat) :
    octets.foldl (fun (wc : WChar) octet => wc <<< 8 ||| octet.toUInt32) (UInt32.ofNat acc) =
      UInt32.ofNat (acc * 256 ^ octets.length + ofOctets octets) := by
  induction octets generalizing acc with
  | nil => simp
  | cons c octets ih =>
    have step : UInt32.ofNat acc <<< 8 ||| c.toUInt32 = UInt32.ofNat (256 * acc + c.toNat) := by
      have digit : c.toNat % 2 ^ 32 = c.toNat := Nat.mod_eq_of_lt (by have := c.toNat_lt; omega)
      apply UInt32.toNat_inj.mp
      rw [UInt32.toNat_or, UInt32.toNat_shiftLeft, UInt8.toNat_toUInt32, UInt32.toNat_ofNat',
        UInt32.toNat_ofNat', ← shiftLeft_or_octet, Nat.or_mod_two_pow, digit]
      change (acc % 2 ^ 32) <<< 8 % 2 ^ 32 ||| _ = _
      rw [Nat.shiftLeft_eq, Nat.shiftLeft_eq, Nat.mod_mul_mod]
    rw [List.foldl_cons, step, ih, ofOctets_cons, List.length_cons, pow_succ']
    congr 1
    ring

/-- Characters are got back from their octets. -/
theorem wideChars_flatMap (size : Nat) {str : List WChar} (fit : ∀ wc ∈ str, FitsWide size wc) :
    wideChars size str.length (str.flatMap (wideOctets size)) = str := by
  induction str with
  | nil => rfl
  | cons wc rest ih =>
    obtain ⟨⟨-, short⟩, fit⟩ := List.forall_mem_cons.1 fit
    have front := length_wideOctets size wc
    have first := foldl_octets (wideOctets size wc) 0
    rw [ofOctets_wideOctets, Nat.mod_eq_of_lt short, Nat.zero_mul, Nat.zero_add,
      UInt32.ofNat_toNat] at first
    rw [List.length_cons, wideChars, List.flatMap_cons, List.take_left' front,
      List.drop_left' front, ih fit]
    exact congrArg (· :: rest) first

theorem length_flatMap_wideOctets (size : Nat) (str : List WChar) :
    (str.flatMap (wideOctets size)).length = str.length * size := by
  rw [List.length_flatMap]
  simp

/-- Characters that have octets enough make the trip. -/
theorem wide_trips (typeName : String) {size : Nat} (some : 0 < size) (turns : Nat) {tagId : AsnTag}
    (primitive : tagIsCons tagId = false) {str : List WChar} (fit : ∀ wc ∈ str, FitsWide size wc) :
    ContentTrips (encWideRvs typeName size str.reverse 0) (decWide typeName size turns tagId) str := by
  have writes : WritesFront (encWideRvs typeName size str.reverse 0)
      (str.flatMap (wideOctets size)) := by
    intro b data written
    obtain ⟨b', ran, wrote⟩ := encWideRvs_writes typeName size
      (fun wc isIn => fit wc (List.mem_reverse.1 isIn)) written 0
    rw [List.reverse_reverse] at ran wrote
    exact ⟨b', by rw [ran, UInt64.zero_add], wrote⟩
  refine writes.trips fun b data n sound unread => ?_
  obtain ⟨b', ran, left⟩ := wideContent_reads typeName turns primitive sound unread n
  refine ⟨b', ?_, left⟩
  have count := length_flatMap_wideOctets size str
  have whole : ¬ (str.flatMap (wideOctets size)).length % size ≠ 0 := by
    rw [count, Nat.mul_mod_left]
    exact not_not.2 rfl
  rw [decWide, run_bind_of_ok ran]
  dsimp only
  rw [if_neg whole, count, Nat.mul_div_cancel _ some, wideChars_flatMap size fit]
  rfl

end Esnacc.Cxx
