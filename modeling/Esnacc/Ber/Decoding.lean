import Esnacc.Buf.GenBuf
import Esnacc.Lib.StateExcept
import Esnacc.Lib.Word

/-! What every BER decoder works on, the ways not to return, and the forms of lengths. -/

namespace Esnacc

open Lib

/-! ## Runs of a decoder -/

section

/-- A decoded or encoded ASN.1 length. -/
abbrev AsnLen := UInt64

/-- An encoded tag shifted to the top of a word. -/
abbrev AsnTag := UInt32

/-- The length every bit of which is set stands for the indefinite form. -/
def INDEFINITE_LEN : AsnLen := 0xFFFFFFFFFFFFFFFF

/-- One piece of a constructed string: where it lies in the buffer and how long it is. -/
structure StrStkElmt where
  str : Option Ptr
  len : UInt64

/-- The pieces collected so far, the last one first, and their length in all. -/
structure StrStk where
  stk : List StrStkElmt
  totalByteLen : UInt64

/-- A tag and length met on the way into a value, and how many octets the two took. -/
structure TagNLen where
  tag : AsnTag
  len : AsnLen
  size : UInt32
  deriving DecidableEq

/-- The file-level variables of the decoding library. -/
structure Globals where
  strStkG : StrStk
  unusedBitsG : UInt16
  /-- The entries below `nextFreeTLG`, the last one pushed first. -/
  tlStkG : List TagNLen

/-- The file-level variables as the program starts. -/
def initialGlobals : Globals :=
  { strStkG := ⟨[], 0⟩, unusedBitsG := 0, tlStkG := [] }

/-- What decoding reads and changes. -/
structure DecState (β : Type) where
  buf : β
  glob : Globals

/-- The ways a decoder does not return to its caller. -/
inductive Exit where
  /-- A jump to the caller's `env`, after reporting a text in most places. -/
  | longjmp (report : Option String) (val : Int32)
  /-- The end of the process. -/
  | exit (status : Int32)
  /-- An access outside every object of the program. -/
  | fault
  /-- The turns granted to a loop ran out. -/
  | outOfTurns
  deriving DecidableEq

/-- A decoder over one type of buffer. A jump keeps every change made before it. -/
abbrev Dec (β : Type) := EStateM Exit (DecState β)

variable {β : Type}

/-- Report an error and jump. -/
def asn1Error {α : Type} (str : String) (val : Int32) : Dec β α :=
  throw (.longjmp (some str) val)

/-- Jump without a report. -/
def longjmp {α : Type} (val : Int32) : Dec β α :=
  throw (.longjmp none val)

/--
The size of the block of zero octets that `Asn1Alloc` returns.

`Malloc` takes the size as an `int`; a negative one asks `malloc` for more than there is.
-/
def asn1Alloc (size : UInt64) : Dec β Nat :=
  if intOf size < 0 then throw (.exit 1) else return (intOf size).toInt.toNat

/-- A block of `size` zero octets with the given octets written to its start. -/
def storeInto (size : Nat) (octets : List UInt8) : Dec β (List UInt8) :=
  -- More octets than the block holds are written over whatever lies behind it.
  if octets.length ≤ size then return octets ++ List.replicate (size - octets.length) 0
  else throw .fault

@[simp] theorem run_asn1Error {α : Type} (str : String) (val : Int32) (s : DecState β) :
    (asn1Error str val : Dec β α).run s = .error (.longjmp (some str) val) s := rfl

theorem asn1Alloc_eq_ok {size : UInt64} {n : Nat} {s s' : DecState β}
    (allocated : (asn1Alloc size).run s = .ok n s') : s' = s := by
  rw [EStateM.run, asn1Alloc] at allocated
  split at allocated <;> cases allocated
  rfl

theorem asn1Alloc_size {size : UInt64} {k : Nat} {s s' : DecState β}
    (allocated : (asn1Alloc size).run s = .ok k s') : k = (intOf size).toInt.toNat := by
  rw [EStateM.run, asn1Alloc] at allocated
  split at allocated <;> cases allocated
  rfl

theorem asn1Alloc_nonneg {size : UInt64} {k : Nat} {s s' : DecState β}
    (allocated : (asn1Alloc size).run s = .ok k s') : 0 ≤ (intOf size).toInt := by
  rw [EStateM.run, asn1Alloc] at allocated
  split at allocated
  · cases allocated
  · rename_i positive
    rw [Int32.lt_iff_toInt_lt, Int32.toInt_zero] at positive
    omega

theorem asn1Alloc_eq_error {size : UInt64} {e : Exit} {s s' : DecState β}
    (failed : (asn1Alloc size).run s = .error e s') : e = .exit 1 := by
  rw [EStateM.run, asn1Alloc] at failed
  split at failed <;> cases failed
  rfl

theorem storeInto_eq_ok {size : Nat} {octets block : List UInt8} {s s' : DecState β}
    (stored : (storeInto size octets).run s = .ok block s') : s' = s := by
  rw [EStateM.run, storeInto] at stored
  split at stored <;> cases stored
  rfl

theorem storeInto_size {size : Nat} {octets block : List UInt8} {s s' : DecState β}
    (stored : (storeInto size octets).run s = .ok block s') :
    octets.length ≤ size ∧ block = octets ++ List.replicate (size - octets.length) 0 := by
  rw [EStateM.run, storeInto] at stored
  split at stored <;> cases stored
  exact ⟨‹_›, rfl⟩

theorem storeInto_eq_error {size : Nat} {octets : List UInt8} {e : Exit} {s s' : DecState β}
    (failed : (storeInto size octets).run s = .error e s') : e = .fault := by
  rw [EStateM.run, storeInto] at failed
  split at failed <;> cases failed
  rfl

variable [GenBuf β]

/-- The next octet of the buffer. -/
def bufGetByte : Dec β UInt8 := fun s =>
  .ok (GenBuf.getByte s.buf).1 { s with buf := (GenBuf.getByte s.buf).2 }

/-- The next octet of the buffer, left in place. -/
def bufPeekByte : Dec β UInt8 := fun s =>
  .ok (GenBuf.peekByte s.buf).1 { s with buf := (GenBuf.peekByte s.buf).2 }

/-- Some read has gone past the end of the data. -/
def bufReadError : Dec β Bool := fun s =>
  .ok (GenBuf.readError s.buf) s

/-- A reference to the next octets and how many it covers. -/
def bufGetSeg (lenPtr : UInt64) : Dec β (Option Ptr × UInt64) := fun s =>
  let (seg, len, buf) := GenBuf.getSeg s.buf lenPtr
  .ok (seg, len) { s with buf }

/-- Copy the next `len` octets into a fresh block of `size` zero octets. -/
def bufCopy (size : Nat) (len : UInt64) : Dec β (List UInt8) := fun s =>
  match GenBuf.copy s.buf len with
  | none => .error .fault s
  | some (octets, buf) => storeInto size octets { s with buf }

/-- Shift the next octets of the buffer into a word. -/
def shiftOctetsIn : Nat → UInt64 → Dec β UInt64
  | 0, val => return val
  | n + 1, val => do
    let byte ← bufGetByte
    shiftOctetsIn n (val <<< 8 ||| byte.toUInt64)

@[simp] theorem run_bufGetByte (s : DecState β) :
    (bufGetByte : Dec β UInt8).run s =
      .ok (GenBuf.getByte s.buf).1 { s with buf := (GenBuf.getByte s.buf).2 } := rfl

@[simp] theorem run_bufReadError (s : DecState β) :
    (bufReadError : Dec β Bool).run s = .ok (GenBuf.readError s.buf) s := rfl

@[simp] theorem run_bufGetSeg (lenPtr : UInt64) (s : DecState β) :
    (bufGetSeg lenPtr : Dec β _).run s =
      .ok ((GenBuf.getSeg s.buf lenPtr).1, (GenBuf.getSeg s.buf lenPtr).2.1)
        { s with buf := (GenBuf.getSeg s.buf lenPtr).2.2 } := rfl

theorem run_bufCopy (size : Nat) (len : UInt64) (s : DecState β) :
    (bufCopy size len : Dec β _).run s =
      match GenBuf.copy s.buf len with
      | none => .error .fault s
      | some (octets, buf) => (storeInto size octets).run { s with buf } := rfl

theorem bufCopy_size {size : Nat} {len : UInt64} {block : List UInt8} {s s' : DecState β}
    (copied : (bufCopy size len).run s = .ok block s') : block.length = size := by
  rw [run_bufCopy] at copied
  split at copied
  · cases copied
  · obtain ⟨fits, rfl⟩ := storeInto_size copied
    rw [List.length_append, List.length_replicate]
    omega

theorem bufCopy_eq_ok {size : Nat} {len : UInt64} {block : List UInt8} {s s' : DecState β}
    (copied : (bufCopy size len).run s = .ok block s') :
    ∃ octets, GenBuf.copy s.buf len = some (octets, s'.buf) := by
  rw [run_bufCopy] at copied
  split at copied
  · cases copied
  · rename_i octets buf delivered
    have same := storeInto_eq_ok copied
    exact ⟨octets, by rw [delivered, same]⟩

end

/-! ## Lengths -/

section

variable {β : Type} [GenBuf β]

/-- Read a length. -/
def bDecLen (bytesDecoded : AsnLen) : Dec β (AsnLen × AsnLen) := do
  let byte ← bufGetByte
  if ← bufReadError then asn1Error "BDecLen: ERROR - decoded past end of data\n" (-13)
  else
    let bytesDecoded := bytesDecoded + 1
    if byte < 128 then return (byte.toUInt64, bytesDecoded)
    else if byte == 0x80 then return (INDEFINITE_LEN, bytesDecoded)
    else
      let lenBytes := (byte &&& 0x7f).toNat
      if lenBytes > 8 then asn1Error "BDecLen: ERROR - length overflow\n" (-14)
      else
        let bytesDecoded := bytesDecoded + UInt64.ofNat lenBytes
        let len ← shiftOctetsIn lenBytes 0
        if ← bufReadError then asn1Error "BDecLen: ERROR - decoded past end of data\n" (-15)
        else return (len, bytesDecoded)

/-- Read a length that the distinguished rules allow: the indefinite form is refused. -/
def dDecLen (bytesDecoded : AsnLen) : Dec β (AsnLen × AsnLen) := do
  let byte ← bufGetByte
  if ← bufReadError then asn1Error "DDecLen: ERROR - decoded past end of data\n" (-13)
  else
    let bytesDecoded := bytesDecoded + 1
    if byte < 128 then return (byte.toUInt64, bytesDecoded)
    else if byte == 0x80 then asn1Error "DDecLen: ERROR - Indefinite length decoded" (-666)
    else
      let lenBytes := (byte &&& 0x7f).toNat
      if lenBytes > 8 then asn1Error "DDecLen: ERROR - length overflow\n" (-14)
      else
        let bytesDecoded := bytesDecoded + UInt64.ofNat lenBytes
        let len ← shiftOctetsIn lenBytes 0
        if ← bufReadError then asn1Error "DDecLen: ERROR - decoded past end of data\n" (-15)
        else return (len, bytesDecoded)

/-- Read an end-of-contents marker. -/
def bDecEoc (bytesDecoded : AsnLen) : Dec β AsnLen := do
  let fail : Dec β AsnLen :=
    asn1Error "BDecEoc: ERROR - non zero byte in EOC or end of data reached\n" (-16)
  -- The second octet is read only after a first one that is zero.
  if (← bufGetByte) != 0 then fail
  else if (← bufGetByte) != 0 then fail
  else if ← bufReadError then fail
  else return bytesDecoded + 2

/-- Read the second octet of an end-of-contents marker. -/
def bDec2ndEocOctet (bytesDecoded : AsnLen) : Dec β AsnLen := do
  let fail : Dec β AsnLen := asn1Error "ERROR - second octet of EOC not zero\n" (-28)
  if (← bufGetByte) != 0 then fail
  else if ← bufReadError then fail
  else return bytesDecoded + 1

end

end Esnacc
