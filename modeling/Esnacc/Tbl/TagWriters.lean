import Esnacc.Ber.Lengths
import Esnacc.Ber.Tag
import Esnacc.Lib.BigEndian
import Esnacc.Tbl.Decode

/-! The writers of tags: the macros, and the routine that goes by the word of a type table. -/

namespace Esnacc

open Lib

/-! ## Source -/

/-- The loop of `TblEncTag` over the octets of a word that are left, the last one first. -/
def tblEncTagLoop (encTag : AsnTag) : Nat → AsnLen → Enc AsnLen
  | 0, encLen => return encLen
  | left + 1, encLen => do
    let i := 3 - left
    let shifted := encTag >>> UInt32.ofNat (i * 8)
    let octet := (shifted &&& 0xff).toUInt8
    -- A zero is an octet of the tag where the octet in front of it announces more.
    if octet != 0 || (i < 2 && shifted &&& 0x8000 != 0) then
      bufPutByteRvs octet
      tblEncTagLoop encTag left (encLen + 1)
    else tblEncTagLoop encTag left encLen

/-- Encode the tag that is stored in a type table. -/
def tblEncTag (tag : TBLTag) : Enc AsnLen :=
  tblEncTagLoop tag.encTag 4 0

/-! ## The macros -/

/-- The octets that the macro for a tag code puts. -/
def tagOctets (cls form code : UInt32) : List UInt8 :=
  let first := (cls ||| form ||| 31).toUInt8
  let more (shift : UInt32) : UInt8 := ((0x80 : UInt32) ||| code >>> shift).toUInt8
  if code < 31 then [(cls ||| form ||| code).toUInt8]
  else if code < 128 then [first, code.toUInt8]
  else if code < 16384 then [first, more 7, (code &&& 0x7F).toUInt8]
  else [first, more 14, more 7, (code &&& 0x7F).toUInt8]

theorem bEncTag_writes (cls form code : UInt32) :
    (bEncTag cls form code).Writes (tagOctets cls form code) := by
  intro held
  unfold bEncTag tagOctets
  split_ifs <;> rfl

/-! ## The word of a tag -/

/-- The octet of a word that the loop puts, unless it is an idle zero. -/
def keptOctet (octet : UInt8) (announced : Prop) [Decidable announced] : List UInt8 :=
  if octet ≠ 0 ∨ announced then [octet] else []

/-- One turn of the loop puts an octet that is not idle, and counts it. -/
theorem run_tblEncTagLoop_succ {encTag : AsnTag} {left : Nat} {octet : UInt8} {announced : Prop}
    [Decidable announced] (found : (encTag >>> UInt32.ofNat ((3 - left) * 8)).toUInt8 = octet)
    (test : 3 - left < 2 ∧ encTag >>> UInt32.ofNat ((3 - left) * 8) &&& 0x8000 ≠ 0 ↔ announced)
    (encLen : AsnLen) (held : List UInt8) :
    (tblEncTagLoop encTag (left + 1) encLen).run held =
      (tblEncTagLoop encTag left (encLen + UInt64.ofNat (keptOctet octet announced).length)).run
        (keptOctet octet announced ++ held) := by
  have low : ∀ x : UInt32, (x &&& 0xff).toUInt8 = x.toUInt8 := by
    intro x
    apply UInt8.eq_of_toBitVec_eq
    apply BitVec.eq_of_getLsbD_eq
    intro i less
    interval_cases i <;> simp
  rw [tblEncTagLoop, keptOctet]
  simp only [low, found, Bool.or_eq_true, bne_iff_ne, Bool.and_eq_true, decide_eq_true_eq, test]
  split_ifs
  · rfl
  · rw [List.length_nil, show encLen + UInt64.ofNat 0 = encLen from UInt64.add_zero encLen]
    rfl

/-- The octets of a word that the loop puts. -/
def keptOctets (a b c d : UInt8) : List UInt8 :=
  keptOctet a False ++ keptOctet b False ++ keptOctet c (b &&& 0x80 ≠ 0) ++
    keptOctet d (c &&& 0x80 ≠ 0)

theorem tblEncTag_writes {tag : TBLTag} {a b c d : UInt8} (word : tag.encTag = fourOctets a b c d) :
    (tblEncTag tag).Writes (keptOctets a b c d) := by
  intro held
  obtain ⟨fourth, third, second, first⟩ := fourOctets_octets a b c d
  obtain ⟨announcedFourth, announcedThird⟩ := fourOctets_next a b c d
  rw [← word] at fourth third second first announcedFourth announcedThird
  -- The turns are those for the last octet to the first one.
  have atFourth : 3 - 3 < 2 ∧ tag.encTag >>> UInt32.ofNat ((3 - 3) * 8) &&& 0x8000 ≠ 0 ↔
      c &&& 0x80 ≠ 0 := by
    rw [show UInt32.ofNat ((3 - 3) * 8) = 0 from rfl, UInt32.shiftRight_zero, ne_eq, ne_eq,
      announcedFourth]
    simp
  have atThird : 3 - 2 < 2 ∧ tag.encTag >>> UInt32.ofNat ((3 - 2) * 8) &&& 0x8000 ≠ 0 ↔
      b &&& 0x80 ≠ 0 := by
    rw [show UInt32.ofNat ((3 - 2) * 8) = 8 from rfl, ne_eq, ne_eq, announcedThird]
    simp
  have atSecond : 3 - 1 < 2 ∧ tag.encTag >>> UInt32.ofNat ((3 - 1) * 8) &&& 0x8000 ≠ 0 ↔ False := by
    simp
  have atFirst : 3 - 0 < 2 ∧ tag.encTag >>> UInt32.ofNat ((3 - 0) * 8) &&& 0x8000 ≠ 0 ↔ False := by
    simp
  have isFourth : (tag.encTag >>> UInt32.ofNat ((3 - 3) * 8)).toUInt8 = d := by
    rw [show UInt32.ofNat ((3 - 3) * 8) = 0 from rfl, UInt32.shiftRight_zero, fourth]
  have isThird : (tag.encTag >>> UInt32.ofNat ((3 - 2) * 8)).toUInt8 = c := by
    rw [show UInt32.ofNat ((3 - 2) * 8) = 8 from rfl, third]
  have isSecond : (tag.encTag >>> UInt32.ofNat ((3 - 1) * 8)).toUInt8 = b := by
    rw [show UInt32.ofNat ((3 - 1) * 8) = 16 from rfl, second]
  have isFirst : (tag.encTag >>> UInt32.ofNat ((3 - 0) * 8)).toUInt8 = a := by
    rw [show UInt32.ofNat ((3 - 0) * 8) = 24 from rfl, first]
  rw [tblEncTag, run_tblEncTagLoop_succ isFourth atFourth, run_tblEncTagLoop_succ isThird atThird,
    run_tblEncTagLoop_succ isSecond atSecond, run_tblEncTagLoop_succ isFirst atFirst, tblEncTagLoop,
    keptOctets]
  simp only [List.length_append, UInt64.ofNat_add, List.append_assoc]
  refine Prod.ext ?_ rfl
  change (0 : UInt64) + _ + _ + _ + _ = _
  rw [UInt64.zero_add]
  ac_rfl

theorem ne_zero_of_top {c : UInt8} (top : c &&& 0x80 ≠ 0) : c ≠ 0 := by
  rintro rfl
  exact top rfl

section

variable {a b c : UInt8}

theorem keptOctets_one (first : a ≠ 0) : keptOctets a 0 0 0 = [a] := by
  simp [keptOctets, keptOctet, first]

theorem keptOctets_two (first : a ≠ 0) (some : b ≠ 0) (ends : b &&& 0x80 = 0) :
    keptOctets a b 0 0 = [a, b] := by
  simp [keptOctets, keptOctet, first, some, ends]

theorem keptOctets_three (first : a ≠ 0) (more : b &&& 0x80 ≠ 0) (ends : c &&& 0x80 = 0) :
    keptOctets a b c 0 = [a, b, c] := by
  simp [keptOctets, keptOctet, first, ne_zero_of_top more, more, ends]

theorem keptOctets_four (d : UInt8) (first : a ≠ 0) (more : b &&& 0x80 ≠ 0)
    (more' : c &&& 0x80 ≠ 0) : keptOctets a b c d = [a, b, c, d] := by
  simp [keptOctets, keptOctet, first, ne_zero_of_top more, more, more']

end

/-! ## Both writers -/

/-- A class, a form and a code that the word of a tag has room for, apart from the end of contents. -/
structure TagParts (cls form code : UInt32) : Prop where
  classIn : cls ∈ [UNIV, APPL, CNTX, PRIV]
  formIn : form ∈ [PRIM, CONS]
  codeFits : code.toNat < 2 ^ 21
  notEoc : ¬ (cls = UNIV ∧ form = PRIM ∧ code = 0)

/-- The octets are those of a word that are not idle, and are read as that word. -/
structure TagWritten (octets : List UInt8) (tag : AsnTag) : Prop where
  kept : ∃ a b c d, tag = fourOctets a b c d ∧ keptOctets a b c d = octets
  read : TagRead octets tag

/-- The octets that the macros put are those of the word, and are read as it. -/
theorem TagParts.written {cls form code : UInt32} (parts : TagParts cls form code) :
    TagWritten (tagOctets cls form code) (makeTagId cls form code) := by
  have long := long_octet cls parts.classIn form parts.formIn
  have first : (cls ||| form ||| 31).toUInt8 ≠ 0 := by
    intro zero
    rw [zero] at long
    exact absurd long (by decide)
  have more : ∀ x : UInt32, ((0x80 : UInt32) ||| x).toUInt8 &&& 0x80 ≠ 0 := by
    intro x
    rw [UInt32.toUInt8_or]
    exact top_bit_set x
  have firstWord : (cls ||| form ||| 31).toUInt8.toUInt32 <<< 24 = (cls ||| form ||| 31) <<< 24 := by
    rw [toUInt32_toUInt8, and_shiftLeft_24]
  have moreWord : ∀ x : UInt32,
      ((0x80 : UInt32) ||| x).toUInt8.toUInt32 = (0x80 : UInt32) ||| (x &&& 0xFF) := by
    intro x
    rw [UInt32.toUInt8_or, UInt8.toUInt32_or, toUInt32_toUInt8 x]
    rfl
  have below : ∀ k : UInt32, code < k ↔ code.toNat < k.toNat := fun k => UInt32.lt_iff_toNat_lt
  unfold tagOctets makeTagId makeTagIdCode
  -- The cases are those of the number of octets.
  by_cases one : code < 31
  · have less := (below 31).1 one
    have same : UInt32.ofNat (⟨code.toNat, less⟩ : Fin 31) = code := UInt32.ofNat_toNat
    obtain ⟨isShort, word⟩ := short_octet ⟨code.toNat, less⟩ cls parts.classIn form parts.formIn
    have some := short_octet_ne_zero ⟨code.toNat, less⟩ cls parts.classIn form parts.formIn
      fun eoc => parts.notEoc ⟨eoc.1, eoc.2.1, by rw [← same, eoc.2.2]; rfl⟩
    rw [same] at isShort word some
    rw [if_pos one, if_pos one, ← word]
    exact ⟨⟨_, 0, 0, 0, by simp [fourOctets], keptOctets_one some⟩,
      ⟨_, [], rfl, rfl, by rw [if_neg isShort]⟩⟩
  rw [if_neg one, if_neg one]
  by_cases two : code < 128
  · have less := (below 128).1 two
    have ends := top_bit_clear_of_lt less
    have least : ¬ code.toNat < 31 := fun h => one ((below 31).2 h)
    have some : code.toUInt8 ≠ 0 := by
      intro none
      have value := congrArg UInt8.toNat none
      rw [UInt32.toNat_toUInt8, UInt8.toNat_zero] at value
      change code.toNat < 128 at less
      omega
    rw [if_pos two, if_pos two, ← word_two cls form less]
    refine ⟨⟨_, _, 0, 0, ?_, keptOctets_two first some ends⟩, ⟨_, [_], rfl, ?_, ?_⟩⟩
    · rw [fourOctets, firstWord, toUInt32_toUInt8]
      simp
    · change _ = (cls ||| form ||| 31).toUInt8.toUInt32 <<< 24 ||| code.toUInt8.toUInt32 <<< 16
      rw [firstWord, toUInt32_toUInt8]
    · rw [if_pos long]
      exact ⟨_, [], rfl, by rw [if_neg (not_not.2 ends)]⟩
  rw [if_neg two, if_neg two]
  have ends := top_bit_clear code
  by_cases three : code < 16384
  · have word : cls <<< 24 ||| form <<< 24 ||| ((31 : UInt32) <<< 24 ||| (code &&& 0x3f80) <<< 9 |||
        (0x80 : UInt32) <<< 16 ||| (code &&& 0x7F) <<< 8) =
        (cls ||| form ||| 31).toUInt8.toUInt32 <<< 24 |||
          ((0x80 : UInt32) ||| code >>> 7).toUInt8.toUInt32 <<< 16 |||
          (code &&& (0x7F : UInt32)).toUInt8.toUInt32 <<< 8 := by
      rw [firstWord, moreWord, toUInt32_toUInt8]
      exact (word_three cls form code).symm
    rw [if_pos three, if_pos three, word]
    refine ⟨⟨_, _, _, 0, ?_, keptOctets_three first (more _) ends⟩, ⟨_, [_, _], rfl, rfl, ?_⟩⟩
    · simp [fourOctets]
    · rw [if_pos long]
      exact ⟨_, [_], rfl, by rw [if_pos (more _)]; exact ⟨_, [], rfl, by rw [if_neg (not_not.2 ends)]⟩⟩
  rw [if_neg three, if_neg three]
  have word : cls <<< 24 ||| form <<< 24 ||| ((31 : UInt32) <<< 24 ||| (code &&& 0x1fc000) <<< 2 |||
      (0x80 : UInt32) <<< 16 ||| (code &&& 0x3f80) <<< 1 ||| (0x80 : UInt32) <<< 8 |||
      (code &&& (0x7F : UInt32))) =
      (cls ||| form ||| 31).toUInt8.toUInt32 <<< 24 |||
        ((0x80 : UInt32) ||| code >>> 14).toUInt8.toUInt32 <<< 16 |||
        ((0x80 : UInt32) ||| code >>> 7).toUInt8.toUInt32 <<< 8 |||
        (code &&& (0x7F : UInt32)).toUInt8.toUInt32 := by
    rw [firstWord, moreWord, moreWord, toUInt32_toUInt8]
    exact (word_four cls form code).symm
  rw [word]
  refine ⟨⟨_, _, _, _, rfl, keptOctets_four _ first (more _) (more _)⟩, ⟨_, [_, _, _], rfl, ?_, ?_⟩⟩
  · change _ = _ ||| (code &&& (0x7F : UInt32)).toUInt8.toUInt32 <<< 0
    rw [UInt32.shiftLeft_zero]
    rfl
  · rw [if_pos long]
    refine ⟨_, [_, _], rfl, ?_⟩
    rw [if_pos (more _)]
    refine ⟨_, [_], rfl, ?_⟩
    rw [if_pos (more _)]
    exact ⟨_, [], rfl, by rw [if_neg (not_not.2 ends)]⟩

/-- The macro for a code and the writer of a type table put the same octets, which are read back as the
word of the tag, whatever follows them, and counted. -/
theorem tag_writers_agree {cls form code : UInt32} (parts : TagParts cls form code) (tag : TBLTag)
    (word : tag.encTag = makeTagId cls form code) :
    ∃ octets, (bEncTag cls form code).Writes octets ∧ (tblEncTag tag).Writes octets ∧
      (decTape (fun _ => True) SBuf.unread).Takes bDecTag octets (makeTagId cls form code) ∧
      (decTape ExpBufRef.Steady ExpBufRef.unread).Takes bDecTag octets
        (makeTagId cls form code) := by
  obtain ⟨⟨a, b, c, d, joined, kept⟩, read⟩ := parts.written
  have writes := tblEncTag_writes (word.trans joined)
  rw [kept] at writes
  exact ⟨tagOctets cls form code, bEncTag_writes cls form code, writes,
    sBuf_inOrder.bDecTag_recognises.takes read, expBuf_inOrder.bDecTag_recognises.takes read⟩

theorem tag_writers_agree_on_low_zeros :
    ∃ octets, (bEncTag CNTX CONS 16384).Writes octets ∧
      (tblEncTag ⟨.CONTEXT, 16384, .CONS, makeTagId CNTX CONS 16384⟩).Writes octets ∧
      (decTape (fun _ => True) SBuf.unread).Takes bDecTag octets (makeTagId CNTX CONS 16384) ∧
      (decTape ExpBufRef.Steady ExpBufRef.unread).Takes bDecTag octets
        (makeTagId CNTX CONS 16384) :=
  tag_writers_agree ⟨by decide, by decide, by decide, by decide⟩
    ⟨.CONTEXT, 16384, .CONS, makeTagId CNTX CONS 16384⟩ rfl

end Esnacc
