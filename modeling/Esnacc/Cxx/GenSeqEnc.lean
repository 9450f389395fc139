import Esnacc.Cxx.GenElmt
import Esnacc.Cxx.GenEnc

/-! The C++ code that is printed to encode the contents of a SEQUENCE. -/

namespace Esnacc.Cxx

open Lib

variable {β : Type}

/-! ## Source -/

/-- A component with the routine that encodes it, which is that of the whole value where tags of its
own stand in front of it, and with the test for its default value. -/
structure EncElmt (β : Type) extends Elmt β where
  bEnc : β → BufM AsnLen
  isShort : Bool
  isDefault : β → Bool

/-- A component with the member of an object that stands for it, which is NULL where it is absent. -/
abbrev Member (β : Type) := EncElmt β × Option β

/-- PrintCxxTagAndLenEncodingCode: the tags of an untagged CHOICE are left to its own routine. -/
def EncElmt.encTags (e : EncElmt β) : List ElmtTag :=
  if e.stoleChoiceTags then [] else e.tags

/-- Encode what stands behind the tags of a component; contained values are added to the length that
the component before left. -/
def EncElmt.bEncContent (e : EncElmt β) (v : β) (l : AsnLen) : BufM AsnLen :=
  match e.decoder with
  | .octetContaining _ => return l + (← e.bEnc v)
  | .bitContaining _ => do
    let l := l + (← e.bEnc v)
    putByteRvs 0
    return l + 1
  | _ => e.bEnc v

/-- The value of a member that is encoded, where default values are left out. -/
def EncElmt.encoded (e : EncElmt β) : Option β → Option β
  | some v => if e.hasDefaultVal && e.isDefault v then none else some v
  | none => none

/-- Encode a component, with the length of the contents and that of the component. -/
def bEncMember (m : Member β) (totalLen l : AsnLen) : BufM (AsnLen × AsnLen) := do
  match m.1.encoded m.2 with
  | some v =>
    let l ← m.1.bEncContent v l
    let l ← bEncTagAndLenList m.1.isShort m.1.encTags l
    return (totalLen + l, l)
  | none => return (totalLen, l)

/-- Encode components, the last one first. -/
def bEncMembers : List (Member β) → BufM (AsnLen × AsnLen)
  | [] => return (0, 0)
  | m :: rest => do
    let (totalLen, l) ← bEncMembers rest
    bEncMember m totalLen l

/-- Encode the contents of a SEQUENCE. -/
def bEncSeqContent (members : List (Member β)) : BufM AsnLen := do
  let (totalLen, _) ← bEncMembers members
  return totalLen

/-! ## What is to be written -/

/-- What stands behind the tags of a component, of which the octets of its value are a part. -/
def EncElmt.contents (e : EncElmt β) (c : List UInt8) : List UInt8 :=
  match e.decoder with
  | .bitContaining _ => 0 :: c
  | _ => c

/-- A routine for a component writes octets for a value and reads them back. -/
structure EncElmt.Codes (e : EncElmt β) (v : β) (c : List UInt8) : Prop where
  writes : Prepends (e.bEnc v) c
  reads : match e.decoder with
    | .content bDecContent => ∀ t ∈ e.tags.getLast?,
      asnTape.Words (bDecContent t.id (.ofNat c.length)) c v
    | .choice bDecContent => ∃ tag tag1 l len d, c = tag ++ (l ++ d) ∧ TagOctets tag tag1 ∧
      (e.stoleChoiceTags → tag1 ∈ e.firstIds) ∧ LenOctets l len ∧ Fits true l d ∧
      asnTape.Words (bDecContent tag1 len) d v
    | .any bDec | .octetContaining bDec | .bitContaining bDec => asnTape.Words bDec c v

/-- The tags of a component are those that its kind of component has. -/
structure EncElmt.WellTagged (e : EncElmt β) : Prop where
  stolen : e.stoleChoiceTags → ∃ bDecContent, e.decoder = .choice bDecContent
  tagged : e.stoleChoiceTags = false → e.tags ≠ []
  proper : ∀ t ∈ e.tags, t.Proper

/-- The octets that components are to be encoded as. -/
def ContentsOctets : List (Member β) → List UInt8 → Prop
  | [], w => w = []
  | m :: rest, w =>
    match m.1.encoded m.2 with
    | some v => ∃ c d, m.1.Codes v c ∧
      w = wrap m.1.isShort m.1.encTags (m.1.contents c) ++ d ∧ ContentsOctets rest d
    | none => ContentsOctets rest w

/-- The fields that are set where the components are decoded. -/
def encodedFields (members : List (Member β)) : List (String × β) :=
  members.filterMap fun m => (m.1.encoded m.2).map (m.1.fieldName, ·)

/-! ## Lengths that fit -/

/-- The length behind a tag fits the octets for it. -/
def ElmtTag.LenFits (t : ElmtTag) (isShort : Bool) (n : Nat) : Prop :=
  if t.form ≠ some CONS ∧ isShort then n < 128 else n < 2 ^ 32

/-- All lengths in front of contents fit their octets. -/
def WrapFits (isShort : Bool) : List ElmtTag → List UInt8 → Prop
  | [], _ => True
  | t :: rest, c => t.LenFits isShort (wrap isShort rest c).length ∧ WrapFits isShort rest c

theorem ElmtTag.LenFits.lt {t : ElmtTag} {isShort : Bool} {n : Nat} (fits : t.LenFits isShort n) :
    n < 2 ^ 32 := by
  unfold ElmtTag.LenFits at fits
  split at fits <;> omega

theorem ElmtTag.LenFits.isLength {t : ElmtTag} {isShort : Bool} {n : Nat}
    (fits : t.LenFits isShort n) : IsLength (t.lenOctets isShort n) n := by
  unfold ElmtTag.LenFits at fits
  unfold ElmtTag.lenOctets
  by_cases short : t.form ≠ some CONS ∧ isShort
  · rw [if_pos short] at fits ⊢
    have octet : (UInt64.ofNat n).toUInt8.toNat = n := by
      rw [UInt64.toNat_toUInt8, UInt64.toNat_ofNat_of_lt' (by rw [UInt64.size]; omega)]
      omega
    refine .inl ⟨_, rfl, ?_, octet⟩
    rw [UInt8.lt_iff_toNat_lt, octet]
    exact fits
  · rw [if_neg short] at fits ⊢
    exact isLength_defLenOctets fits

theorem ElmtTag.LenFits.lenOctets {t : ElmtTag} {isShort : Bool} {n : Nat}
    (fits : t.LenFits isShort n) : LenOctets (t.lenOctets isShort n) (.ofNat n) := by
  refine .inr ⟨n, fits.isLength, ?_, rfl⟩
  unfold ElmtTag.lenOctets
  split
  · simp
  · exact Nat.le_trans (length_defLenOctets_le _) (by decide)

theorem ofNat_ne_indefiniteLen {n : Nat} (small : n < 2 ^ 32) :
    UInt64.ofNat n ≠ INDEFINITE_LEN := by
  intro same
  have value := congrArg UInt64.toNat same
  rw [UInt64.toNat_ofNat_of_lt' (by rw [UInt64.size]; omega)] at value
  have large : 2 ^ 32 ≤ INDEFINITE_LEN.toNat := by decide
  omega

/-! ## Reading what was wrapped -/

section

variable {isShort : Bool} {decoder : ElmtDecoder β} {keys : List (Option ElmtTag)} {c : List UInt8}
  {x : β × AsnTag}

/-- Behind a tag, the tags that are wrapped around contents are read. -/
theorem innerOctets_wrap (t : ElmtTag) (rest : List ElmtTag)
    (proper : ∀ s ∈ t :: rest, s.Proper) (fits : WrapFits isShort (t :: rest) c)
    (inner : ∀ s ∈ (t :: rest).getLast?,
      InnerOctets true decoder keys s.id (.ofNat c.length) c x) :
    InnerOctets true decoder (rest.map some ++ keys) t.id
      (.ofNat (wrap isShort rest c).length) (wrap isShort rest c) x := by
  -- The induction is on the tags behind the first one.
  induction rest generalizing t with
  | nil => exact inner t rfl
  | cons s rest ih =>
    have later := ih s (fun u isIn => proper u (List.mem_cons_of_mem t isIn)) fits.2
      (by rwa [List.getLast?_cons_cons] at inner)
    have isTag := (proper s (List.mem_cons_of_mem t List.mem_cons_self)).octets_tag
    refine ⟨s.octets, s.id, s.lenOctets isShort (wrap isShort rest c).length,
      .ofNat (wrap isShort rest c).length, wrap isShort rest c, [], ?_, isTag, ?_,
      fits.2.1.lenOctets, later, ?_, ?_⟩
    · rw [List.append_nil]
      rfl
    · exact List.contains_iff_mem.2 s.id_mem
    · exact fun _ => .inr fits.2.1.isLength
    · rw [CloseOctets, if_neg (ofNat_ne_indefiniteLen fits.1.lt)]

end

/-- A complete element of a component, with its value. -/
def Elmt.CompleteAs (e : Elmt β) (w : List UInt8) (v : β) : Prop :=
  ∃ tag tag1 c last, w = tag ++ c ∧ TagOctets tag tag1 ∧ tag1 ∈ e.firstIds ∧
    e.Octets true tag1 c (v, last)

theorem WrapFits.contents_lt {isShort : Bool} {t : ElmtTag} {rest : List ElmtTag} {c : List UInt8}
    (fits : WrapFits isShort (t :: rest) c) : c.length < 2 ^ 32 := by
  induction rest generalizing t with
  | nil => exact fits.1.lt
  | cons s rest ih => exact ih fits.2

/-- What a component's routine wrote is read behind its last tag. -/
theorem EncElmt.Codes.innerOctets {e : EncElmt β} {v : β} {c : List UInt8} (codes : e.Codes v c)
    (notBit : ∀ bDec, e.decoder ≠ .bitContaining bDec) (small : c.length < 2 ^ 32) {s : ElmtTag}
    (last : s ∈ e.tags.getLast?) :
    ∃ tag1, InnerOctets true e.decoder e.decoder.keyTag s.id (.ofNat c.length) c (v, tag1) := by
  have reads := codes.reads
  have closed : CloseOctets (.ofNat c.length) [] () := by
    rw [CloseOctets, if_neg (ofNat_ne_indefiniteLen small)]
  -- The cases are those of the routine that decodes the component.
  cases decoder : e.decoder with
  | content bDecContent =>
    simp only [decoder] at reads
    exact ⟨s.id, reads s last, rfl⟩
  | choice bDecContent =>
    simp only [decoder] at reads
    obtain ⟨tag, tag1, l, len, d, rfl, isTag, -, isLen, fits, word⟩ := reads
    refine ⟨tag1, tag, tag1, l, len, d, [], ?_, isTag, rfl, isLen, ⟨word, rfl⟩, fits, closed⟩
    rw [List.append_nil]
  | any bDec =>
    simp only [decoder] at reads
    exact ⟨s.id, ⟨c, [], (List.append_nil c).symm, reads, closed⟩, rfl⟩
  | octetContaining bDec =>
    simp only [decoder] at reads
    exact ⟨s.id, ⟨reads, fun _ => ofNat_ne_indefiniteLen small⟩, rfl⟩
  | bitContaining bDec => exact absurd decoder (notBit bDec)

/-- What a component is to be encoded as is a complete element of it. -/
theorem EncElmt.Codes.completeAs {e : EncElmt β} {v : β} {c : List UInt8} (codes : e.Codes v c)
    (wellTagged : e.WellTagged) (notBit : ∀ bDec, e.decoder ≠ .bitContaining bDec)
    (fits : WrapFits e.isShort e.encTags c) : e.CompleteAs (wrap e.isShort e.encTags c) v := by
  cases stole : e.stoleChoiceTags with
  | true =>
    -- The routine wrote the tag itself.
    obtain ⟨bDecContent, decoder⟩ := wellTagged.stolen stole
    have reads := codes.reads
    simp only [decoder] at reads
    obtain ⟨tag, tag1, l, len, d, rfl, isTag, begins, isLen, fits, word⟩ := reads
    have noTags : e.encTags = [] := by rw [encTags, if_pos stole]
    have noInner : e.innerTags = [] := by rw [Elmt.innerTags, if_pos stole]
    rw [noTags]
    refine ⟨tag, tag1, l ++ d, tag1, rfl, isTag, begins stole, l, len, d, rfl, isLen, ?_, fits⟩
    rw [noInner, decoder]
    exact ⟨word, rfl⟩
  | false =>
    have allTags : e.encTags = e.tags := by simp [encTags, stole]
    rw [allTags] at fits ⊢
    have tagged := wellTagged.tagged stole
    have proper := wellTagged.proper
    have inner : ∀ t ∈ e.tags.getLast?, c.length < 2 ^ 32 → ∃ tag1,
        InnerOctets true e.decoder e.decoder.keyTag t.id (.ofNat c.length) c (v, tag1) :=
      fun t last small => codes.innerOctets notBit small last
    have innerTags : e.innerTags = e.tags.tail.map some ++ e.decoder.keyTag := by
      simp [Elmt.innerTags, stole]
    have firstIds : e.firstIds = (e.tags.take 1).flatMap ElmtTag.ids := by
      simp [Elmt.firstIds, stole]
    cases tags : e.tags with
    | nil => exact absurd tags tagged
    | cons t rest =>
      rw [tags] at fits inner proper
      obtain ⟨s, last⟩ : ∃ s, s ∈ (t :: rest).getLast? := by
        rw [List.getLast?_eq_some_getLast (List.cons_ne_nil t rest)]
        exact ⟨_, rfl⟩
      obtain ⟨tag1, octets⟩ := inner s last fits.contents_lt
      have wrapped := innerOctets_wrap t rest proper fits fun u isLast => by
        rw [Option.mem_def] at isLast last
        rw [last, Option.some.injEq] at isLast
        rw [← isLast]
        exact octets
      refine ⟨t.octets, t.id, _, tag1, rfl, (proper t List.mem_cons_self).octets_tag, ?_,
        t.lenOctets e.isShort (wrap e.isShort rest c).length, _, wrap e.isShort rest c, rfl,
        fits.1.lenOctets, ?_, fun _ => .inr fits.1.isLength⟩
      · rw [firstIds, tags]
        simpa using t.id_mem
      · rw [innerTags, tags]
        exact wrapped

end Esnacc.Cxx
