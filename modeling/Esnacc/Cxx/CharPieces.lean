import Esnacc.Cxx.ContentAccounting
import Esnacc.Cxx.Pieces
import Esnacc.Cxx.Contents

/-! What the two C++ collectors of character strings make of constructed contents. -/

namespace Esnacc.Cxx

open Lib

/--
Read pieces as both collectors do.

The wide one asks for as many octets as the element has for each piece, and the other one counts
the octets of each piece twice.
-/
def consTurns (wide : Bool) (typeName : String) (elmtLen : AsnLen) :
    Nat → AsnLen → List UInt8 → AsnLen → BufM (List UInt8 × AsnLen)
  | 0, _, _, _ => throw .outOfTurns
  | turns + 1, totalElmtsLen, str, bytesDecoded => do
    if totalElmtsLen < elmtLen ∨ elmtLen = INDEFINITE_LEN then
      let (innerTag, totalElmtsLen) ← bDecTag totalElmtsLen
      if innerTag = EOC_TAG_ID ∧ elmtLen = INDEFINITE_LEN then
        let totalElmtsLen ← bDec2ndEocOctet totalElmtsLen
        return (str, bytesDecoded + totalElmtsLen)
      else
        let (innerLen, totalElmtsLen) ← bDecLen totalElmtsLen
        if innerTag = makeTagId UNIV PRIM OCTETSTRING_TAG_CODE then
          let asked := if wide then elmtLen else innerLen
          let seg ← getUSeg asked
          consTurns wide typeName elmtLen turns (totalElmtsLen + asked) (str ++ seg)
            (bytesDecoded + if wide then 0 else asked)
        else if innerTag = makeTagId UNIV CONS OCTETSTRING_TAG_CODE then
          let (str, totalElmtsLen) ← consTurns wide typeName innerLen turns 0 str totalElmtsLen
          consTurns wide typeName elmtLen turns totalElmtsLen str bytesDecoded
        else throw (.invalidTagException typeName innerTag)
    else return (str, bytesDecoded + totalElmtsLen)

theorem bDecConsString_eq (typeName : String) (elmtLen : AsnLen) (turns : Nat) (total : AsnLen)
    (str : List UInt8) (n : AsnLen) :
    bDecConsString typeName elmtLen turns total str n =
      consTurns false typeName elmtLen turns total str n := by
  induction turns generalizing elmtLen total str n with
  | zero => rfl
  | succ turns ih =>
    simp only [bDecConsString, consTurns, ih, Bool.false_eq_true, if_false]

theorem combineConsString_eq (typeName : String) (elmtLen : AsnLen) (turns : Nat) (total : AsnLen)
    (str : List UInt8) (n : AsnLen) :
    (fun r => (r.1, n + r.2)) <$> combineConsString typeName elmtLen turns total str =
      consTurns true typeName elmtLen turns total str n := by
  induction turns generalizing elmtLen total str n with
  | zero => rfl
  | succ turns ih =>
    simp only [combineConsString, consTurns, ← ih, if_true, bind_map_left, UInt64.add_zero]
    by_cases more : total < elmtLen ∨ elmtLen = INDEFINITE_LEN
    · rw [if_pos more, if_pos more, map_bind]
      refine bind_congr fun tag => ?_
      by_cases ended : tag.1 = EOC_TAG_ID ∧ elmtLen = INDEFINITE_LEN
      · rw [if_pos ended, if_pos ended, map_bind]
        rfl
      · rw [if_neg ended, if_neg ended, map_bind]
        refine bind_congr fun len => ?_
        by_cases primitive : tag.1 = makeTagId UNIV PRIM OCTETSTRING_TAG_CODE
        · rw [if_pos primitive, if_pos primitive, map_bind]
        · rw [if_neg primitive, if_neg primitive]
          by_cases constructed : tag.1 = makeTagId UNIV CONS OCTETSTRING_TAG_CODE
          · rw [if_pos constructed, if_pos constructed, map_bind]
          · rw [if_neg constructed, if_neg constructed]
            rfl
    · rw [if_neg more, if_neg more]
      rfl

/-! ## What a run takes -/

/-- A run takes octets, puts some behind a string, and counts both, the latter if they are to be. -/
def Gathered (wide : Bool) (b b' : AsnBuf) (str str' : List UInt8) (n n' : AsnLen) : Prop :=
  ∃ k seg, Takes b b' k ∧ str' = str ++ seg ∧
    n' = n + UInt64.ofNat k + if wide then 0 else UInt64.ofNat seg.length

section

variable {wide : Bool} {b mid b' : AsnBuf} {str str1 str' : List UInt8} {n m n' : AsnLen}

theorem Gathered.trans (start : Gathered wide b mid str str1 n m)
    (later : Gathered wide mid b' str1 str' m n') : Gathered wide b b' str str' n n' := by
  obtain ⟨j, seg, takes, rfl, rfl⟩ := start
  obtain ⟨k, more, takes', rfl, rfl⟩ := later
  refine ⟨j + k, seg ++ more, takes.trans takes', List.append_assoc _ _ _, ?_⟩
  cases wide with
  | true =>
    simp only [if_true]
    rw [UInt64.add_zero, UInt64.add_zero, UInt64.add_zero, UInt64.ofNat_add, UInt64.add_assoc]
  | false =>
    simp only [Bool.false_eq_true, if_false]
    rw [List.length_append, UInt64.ofNat_add, UInt64.ofNat_add]
    ac_rfl

theorem Gathered.sound (collected : Gathered wide b b' str str' n n') : b'.Sound := by
  obtain ⟨k, seg, takes, -⟩ := collected
  exact takes.sound

theorem Counts.gathered (counts : Counts b b' n n') : Gathered wide b b' str str n n' := by
  obtain ⟨k, takes, rfl⟩ := counts
  refine ⟨k, [], takes, (List.append_nil str).symm, ?_⟩
  cases wide <;> exact (UInt64.add_zero _).symm

theorem Gathered.add_left (collected : Gathered wide b b' str str' n n') (m : AsnLen) :
    Gathered wide b b' str str' (m + n) (m + n') := by
  obtain ⟨k, seg, takes, same, rfl⟩ := collected
  exact ⟨k, seg, takes, same, by rw [UInt64.add_assoc, UInt64.add_assoc, UInt64.add_assoc]⟩

theorem Gathered.begins (collected : Gathered wide b b' str str' n n') : str <+: str' := by
  obtain ⟨k, seg, -, rfl, -⟩ := collected
  exact List.prefix_append str seg

end

theorem getUSeg_gathered (wide : Bool) {b b' : AsnBuf} (sound : b.Sound) {asked : AsnLen}
    {seg : List UInt8} (ran : (getUSeg asked).run b = .ok seg b') (str : List UInt8) (n : AsnLen) :
    Gathered wide b b' str (str ++ seg) n (n + asked + if wide then 0 else asked) := by
  obtain ⟨takes, rfl⟩ := getUSeg_takes sound ran
  have count : UInt64.ofNat asked.toNat = asked := UInt64.ofNat_toNat
  have size : (b.unread.take asked.toNat).length = asked.toNat := by
    rw [List.length_take, Nat.min_eq_left takes.within]
  refine ⟨asked.toNat, _, takes, rfl, ?_⟩
  rw [size, count]

theorem bDec2ndEocOctet_counts {b b' : AsnBuf} (sound : b.Sound) {n n' : AsnLen}
    (ran : (bDec2ndEocOctet n).run b = .ok n' b') : Counts b b' n n' := by
  rw [bDec2ndEocOctet] at ran
  obtain ⟨octet, mid, read, ran⟩ := run_bind_eq_ok.1 ran
  by_cases other : octet ≠ 0
  · rw [if_pos other] at ran
    cases ran
  · rw [if_neg other] at ran
    cases ran
    exact ⟨1, (getByte_takes sound read).1, rfl⟩

/-- Every run that completes takes octets and counts them, with the pieces where it is not wide. -/
theorem consTurns_gathered {wide : Bool} {typeName : String} {elmtLen : AsnLen} {turns : Nat}
    {total n n' : AsnLen} {str str' : List UInt8} {b b' : AsnBuf} (sound : b.Sound)
    (ran : (consTurns wide typeName elmtLen turns total str n).run b = .ok (str', n') b') :
    Gathered wide b b' str str' (n + total) n' := by
  -- The induction is on the turns; a constructed piece is a run of its own.
  induction turns generalizing elmtLen total n n' str str' b b' with
  | zero => cases ran
  | succ turns ih =>
    rw [consTurns] at ran
    by_cases more : total < elmtLen ∨ elmtLen = INDEFINITE_LEN
    · rw [if_pos more] at ran
      obtain ⟨⟨tag, total1⟩, b1, tagRead, ran⟩ := run_bind_eq_ok.1 ran
      have tagCounts := bDecTag_counts sound tagRead
      have start : Gathered wide b b1 str str (n + total) (n + total1) :=
        tagCounts.gathered.add_left n
      dsimp only at ran
      by_cases ended : tag = EOC_TAG_ID ∧ elmtLen = INDEFINITE_LEN
      · rw [if_pos ended] at ran
        obtain ⟨total2, b2, eocRead, ran⟩ := run_bind_eq_ok.1 ran
        cases ran
        exact start.trans ((bDec2ndEocOctet_counts tagCounts.sound eocRead).gathered.add_left n)
      · rw [if_neg ended] at ran
        obtain ⟨⟨innerLen, total2⟩, b2, lenRead, ran⟩ := run_bind_eq_ok.1 ran
        have lenCounts := bDecLen_counts tagCounts.sound lenRead
        have header := start.trans (lenCounts.gathered.add_left n)
        dsimp only at ran
        by_cases primitive : tag = makeTagId UNIV PRIM OCTETSTRING_TAG_CODE
        · rw [if_pos primitive] at ran
          obtain ⟨seg, b3, segRead, ran⟩ := run_bind_eq_ok.1 ran
          have piece := getUSeg_gathered wide lenCounts.sound segRead str (n + total2)
          have rest := ih piece.sound ran
          have count : ∀ asked twice : AsnLen,
              n + twice + (total2 + asked) = n + total2 + asked + twice := fun _ _ => by ac_rfl
          rw [count] at rest
          exact header.trans (piece.trans rest)
        · rw [if_neg primitive] at ran
          by_cases constructed : tag = makeTagId UNIV CONS OCTETSTRING_TAG_CODE
          · rw [if_pos constructed] at ran
            obtain ⟨⟨str1, total3⟩, b3, innerRan, ran⟩ := run_bind_eq_ok.1 ran
            have inner := ih lenCounts.sound innerRan
            rw [UInt64.add_zero] at inner
            exact header.trans ((inner.add_left n).trans (ih inner.sound ran))
          · rw [if_neg constructed] at ran
            cases ran
    · rw [if_neg more] at ran
      cases ran
      exact (Counts.refl sound _).gathered

/-! ## Pieces without octets -/

/-- The lengths of pieces have at most nine octets. -/
def Pieces.Short : Pieces → Prop
  | nil => True
  | primitive len _ rest => len.length ≤ 9 ∧ rest.Short
  | definite len inner rest => len.length ≤ 9 ∧ inner.Short ∧ rest.Short
  | indefinite inner rest => inner.Short ∧ rest.Short

/-- No piece has octets; for the wide collector, no piece is primitive at all. -/
def Pieces.Hollow (wide : Bool) : Pieces → Prop
  | nil => True
  | primitive _ octets rest => wide = false ∧ octets = [] ∧ rest.Hollow wide
  | definite _ inner rest => inner.Hollow wide ∧ rest.Hollow wide
  | indefinite inner rest => inner.Hollow wide ∧ rest.Hollow wide

theorem Pieces.hollow_false_iff (p : Pieces) : p.Hollow false ↔ p.leaves = [] := by
  induction p with
  | nil => simp [Hollow, leaves]
  | primitive len octets rest ih => simp [Hollow, leaves, ih]
  | definite len inner rest ihInner ih => simp [Hollow, leaves, ihInner, ih]
  | indefinite inner rest ihInner ih => simp [Hollow, leaves, ihInner, ih]

theorem Pieces.Hollow.leaves_eq {wide : Bool} {p : Pieces} (hollow : p.Hollow wide) :
    p.leaves = [] := by
  induction p with
  | nil => rfl
  | primitive len octets rest ih => rw [leaves, hollow.2.1, ih hollow.2.2, List.nil_append]
  | definite len inner rest ihInner ih =>
    rw [leaves, ihInner hollow.1, ih hollow.2, List.nil_append]
  | indefinite inner rest ihInner ih =>
    rw [leaves, ihInner hollow.1, ih hollow.2, List.nil_append]

/-- Pieces have no more octets in them than they have in all. -/
theorem Pieces.length_leaves_le (p : Pieces) : p.leaves.length ≤ p.encode.length := by
  induction p with
  | nil => exact Nat.le_refl 0
  | primitive len octets rest ih =>
    simp only [leaves, encode, List.length_append, List.length_cons]
    omega
  | definite len inner rest ihInner ih =>
    simp only [leaves, encode, List.length_append, List.length_cons]
    omega
  | indefinite inner rest ihInner ih =>
    simp only [leaves, encode, List.length_append, List.length_cons]
    omega

/-! ## Headers of pieces -/

section

variable {b : AsnBuf} {c : UInt8} {l data : List UInt8} {innerLen : AsnLen}

/-- The header of a piece is read. -/
theorem header_reads (sound : b.Sound) (known : c &&& 0x1F ≠ 0x1F)
    (unread : b.unread = c :: (l ++ data))
    (measured : ∀ (b' : AsnBuf) (n : AsnLen), b'.Sound → b'.unread = l ++ data →
      Acts (bDecLen n) b' (.ok (innerLen, n + UInt64.ofNat l.length), data)) (n : AsnLen) :
    ∃ b1 b2, (bDecTag n).run b = .ok (c.toUInt32 <<< 24, n + 1) b1 ∧
      (bDecLen (n + 1)).run b1 = .ok (innerLen, n + UInt64.ofNat (1 + l.length)) b2 ∧
      b2.Sound ∧ b2.unread = data := by
  obtain ⟨b1, tagRead, left, onward⟩ := bDecTag_short (n := n) sound known unread
  have sound1 : b1.Sound := sound.onward onward (by rw [left, unread]; simp)
  obtain ⟨b2, lenRead, left', onward'⟩ := measured b1 (n + 1) sound1 left
  refine ⟨b1, b2, tagRead, ?_, sound1.onward onward' (by rw [left', left]; simp), left'⟩
  rw [UInt64.ofNat_add, ← UInt64.add_assoc]
  exact lenRead

variable {form : Option Nat} {passed : Nat}

theorem Inside.goesOn {m n : Nat} (inside : Inside form n) (less : m < n) :
    UInt64.ofNat m < formLen form ∨ formLen form = INDEFINITE_LEN := by
  have more := inside.more less
  rw [RefNode.more, Bool.or_eq_true, decide_eq_true_iff, beq_iff_eq] at more
  exact more

/-- What follows the header of a primitive piece. -/
theorem consTurns_primitive (wide : Bool) (typeName : String) (sound : b.Sound)
    (unread : b.unread = 4 :: (l ++ data))
    (measured : ∀ (b' : AsnBuf) (n : AsnLen), b'.Sound → b'.unread = l ++ data →
      Acts (bDecLen n) b' (.ok (innerLen, n + UInt64.ofNat l.length), data))
    (goesOn : UInt64.ofNat passed < formLen form ∨ formLen form = INDEFINITE_LEN) (turns : Nat)
    (str : List UInt8) (n : AsnLen) :
    ∃ b2 : AsnBuf, b2.Sound ∧ b2.unread = data ∧
      (consTurns wide typeName (formLen form) (turns + 1) (UInt64.ofNat passed) str n).run b =
        (do
          let asked := if wide then formLen form else innerLen
          let seg ← getUSeg asked
          consTurns wide typeName (formLen form) turns
            (UInt64.ofNat (passed + (1 + l.length)) + asked) (str ++ seg)
            (n + if wide then 0 else asked)).run b2 := by
  obtain ⟨b1, b2, tagRead, lenRead, sound2, left⟩ :=
    header_reads sound (by decide) unread measured (UInt64.ofNat passed)
  refine ⟨b2, sound2, left, ?_⟩
  rw [consTurns, if_pos goesOn, run_bind_of_ok tagRead]
  dsimp only
  rw [if_neg (fun both => absurd both.1 (by decide)), run_bind_of_ok lenRead, ← UInt64.ofNat_add]
  dsimp only
  rw [if_pos (by decide)]

/-- What follows the header of a constructed piece. -/
theorem consTurns_constructed (wide : Bool) (typeName : String) (sound : b.Sound)
    (unread : b.unread = 0x24 :: (l ++ data))
    (measured : ∀ (b' : AsnBuf) (n : AsnLen), b'.Sound → b'.unread = l ++ data →
      Acts (bDecLen n) b' (.ok (innerLen, n + UInt64.ofNat l.length), data))
    (goesOn : UInt64.ofNat passed < formLen form ∨ formLen form = INDEFINITE_LEN) (turns : Nat)
    (str : List UInt8) (n : AsnLen) :
    ∃ b2 : AsnBuf, b2.Sound ∧ b2.unread = data ∧
      (consTurns wide typeName (formLen form) (turns + 1) (UInt64.ofNat passed) str n).run b =
        (do
          let (str, total) ← consTurns wide typeName innerLen turns 0 str
            (UInt64.ofNat (passed + (1 + l.length)))
          consTurns wide typeName (formLen form) turns total str n).run b2 := by
  obtain ⟨b1, b2, tagRead, lenRead, sound2, left⟩ :=
    header_reads sound (by decide) unread measured (UInt64.ofNat passed)
  refine ⟨b2, sound2, left, ?_⟩
  rw [consTurns, if_pos goesOn, run_bind_of_ok tagRead]
  dsimp only
  rw [if_neg (fun both => absurd both.1 (by decide)), run_bind_of_ok lenRead, ← UInt64.ofNat_add]
  dsimp only
  rw [if_neg (by decide), if_pos (by decide)]

end

/-! ## Pieces that are passed -/

/-- The octets behind the last piece of an element. -/
def Closes (form : Option Nat) (passed : Nat) (w : List UInt8) : Prop :=
  form = some passed ∧ passed < 2 ^ 64 - 1 ∧ w = [] ∨ form = none ∧ w = [0, 0]

/-- At the end of an element, the run is done. -/
theorem consTurns_closes (wide : Bool) (typeName : String) {b : AsnBuf} {form : Option Nat}
    {passed turns : Nat} {w data : List UInt8} (closes : Closes form passed w) (sound : b.Sound)
    (unread : b.unread = w ++ data) (least : 0 < turns) (str : List UInt8) (n : AsnLen) :
    ∃ b' : AsnBuf, b'.Sound ∧ b'.unread = data ∧
      (consTurns wide typeName (formLen form) turns (UInt64.ofNat passed) str n).run b =
        .ok (str, n + UInt64.ofNat (passed + w.length)) b' := by
  obtain ⟨turns, rfl⟩ := Nat.exists_eq_succ_of_ne_zero (Nat.ne_of_gt least)
  rw [consTurns]
  rcases closes with ⟨rfl, small, rfl⟩ | ⟨rfl, rfl⟩
  · -- All octets of the element are passed.
    have done : ¬ (UInt64.ofNat passed < formLen (some passed) ∨
        formLen (some passed) = INDEFINITE_LEN) := by
      rintro (less | endless)
      · exact absurd less (UInt64.lt_irrefl _)
      · exact ofNat_ne_indefinite small endless
    rw [if_neg done]
    exact ⟨b, sound, unread, rfl⟩
  · -- The first zero octet is read as a tag.
    obtain ⟨b1, tagRead, left, onward⟩ :=
      bDecTag_short (n := UInt64.ofNat passed) sound (c := 0) (by decide) unread
    have sound1 : b1.Sound := sound.onward onward (by rw [left, unread]; simp)
    obtain ⟨b2, second, left', onward'⟩ := sound1.getByte_cons left
    have eocRead : (bDec2ndEocOctet (UInt64.ofNat passed + 1)).run b1 =
        .ok (UInt64.ofNat passed + 1 + 1) b2 := by
      rw [bDec2ndEocOctet, run_bind_of_ok second]
      rfl
    refine ⟨b2, sound1.onward onward' (by rw [left', left]; simp), left', ?_⟩
    rw [if_pos (.inr rfl), run_bind_of_ok tagRead]
    dsimp only
    rw [if_pos ⟨by decide, rfl⟩, run_bind_of_ok eocRead, UInt64.ofNat_add, UInt64.add_assoc]
    rfl

theorem getUSeg_zero {b : AsnBuf} (sound : b.Sound) :
    ∃ b' : AsnBuf, (getUSeg 0).run b = .ok [] b' ∧ b'.Sound ∧ b'.unread = b.unread := by
  have acts := sound.getSeg_acts 0
  have none : flatGetSeg b.unread (0 : Int64).toInt.toNat = (.ok [], b.unread) := by
    change flatGetSeg b.unread 0 = _
    rw [flatGetSeg, if_neg (by omega), List.take_zero, List.drop_zero]
  rw [none] at acts
  obtain ⟨b', ran, left, onward⟩ := acts
  exact ⟨b', ran, sound.onward onward (by rw [left]), left⟩

/-- A run passes pieces without octets: it goes on behind them, with fewer turns. -/
def Passes (wide : Bool) (typeName : String) (form : Option Nat) (p : Pieces) : Prop :=
  ∀ ⦃b : AsnBuf⦄ ⦃passed turns : Nat⦄ ⦃data : List UInt8⦄, b.Sound →
    b.unread = p.encode ++ data → Inside form (passed + p.encode.length) →
    p.encode.length < turns → ∀ (str : List UInt8) (n : AsnLen),
      ∃ (b' : AsnBuf) (left : Nat), b'.Sound ∧ b'.unread = data ∧ turns ≤ left + p.encode.length ∧
        (consTurns wide typeName (formLen form) turns (UInt64.ofNat passed) str n).run b =
          (consTurns wide typeName (formLen form) left
            (UInt64.ofNat (passed + p.encode.length)) str n).run b'

/-- An element whose pieces are passed is read whole. -/
theorem Passes.whole {wide : Bool} {typeName : String} {form : Option Nat} {p : Pieces}
    (passes : Passes wide typeName form p) {b : AsnBuf} {turns : Nat} {w data : List UInt8}
    (sound : b.Sound) (unread : b.unread = p.encode ++ (w ++ data))
    (closes : Closes form p.encode.length w) (enough : p.encode.length < turns) (str : List UInt8)
    (n : AsnLen) :
    ∃ b' : AsnBuf, b'.Sound ∧ b'.unread = data ∧
      (consTurns wide typeName (formLen form) turns 0 str n).run b =
        .ok (str, n + UInt64.ofNat (p.encode.length + w.length)) b' := by
  have inside : Inside form (0 + p.encode.length) := by
    rintro l rfl
    rcases closes with ⟨same, small, -⟩ | ⟨absent, -⟩
    · cases same
      omega
    · cases absent
  obtain ⟨b1, left, sound1, tape, used, same⟩ := passes sound unread inside enough str n
  rw [Nat.zero_add] at same
  have least : 0 < left := by omega
  obtain ⟨b', sound', last, ran⟩ :=
    consTurns_closes wide typeName closes sound1 tape least str n
  exact ⟨b', sound', last, same.trans ran⟩

theorem measured_isLength {l data : List UInt8} {m : Nat} (isLength : IsLength l m)
    (short : l.length ≤ 9) (b : AsnBuf) (n : AsnLen) (sound : b.Sound)
    (unread : b.unread = l ++ data) :
    Acts (bDecLen n) b (.ok (UInt64.ofNat m, n + UInt64.ofNat l.length), data) :=
  bDecLen_isLength sound isLength short unread

theorem measured_indefinite {data : List UInt8} (b : AsnBuf) (n : AsnLen) (sound : b.Sound)
    (unread : b.unread = [0x80] ++ data) :
    Acts (bDecLen n) b (.ok (INDEFINITE_LEN, n + UInt64.ofNat [(0x80 : UInt8)].length), data) :=
  bDecLen_indefinite sound unread

/-- A piece that is passed, with those behind it. -/
theorem Passes.step {wide : Bool} {typeName : String} {form : Option Nat} {rest : Pieces}
    (later : Passes wide typeName form rest) {b : AsnBuf} {passed turns size : Nat}
    {data : List UInt8} {str : List UInt8} {n : AsnLen} (some : 0 < size)
    (inside : Inside form (passed + (size + rest.encode.length)))
    (enough : size + rest.encode.length < turns + 1)
    (piece : ∃ b2 : AsnBuf, b2.Sound ∧ b2.unread = rest.encode ++ data ∧
      (consTurns wide typeName (formLen form) (turns + 1) (UInt64.ofNat passed) str n).run b =
        (consTurns wide typeName (formLen form) turns (UInt64.ofNat (passed + size)) str n).run b2) :
    ∃ (b' : AsnBuf) (left : Nat), b'.Sound ∧ b'.unread = data ∧
      turns + 1 ≤ left + (size + rest.encode.length) ∧
        (consTurns wide typeName (formLen form) (turns + 1) (UInt64.ofNat passed) str n).run b =
          (consTurns wide typeName (formLen form) left
            (UInt64.ofNat (passed + (size + rest.encode.length))) str n).run b' := by
  obtain ⟨b2, sound2, tape, same⟩ := piece
  rw [← Nat.add_assoc] at inside
  have fewer : rest.encode.length < turns := by omega
  obtain ⟨b', left, sound', last, used, same'⟩ := later sound2 tape inside fewer str n
  refine ⟨b', left, sound', last, by omega, ?_⟩
  rw [same, same', Nat.add_assoc]

/-- Pieces without octets are passed. -/
theorem Pieces.passes {wide : Bool} {p : Pieces} (wellFormed : p.WellFormed) (short : p.Short)
    (hollow : p.Hollow wide) (typeName : String) (form : Option Nat) :
    Passes wide typeName form p := by
  -- The induction is on the pieces: a constructed one is a run of its own.
  induction p generalizing form with
  | nil =>
    intro b passed turns data sound unread _ _ str n
    exact ⟨b, turns, sound, unread, Nat.le_refl _, rfl⟩
  | primitive len octets rest ih =>
    intro b passed turns data sound unread inside enough str n
    obtain ⟨isLength, wellFormed⟩ := wellFormed
    obtain ⟨few, short⟩ := short
    obtain ⟨rfl, rfl, hollow⟩ := hollow
    have size : (primitive len [] rest).encode.length = 1 + len.length + rest.encode.length := by
      simp only [encode, List.length_cons, List.length_append, List.length_nil]
      omega
    rw [size] at inside enough ⊢
    obtain ⟨turns, rfl⟩ := Nat.exists_eq_succ_of_ne_zero (Nat.ne_of_gt (Nat.zero_lt_of_lt enough))
    refine (ih wellFormed short hollow form).step (by omega) inside enough ?_
    -- No octets are asked for.
    have tape : b.unread = 4 :: (len ++ (rest.encode ++ data)) := by
      rw [unread, encode]
      simp only [List.cons_append, List.append_assoc, List.nil_append]
    obtain ⟨b1, sound1, left, ran⟩ := consTurns_primitive false typeName sound tape
      (measured_isLength isLength few) (inside.goesOn (m := passed) (by omega)) turns str n
    obtain ⟨b2, read, sound2, left'⟩ := getUSeg_zero sound1
    refine ⟨b2, sound2, left'.trans left, ?_⟩
    have zero : UInt64.ofNat ([] : List UInt8).length = 0 := rfl
    rw [ran]
    simp only [Bool.false_eq_true, if_false, zero]
    rw [run_bind_of_ok read, List.append_nil, UInt64.add_zero, UInt64.add_zero]
  | definite len inner rest ihInner ih =>
    intro b passed turns data sound unread inside enough str n
    obtain ⟨isLength, wellInner, wellFormed⟩ := wellFormed
    obtain ⟨few, shortInner, short⟩ := short
    obtain ⟨hollowInner, hollow⟩ := hollow
    have size : (definite len inner rest).encode.length =
        1 + len.length + inner.encode.length + rest.encode.length := by
      simp only [encode, List.length_cons, List.length_append]
      omega
    have fits := sound.fits
    rw [unread, List.length_append, size] at fits
    rw [size] at inside enough ⊢
    obtain ⟨turns, rfl⟩ := Nat.exists_eq_succ_of_ne_zero (Nat.ne_of_gt (Nat.zero_lt_of_lt enough))
    refine (ih wellFormed short hollow form).step (by omega) inside enough ?_
    have tape : b.unread = 0x24 :: (len ++ (inner.encode ++ (rest.encode ++ data))) := by
      rw [unread, encode]
      simp only [List.cons_append, List.append_assoc]
    obtain ⟨b1, sound1, left, ran⟩ := consTurns_constructed wide typeName sound tape
      (measured_isLength isLength few) (inside.goesOn (m := passed) (by omega)) turns str n
    have deeper : inner.encode.length < turns := by omega
    obtain ⟨b2, sound2, left', ran'⟩ :=
      (ihInner wellInner shortInner hollowInner (some inner.encode.length)).whole sound1
        (w := []) left (.inl ⟨rfl, by omega, rfl⟩) deeper str
        (UInt64.ofNat (passed + (1 + len.length)))
    refine ⟨b2, sound2, left', ?_⟩
    have lengths : passed + (1 + len.length) + (inner.encode.length + ([] : List UInt8).length) =
        passed + (1 + len.length + inner.encode.length) := by
      rw [List.length_nil]
      omega
    rw [← UInt64.ofNat_add, lengths] at ran'
    rw [ran]
    exact run_bind_of_ok ran'
  | indefinite inner rest ihInner ih =>
    intro b passed turns data sound unread inside enough str n
    obtain ⟨wellInner, wellFormed⟩ := wellFormed
    obtain ⟨shortInner, short⟩ := short
    obtain ⟨hollowInner, hollow⟩ := hollow
    have size : (indefinite inner rest).encode.length =
        4 + inner.encode.length + rest.encode.length := by
      simp only [encode, List.length_cons, List.length_append]
      omega
    rw [size] at inside enough ⊢
    obtain ⟨turns, rfl⟩ := Nat.exists_eq_succ_of_ne_zero (Nat.ne_of_gt (Nat.zero_lt_of_lt enough))
    refine (ih wellFormed short hollow form).step (by omega) inside enough ?_
    have tape : b.unread = 0x24 :: ([0x80] ++ (inner.encode ++ ([0, 0] ++
        (rest.encode ++ data)))) := by
      rw [unread, encode]
      simp only [List.cons_append, List.append_assoc, List.nil_append]
    obtain ⟨b1, sound1, left, ran⟩ := consTurns_constructed wide typeName sound tape
      measured_indefinite (inside.goesOn (m := passed) (by omega)) turns str n
    have deeper : inner.encode.length < turns := by omega
    obtain ⟨b2, sound2, left', ran'⟩ :=
      (ihInner wellInner shortInner hollowInner none).whole sound1 left (.inr ⟨rfl, rfl⟩)
        deeper str (UInt64.ofNat (passed + (1 + [(0x80 : UInt8)].length)))
    refine ⟨b2, sound2, left', ?_⟩
    have lengths : passed + (1 + [(0x80 : UInt8)].length) +
        (inner.encode.length + [(0 : UInt8), 0].length) =
        passed + (4 + inner.encode.length) := by
      simp only [List.length_cons, List.length_nil]
      omega
    rw [← UInt64.ofNat_add, lengths] at ran'
    rw [ran]
    exact run_bind_of_ok ran'

/-! ## Other pieces -/

/-- A piece whose length has more than nine octets is refused. -/
theorem consTurns_long {wide : Bool} {typeName : String} {b : AsnBuf} {c : UInt8}
    {l data : List UInt8} {m turns : Nat} {form : Option Nat} {passed : Nat} (sound : b.Sound)
    (known : c &&& 0x1F ≠ 0x1F) (some : c.toUInt32 <<< 24 ≠ EOC_TAG_ID) (isLength : IsLength l m)
    (long : 9 < l.length) (unread : b.unread = c :: (l ++ data))
    (goesOn : UInt64.ofNat passed < formLen form ∨ formLen form = INDEFINITE_LEN)
    (str : List UInt8) (n : AsnLen) :
    ∃ thrown b', (consTurns wide typeName (formLen form) (turns + 1) (UInt64.ofNat passed) str n).run b
      = .error thrown b' := by
  obtain ⟨b1, tagRead, left, onward⟩ :=
    bDecTag_short (n := UInt64.ofNat passed) sound known unread
  have sound1 : b1.Sound := sound.onward onward (by rw [left, unread]; simp)
  obtain ⟨rest, b2, refused, -⟩ :=
    bDecLen_long (n := UInt64.ofNat passed + 1) sound1 isLength long left
  refine ⟨boundsException "length overflow", b2, ?_⟩
  rw [consTurns, if_pos goesOn, run_bind_of_ok tagRead]
  dsimp only
  rw [if_neg (fun both => some both.1)]
  exact run_bind_eq_error.2 (.inl refused)

theorem eq_of_begins {str str1 str' : List UInt8} (start : str <+: str1) (later : str1 <+: str')
    (same : str' = str) : str1 = str := by
  subst same
  exact later.eq_of_length_le start.length_le

/-- Other pieces without octets are refused, or octets are put together of them. -/
theorem Pieces.appends {wide : Bool} {p : Pieces} (wellFormed : p.WellFormed)
    (leaves : p.leaves = []) (other : ¬ (p.Short ∧ p.Hollow wide)) {typeName : String}
    {form : Option Nat} {b b' : AsnBuf} {passed turns : Nat} {data str str' : List UInt8}
    {n n' : AsnLen} (sound : b.Sound) (unread : b.unread = p.encode ++ data)
    (inside : Inside form (passed + p.encode.length)) (enough : p.encode.length < turns)
    (ran : (consTurns wide typeName (formLen form) turns (UInt64.ofNat passed) str n).run b =
      .ok (str', n') b') : str' ≠ str := by
  -- The induction is on the pieces: those in front of the first one that is not passed are passed.
  induction p generalizing form b b' passed turns data str str' n n' with
  | nil => exact absurd ⟨trivial, trivial⟩ other
  | primitive len octets rest ih =>
    obtain ⟨isLength, wellFormed⟩ := wellFormed
    obtain ⟨rfl, leaves⟩ := List.append_eq_nil_iff.1 leaves
    have size : (primitive len [] rest).encode.length = 1 + len.length + rest.encode.length := by
      simp only [encode, List.length_cons, List.length_append, List.length_nil]
      omega
    rw [size] at inside enough
    obtain ⟨turns, rfl⟩ := Nat.exists_eq_succ_of_ne_zero (Nat.ne_of_gt (Nat.zero_lt_of_lt enough))
    have tape : b.unread = 4 :: (len ++ (rest.encode ++ data)) := by
      rw [unread, encode]
      simp only [List.cons_append, List.append_assoc, List.nil_append]
    have goesOn := inside.goesOn (m := passed) (by omega)
    by_cases long : 9 < len.length
    · obtain ⟨thrown, last, refused⟩ := consTurns_long sound (by decide) (by decide) isLength long
        tape goesOn str n
      rw [refused] at ran
      cases ran
    · have few : len.length ≤ 9 := Nat.le_of_not_lt long
      obtain ⟨b1, sound1, left, turn⟩ := consTurns_primitive wide typeName sound tape
        (measured_isLength isLength few) goesOn turns str n
      rw [turn] at ran
      obtain ⟨seg, b2, segRead, ran⟩ := run_bind_eq_ok.1 ran
      cases wide with
      | true =>
        -- As many octets are read as the element has, and these are some.
        simp only [if_true] at segRead ran
        have seg_eq := (getUSeg_takes sound1 segRead).2
        have within := (getUSeg_takes sound1 segRead).1.within
        have rested := (consTurns_gathered (getUSeg_takes sound1 segRead).1.sound ran).begins
        have some : seg ≠ [] := by
          intro none
          have count := congrArg List.length seg_eq
          rw [none, List.length_take, Nat.min_eq_left within, List.length_nil] at count
          cases form with
          | none => exact absurd count (by decide)
          | some l =>
            obtain ⟨fits, small⟩ := inside l rfl
            have number : (formLen (some l)).toNat = l := toNat_ofNat_of_lt (by omega)
            omega
        intro same
        have longer := rested.length_le
        rw [same, List.length_append] at longer
        exact some (List.eq_nil_of_length_eq_zero (by omega))
      | false =>
        obtain ⟨b3, read, sound3, left3⟩ := getUSeg_zero sound1
        have zero : UInt64.ofNat ([] : List UInt8).length = 0 := rfl
        simp only [Bool.false_eq_true, if_false, zero] at segRead ran
        rw [read] at segRead
        cases segRead
        rw [List.append_nil, UInt64.add_zero, UInt64.add_zero] at ran
        have within : Inside form (passed + (1 + len.length) + rest.encode.length) := by
          rwa [Nat.add_assoc]
        exact ih wellFormed leaves (fun good => other ⟨⟨few, good.1⟩, rfl, rfl, good.2⟩) sound3
          (left3.trans left) within (by omega) ran
  | definite len inner rest ihInner ih =>
    obtain ⟨isLength, wellInner, wellFormed⟩ := wellFormed
    obtain ⟨leavesInner, leaves⟩ := List.append_eq_nil_iff.1 leaves
    have size : (definite len inner rest).encode.length =
        1 + len.length + inner.encode.length + rest.encode.length := by
      simp only [encode, List.length_cons, List.length_append]
      omega
    have fits := sound.fits
    rw [unread, List.length_append, size] at fits
    rw [size] at inside enough
    obtain ⟨turns, rfl⟩ := Nat.exists_eq_succ_of_ne_zero (Nat.ne_of_gt (Nat.zero_lt_of_lt enough))
    have tape : b.unread = 0x24 :: (len ++ (inner.encode ++ (rest.encode ++ data))) := by
      rw [unread, encode]
      simp only [List.cons_append, List.append_assoc]
    have goesOn := inside.goesOn (m := passed) (by omega)
    by_cases long : 9 < len.length
    · obtain ⟨thrown, last, refused⟩ := consTurns_long sound (by decide) (by decide) isLength long
        tape goesOn str n
      rw [refused] at ran
      cases ran
    · have few : len.length ≤ 9 := Nat.le_of_not_lt long
      obtain ⟨b1, sound1, left, turn⟩ := consTurns_constructed wide typeName sound tape
        (measured_isLength isLength few) goesOn turns str n
      rw [turn] at ran
      obtain ⟨⟨str1, total⟩, b2, innerRan, ran⟩ := run_bind_eq_ok.1 ran
      have deeper : inner.encode.length < turns := by omega
      have whole : Inside (some inner.encode.length) (0 + inner.encode.length) := by
        rintro l ⟨⟩
        omega
      by_cases good : inner.Short ∧ inner.Hollow wide
      · -- The pieces inside are passed, so that one of the others is not.
        obtain ⟨b3, sound3, left3, ran3⟩ :=
          (passes wellInner good.1 good.2 typeName (some inner.encode.length)).whole sound1
            (w := []) left (.inl ⟨rfl, by omega, rfl⟩) deeper str
            (UInt64.ofNat (passed + (1 + len.length)))
        have lengths : passed + (1 + len.length) +
            (inner.encode.length + ([] : List UInt8).length) =
            passed + (1 + len.length + inner.encode.length) := by
          rw [List.length_nil]
          omega
        rw [← UInt64.ofNat_add, lengths] at ran3
        cases ran3.symm.trans innerRan
        have within :
            Inside form (passed + (1 + len.length + inner.encode.length) + rest.encode.length) := by
          rwa [Nat.add_assoc]
        exact ih wellFormed leaves (fun rested => other
          ⟨⟨few, good.1, rested.1⟩, good.2, rested.2⟩) sound3 left3 within (by omega) ran
      · have begins := consTurns_gathered sound1 innerRan
        have rested := (consTurns_gathered begins.sound ran).begins
        have more := ihInner wellInner leavesInner good sound1 left whole deeper innerRan
        exact fun same => more (eq_of_begins begins.begins rested same)
  | indefinite inner rest ihInner ih =>
    obtain ⟨wellInner, wellFormed⟩ := wellFormed
    obtain ⟨leavesInner, leaves⟩ := List.append_eq_nil_iff.1 leaves
    have size : (indefinite inner rest).encode.length =
        4 + inner.encode.length + rest.encode.length := by
      simp only [encode, List.length_cons, List.length_append]
      omega
    rw [size] at inside enough
    obtain ⟨turns, rfl⟩ := Nat.exists_eq_succ_of_ne_zero (Nat.ne_of_gt (Nat.zero_lt_of_lt enough))
    have tape : b.unread = 0x24 :: ([0x80] ++ (inner.encode ++ ([0, 0] ++
        (rest.encode ++ data)))) := by
      rw [unread, encode]
      simp only [List.cons_append, List.append_assoc, List.nil_append]
    obtain ⟨b1, sound1, left, turn⟩ := consTurns_constructed wide typeName sound tape
      measured_indefinite (inside.goesOn (m := passed) (by omega)) turns str n
    rw [turn] at ran
    obtain ⟨⟨str1, total⟩, b2, innerRan, ran⟩ := run_bind_eq_ok.1 ran
    have deeper : inner.encode.length < turns := by omega
    have whole : Inside none (0 + inner.encode.length) := by
      rintro l ⟨⟩
    by_cases good : inner.Short ∧ inner.Hollow wide
    · obtain ⟨b3, sound3, left3, ran3⟩ :=
        (passes wellInner good.1 good.2 typeName none).whole sound1 left (.inr ⟨rfl, rfl⟩) deeper
          str (UInt64.ofNat (passed + (1 + [(0x80 : UInt8)].length)))
      have lengths : passed + (1 + [(0x80 : UInt8)].length) +
          (inner.encode.length + [(0 : UInt8), 0].length) =
          passed + (4 + inner.encode.length) := by
        simp only [List.length_cons, List.length_nil]
        omega
      rw [← UInt64.ofNat_add, lengths] at ran3
      cases ran3.symm.trans innerRan
      have within : Inside form (passed + (4 + inner.encode.length) + rest.encode.length) := by
        rwa [Nat.add_assoc]
      exact ih wellFormed leaves (fun rested => other ⟨⟨good.1, rested.1⟩, good.2, rested.2⟩)
        sound3 left3 within (by omega) ran
    · have begins := consTurns_gathered sound1 innerRan
      have rested := (consTurns_gathered begins.sound ran).begins
      have more := ihInner wellInner leavesInner good sound1 left whole deeper innerRan
      exact fun same => more (eq_of_begins begins.begins rested same)

/-! ## Contents as a whole -/

/-- The contents of a constructed string: pieces, and the form of the length in front of them. -/
structure ConsContent where
  pieces : Pieces
  isDefinite : Bool

namespace ConsContent

/-- The octets behind the last piece. -/
def closing (c : ConsContent) : List UInt8 :=
  if c.isDefinite then [] else [0, 0]

/-- The octets behind the length. -/
@[grind =] def encode (c : ConsContent) : List UInt8 :=
  c.pieces.encode ++ c.closing

/-- The number of octets where it is known. -/
def form (c : ConsContent) : Option Nat :=
  if c.isDefinite then some c.pieces.encode.length else none

theorem closes (c : ConsContent) (small : c.encode.length < 2 ^ 63) :
    Closes c.form c.pieces.encode.length c.closing := by
  rw [encode, List.length_append] at small
  unfold form closing
  cases c.isDefinite with
  | true => exact .inl ⟨rfl, by omega, rfl⟩
  | false => exact .inr ⟨rfl, rfl⟩

end ConsContent

/-- A collector takes the contents, counts their octets and puts the pieces together. -/
def Collects (x : BufM (List UInt8 × AsnLen)) (b : AsnBuf) (c : ConsContent) (str : List UInt8)
    (n : AsnLen) (data : List UInt8) : Prop :=
  ∃ b', x.run b = .ok (str ++ c.pieces.leaves, n + UInt64.ofNat c.encode.length) b' ∧
    b'.unread = data

section

variable {wide : Bool} {typeName : String} {b : AsnBuf} {c : ConsContent} {turns : Nat}
  {data str : List UInt8} {n : AsnLen}

theorem consTurns_collects (sound : b.Sound) (wellFormed : c.pieces.WellFormed)
    (unread : b.unread = c.encode ++ data) (enough : c.encode.length < turns)
    (short : c.pieces.Short) (hollow : c.pieces.Hollow wide) :
    Collects (consTurns wide typeName (formLen c.form) turns 0 str n) b c str n data := by
  have fits := sound.fits
  rw [unread, List.length_append] at fits
  have parts : c.encode.length = c.pieces.encode.length + c.closing.length := List.length_append
  have tape : b.unread = c.pieces.encode ++ (c.closing ++ data) := by
    rw [unread, ConsContent.encode, List.append_assoc]
  have fewer : c.pieces.encode.length < turns := by omega
  obtain ⟨b', -, left, ran⟩ := (c.pieces.passes wellFormed short hollow typeName c.form).whole sound
    tape (c.closes (by omega)) fewer str n
  refine ⟨b', ?_, left⟩
  rw [ran, hollow.leaves_eq, List.append_nil, parts]

/-- Contents without octets in their pieces that are collected are passed. -/
theorem hollow_of_collects (sound : b.Sound) (wellFormed : c.pieces.WellFormed)
    (unread : b.unread = c.encode ++ data) (enough : c.encode.length < turns)
    (leaves : c.pieces.leaves = [])
    (collects : Collects (consTurns wide typeName (formLen c.form) turns 0 str n) b c str n data) :
    c.pieces.Short ∧ c.pieces.Hollow wide := by
  by_contra other
  obtain ⟨b', ran, -⟩ := collects
  have fits := sound.fits
  rw [unread, List.length_append] at fits
  have parts : c.encode.length = c.pieces.encode.length + c.closing.length := List.length_append
  have tape : b.unread = c.pieces.encode ++ (c.closing ++ data) := by
    rw [unread, ConsContent.encode, List.append_assoc]
  have fewer : c.pieces.encode.length < turns := by omega
  have inside : Inside c.form (0 + c.pieces.encode.length) := by
    intro l same
    rcases c.closes (by omega) with ⟨known, small, -⟩ | ⟨absent, -⟩
    · rw [known] at same
      cases same
      omega
    · rw [absent] at same
      cases same
  refine c.pieces.appends wellFormed leaves other sound tape inside fewer ran ?_
  rw [leaves, List.append_nil]

/-- The narrow collector counts the octets of the pieces once more. -/
theorem leaves_of_collects (sound : b.Sound) (unread : b.unread = c.encode ++ data)
    (collects : Collects (consTurns false typeName (formLen c.form) turns 0 str n) b c str n data) :
    c.pieces.leaves = [] := by
  obtain ⟨b', ran, left⟩ := collects
  obtain ⟨k, seg, takes, same, count⟩ := consTurns_gathered sound ran
  have fits := sound.fits
  have within := takes.within
  have sizes := takes.length_eq
  rw [unread, List.length_append, left] at sizes
  rw [unread, List.length_append] at fits within
  obtain rfl := List.append_cancel_left same
  -- All of the contents is taken, so that the count of the pieces is what is too much.
  have all : k = c.encode.length := by omega
  simp only [Bool.false_eq_true, if_false] at count
  rw [all, UInt64.add_zero] at count
  have again : n + UInt64.ofNat c.encode.length + UInt64.ofNat c.pieces.leaves.length =
      n + UInt64.ofNat c.encode.length + 0 := by
    rw [← count, UInt64.add_zero]
  have none := congrArg UInt64.toNat ((UInt64.add_right_inj _).1 again)
  have fewer := c.pieces.length_leaves_le
  have parts : c.encode.length = c.pieces.encode.length + c.closing.length := List.length_append
  rw [UInt64.toNat_ofNat', UInt64.toNat_zero] at none
  exact List.eq_nil_of_length_eq_zero (by omega)

theorem combineConsString_zero (typeName : String) (elmtLen : AsnLen) (turns : Nat)
    (str : List UInt8) : combineConsString typeName elmtLen turns 0 str =
      consTurns true typeName elmtLen turns 0 str 0 := by
  rw [← combineConsString_eq]
  simp only [UInt64.zero_add, Prod.mk.eta, id_map']

/-- The narrow collector is right exactly about pieces without octets. -/
theorem narrow_collects_iff (sound : b.Sound) (wellFormed : c.pieces.WellFormed)
    (unread : b.unread = c.encode ++ data) (enough : c.encode.length < turns) :
    Collects (bDecConsString typeName (formLen c.form) turns 0 str n) b c str n data ↔
      c.pieces.Short ∧ c.pieces.leaves = [] := by
  rw [bDecConsString_eq]
  constructor
  · intro collects
    have leaves := leaves_of_collects sound unread collects
    exact ⟨(hollow_of_collects sound wellFormed unread enough leaves collects).1, leaves⟩
  · rintro ⟨short, leaves⟩
    exact consTurns_collects sound wellFormed unread enough short
      (c.pieces.hollow_false_iff.2 leaves)

end

/--
The two collectors of constructed character strings are right about hardly any contents.

The narrow one is exactly where no piece has octets, and both are exactly where no piece is
primitive; no length may have more than nine octets.
-/
theorem consStrings_collected_iff {b : AsnBuf} {c : ConsContent} {data : List UInt8} {turns : Nat}
    (sound : b.Sound) (wellFormed : c.pieces.WellFormed) (unread : b.unread = c.encode ++ data)
    (enough : c.encode.length < turns) (typeName wideName : String) (str encStr : List UInt8)
    (bytesDecoded : AsnLen) :
    (Collects (bDecConsString typeName (formLen c.form) turns 0 str bytesDecoded) b c str
        bytesDecoded data ↔
      c.pieces.Short ∧ c.pieces.leaves = []) ∧
    (Collects (bDecConsString typeName (formLen c.form) turns 0 str bytesDecoded) b c str
          bytesDecoded data ∧
        Collects (combineConsString wideName (formLen c.form) turns 0 encStr) b c encStr 0 data ↔
      c.pieces.Short ∧ c.pieces.Hollow true) := by
  refine ⟨narrow_collects_iff sound wellFormed unread enough, ?_⟩
  rw [narrow_collects_iff sound wellFormed unread enough, combineConsString_zero]
  constructor
  · rintro ⟨⟨-, leaves⟩, wide⟩
    exact hollow_of_collects sound wellFormed unread enough leaves wide
  · rintro ⟨short, hollow⟩
    exact ⟨⟨short, hollow.leaves_eq⟩,
      consTurns_collects sound wellFormed unread enough short hollow⟩

/-- A constructed piece without pieces of its own, in contents of definite length. -/
theorem consStrings_collected_iff_empty :
    (Collects (bDecConsString "PrintableString" 4 5 0 [] 2) (.ofSeg [0x24, 0x80, 0, 0])
        ⟨.indefinite .nil .nil, true⟩ [] 2 [] ↔
      (Pieces.indefinite .nil .nil).Short ∧ (Pieces.indefinite .nil .nil).leaves = []) ∧
    (Collects (bDecConsString "PrintableString" 4 5 0 [] 2) (.ofSeg [0x24, 0x80, 0, 0])
          ⟨.indefinite .nil .nil, true⟩ [] 2 [] ∧
        Collects (combineConsString "BMPString" 4 5 0 []) (.ofSeg [0x24, 0x80, 0, 0])
          ⟨.indefinite .nil .nil, true⟩ [] 0 [] ↔
      (Pieces.indefinite .nil .nil).Short ∧ (Pieces.indefinite .nil .nil).Hollow true) :=
  consStrings_collected_iff (c := ⟨.indefinite .nil .nil, true⟩)
    (AsnBuf.ofSeg_sound (by decide) (by decide)) ⟨trivial, trivial⟩ rfl (by decide)
    "PrintableString" "BMPString" [] [] 2

/-- The octet of a piece is counted twice. -/
theorem not_consStrings_collected :
    ¬ ∀ (b : AsnBuf) (c : ConsContent) (data : List UInt8) (turns : Nat), b.Sound →
      c.pieces.WellFormed → b.unread = c.encode ++ data → c.encode.length < turns →
      ∀ (typeName wideName : String) (str encStr : List UInt8) (bytesDecoded : AsnLen),
        Collects (bDecConsString typeName (formLen c.form) turns 0 str bytesDecoded) b c str
            bytesDecoded data ∧
          Collects (combineConsString wideName (formLen c.form) turns 0 encStr) b c encStr 0 data := by
  intro all
  have sound : (AsnBuf.ofSeg [4, 1, 0x41]).Sound := AsnBuf.ofSeg_sound (by decide) (by decide)
  have both := all (.ofSeg [4, 1, 0x41]) ⟨.primitive [1] [0x41] .nil, true⟩ [] 4 sound
    ⟨isLength_short (by decide), trivial⟩ rfl (by decide) "" "" [] [] 0
  have collects := both.1
  rw [bDecConsString_eq] at collects
  exact absurd (leaves_of_collects sound rfl collects) (by decide)

end Esnacc.Cxx
