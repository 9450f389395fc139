import Esnacc.Cxx.KeptDeck
import Esnacc.Cxx.Collecting

/-! When an unknown element is copied as it is. -/

namespace Esnacc.Cxx

open Lib

/-- Elements one after the other, the contents of an element of indefinite length. -/
inductive Elements where
  | nil
  | definite (tag len content : List UInt8) (rest : Elements)
  | indefinite (tag : List UInt8) (inner rest : Elements)

namespace Elements

/-- The octets of elements. -/
@[grind =] def encode : Elements → List UInt8
  | nil => []
  | definite tag len content rest => tag ++ (len ++ (content ++ rest.encode))
  | indefinite tag inner rest => tag ++ 0x80 :: (inner.encode ++ 0 :: 0 :: rest.encode)

/--
Every element has a tag of at most four octets that is not the end of contents.

The contents of definite length are any octets, those of other elements among them.
-/
def WellFormed : Elements → Prop
  | nil => True
  | definite tag len content rest =>
    (IsTag tag ∧ tag.length ≤ 4 ∧ tag ≠ [0]) ∧ IsLength len content.length ∧ rest.WellFormed
  | indefinite tag inner rest =>
    (IsTag tag ∧ tag.length ≤ 4 ∧ tag ≠ [0]) ∧ inner.WellFormed ∧ rest.WellFormed

/-- All elements have definite lengths, of at most nine octets. -/
def Measured : Elements → Prop
  | nil => True
  | definite _ len _ rest => len.length ≤ 9 ∧ rest.Measured
  | indefinite _ _ _ => False

end Elements

/-- An element of definite or of indefinite length. -/
inductive Tlv where
  | definite (tag len content : List UInt8)
  | indefinite (tag : List UInt8) (elements : Elements)

namespace Tlv

/-- The octets of an element. -/
def encode : Tlv → List UInt8
  | definite tag len content => tag ++ (len ++ content)
  | indefinite tag elements => tag ++ 0x80 :: (elements.encode ++ [0, 0])

def WellFormed : Tlv → Prop
  | definite tag len content => (IsTag tag ∧ tag.length ≤ 4) ∧ IsLength len content.length
  | indefinite tag elements => (IsTag tag ∧ tag.length ≤ 4) ∧ elements.WellFormed

/-- The elements that are copied: none of indefinite length is inside one of indefinite length. -/
def Copied : Tlv → Prop
  | definite _ len _ => len.length ≤ 9
  | indefinite _ elements => elements.Measured

end Tlv

/-! ## The tag that ends contents -/

theorem eq_zero_of_moreWord {left : Nat} {tagId : AsnTag} {more : List UInt8}
    (zero : moreWord left tagId more = 0) : tagId = 0 := by
  induction more generalizing left tagId with
  | nil =>
    cases left <;> exact zero
  | cons c more ih =>
    cases left with
    | zero => exact zero
    | succ left => exact (UInt32.or_eq_zero_iff.mp (ih zero)).1

theorem eq_zero_of_shiftLeft {c : UInt8} (zero : c.toUInt32 <<< 24 = 0) : c = 0 := by
  have number := congrArg UInt32.toNat zero
  have small := c.toNat_lt
  rw [UInt32.toNat_shiftLeft, UInt8.toNat_toUInt32] at number
  apply UInt8.toNat_inj.mp
  change (c.toNat <<< 24) % 2 ^ 32 = 0 at number
  rw [Nat.shiftLeft_eq, Nat.mod_eq_of_lt (by omega)] at number
  change c.toNat = 0
  omega

theorem tagWord_ne_eoc {tag : List UInt8} (isTag : IsTag tag) (other : tag ≠ [0]) :
    tagWord tag ≠ EOC_TAG_ID := by
  intro eoc
  rcases isTag with ⟨first, rfl, short⟩ | ⟨first, more, last, rfl, long, -⟩
  · exact other (congrArg (fun c => [c]) (eq_zero_of_shiftLeft eoc))
  · rw [eq_zero_of_shiftLeft (eq_zero_of_moreWord eoc)] at long
    exact absurd long (by decide)

/-! ## The contents of indefinite length -/

section

variable {b : AsnBuf} {tag data : List UInt8}

theorem more_endless (passed : Nat) : (nodeOf none passed).more = true := by
  simp [nodeOf, formLen, RefNode.more]

/-- With any tag, a turn on a header whose length is long or indefinite throws. -/
theorem fillTurn_unmeasured {baseTag : AsnTag} (wildcard : baseTag = 0) (frames : List RefNode)
    (node : RefNode) (strDeck : List StringPair) (sound : b.Sound) (isTag : IsTag tag)
    (fits : tag.length ≤ 4) (other : tag ≠ [0]) (unread : b.unread = tag ++ data)
    (unmeasured : (∃ len m more, data = len ++ more ∧ IsLength len m ∧ 9 < len.length) ∨
      ∃ more, data = 0x80 :: more) :
    ∃ thrown b', (fillTurn baseTag (.at_ frames node strDeck) node).run b = .error thrown b' ∧
      thrown ≠ .fault ∧ thrown ≠ .outOfTurns := by
  obtain ⟨b1, ran, left, onward⟩ := bDecTag_isTag (n := node.count) sound isTag fits unread
  have sound1 : b1.Sound := sound.onward onward (by rw [left, unread]; simp)
  have goesOn : ¬ (tagWord tag = EOC_TAG_ID ∧ node.length = INDEFINITE_LEN) :=
    fun both => tagWord_ne_eoc isTag other both.1
  have primitive : tagWord tag = makeTagId UNIV PRIM baseTag ∨ baseTag = 0 := .inr wildcard
  rw [fillTurn, run_bind_of_ok ran]
  simp only [if_neg goesOn, if_pos primitive]
  rcases unmeasured with ⟨len, m, more, rfl, isLength, long⟩ | ⟨more, rfl⟩
  · obtain ⟨rest, b2, failed, -⟩ :=
      bDecLen_long (n := node.count + UInt64.ofNat tag.length) sound1 isLength long left
    exact ⟨boundsException "length overflow", b2, run_bind_eq_error.mpr (.inl failed), by decide,
      by decide⟩
  · obtain ⟨b2, read, -⟩ :=
      bDecLen_indefinite (n := node.count + UInt64.ofNat tag.length) sound1 left
    refine ⟨.invalidTagException "Primitive String can not have INDEFINITE_LEN" (tagWord tag), b2,
      run_bind_eq_error.mpr (.inr ⟨_, b2, read, ?_⟩), by simp, by simp⟩
    rw [if_pos rfl]
    rfl

/-- The collector passes elements of definite length up to the end of contents, and counts them. -/
theorem fillTurns_measured {elements : Elements} (passed : Nat) (strDeck : List StringPair) (turns : Nat)
    (sound : b.Sound) (wellFormed : elements.WellFormed) (measured : elements.Measured)
    (unread : b.unread = elements.encode ++ 0 :: 0 :: data) (enough : elements.encode.length < turns) :
    ∃ st b', (fillTurns 0 turns (.at_ [] (nodeOf none passed) strDeck)).run b = .ok st b' ∧
      b'.Sound ∧ b'.unread = data ∧ st.refList.head?.map RefNode.count =
        some (UInt64.ofNat (passed + elements.encode.length + 2)) := by
  -- The induction is on the elements, each of which is passed as a primitive piece.
  induction elements generalizing b passed strDeck turns with
  | nil =>
    obtain ⟨turns, rfl⟩ := Nat.exists_eq_succ_of_ne_zero (Nat.ne_of_gt enough)
    obtain ⟨st, ⟨b', ran, left, onward⟩, -, atRoot, -⟩ :=
      fillTurns_eoc 0 [] (nodeOf none passed) strDeck turns sound rfl unread
    have shrinks : b'.unread.length ≤ b.unread.length := by
      rw [show b'.unread = data from left, unread, List.length_append, List.length_cons,
        List.length_cons]
      omega
    refine ⟨st, b', ran, sound.onward onward shrinks, left, ?_⟩
    have counted : (nodeOf none passed).count + 2 = UInt64.ofNat (passed + 2) := by
      rw [UInt64.ofNat_add]
      rfl
    rw [atRoot rfl]
    exact congrArg some counted
  | definite tag len content rest ih =>
    obtain ⟨⟨isTag, fits, other⟩, isLength, wellFormed⟩ := wellFormed
    obtain ⟨short, measured⟩ := measured
    have size : (Elements.definite tag len content rest).encode.length =
        tag.length + len.length + content.length + rest.encode.length := by
      simp only [Elements.encode, List.length_append]
      omega
    have unread' : b.unread = tag ++ (len ++ (content ++ (rest.encode ++ 0 :: 0 :: data))) := by
      rw [unread, Elements.encode]
      simp only [List.append_assoc]
    rw [size] at enough ⊢
    obtain ⟨turns, rfl⟩ := Nat.exists_eq_succ_of_ne_zero (Nat.ne_of_gt (Nat.zero_lt_of_lt enough))
    have turn := fillTurn_primitive 0 [] (nodeOf none passed) strDeck sound isTag fits isLength
      short unread' (fun both => tagWord_ne_eoc isTag other both.1) (.inr rfl)
    rw [show (nodeOf none passed).count = UInt64.ofNat passed from rfl, ← UInt64.ofNat_add] at turn
    obtain ⟨b1, sound1, left1, same1⟩ := fillTurns_of_turn sound (more_endless passed) turn
      (by rw [unread']; simp only [List.length_append, List.length_cons]; omega)
    have positive := isLength.length_pos
    obtain ⟨st, b', ran, sound', left, counted⟩ := ih (passed + (tag.length + len.length + content.length))
      (strDeck ++ [(some content, UInt64.ofNat content.length)]) turns sound1 wellFormed measured
      left1 (by omega)
    refine ⟨st, b', (same1 turns).trans ran, sound', left, ?_⟩
    have total : passed + (tag.length + len.length + content.length) + rest.encode.length + 2 =
        passed + (tag.length + len.length + content.length + rest.encode.length) + 2 := by
      omega
    rw [counted, total]
  | indefinite tag inner rest => exact measured.elim

/-- The collector throws at an element whose length is long or indefinite. -/
theorem fillTurns_unmeasured {elements : Elements} (passed : Nat) (strDeck : List StringPair) (turns : Nat)
    (sound : b.Sound) (wellFormed : elements.WellFormed) (unmeasured : ¬ elements.Measured)
    (unread : b.unread = elements.encode ++ data) (enough : elements.encode.length < turns) :
    ∃ thrown b', (fillTurns 0 turns (.at_ [] (nodeOf none passed) strDeck)).run b =
      .error thrown b' ∧ thrown ≠ .fault ∧ thrown ≠ .outOfTurns := by
  induction elements generalizing b passed strDeck turns with
  | nil => exact absurd trivial unmeasured
  | definite tag len content rest ih =>
    obtain ⟨⟨isTag, fits, other⟩, isLength, wellFormed⟩ := wellFormed
    have size : (Elements.definite tag len content rest).encode.length =
        tag.length + len.length + content.length + rest.encode.length := by
      simp only [Elements.encode, List.length_append]
      omega
    have unread' : b.unread = tag ++ (len ++ (content ++ (rest.encode ++ data))) := by
      rw [unread, Elements.encode]
      simp only [List.append_assoc]
    rw [size] at enough
    have positive := isLength.length_pos
    obtain ⟨turns, rfl⟩ := Nat.exists_eq_succ_of_ne_zero (Nat.ne_of_gt (Nat.zero_lt_of_lt enough))
    by_cases long : 9 < len.length
    · obtain ⟨thrown, b', failed, real⟩ := fillTurn_unmeasured rfl [] (nodeOf none passed) strDeck sound
        isTag fits other unread' (.inl ⟨len, _, _, rfl, isLength, long⟩)
      exact ⟨thrown, b', fillTurns_of_error (more_endless passed) failed turns, real⟩
    · have short : len.length ≤ 9 := Nat.le_of_not_lt long
      have turn := fillTurn_primitive 0 [] (nodeOf none passed) strDeck sound isTag fits isLength
        short unread' (fun both => tagWord_ne_eoc isTag other both.1) (.inr rfl)
      rw [show (nodeOf none passed).count = UInt64.ofNat passed from rfl,
        ← UInt64.ofNat_add] at turn
      obtain ⟨b1, sound1, left1, same1⟩ := fillTurns_of_turn sound (more_endless passed) turn
        (by rw [unread']; simp only [List.length_append]; omega)
      obtain ⟨thrown, b', failed, real⟩ := ih (passed + (tag.length + len.length + content.length))
        (strDeck ++ [(some content, UInt64.ofNat content.length)]) turns sound1 wellFormed
        (fun later => unmeasured ⟨short, later⟩) left1 (by omega)
      exact ⟨thrown, b', (same1 turns).trans failed, real⟩
  | indefinite tag inner rest =>
    obtain ⟨⟨isTag, fits, other⟩, -, -⟩ := wellFormed
    have unread' : b.unread = tag ++ 0x80 ::
        (inner.encode ++ 0 :: 0 :: (rest.encode ++ data)) := by
      rw [unread, Elements.encode]
      simp
    obtain ⟨turns, rfl⟩ := Nat.exists_eq_succ_of_ne_zero (Nat.ne_of_gt (Nat.zero_lt_of_lt enough))
    obtain ⟨thrown, b', failed, real⟩ := fillTurn_unmeasured rfl [] (nodeOf none passed) strDeck sound
      isTag fits other unread' (.inr ⟨_, rfl⟩)
    exact ⟨thrown, b', fillTurns_of_error (more_endless passed) failed turns, real⟩

end

/-! ## The length behind a header -/

section

variable {b : AsnBuf} {n : AsnLen} {turns : Nat}

theorem grabLen_definite (turns : Nat) (sound : b.Sound) {m : Nat} (within : m ≤ b.unread.length) :
    ∃ b', (grabLen turns (UInt64.ofNat m)).run b = .ok (UInt64.ofNat m) b' := by
  obtain ⟨b', ran, -⟩ := sound.length_acts
  have enough : ¬ UInt64.ofNat b.unread.length < UInt64.ofNat m := by
    rw [UInt64.lt_iff_toNat_lt, sound.toNat_length, sound.toNat_ofNat within]
    omega
  refine ⟨b', ?_⟩
  rw [grabLen, if_neg (sound.ofNat_ne_indefinite within), run_bind_of_ok ran]
  simp only [if_neg enough]
  rfl

/-- The octets of elements of definite length are counted, with the end of contents. -/
theorem grabLen_measured {elements : Elements} {rest : List UInt8} (sound : b.Sound)
    (wellFormed : elements.WellFormed) (measured : elements.Measured)
    (unread : b.unread = elements.encode ++ 0 :: 0 :: rest)
    (enough : elements.encode.length < turns) :
    ∃ b', (grabLen turns INDEFINITE_LEN).run b =
      .ok (UInt64.ofNat (elements.encode.length + 2)) b' := by
  obtain ⟨st, b', ran, -, -, counted⟩ :=
    fillTurns_measured 0 [] turns sound wellFormed measured unread enough
  have filled : (fill turns 0 INDEFINITE_LEN 0).run b =
      .ok (st.strDeck, UInt64.ofNat (elements.encode.length + 2)) b' := by
    have start : (⟨[⟨INDEFINITE_LEN, 0⟩], 0, []⟩ : Collector) = .at_ [] (nodeOf none 0) [] := rfl
    rw [fill, start, run_bind_of_ok ran, counted, Nat.zero_add, Option.getD_some, UInt64.zero_add]
    rfl
  have caught : (catching (fill turns 0 INDEFINITE_LEN 0)
      "deck.Fill(...) failed, unexpected exception (STACK?)").run b =
      .ok (st.strDeck, UInt64.ofNat (elements.encode.length + 2)) b' := by
    change catching (fill turns 0 INDEFINITE_LEN 0) _ b = _
    rw [catching, filled]
  refine ⟨b', ?_⟩
  rw [grabLen, if_pos rfl, run_bind_of_ok caught]
  rfl

/-- The exception of the buffer stands for what the collector throws. -/
theorem grabLen_unmeasured {elements : Elements} {rest : List UInt8} (sound : b.Sound)
    (wellFormed : elements.WellFormed) (unmeasured : ¬ elements.Measured)
    (unread : b.unread = elements.encode ++ rest) (enough : elements.encode.length < turns) :
    ∃ b', (grabLen turns INDEFINITE_LEN).run b =
      .error (bufferException "deck.Fill(...) failed, unexpected exception (STACK?)") b' := by
  obtain ⟨thrown, b', failed, notFault, notTurns⟩ :=
    fillTurns_unmeasured 0 [] turns sound wellFormed unmeasured unread enough
  have filled : (fill turns 0 INDEFINITE_LEN 0).run b = .error thrown b' := by
    rw [fill]
    exact run_bind_eq_error.mpr (.inl failed)
  refine ⟨b', ?_⟩
  rw [grabLen, if_pos rfl]
  apply run_bind_eq_error.mpr
  left
  change catching (fill turns 0 INDEFINITE_LEN 0) _ b = _
  rw [catching, filled]
  dsimp only
  rw [if_neg (by simp [notFault, notTurns])]

end

/-! ## Whole elements -/

/-- An element is copied to a card in front of another buffer, is passed, and its size is added. -/
def GrabsVerbatim (t : Tlv) (turns : Nat) (anyBuf : AsnBuf) (n : AsnLen) (b : AsnBuf)
    (rest : List UInt8) : Prop :=
  ∃ b', (grabAny turns anyBuf n).run b =
      .ok (⟨[], .ofSeg t.encode :: anyBuf.deck⟩, n + UInt64.ofNat t.encode.length) b' ∧
    b'.unread = rest

section

variable {b : AsnBuf} {n len : AsnLen} {turns : Nat} {tag data data' : List UInt8} {header : Nat}

/-- Where the length is found, the octets are read again from the start of the element. -/
theorem grabAny_of_len (anyBuf : AsnBuf) (sound : b.Sound) (inOrder : b.InOrder)
    (isTag : IsTag tag) (fits : tag.length ≤ 4) (unread : b.unread = tag ++ data)
    (measured : ∀ b' : AsnBuf, b'.Sound → b'.unread = data →
      Acts (bDecLen (n + UInt64.ofNat tag.length)) b' (.ok (len, n + UInt64.ofNat header), data'))
    (shrinks : data'.length ≤ data.length) {m : Nat}
    (grabbed : ∀ b' : AsnBuf, b'.Sound → b'.unread = data' →
      ∃ b'', (grabLen turns len).run b' = .ok (UInt64.ofNat m) b'')
    {seg rest : List UInt8} (whole : b.unread = seg ++ rest) (size : seg.length = header + m) :
    ∃ b', (grabAny turns anyBuf n).run b =
      .ok (⟨[], .ofSeg seg :: anyBuf.deck⟩, n + UInt64.ofNat seg.length) b' ∧ b'.unread = rest := by
  obtain ⟨c, behind, ahead⟩ : ∃ c behind, b.ahead = c :: behind := by
    cases cards : b.ahead with
    | nil =>
      rw [AsnBuf.unread, cards, unreadOf_nil] at unread
      exact absurd (List.append_eq_nil_iff.mp unread.symm).1 isTag.ne_nil
    | cons c behind => exact ⟨c, behind, rfl⟩
  -- The header is read, and the length behind it is found, with all cards kept.
  obtain ⟨b1, located, left1, onward1⟩ := getReadLoc_acts sound ahead
  have sound1 := sound.onward onward1 (Nat.le_of_eq (congrArg List.length left1))
  have holds1 : b1.Holds (b.deck.map AsnRvsBuf.octets) := keeps_getReadLoc.of_ok rfl located
  obtain ⟨b2, tagged, left2, onward2⟩ := bDecTag_isTag (n := n) sound1 isTag fits
    (left1.trans unread)
  have sound2 := sound1.onward onward2 (by rw [left2, left1, unread]; simp)
  have holds2 := (keeps_bDecTag n).of_ok holds1 tagged
  obtain ⟨b3, read, left3, onward3⟩ := measured b2 sound2 left2
  have sound3 := sound2.onward onward3 (by rw [left3, left2]; exact shrinks)
  have holds3 := (keeps_bDecLen _).of_ok holds2 read
  obtain ⟨b4, found⟩ := grabbed b3 sound3 left3
  have holds4 := (keeps_grabLen turns len).of_ok holds3 found
  -- Reading goes back, so that the octets of the element come again.
  obtain ⟨b5, back, left5, sound5⟩ := setReadLoc_spec sound ahead inOrder holds4
  have within : seg.length ≤ b5.unread.length := by
    rw [left5, whole, List.length_append]
    omega
  have total : n + UInt64.ofNat header - n + UInt64.ofNat m = UInt64.ofNat seg.length := by
    rw [size, UInt64.ofNat_add, UInt64.add_comm n, UInt64.add_sub_cancel]
  have number : (UInt64.ofNat seg.length).toInt64.toInt.toNat = seg.length := by
    have fits := sound5.fits
    rw [toNat_toInt_toInt64 (by rw [sound5.toNat_ofNat within]; omega), sound5.toNat_ofNat within]
  have segs := sound5.getSeg_acts (UInt64.ofNat seg.length).toInt64
  rw [number, flatGetSeg, if_neg (Nat.not_lt.mpr within), left5, whole, List.take_left,
    List.drop_left] at segs
  obtain ⟨b6, taken, left6, -⟩ := segs
  refine ⟨b6, ?_, left6⟩
  rw [grabAny, run_bind_of_ok located, run_bind_of_ok tagged]
  dsimp only
  rw [run_bind_of_ok read]
  dsimp only
  rw [run_bind_of_ok found, run_bind_of_ok back]
  rw [total, run_bind_of_ok taken, size, UInt64.ofNat_add, UInt64.add_assoc]
  rfl

end

/-- An element that is read as a header whose length is refused is not copied. -/
theorem grabAny_of_refused {b : AsnBuf} (n : AsnLen) (turns : Nat) {tag data : List UInt8}
    (anyBuf : AsnBuf) (sound : b.Sound) (isTag : IsTag tag) (fits : tag.length ≤ 4)
    (unread : b.unread = tag ++ data)
    (refused : ∀ b' : AsnBuf, b'.Sound → b'.unread = data →
      ∃ thrown b'', (bDecLen (n + UInt64.ofNat tag.length) >>= fun read =>
        grabLen turns read.1).run b' = .error thrown b'') :
    ∃ thrown b', (grabAny turns anyBuf n).run b = .error thrown b' := by
  obtain ⟨c, behind, ahead⟩ : ∃ c behind, b.ahead = c :: behind := by
    cases cards : b.ahead with
    | nil =>
      rw [AsnBuf.unread, cards, unreadOf_nil] at unread
      exact absurd (List.append_eq_nil_iff.mp unread.symm).1 isTag.ne_nil
    | cons c behind => exact ⟨c, behind, rfl⟩
  obtain ⟨b1, located, left1, onward1⟩ := getReadLoc_acts sound ahead
  have sound1 := sound.onward onward1 (Nat.le_of_eq (congrArg List.length left1))
  obtain ⟨b2, tagged, left2, onward2⟩ := bDecTag_isTag (n := n) sound1 isTag fits
    (left1.trans unread)
  have sound2 := sound1.onward onward2 (by rw [left2, left1, unread]; simp)
  obtain ⟨thrown, b3, failed⟩ := refused b2 sound2 left2
  refine ⟨thrown, b3, ?_⟩
  rw [grabAny, run_bind_of_ok located, run_bind_of_ok tagged]
  dsimp only
  -- Either the length is refused, or what it leads to.
  rcases run_bind_eq_error.mp failed with length | ⟨read, mid, ran, behind⟩
  · exact run_bind_eq_error.mpr (.inl length)
  · exact run_bind_eq_error.mpr (.inr ⟨read, mid, ran, run_bind_eq_error.mpr (.inl behind)⟩)

/-- An unknown element is copied as it is exactly when its contents are measured. -/
theorem any_grabbed_iff (b : AsnBuf) (sound : b.Sound) (inOrder : b.InOrder) (t : Tlv)
    (wellFormed : t.WellFormed) (rest : List UInt8) (unread : b.unread = t.encode ++ rest)
    (turns : Nat) (enough : t.encode.length < turns) (anyBuf : AsnBuf) (n : AsnLen) :
    GrabsVerbatim t turns anyBuf n b rest ↔ t.Copied := by
  cases t with
  | definite tag len content =>
    obtain ⟨⟨isTag, fits⟩, isLength⟩ := wellFormed
    have unread' : b.unread = tag ++ (len ++ (content ++ rest)) := by
      rw [unread, Tlv.encode]
      simp only [List.append_assoc]
    constructor
    · rintro ⟨b', ran, -⟩
      by_contra long
      obtain ⟨thrown, last, failed⟩ := grabAny_of_refused n turns anyBuf sound
        isTag fits unread' fun b' sound' left => by
          obtain ⟨gone, last, failed, -⟩ :=
            bDecLen_long (n := n + UInt64.ofNat tag.length) sound' isLength
              (Nat.lt_of_not_le long) left
          exact ⟨_, last, run_bind_eq_error.mpr (.inl failed)⟩
      rw [failed] at ran
      cases ran
    · intro short
      have header : ∀ b' : AsnBuf, b'.Sound → b'.unread = len ++ (content ++ rest) →
          Acts (bDecLen (n + UInt64.ofNat tag.length)) b' (.ok (UInt64.ofNat content.length,
            n + UInt64.ofNat (tag.length + len.length)), content ++ rest) := by
        intro b' sound' left
        rw [UInt64.ofNat_add, ← UInt64.add_assoc]
        exact bDecLen_isLength sound' isLength short left
      have found : ∀ b' : AsnBuf, b'.Sound → b'.unread = content ++ rest →
          ∃ b'', (grabLen turns (UInt64.ofNat content.length)).run b' =
            .ok (UInt64.ofNat content.length) b'' := by
        intro b' sound' left
        exact grabLen_definite turns sound' (by rw [left, List.length_append]; omega)
      refine grabAny_of_len anyBuf sound inOrder isTag fits unread' header (by simp) found unread ?_
      simp only [Tlv.encode, List.length_append]
      omega
  | indefinite tag elements =>
    obtain ⟨⟨isTag, fits⟩, wellFormed⟩ := wellFormed
    have unread' : b.unread = tag ++ 0x80 :: (elements.encode ++ 0 :: 0 :: rest) := by
      rw [unread, Tlv.encode]
      simp
    have fewer : elements.encode.length < turns := by
      simp only [Tlv.encode, List.length_append, List.length_cons] at enough
      omega
    constructor
    · rintro ⟨b', ran, -⟩
      by_contra unmeasured
      obtain ⟨thrown, last, failed⟩ := grabAny_of_refused n turns anyBuf sound
        isTag fits unread' fun b' sound' left => by
          obtain ⟨mid, read, gone, onward⟩ :=
            bDecLen_indefinite (n := n + UInt64.ofNat tag.length) sound' left
          have soundMid := sound'.onward onward (by rw [gone, left]; simp)
          obtain ⟨last, failed⟩ := grabLen_unmeasured soundMid wellFormed unmeasured gone fewer
          exact ⟨_, last, run_bind_eq_error.mpr (.inr ⟨_, mid, read, failed⟩)⟩
      rw [failed] at ran
      cases ran
    · intro measured
      have header : ∀ b' : AsnBuf, b'.Sound →
          b'.unread = 0x80 :: (elements.encode ++ 0 :: 0 :: rest) →
          Acts (bDecLen (n + UInt64.ofNat tag.length)) b' (.ok (INDEFINITE_LEN,
            n + UInt64.ofNat (tag.length + 1)), elements.encode ++ 0 :: 0 :: rest) := by
        intro b' sound' left
        rw [UInt64.ofNat_add, ← UInt64.add_assoc]
        exact bDecLen_indefinite sound' left
      have found : ∀ b' : AsnBuf, b'.Sound → b'.unread = elements.encode ++ 0 :: 0 :: rest →
          ∃ b'', (grabLen turns INDEFINITE_LEN).run b' =
            .ok (UInt64.ofNat (elements.encode.length + 2)) b'' := by
        intro b' sound' left
        exact grabLen_measured sound' wellFormed measured left fewer
      refine grabAny_of_len anyBuf sound inOrder isTag fits unread' header (by simp) found unread ?_
      simp only [Tlv.encode, List.length_append, List.length_cons, List.length_nil]
      omega

/-- An element of one octet is copied. -/
theorem any_grabbed_iff_short :
    GrabsVerbatim (.definite [5] [1] [7]) 4 .empty 0 (.ofSeg [5, 1, 7, 9]) [9] ↔
      (Tlv.definite [5] [1] [7]).Copied :=
  any_grabbed_iff (.ofSeg [5, 1, 7, 9]) (AsnBuf.ofSeg_sound (by decide) (by decide))
    (fun c listed => by cases listed) (.definite [5] [1] [7])
    ⟨⟨.inl ⟨5, rfl, by decide⟩, by decide⟩, isLength_short (c := 1) (by decide)⟩ [9] rfl 4
    (by decide) .empty 0

/-- An element of indefinite length with an empty one in it is not copied. -/
theorem nested_indefinite_not_grabbed :
    ¬ ∀ (b : AsnBuf) (t : Tlv) (rest : List UInt8) (anyBuf : AsnBuf) (n : AsnLen), b.Sound →
      b.InOrder → t.WellFormed → b.unread = t.encode ++ rest →
      ∀ turns, t.encode.length < turns → GrabsVerbatim t turns anyBuf n b rest := by
  intro grabs
  have sequence : IsTag [0x30] ∧ [(0x30 : UInt8)].length ≤ 4 :=
    ⟨.inl ⟨0x30, rfl, by decide⟩, by decide⟩
  have sound : (AsnBuf.ofSeg [0x30, 0x80, 0x30, 0x80, 0, 0, 0, 0]).Sound :=
    AsnBuf.ofSeg_sound (by decide) (by decide)
  have inOrder : (AsnBuf.ofSeg [0x30, 0x80, 0x30, 0x80, 0, 0, 0, 0]).InOrder := by
    intro c listed
    cases listed
  have wellFormed : (Tlv.indefinite [0x30] (.indefinite [0x30] .nil .nil)).WellFormed :=
    ⟨sequence, ⟨sequence.1, sequence.2, by decide⟩, trivial, trivial⟩
  -- The collector throws at the second indefinite length.
  obtain ⟨b', ran, -⟩ := grabs _ _ [] .empty 0 sound inOrder wellFormed rfl 9 (by decide)
  cases ran

end Esnacc.Cxx
