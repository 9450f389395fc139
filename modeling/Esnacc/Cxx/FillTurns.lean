import Esnacc.Cxx.HeaderReads

/-! What one turn of the collector does on a piece that is well formed. -/

namespace Esnacc.Cxx

open Lib

/-- The collector at work on the last of its nodes. -/
@[grind =] def Collector.at_ (frames : List RefNode) (node : RefNode) (strDeck : List StringPair) : Collector :=
  ⟨frames ++ [node], frames.length, strDeck⟩

section

variable {frames : List RefNode} {node : RefNode} {strDeck : List StringPair}

theorem Collector.getElem?_at (frames : List RefNode) (node : RefNode) (strDeck : List StringPair) :
    (Collector.at_ frames node strDeck).refList[(Collector.at_ frames node strDeck).curr]? =
      some node := by
  simp [Collector.at_]

theorem modify_last {α : Type} (xs : List α) (x : α) (f : α → α) :
    (xs ++ [x]).modify xs.length f = xs ++ [f x] := by
  induction xs with
  | nil => rfl
  | cons y ys ih => exact congrArg (y :: ·) ih

theorem Collector.setCount_at (frames : List RefNode) (node : RefNode) (strDeck : List StringPair)
    (count : AsnLen) : (Collector.at_ frames node strDeck).setCount count =
      .at_ frames ⟨node.length, count⟩ strDeck := by
  rw [Collector.setCount, Collector.at_, modify_last, Collector.at_]

end

variable {b : AsnBuf}

theorem AsnBuf.Sound.toNat_ofNat (sound : b.Sound) {m : Nat} (within : m ≤ b.unread.length) :
    (UInt64.ofNat m).toNat = m := by
  have fits := sound.fits
  rw [UInt64.toNat_ofNat']
  omega

theorem AsnBuf.Sound.ofNat_ne_indefinite (sound : b.Sound) {m : Nat}
    (within : m ≤ b.unread.length) : UInt64.ofNat m ≠ INDEFINITE_LEN := by
  intro endless
  have number := congrArg UInt64.toNat endless
  have top : INDEFINITE_LEN.toNat = 18446744073709551615 := rfl
  have fits := sound.fits
  rw [sound.toNat_ofNat within, top] at number
  omega

/-- Octets that are to come are read into a new array. -/
theorem getNewSeg_acts (sound : b.Sound) {octets rest : List UInt8}
    (unread : b.unread = octets ++ rest) :
    Acts (getNewSeg (UInt64.ofNat octets.length).toInt64) b (.ok (some octets), rest) := by
  have within : octets.length ≤ b.unread.length := by
    rw [unread, List.length_append]
    omega
  have fits := sound.fits
  have number := sound.toNat_ofNat within
  have same := toNat_toInt_toInt64 (n := UInt64.ofNat octets.length) (by omega)
  have segs := sound.getSeg_acts (UInt64.ofNat octets.length).toInt64
  rw [same, number, flatGetSeg, if_neg (by omega), unread, List.take_left, List.drop_left] at segs
  obtain ⟨b', ran, left, onward⟩ := segs
  have nonneg : ¬ (UInt64.ofNat octets.length).toInt64 < 0 := by
    intro negative
    have below := Int64.lt_iff_toInt_lt.mp negative
    have zero : (0 : Int64).toInt = 0 := rfl
    -- The number as a `long` is the number of octets.
    have back : (UInt64.ofNat octets.length).toInt64.toInt =
        ((UInt64.ofNat octets.length).toNat : Int).bmod (2 ^ 64) :=
      BitVec.toInt_eq_toNat_bmod _
    rw [number, Int.bmod_eq_of_le (by omega) (by omega)] at back
    omega
  refine ⟨b', ?_, left, onward⟩
  change getNewSeg (UInt64.ofNat octets.length).toInt64 b = _
  rw [getNewSeg, if_neg nonneg, ran]

/-- One turn behind the header of a primitive piece: its octets are put in the deck. -/
theorem fillTurn_primitive (baseTag : AsnTag) (frames : List RefNode) (node : RefNode)
    (strDeck : List StringPair) {tag len octets rest : List UInt8} (sound : b.Sound)
    (isTag : IsTag tag) (fitsTag : tag.length ≤ 4) (isLength : IsLength len octets.length)
    (fitsLen : len.length ≤ 9) (unread : b.unread = tag ++ (len ++ (octets ++ rest)))
    (notEoc : ¬ (tagWord tag = EOC_TAG_ID ∧ node.length = INDEFINITE_LEN))
    (known : tagWord tag = makeTagId UNIV PRIM baseTag ∨ baseTag = 0) :
    Acts (fillTurn baseTag (.at_ frames node strDeck) node) b
      (.ok (false, .at_ frames
        ⟨node.length, node.count + UInt64.ofNat (tag.length + len.length + octets.length)⟩
        (strDeck ++ [(some octets, UInt64.ofNat octets.length)])), rest) := by
  have size := congrArg List.length unread
  simp only [List.length_append] at size
  rw [fillTurn]
  refine (bDecTag_isTag sound isTag fitsTag unread).bind sound (by simp [unread])
    fun b1 sound1 left1 => ?_
  simp only [if_neg notEoc, if_pos known]
  refine (bDecLen_isLength sound1 isLength fitsLen left1).bind sound1 (by simp [left1])
    fun b2 sound2 left2 => ?_
  -- The octets are all there, so that neither check refuses the length.
  have size2 := congrArg List.length left2
  rw [List.length_append] at size2
  have within : octets.length ≤ b2.unread.length := by
    omega
  simp only [if_neg (sound2.ofNat_ne_indefinite within)]
  refine sound2.length_acts.bind sound2 (Nat.le_refl _) fun b3 sound3 left3 => ?_
  have enough : ¬ UInt64.ofNat b2.unread.length < UInt64.ofNat octets.length := by
    rw [UInt64.lt_iff_toNat_lt, sound2.toNat_length, sound2.toNat_ofNat within]
    omega
  rw [left2] at left3
  simp only [if_neg enough]
  refine (getNewSeg_acts sound3 left3).bind sound3 (by simp [left3]) fun b4 sound4 left4 => ?_
  have counted : node.count + UInt64.ofNat tag.length + UInt64.ofNat len.length +
      UInt64.ofNat octets.length =
      node.count + UInt64.ofNat (tag.length + len.length + octets.length) := by
    rw [UInt64.ofNat_add, UInt64.ofNat_add, UInt64.add_assoc, UInt64.add_assoc, UInt64.add_assoc]
  rw [Collector.setCount_at, counted, ← left4]
  exact Acts.pure sound4 _

/-- One turn behind the header of a constructed piece that fits: its node is worked on next. -/
theorem fillTurn_constructed (baseTag : AsnTag) (frames : List RefNode) (node : RefNode)
    (strDeck : List StringPair) {c : UInt8} {rest data : List UInt8} {len count : AsnLen}
    (sound : b.Sound) (short : c &&& 0x1F ≠ 0x1F) (unread : b.unread = c :: data)
    (notEoc : c.toUInt32 <<< 24 ≠ EOC_TAG_ID)
    (notPrimitive : ¬ (c.toUInt32 <<< 24 = makeTagId UNIV PRIM baseTag ∨ baseTag = 0))
    (known : c.toUInt32 <<< 24 = makeTagId UNIV CONS baseTag)
    (measured : ∀ b' : AsnBuf, b'.Sound → b'.unread = data →
      Acts (bDecLen (node.count + 1)) b' (.ok (len, count), rest))
    (shrinks : rest.length ≤ data.length)
    (fits : len = INDEFINITE_LEN ∨ ¬ node.length < len + count) :
    Acts (fillTurn baseTag (.at_ frames node strDeck) node) b
      (.ok (false, .at_ (frames ++ [⟨node.length, count⟩]) ⟨len, 0⟩ strDeck), rest) := by
  rw [fillTurn]
  refine (bDecTag_short sound short unread).bind sound (by simp [unread])
    fun b1 sound1 left1 => ?_
  have goesOn : ¬ (c.toUInt32 <<< 24 = EOC_TAG_ID ∧ node.length = INDEFINITE_LEN) :=
    fun both => notEoc both.1
  have constructed : c.toUInt32 <<< 24 = makeTagId UNIV CONS baseTag ∨
      baseTag = 0 ∧ tagIsCons (c.toUInt32 <<< 24) = true := .inl known
  simp only [if_neg goesOn, if_neg notPrimitive, if_pos constructed]
  refine (measured b1 sound1 left1).bind sound1 (by rwa [left1]) fun b2 sound2 left2 => ?_
  have inside : ¬ (len ≠ INDEFINITE_LEN ∧ node.length < len + count) := by
    rintro ⟨definite, past⟩
    exact fits.elim definite (absurd past)
  simp only [if_neg inside]
  rw [Collector.setCount_at, ← left2]
  have state : ({ Collector.at_ frames ⟨node.length, count⟩ strDeck with
      refList := (Collector.at_ frames ⟨node.length, count⟩ strDeck).refList ++ [⟨len, 0⟩]
      curr := (Collector.at_ frames ⟨node.length, count⟩ strDeck).refList.length } : Collector) =
      .at_ (frames ++ [⟨node.length, count⟩]) ⟨len, 0⟩ strDeck := rfl
  rw [state]
  exact Acts.pure sound2 _

/-- One turn on a constructed piece that extends past its node throws. -/
theorem fillTurn_oversized (baseTag : AsnTag) (frames : List RefNode) (node : RefNode)
    (strDeck : List StringPair) {c : UInt8} {rest data : List UInt8} {len count : AsnLen}
    (sound : b.Sound) (short : c &&& 0x1F ≠ 0x1F) (unread : b.unread = c :: data)
    (notEoc : c.toUInt32 <<< 24 ≠ EOC_TAG_ID)
    (notPrimitive : ¬ (c.toUInt32 <<< 24 = makeTagId UNIV PRIM baseTag ∨ baseTag = 0))
    (known : c.toUInt32 <<< 24 = makeTagId UNIV CONS baseTag)
    (measured : ∀ b' : AsnBuf, b'.Sound → b'.unread = data →
      Acts (bDecLen (node.count + 1)) b' (.ok (len, count), rest))
    (shrinks : rest.length ≤ data.length) (definite : len ≠ INDEFINITE_LEN)
    (past : node.length < len + count) :
    Acts (fillTurn baseTag (.at_ frames node strDeck) node) b
      (.error (boundsException "Invalid constructed object"), rest) := by
  rw [fillTurn]
  refine (bDecTag_short sound short unread).bind sound (by simp [unread])
    fun b1 sound1 left1 => ?_
  have goesOn : ¬ (c.toUInt32 <<< 24 = EOC_TAG_ID ∧ node.length = INDEFINITE_LEN) :=
    fun both => notEoc both.1
  have constructed : c.toUInt32 <<< 24 = makeTagId UNIV CONS baseTag ∨
      baseTag = 0 ∧ tagIsCons (c.toUInt32 <<< 24) = true := .inl known
  simp only [if_neg goesOn, if_neg notPrimitive, if_pos constructed]
  refine (measured b1 sound1 left1).bind sound1 (by rwa [left1]) fun b2 sound2 left2 => ?_
  have outside : len ≠ INDEFINITE_LEN ∧ node.length < len + count := ⟨definite, past⟩
  simp only [if_pos outside]
  rw [← left2]
  exact Acts.throw sound2 _

/-- One turn on the end of contents ends a node of indefinite length. -/
theorem fillTurn_eoc (baseTag : AsnTag) (frames : List RefNode) (node : RefNode)
    (strDeck : List StringPair) {rest : List UInt8} (sound : b.Sound)
    (endless : node.length = INDEFINITE_LEN) (unread : b.unread = 0 :: 0 :: rest) :
    Acts (fillTurn baseTag (.at_ frames node strDeck) node) b
      (.ok (true, .at_ frames ⟨node.length, node.count + 2⟩ strDeck), rest) := by
  rw [fillTurn]
  refine (bDecTag_short sound (c := 0) (by decide) unread).bind sound (by simp [unread])
    fun b1 sound1 left1 => ?_
  have eoc : (0 : UInt8).toUInt32 <<< 24 = EOC_TAG_ID ∧ node.length = INDEFINITE_LEN :=
    ⟨rfl, endless⟩
  simp only [if_pos eoc]
  refine (sound1.getByte_cons left1).bind sound1 (by simp [left1]) fun b2 sound2 left2 => ?_
  have counted : node.count + 1 + 1 = node.count + 2 := by
    rw [UInt64.add_assoc]
    rfl
  rw [if_pos rfl, Collector.setCount_at, counted, ← left2]
  exact Acts.pure sound2 _

/-- One turn on a primitive piece that has more octets than are to come throws. -/
theorem fillTurn_missing (baseTag : AsnTag) (frames : List RefNode) (node : RefNode)
    (strDeck : List StringPair) {tag len rest : List UInt8} {m : Nat} (sound : b.Sound)
    (isTag : IsTag tag) (fitsTag : tag.length ≤ 4) (isLength : IsLength len m)
    (fitsLen : len.length ≤ 9) (unread : b.unread = tag ++ (len ++ rest))
    (notEoc : ¬ (tagWord tag = EOC_TAG_ID ∧ node.length = INDEFINITE_LEN))
    (known : tagWord tag = makeTagId UNIV PRIM baseTag ∨ baseTag = 0) (missing : rest.length < m)
    (word : m < 2 ^ 64) :
    ∃ text, Acts (fillTurn baseTag (.at_ frames node strDeck) node) b
      (.error (.invalidTagException text (tagWord tag)), rest) := by
  by_cases endless : UInt64.ofNat m = INDEFINITE_LEN
  · refine ⟨"Primitive String can not have INDEFINITE_LEN", ?_⟩
    rw [fillTurn]
    refine (bDecTag_isTag sound isTag fitsTag unread).bind sound (by simp [unread])
      fun b1 sound1 left1 => ?_
    simp only [if_neg notEoc, if_pos known]
    refine (bDecLen_isLength sound1 isLength fitsLen left1).bind sound1 (by simp [left1])
      fun b2 sound2 left2 => ?_
    simp only [if_pos endless]
    rw [← left2]
    exact Acts.throw sound2 _
  · refine ⟨"Primitive String, length", ?_⟩
    rw [fillTurn]
    refine (bDecTag_isTag sound isTag fitsTag unread).bind sound (by simp [unread])
      fun b1 sound1 left1 => ?_
    simp only [if_neg notEoc, if_pos known]
    refine (bDecLen_isLength sound1 isLength fitsLen left1).bind sound1 (by simp [left1])
      fun b2 sound2 left2 => ?_
    simp only [if_neg endless]
    refine sound2.length_acts.bind sound2 (Nat.le_refl _) fun b3 sound3 left3 => ?_
    have short : UInt64.ofNat b2.unread.length < UInt64.ofNat m := by
      rw [UInt64.lt_iff_toNat_lt, sound2.toNat_length, UInt64.toNat_ofNat', left2]
      omega
    rw [left2] at left3
    simp only [if_pos short]
    rw [← left3]
    exact Acts.throw sound3 _

/-- A turn on a header whose length is refused throws. -/
theorem fillTurn_long (baseTag : AsnTag) (frames : List RefNode) (node : RefNode)
    (strDeck : List StringPair) {c : UInt8} {data : List UInt8} {thrown : Thrown}
    (sound : b.Sound) (short : c &&& 0x1F ≠ 0x1F) (unread : b.unread = c :: data)
    (notEoc : c.toUInt32 <<< 24 ≠ EOC_TAG_ID)
    (known : c.toUInt32 <<< 24 = makeTagId UNIV PRIM baseTag ∨
      c.toUInt32 <<< 24 = makeTagId UNIV CONS baseTag)
    (refused : ∀ b' : AsnBuf, b'.Sound → b'.unread = data →
      ∃ rest, Acts (bDecLen (node.count + 1)) b' (.error thrown, rest)) :
    ∃ b', (fillTurn baseTag (.at_ frames node strDeck) node).run b = .error thrown b' := by
  obtain ⟨b1, ran, left1, onward⟩ := bDecTag_short (n := node.count) sound short unread
  have sound1 : b1.Sound := sound.onward onward (by rw [left1, unread]; simp)
  obtain ⟨rest, b2, failed, -⟩ := refused b1 sound1 left1
  refine ⟨b2, ?_⟩
  have goesOn : ¬ (c.toUInt32 <<< 24 = EOC_TAG_ID ∧ node.length = INDEFINITE_LEN) :=
    fun both => notEoc both.1
  rw [fillTurn, run_bind_of_ok ran]
  simp only [if_neg goesOn]
  -- Either branch reads the length next.
  by_cases primitive : c.toUInt32 <<< 24 = makeTagId UNIV PRIM baseTag ∨ baseTag = 0
  · simp only [if_pos primitive]
    exact run_bind_eq_error.mpr (.inl failed)
  · simp only [if_neg primitive]
    have constructed : c.toUInt32 <<< 24 = makeTagId UNIV CONS baseTag ∨
        baseTag = 0 ∧ tagIsCons (c.toUInt32 <<< 24) = true :=
      .inl (known.resolve_left fun same => primitive (.inl same))
    simp only [if_pos constructed]
    exact run_bind_eq_error.mpr (.inl failed)

/-! ## From turn to turn -/

section

variable {baseTag : AsnTag} {frames : List RefNode} {node : RefNode} {strDeck : List StringPair}

/-- The collector goes on behind a turn that does not meet the end of the node. -/
theorem fillTurns_of_turn {st : Collector} {rest : List UInt8} (sound : b.Sound)
    (more : node.more = true)
    (turn : Acts (fillTurn baseTag (.at_ frames node strDeck) node) b (.ok (false, st), rest))
    (shrinks : rest.length ≤ b.unread.length) :
    ∃ b' : AsnBuf, b'.Sound ∧ b'.unread = rest ∧ ∀ turns,
      (fillTurns baseTag (turns + 1) (.at_ frames node strDeck)).run b =
        (fillTurns baseTag turns st).run b' := by
  obtain ⟨b', ran, left, onward⟩ := turn
  refine ⟨b', sound.onward onward (by rw [left]; exact shrinks), left, fun turns => ?_⟩
  have next : (nextTurn baseTag (.at_ frames node strDeck)).run b = .ok (false, st) b' := by
    rw [nextTurn, Collector.getElem?_at]
    simp only [more, if_true]
    exact ran
  rw [fillTurns, run_bind_of_ok next]
  simp only [Bool.false_eq_true, if_false]

theorem fillTurns_of_error {thrown : Thrown} {b' : AsnBuf} (more : node.more = true)
    (turn : (fillTurn baseTag (.at_ frames node strDeck) node).run b = .error thrown b')
    (turns : Nat) :
    (fillTurns baseTag (turns + 1) (.at_ frames node strDeck)).run b = .error thrown b' := by
  rw [fillTurns]
  apply run_bind_eq_error.mpr
  left
  rw [nextTurn, Collector.getElem?_at]
  simp only [more, if_true]
  exact turn

/-- The collector is done with a node that is the root or has no node behind it. -/
theorem Collector.leave_at (frames : List RefNode) (node : RefNode) (strDeck : List StringPair) :
    ∃ st, (Collector.at_ frames node strDeck).leave = (true, st) ∧ st.strDeck = strDeck ∧
      (frames = [] → st = .at_ frames node strDeck) ∧
      (frames ≠ [] → st.refList = frames) := by
  rw [Collector.leave, Collector.getElem?_at]
  dsimp only
  cases frames with
  | nil => exact ⟨_, rfl, rfl, fun _ => rfl, fun some => absurd rfl some⟩
  | cons root inner =>
    have inside : ¬ (Collector.at_ (root :: inner) node strDeck).curr = 0 := by
      simp [Collector.at_]
    -- Without the last node, none is left at its place.
    have erased : (Collector.at_ (root :: inner) node strDeck).refList.eraseIdx
        (Collector.at_ (root :: inner) node strDeck).curr = root :: inner := by
      rw [Collector.at_]
      dsimp only
      rw [List.eraseIdx_append_of_length_le (Nat.le_refl _), Nat.sub_self]
      simp
    have past : (root :: inner)[(Collector.at_ (root :: inner) node strDeck).curr]? = none :=
      List.getElem?_eq_none (Nat.le_refl _)
    rw [if_neg inside]
    simp only [erased, past]
    exact ⟨_, rfl, rfl, fun empty => absurd empty (by simp), fun _ => rfl⟩

/-- The state that the collector is left in. -/
def Collector.Left (st : Collector) (frames : List RefNode) (node : RefNode)
    (strDeck : List StringPair) : Prop :=
  st.strDeck = strDeck ∧ (frames = [] → st = .at_ frames node strDeck) ∧
    (frames ≠ [] → st.refList = frames)

theorem fillTurns_done (baseTag : AsnTag) (frames : List RefNode) {node : RefNode}
    (strDeck : List StringPair) (turns : Nat) (sound : b.Sound) (ended : node.more = false) :
    ∃ st, Acts (fillTurns baseTag (turns + 1) (.at_ frames node strDeck)) b (.ok st, b.unread) ∧
      st.Left frames node strDeck := by
  obtain ⟨st, left, facts⟩ := Collector.leave_at frames node strDeck
  refine ⟨st, ?_, facts⟩
  rw [fillTurns, nextTurn, Collector.getElem?_at]
  simp only [ended, Bool.false_eq_true, if_false, pure_bind, if_true, left]
  exact Acts.pure sound st

/-- The collector is left at the end of contents. -/
theorem fillTurns_eoc (baseTag : AsnTag) (frames : List RefNode) (node : RefNode)
    (strDeck : List StringPair) (turns : Nat) {rest : List UInt8} (sound : b.Sound)
    (endless : node.length = INDEFINITE_LEN) (unread : b.unread = 0 :: 0 :: rest) :
    ∃ st, Acts (fillTurns baseTag (turns + 1) (.at_ frames node strDeck)) b (.ok st, rest) ∧
      st.Left frames ⟨node.length, node.count + 2⟩ strDeck := by
  obtain ⟨st, left, facts⟩ := Collector.leave_at frames ⟨node.length, node.count + 2⟩ strDeck
  refine ⟨st, ?_, facts⟩
  have more : node.more = true := by
    simp [RefNode.more, endless]
  rw [fillTurns, nextTurn, Collector.getElem?_at]
  simp only [more, if_true]
  have shrinks : rest.length ≤ b.unread.length := by
    rw [unread, List.length_cons, List.length_cons]
    omega
  have turn := fillTurn_eoc baseTag frames node strDeck sound endless unread
  refine turn.bind sound shrinks fun b' sound' gone => ?_
  simp only [if_true, left]
  rw [← gone]
  exact Acts.pure sound' st

end

/-! ## Inside a constructed piece -/

/-- The collector works on the last node, which is not the root. -/
structure Collector.Inside (root : RefNode) (st : Collector) : Prop where
  below : 0 < st.curr
  last : st.curr + 1 = st.refList.length
  root : st.refList.head? = some root

/-- A count of a node below the root leaves the root alone. -/
theorem Collector.Inside.setCount {root : RefNode} {st : Collector} (inside : st.Inside root)
    (count : AsnLen) : (st.setCount count).Inside root := by
  obtain ⟨below, last, head⟩ := inside
  refine ⟨below, ?_, ?_⟩
  · rw [Collector.setCount, List.length_modify]
    exact last
  · rw [Collector.setCount]
    cases nodes : st.refList with
    | nil => simp [nodes] at head
    | cons first rest =>
      obtain ⟨k, place⟩ := Nat.exists_eq_succ_of_ne_zero (Nat.ne_of_gt below)
      rw [nodes] at head
      rw [place]
      exact head

/-- A turn below the root stays there. -/
theorem fillTurn_inside {baseTag : AsnTag} {root node : RefNode} {st st' : Collector} {ended : Bool}
    {b' : AsnBuf} (inside : st.Inside root)
    (ran : (fillTurn baseTag st node).run b = .ok (ended, st') b') : st'.Inside root := by
  rw [fillTurn] at ran
  obtain ⟨⟨tag, count⟩, b1, -, ran⟩ := run_bind_eq_ok.mp ran
  dsimp only at ran
  by_cases eoc : tag = EOC_TAG_ID ∧ node.length = INDEFINITE_LEN
  · rw [if_pos eoc] at ran
    obtain ⟨second, b2, -, ran⟩ := run_bind_eq_ok.mp ran
    by_cases zero : second = 0
    · rw [if_pos zero] at ran
      obtain ⟨-, same⟩ := run_pure_eq_ok.mp ran
      rw [(Prod.mk.inj same).2]
      exact inside.setCount _
    · rw [if_neg zero] at ran
      cases ran
  · rw [if_neg eoc] at ran
    by_cases primitive : tag = makeTagId UNIV PRIM baseTag ∨ baseTag = 0
    · rw [if_pos primitive] at ran
      obtain ⟨⟨len, count'⟩, b2, -, ran⟩ := run_bind_eq_ok.mp ran
      dsimp only at ran
      by_cases endless : len = INDEFINITE_LEN
      · rw [if_pos endless] at ran
        cases ran
      · rw [if_neg endless] at ran
        obtain ⟨total, b3, -, ran⟩ := run_bind_eq_ok.mp ran
        by_cases short : total < len
        · rw [if_pos short] at ran
          cases ran
        · rw [if_neg short] at ran
          obtain ⟨strPtr, b4, -, ran⟩ := run_bind_eq_ok.mp ran
          obtain ⟨-, same⟩ := run_pure_eq_ok.mp ran
          rw [(Prod.mk.inj same).2]
          obtain ⟨below, last, head⟩ := inside.setCount (count' + len)
          exact ⟨below, last, head⟩
    · rw [if_neg primitive] at ran
      by_cases constructed : tag = makeTagId UNIV CONS baseTag ∨ baseTag = 0 ∧ tagIsCons tag = true
      · rw [if_pos constructed] at ran
        obtain ⟨⟨len, count'⟩, b2, -, ran⟩ := run_bind_eq_ok.mp ran
        dsimp only at ran
        by_cases past : len ≠ INDEFINITE_LEN ∧ node.length < len + count'
        · rw [if_pos past] at ran
          cases ran
        · rw [if_neg past] at ran
          obtain ⟨-, same⟩ := run_pure_eq_ok.mp ran
          rw [(Prod.mk.inj same).2]
          -- The new node stands behind all others.
          obtain ⟨below, last, head⟩ := inside.setCount count'
          refine ⟨?_, by simp, ?_⟩
          · change 0 < (st.setCount count').refList.length
            omega
          · rw [List.head?_append, head]
            rfl
      · rw [if_neg constructed] at ran
        cases ran

theorem nextTurn_inside {baseTag : AsnTag} {root : RefNode} {st st' : Collector} {ended : Bool}
    {b' : AsnBuf} (inside : st.Inside root)
    (ran : (nextTurn baseTag st).run b = .ok (ended, st') b') : st'.Inside root := by
  rw [nextTurn] at ran
  cases listed : st.refList[st.curr]? with
  | none =>
    rw [listed] at ran
    obtain ⟨-, same⟩ := run_pure_eq_ok.mp ran
    rw [(Prod.mk.inj same).2]
    exact inside
  | some node =>
    rw [listed] at ran
    dsimp only at ran
    by_cases more : node.more = true
    · rw [if_pos more] at ran
      exact fillTurn_inside inside ran
    · rw [if_neg more] at ran
      obtain ⟨-, same⟩ := run_pure_eq_ok.mp ran
      rw [(Prod.mk.inj same).2]
      exact inside

/-- Below the root, the collector never comes back to it. -/
theorem fillTurns_inside {baseTag : AsnTag} {root : RefNode} {turns : Nat} {st st' : Collector}
    {b' : AsnBuf} (inside : st.Inside root)
    (ran : (fillTurns baseTag turns st).run b = .ok st' b') : st'.refList.head? = some root := by
  -- The induction is on the turns; the node worked on is always the last one.
  induction turns generalizing st b with
  | zero => cases ran
  | succ turns ih =>
    rw [fillTurns] at ran
    obtain ⟨⟨ended, st1⟩, b1, turn, ran⟩ := run_bind_eq_ok.mp ran
    have stays : st1.Inside root := nextTurn_inside inside turn
    dsimp only at ran
    by_cases past : ended = true
    · rw [if_pos past] at ran
      -- The last node is erased, and there is none behind it.
      obtain ⟨inner, node1, nodes⟩ : ∃ inner node1, st1.refList = inner ++ [node1] := by
        refine ⟨st1.refList.dropLast, st1.refList.getLast ?_, (List.dropLast_append_getLast _).symm⟩
        intro empty
        have none := stays.root
        rw [empty] at none
        cases none
      have place : st1.curr = inner.length := by
        have size := stays.last
        rw [nodes, List.length_append, List.length_singleton] at size
        omega
      have shape : st1 = .at_ inner node1 st1.strDeck := by
        obtain ⟨refList, curr, strDeck⟩ := st1
        simp only at nodes place
        rw [nodes, place, Collector.at_]
      obtain ⟨st2, left, -, -, rest⟩ := Collector.leave_at inner node1 st1.strDeck
      rw [shape, left] at ran
      simp only [if_true] at ran
      obtain ⟨-, same⟩ := run_pure_eq_ok.mp ran
      have some : inner ≠ [] := by
        rintro rfl
        have positive := stays.below
        rw [place] at positive
        exact Nat.lt_irrefl 0 positive
      have head1 := stays.root
      rw [nodes, List.head?_append_of_ne_nil _ some] at head1
      rw [same, rest some]
      exact head1
    · rw [if_neg past] at ran
      exact ih stays ran

end Esnacc.Cxx
