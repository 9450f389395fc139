import Esnacc.Ber.Lengths
import Esnacc.Ber.ShortPeeks
import Esnacc.Lib.BigEndian
import Esnacc.Tbl.Decode

/-! Tags read and peeked: which identifiers are taken, and which words they have. -/

namespace Esnacc

open Lib

/-! ## Identifiers and their words -/

/-- An identifier that does not end within the four octets of a word. -/
def Unended (w : List UInt8) : Prop :=
  ∃ first more, w = first :: more ∧ first &&& 0x1F = 0x1F ∧ more.length = 3 ∧
    ∀ c ∈ more, c &&& 0x80 ≠ 0

/-- The octets behind the first one of a long tag end it or fill the word. -/
theorem tagRest_iff {room : Nat} {w : List UInt8} :
    TagRest room w ↔
      (∃ more last, w = more ++ [last] ∧ (∀ c ∈ more, c &&& 0x80 ≠ 0) ∧ last &&& 0x80 = 0 ∧
        more.length < room) ∨ (w.length = room ∧ ∀ c ∈ w, c &&& 0x80 ≠ 0) := by
  induction room generalizing w with
  | zero =>
    constructor
    · rintro rfl
      exact .inr ⟨rfl, by simp⟩
    · rintro (⟨more, last, -, -, -, few⟩ | ⟨size, -⟩)
      · exact absurd few (Nat.not_lt_zero _)
      · exact List.length_eq_zero_iff.mp size
  | succ room ih =>
    constructor
    · rintro ⟨c, rest, rfl, ends⟩
      by_cases goesOn : c &&& 0x80 ≠ 0
      · rw [if_pos goesOn, ih] at ends
        rcases ends with ⟨more, last, rfl, top, clear, few⟩ | ⟨size, top⟩
        · exact .inl ⟨c :: more, last, rfl, List.forall_mem_cons.mpr ⟨goesOn, top⟩, clear,
            Nat.succ_lt_succ few⟩
        · exact .inr ⟨by rw [List.length_cons, size], List.forall_mem_cons.mpr ⟨goesOn, top⟩⟩
      · rw [if_neg goesOn] at ends
        subst ends
        exact .inl ⟨[], c, rfl, by simp, not_not.mp goesOn, Nat.succ_pos room⟩
    · rintro (⟨more, last, rfl, top, clear, few⟩ | ⟨size, top⟩)
      · cases more with
        | nil => exact ⟨last, [], rfl, by rw [if_neg (not_not.mpr clear)]⟩
        | cons c more =>
          rw [List.forall_mem_cons] at top
          refine ⟨c, more ++ [last], rfl, ?_⟩
          rw [if_pos top.1, ih]
          exact .inl ⟨more, last, rfl, top.2, clear, Nat.lt_of_succ_lt_succ few⟩
      · cases w with
        | nil => exact absurd size (by simp)
        | cons c w =>
          rw [List.forall_mem_cons] at top
          refine ⟨c, w, rfl, ?_⟩
          rw [if_pos top.1, ih]
          exact .inr ⟨Nat.succ.inj size, top.2⟩

/-- What is read for a tag is an identifier of at most four octets, or the start of a longer one. -/
theorem tagRead_iff {w : List UInt8} :
    (∃ tag, TagRead w tag) ↔ IsTag w ∧ w.length ≤ 4 ∨ Unended w := by
  constructor
  · rintro ⟨tag, first, more, rfl, -, ends⟩
    by_cases long : first &&& 0x1F = 0x1F
    · rw [if_pos long, tagRest_iff] at ends
      rcases ends with ⟨more, last, rfl, top, clear, few⟩ | ⟨size, top⟩
      · refine .inl ⟨.inr ⟨first, more, last, rfl, long, top, clear⟩, ?_⟩
        rw [List.length_cons, List.length_append, List.length_singleton]
        omega
      · exact .inr ⟨first, more, rfl, long, size, top⟩
    · rw [if_neg long] at ends
      subst ends
      exact .inl ⟨.inl ⟨first, rfl, long⟩, by simp⟩
  · rintro (⟨⟨first, rfl, short⟩ | ⟨first, more, last, rfl, long, top, clear⟩, few⟩ |
      ⟨first, more, rfl, long, size, top⟩)
    · exact ⟨_, first, [], rfl, rfl, by rw [if_neg short]⟩
    · rw [List.length_cons, List.length_append, List.length_singleton] at few
      refine ⟨_, first, more ++ [last], rfl, rfl, ?_⟩
      rw [if_pos long, tagRest_iff]
      exact .inl ⟨more, last, rfl, top, clear, by omega⟩
    · refine ⟨_, first, more, rfl, rfl, ?_⟩
      rw [if_pos long, tagRest_iff]
      exact .inr ⟨size, top⟩

/-- The octets of a word that are read for its tag. -/
def octetsRead (a b c d : UInt8) : List UInt8 :=
  if a &&& 0x1F = 0x1F then
    a :: b :: if b &&& 0x80 ≠ 0 then c :: if c &&& 0x80 ≠ 0 then [d] else [] else []
  else [a]

/-- The word of a tag tells the octets that it was read from. -/
theorem TagRead.exists_fourOctets {w : List UInt8} {tag : AsnTag} (read : TagRead w tag) :
    ∃ a b c d, tag = fourOctets a b c d ∧ w = octetsRead a b c d := by
  obtain ⟨a, more, rfl, rfl, ends⟩ := read
  by_cases long : a &&& 0x1F = 0x1F
  · rw [if_pos long] at ends
    obtain ⟨b, more, rfl, ends⟩ := ends
    by_cases second : b &&& 0x80 ≠ 0
    · rw [if_pos second] at ends
      obtain ⟨c, more, rfl, ends⟩ := ends
      by_cases third : c &&& 0x80 ≠ 0
      · rw [if_pos third] at ends
        obtain ⟨d, more, rfl, ends⟩ := ends
        have last : more = [] := by
          by_cases fourth : d &&& 0x80 ≠ 0
          · rwa [if_pos fourth] at ends
          · rwa [if_neg fourth] at ends
        subst last
        refine ⟨a, b, c, d, ?_, by rw [octetsRead, if_pos long, if_pos second, if_pos third]⟩
        change _ ||| d.toUInt32 <<< 0 = _
        rw [UInt32.shiftLeft_zero]
        rfl
      · rw [if_neg third] at ends
        subst ends
        refine ⟨a, b, c, 0, ?_, by rw [octetsRead, if_pos long, if_pos second, if_neg third]⟩
        simp [tagWordFrom, fourOctets]
    · rw [if_neg second] at ends
      subst ends
      refine ⟨a, b, 0, 0, ?_, by rw [octetsRead, if_pos long, if_neg second]⟩
      simp [tagWordFrom, fourOctets]
  · rw [if_neg long] at ends
    subst ends
    refine ⟨a, 0, 0, 0, ?_, by rw [octetsRead, if_neg long]⟩
    simp [tagWordFrom, fourOctets]

theorem TagRead.unique {w w' : List UInt8} {tag : AsnTag} (read : TagRead w tag)
    (read' : TagRead w' tag) : w = w' := by
  obtain ⟨a, b, c, d, word, rfl⟩ := read.exists_fourOctets
  obtain ⟨a', b', c', d', word', rfl⟩ := read'.exists_fourOctets
  obtain ⟨rfl, rfl, rfl, rfl⟩ := fourOctets_inj (word.symm.trans word')
  rfl

/-! ## Peeks -/

section

variable {β : Type} [GenBuf β] {unread : β → List UInt8} {ready : Prop} {s : DecState β}

theorem PeeksHeld.run_bufPeekCopy (peeks : PeeksHeld unread ready s.buf) (isReady : ready) {k : Nat}
    (some : 0 < k) (few : k ≤ 4) (enough : k ≤ (unread s.buf).length) :
    (bufPeekCopy (UInt64.ofNat k) : Dec β _).run s = .ok ((unread s.buf).take k) s := by
  obtain ⟨number, peeked⟩ := peeks.held k some few isReady enough
  rw [EStateM.run, bufPeekCopy, peeked]

/-- A peek at an octet that is not held reads one that was never written. -/
theorem PeeksHeld.run_bufPeekCopy_short {α : Type} (peeks : PeeksHeld unread ready s.buf) {k : Nat}
    (few : k < 4) (missing : ¬ (ready ∧ k + 1 ≤ (unread s.buf).length)) (f : UInt8 → Dec β α) :
    ∃ s', (bufPeekCopy (UInt64.ofNat (k + 1)) >>= fun octets =>
      match octets[k]? with
      | none => throw .fault
      | some c => f c).run s = .error .fault s' := by
  rw [EStateM.run_bind]
  cases peeked : GenBuf.peekCopy s.buf (UInt64.ofNat (k + 1)) with
  | none => exact ⟨s, by rw [EStateM.run, bufPeekCopy, peeked]⟩
  | some result =>
    obtain ⟨octets, number, b'⟩ := result
    have short := peeks.short (k + 1) (Nat.succ_pos k) few missing octets number b' peeked
    have unwritten : octets[k]? = none := List.getElem?_eq_none (Nat.le_of_lt_succ short)
    refine ⟨{ s with buf := b' }, ?_⟩
    have ran : (bufPeekCopy (UInt64.ofNat (k + 1)) : Dec β _).run s = .ok octets { s with buf := b' } := by
      rw [EStateM.run, bufPeekCopy, peeked]
    rw [ran]
    dsimp only
    rw [unwritten]
    rfl

/-- The loop of a peek goes over the octets that are there, and leaves the buffer as it is. -/
theorem PeeksHeld.peekTagLoop_held (peeks : PeeksHeld unread ready s.buf) (isReady : ready)
    {room : Nat} (tagId : AsnTag) (passed : List UInt8) {w rest : List UInt8} (place : passed.length + room = 4)
    (begun : passed ≠ []) (held : unread s.buf = passed ++ (w ++ rest)) (taken : TagRest room w) :
    ∃ i, i ≤ 5 ∧ (peekTagLoop room tagId).run s = .ok (i, tagWordFrom room tagId w) s := by
  -- The induction is on the octets that still fit the word; those passed are peeked again.
  induction room generalizing tagId passed w with
  | zero =>
    obtain rfl : w = [] := taken
    exact ⟨5, Nat.le_refl 5, rfl⟩
  | succ room ih =>
    obtain ⟨c, more, rfl, ends⟩ := taken
    have first := List.length_pos_of_ne_nil begun
    have count : 4 - room = passed.length + 1 := by omega
    have peek := peeks.run_bufPeekCopy isReady (k := passed.length + 1) (by omega) (by omega)
      (by rw [held]; simp)
    have octet : ((unread s.buf).take (passed.length + 1))[3 - room]? = some c := by
      rw [show 3 - room = passed.length by omega, held, List.getElem?_take_of_lt (by omega),
        List.getElem?_append_right (Nat.le_refl _), Nat.sub_self]
      rfl
    rw [peekTagLoop, count, run_bind_of_ok peek]
    simp only [octet]
    by_cases goesOn : c &&& 0x80 ≠ 0
    · rw [if_pos goesOn] at ends
      rw [if_pos (bne_iff_ne.mpr goesOn)]
      exact ih _ (passed ++ [c]) (by simp; omega) (by simp)
        (by rw [held, List.append_assoc]; rfl) ends
    · rw [if_neg goesOn] at ends
      subst ends
      refine ⟨5 - room, Nat.sub_le 5 room, ?_⟩
      rw [if_neg (fun top => goesOn (bne_iff_ne.mp top))]
      cases room <;> rfl

/-- The loop of a peek faults where the octets run out. -/
theorem PeeksHeld.peekTagLoop_short (peeks : PeeksHeld unread ready s.buf) (isReady : ready)
    {room : Nat} (tagId : AsnTag) (passed : List UInt8) {w : List UInt8} (place : passed.length + room = 4)
    (begun : passed ≠ []) (held : unread s.buf = passed ++ w)
    (missing : ¬ ∃ more rest, TagRest room more ∧ w = more ++ rest) :
    ∃ s', (peekTagLoop room tagId).run s = .error .fault s' := by
  induction room generalizing tagId passed w with
  | zero => exact absurd ⟨[], w, rfl, rfl⟩ missing
  | succ room ih =>
    have first := List.length_pos_of_ne_nil begun
    have count : 4 - room = passed.length + 1 := by omega
    have place' : 3 - room = passed.length := by omega
    rw [peekTagLoop, count, place']
    cases w with
    | nil =>
      rw [List.append_nil] at held
      exact peeks.run_bufPeekCopy_short (by omega) (fun both => by
        have := both.2
        rw [held] at this
        omega) _
    | cons c w =>
      have peek := peeks.run_bufPeekCopy isReady (k := passed.length + 1) (by omega) (by omega)
        (by rw [held]; simp)
      have octet : ((unread s.buf).take (passed.length + 1))[passed.length]? = some c := by
        rw [held, List.getElem?_take_of_lt (by omega),
          List.getElem?_append_right (Nat.le_refl _), Nat.sub_self]
        rfl
      rw [run_bind_of_ok peek]
      simp only [octet]
      by_cases goesOn : c &&& 0x80 ≠ 0
      · rw [if_pos (bne_iff_ne.mpr goesOn)]
        refine ih _ (passed ++ [c]) (by simp; omega) (by simp)
          (by rw [held, List.append_assoc]; rfl) ?_
        rintro ⟨more, rest, taken, rfl⟩
        exact missing ⟨c :: more, rest, ⟨c, more, rfl, by rwa [if_pos goesOn]⟩, rfl⟩
      · exact absurd ⟨[c], w, ⟨c, [], rfl, by rw [if_neg goesOn]⟩, rfl⟩ missing

/-- A tag that is there is peeked, and left in place. -/
theorem PeeksHeld.peekTag_held (peeks : PeeksHeld unread ready s.buf) (isReady : ready)
    {w rest : List UInt8} {tag : AsnTag} (held : unread s.buf = w ++ rest) (read : TagRead w tag) :
    peekTag.run s = .ok tag s := by
  obtain ⟨first, more, rfl, rfl, ends⟩ := read
  have peek := peeks.run_bufPeekCopy isReady (k := 1) (by omega) (by omega) (by rw [held]; simp)
  have octet : ((unread s.buf).take 1)[0]? = some first := by
    rw [held]
    rfl
  rw [peekTag, show (1 : UInt64) = UInt64.ofNat 1 from rfl, run_bind_of_ok peek]
  simp only [octet]
  by_cases long : first &&& 0x1F = 0x1F
  · rw [if_pos long] at ends
    obtain ⟨i, few, ran⟩ := peeks.peekTagLoop_held isReady (first.toUInt32 <<< 24)
      [first] rfl (by simp) held ends
    rw [if_pos (beq_iff_eq.mpr ((longTag_iff first).mpr long)), run_bind_of_ok ran]
    dsimp only
    rw [if_neg (by omega)]
    rfl
  · rw [if_neg long] at ends
    subst ends
    rw [if_neg (fun same => long ((longTag_iff first).mp (beq_iff_eq.mp same)))]
    rfl

/-- A peek at a tag that is not there, or that the buffer is not ready for, faults. -/
theorem PeeksHeld.peekTag_short (peeks : PeeksHeld unread ready s.buf)
    (missing : ready → ¬ ∃ w rest tag, TagRead w tag ∧ unread s.buf = w ++ rest) :
    ∃ s', peekTag.run s = .error .fault s' := by
  rw [peekTag, show (1 : UInt64) = UInt64.ofNat (0 + 1) from rfl]
  by_cases isReady : ready
  · cases held : unread s.buf with
    | nil => exact peeks.run_bufPeekCopy_short (by omega) (fun both => by simp [held] at both) _
    | cons first tail =>
      have peek := peeks.run_bufPeekCopy isReady (k := 0 + 1) (by omega) (by omega)
        (by rw [held]; simp)
      have octet : ((unread s.buf).take (0 + 1))[0]? = some first := by
        rw [held]
        rfl
      rw [run_bind_of_ok peek]
      simp only [octet]
      by_cases long : first &&& 0x1F = 0x1F
      · obtain ⟨s', fault⟩ := peeks.peekTagLoop_short isReady (first.toUInt32 <<< 24)
          [first] rfl (by simp) held (by
            rintro ⟨more, rest, taken, rfl⟩
            exact missing isReady ⟨first :: more, rest, _, ⟨first, more, rfl, rfl,
              by rwa [if_pos long]⟩, held⟩)
        refine ⟨s', ?_⟩
        rw [if_pos (beq_iff_eq.mpr ((longTag_iff first).mpr long)), EStateM.run_bind, fault]
      · exact absurd ⟨[first], tail, _, ⟨first, [], rfl, rfl, by rw [if_neg long]⟩, held⟩
          (missing isReady)
  · exact peeks.run_bufPeekCopy_short (by omega) (fun both => isReady both.1) _

/-! ## Both readers -/

/-- A peek finds the tag that is read, or fails where the read does, and leaves what is unread. -/
def SameTag (unread : β → List UInt8) (s : DecState β) :
    EStateM.Result Exit (DecState β) (AsnTag × AsnLen) →
      EStateM.Result Exit (DecState β) AsnTag → Prop
  | .ok (tag, _) _, .ok tag' s' => tag' = tag ∧ unread s'.buf = unread s.buf
  | .error (.longjmp _ _) _, .error (.longjmp _ _) s' => unread s'.buf = unread s.buf
  | _, _ => False

/-- Identifiers are accepted where they end within four octets and refused where they do not, the
accepted ones have words of their own, and a peek agrees with the read. -/
structure TagsExact (inv : β → Prop) (unread : β → List UInt8) (s : DecState β) : Prop where
  complete : ∀ {n tag m s'}, (bDecTag n).run s = .ok (tag, m) s' →
    ∃ w, IsTag w ∧ w.length ≤ 4 ∧ unread s.buf = w ++ unread s'.buf
  overflow : ∀ {w}, Unended w → w <+: unread s.buf → ∀ n, ∃ s', (bDecTag n).run s =
    .error (.longjmp (some "BDecTag: ERROR - tag value overflow\n") (-25)) s'
  distinct : ∀ {t : DecState β} {n n' m m' tag s' t' w w'}, inv t.buf →
    (bDecTag n).run s = .ok (tag, m) s' → (bDecTag n').run t = .ok (tag, m') t' → tag ≠ 0 →
      IsTag w → w <+: unread s.buf → IsTag w' → w' <+: unread t.buf → w = w'
  peek : ∀ n, SameTag unread s ((bDecTag n).run s) (peekTag.run s)

theorem Unended.not_isTag {w : List UInt8} (unended : Unended w) : ¬ IsTag w := by
  obtain ⟨first, more, rfl, long, -, top⟩ := unended
  rintro (⟨first', same, short⟩ | ⟨first', more', last, same, -, -, clear⟩)
  · obtain ⟨rfl, -⟩ := List.cons.inj same
    exact short long
  · obtain ⟨-, rfl⟩ := List.cons.inj same
    exact top last (by simp) clear

theorem InOrder.clear_of_bDecTag {inv : β → Prop} {handles : UInt64 → Prop}
    (inOrder : InOrder inv handles unread) {s' : DecState β} {n m : AsnLen} {tag : AsnTag}
    (holds : inv s.buf) (ran : (bDecTag n).run s = .ok (tag, m) s') :
    GenBuf.readError s.buf = false := by
  obtain ⟨k, some, rfl, clear⟩ := bDecTag_hasRead ran
  obtain ⟨j, rfl⟩ := Nat.exists_eq_succ_of_ne_zero (Nat.ne_of_gt some)
  obtain ⟨c, rest, -, noError⟩ := inOrder.held_of_clear holds clear
  exact noError

/-- Tags are exact where the buffer begins with an identifier that ends within four octets. -/
theorem InOrder.exactTags_iff {inv : β → Prop} {handles : UInt64 → Prop}
    (inOrder : InOrder inv handles unread) (holds : inv s.buf)
    (peeks : PeeksHeld unread ready s.buf) :
    TagsExact inv unread s ↔ GenBuf.readError s.buf = false ∧ ready ∧
      ∃ w, IsTag w ∧ w.length ≤ 4 ∧ w <+: unread s.buf := by
  constructor
  · intro exact
    have alike := exact.peek 0
    -- A peek that faults agrees with no read.
    have noFault : ∀ s', peekTag.run s ≠ .error .fault s' := by
      intro s' fault
      rw [fault] at alike
      cases read : (bDecTag 0).run s with
      | ok result t => simp [read, SameTag] at alike
      | error e t => cases e <;> simp [read, SameTag] at alike
    have isReady : ready := by
      by_contra notReady
      obtain ⟨s', fault⟩ := peeks.peekTag_short fun isReady => absurd isReady notReady
      exact noFault s' fault
    obtain ⟨w, rest, tag, read, tape⟩ : ∃ w rest tag, TagRead w tag ∧ unread s.buf = w ++ rest := by
      by_contra missing
      obtain ⟨s', fault⟩ := peeks.peekTag_short fun _ => missing
      exact noFault s' fault
    have noError : GenBuf.readError s.buf = false := by
      by_contra failed
      rw [peeks.peekTag_held isReady tape read] at alike
      cases ran : (bDecTag 0).run s with
      | ok result t => exact failed (inOrder.clear_of_bDecTag (m := result.2) holds ran)
      | error e t => cases e <;> simp [ran, SameTag] at alike
    refine ⟨noError, isReady, ?_⟩
    rcases tagRead_iff.mp ⟨tag, read⟩ with ⟨isTag, few⟩ | unended
    · exact ⟨w, isTag, few, rest, tape.symm⟩
    · obtain ⟨t, ran, -⟩ := inOrder.bDecTag_recognises.accepts ⟨holds, noError⟩ tape read 0
      obtain ⟨t', refused⟩ := exact.overflow unended ⟨rest, tape.symm⟩ 0
      rw [ran] at refused
      cases refused
  · rintro ⟨noError, isReady, w, isTag, few, rest, tape⟩
    obtain ⟨tag, read⟩ := tagRead_iff.mpr (.inl ⟨isTag, few⟩)
    have takes := inOrder.bDecTag_recognises.accepts (s := s) ⟨holds, noError⟩ tape.symm read
    refine ⟨?_, ?_, ?_, ?_⟩
    · intro n tag' m s' ran
      obtain ⟨t, ran', -, left⟩ := takes n
      obtain ⟨-, rfl⟩ := EStateM.Result.ok.inj (ran'.symm.trans ran)
      exact ⟨w, isTag, few, by rw [show unread t.buf = rest from left, tape]⟩
    · rintro w' unended ⟨rest', tape'⟩ n
      obtain ⟨tag', read'⟩ := tagRead_iff.mpr (.inr unended)
      obtain ⟨rfl, -⟩ := inOrder.bDecTag_recognises.unique 0 (s := s) ⟨holds, noError⟩ tape.symm
        tape'.symm read read'
      exact absurd isTag unended.not_isTag
    · intro t n n' m m' tag' s' t' v v' holds' ran ran' _ isTag' starts isTag'' starts'
      obtain ⟨here, ranHere, -⟩ := takes n
      rw [ranHere, EStateM.Result.ok.injEq, Prod.mk.injEq] at ran
      obtain ⟨⟨rfl, -⟩, -⟩ := ran
      obtain ⟨-, u, readThere, tapeThere, -⟩ := inOrder.bDecTag_recognises.sound
        ⟨holds', inOrder.clear_of_bDecTag holds' ran'⟩ ran'
      obtain rfl := read.unique readThere
      rw [isTag'.unique isTag starts ⟨rest, tape⟩]
      exact isTag.unique isTag'' ⟨_, tapeThere.symm⟩ starts'
    · intro n
      obtain ⟨t, ran, -⟩ := takes n
      rw [ran, peeks.peekTag_held isReady tape.symm read]
      exact ⟨rfl, rfl⟩

end

/-- In simple buffers and in chains, tags are exact where no read has failed and the data begins with
an identifier that ends within four octets, in a chain one that does not stand behind a finished block. -/
theorem tagsExact_iff (s : DecState SBuf) (t : DecState ExpBufRef) :
    (TagsExact (fun _ => True) SBuf.unread s ↔
      s.buf.readError = false ∧ ∃ w, IsTag w ∧ w.length ≤ 4 ∧ w <+: s.buf.unread) ∧
    (t.buf.Steady → (TagsExact ExpBufRef.Steady ExpBufRef.unread t ↔
      t.buf.buf.readError = false ∧ expBufAtEod t.buf.buf = false ∧
        ∃ w, IsTag w ∧ w.length ≤ 4 ∧ w <+: t.buf.unread)) := by
  constructor
  · have onSBuf := sBuf_inOrder.exactTags_iff (s := s) trivial s.buf.peeksHeld
    rwa [true_and] at onSBuf
  · intro steady
    exact expBuf_inOrder.exactTags_iff steady steady.peeksHeld

theorem tagsExact_iff_one_octet :
    TagsExact (fun _ => True) SBuf.unread ⟨sBufInstallData (fun _ => 5) 4096 1, initialGlobals⟩ ∧
      TagsExact ExpBufRef.Steady ExpBufRef.unread
        ⟨expBufInstallDataInBuf ⟨fun _ => 5, 4096⟩ 1, initialGlobals⟩ := by
  have steady : (expBufInstallDataInBuf ⟨fun _ => 5, 4096⟩ 1).Steady :=
    ⟨⟨⟨by decide, by decide⟩, fun _ linked => absurd linked List.not_mem_nil⟩,
      fun set => absurd set (by decide), fun _ linked => absurd linked List.not_mem_nil,
      by decide⟩
  have isTag : IsTag [5] := .inl ⟨5, rfl, by decide⟩
  obtain ⟨simple, chain⟩ := tagsExact_iff
    ⟨sBufInstallData (fun _ => 5) 4096 1, initialGlobals⟩
    ⟨expBufInstallDataInBuf ⟨fun _ => 5, 4096⟩ 1, initialGlobals⟩
  exact ⟨simple.mpr ⟨rfl, [5], isTag, by decide, [], rfl⟩,
    (chain steady).mpr ⟨rfl, rfl, [5], isTag, by decide, [], rfl⟩⟩

/-- A tag of five octets is accepted, without its last one. -/
theorem not_tagsExact : ¬ ∀ s : DecState SBuf, TagsExact (fun _ => True) SBuf.unread s := by
  intro exact
  -- The five octets are 1F, 81, 81, 81 and 01.
  have here := (sBuf_inOrder.exactTags_iff trivial (SBuf.peeksHeld _)).mp (exact
    ⟨sBufInstallData
      (fun a => if a = 4096 then 0x1F else if a = 4100 then 1 else 0x81) 4096 5, initialGlobals⟩)
  obtain ⟨-, -, w, isTag, few, starts⟩ := here
  have whole : IsTag [0x1F, 0x81, 0x81, 0x81, 0x01] :=
    .inr ⟨0x1F, [0x81, 0x81, 0x81], 0x01, rfl, by decide, by decide +kernel, by decide⟩
  rw [isTag.unique whole starts ⟨[], rfl⟩] at few
  exact absurd few (by decide)

end Esnacc
