import Esnacc.Cxx.GenElmt
import Esnacc.Cxx.SetOf
import Esnacc.Ber.Tag

/-! Putting tags and lengths in front of what was encoded, as the C++ code that is printed does. -/

namespace Esnacc.Cxx

open Lib

/-! ## Source -/

/-- Put an octet in front of the data. -/
def putByteRvs (octet : UInt8) : BufM Unit :=
  onBuf fun b => do return ((), ← b.putByteRvs octet)

/-- Put octets in front of the data, one after the other. -/
def putEachRvs : List UInt8 → BufM Unit
  | [] => return
  | octet :: rest => do
    putByteRvs octet
    putEachRvs rest

/-- Encode a definite length; one that does not fit four octets is cut. -/
def bEncDefLen (len : AsnLen) : BufM AsnLen := do
  if len < 128 then
    putEachRvs [len.toUInt8]
    return 1
  else if len < 256 then
    putEachRvs [len.toUInt8, 0x81]
    return 2
  else if len < 65536 then
    putEachRvs [len.toUInt8, (len >>> 8).toUInt8, 0x82]
    return 3
  else if len < 16777126 then
    putEachRvs [len.toUInt8, (len >>> 8).toUInt8, (len >>> 16).toUInt8, 0x83]
    return 4
  else
    putEachRvs [len.toUInt8, (len >>> 8).toUInt8, (len >>> 16).toUInt8, (len >>> 24).toUInt8, 0x84]
    return 5

/-- TagByteLen: the number of octets that the compiler takes for a tag code. -/
def tagByteLen (tagCode : UInt32) : Nat :=
  if tagCode < 31 then 1
  else if tagCode < 128 then 2
  else if tagCode < 16384 then 3
  else if tagCode < 2097152 then 4
  else 5

/-- The class and form of a tag; what may have any form is primitive where it is encoded. -/
def ElmtTag.classForm (t : ElmtTag) : UInt32 :=
  t.tclass ||| t.form.getD PRIM

/-- BEncTag1 to BEncTag5: the octets of a tag in the order in which they are put. -/
def ElmtTag.rvsOctets (t : ElmtTag) : List UInt8 :=
  let more (shift : UInt32) : UInt8 := 0x80 ||| (t.code >>> shift).toUInt8
  match tagByteLen t.code with
  | 1 => [(t.classForm ||| t.code).toUInt8]
  | 2 => [t.code.toUInt8, (t.classForm ||| 31).toUInt8]
  | 3 => [(t.code &&& 0x7F).toUInt8, more 7, (t.classForm ||| 31).toUInt8]
  | 4 => [(t.code &&& 0x7F).toUInt8, more 7, more 14, (t.classForm ||| 31).toUInt8]
  | _ => [(t.code &&& 0x7F).toUInt8, more 7, more 14, more 21, (t.classForm ||| 31).toUInt8]

/-- Encode a tag. -/
def bEncTag (t : ElmtTag) : BufM AsnLen := do
  putEachRvs t.rvsOctets
  return .ofNat (tagByteLen t.code)

/-- PrintCxxLenEncodingCode: encode the length behind a tag, in one octet for types that are short. -/
def bEncLen (isShort : Bool) (t : ElmtTag) (l : AsnLen) : BufM AsnLen := do
  if t.form = some CONS then return l + (← bEncDefLen l)
  else if isShort then
    putByteRvs l.toUInt8
    return l + 1
  else return l + (← bEncDefLen l)

/-- PrintCxxTagAndLenList: encode tags and lengths in front of contents, the last tag first. -/
def bEncTagAndLenList (isShort : Bool) : List ElmtTag → AsnLen → BufM AsnLen
  | [], l => return l
  | t :: rest, l => do
    let l ← bEncTagAndLenList isShort rest l
    let l ← bEncLen isShort t l
    return l + (← bEncTag t)

/-! ## Writing -/

/-- A routine puts octets in front of the data, and adds their number to a count. -/
def Adds (f : AsnLen → BufM AsnLen) (octets : List UInt8) (l : AsnLen) : Prop :=
  ∀ b : AsnBuf, b.passed = [] → ∃ b', (f l).run b = .ok (l + .ofNat octets.length) b' ∧
    b'.passed = [] ∧ b'.data = octets ++ b.data

/-- A routine puts octets in front of the data, and returns their number. -/
def Prepends (x : BufM AsnLen) (octets : List UInt8) : Prop :=
  ∀ b : AsnBuf, b.passed = [] → ∃ b', x.run b = .ok (.ofNat octets.length) b' ∧
    b'.passed = [] ∧ b'.data = octets ++ b.data

theorem Prepends.andThen {x : BufM AsnLen} {f : AsnLen → BufM AsnLen} {octets more : List UInt8}
    (prepends : Prepends x octets) (adds : Adds f more (.ofNat octets.length)) :
    Prepends (x >>= f) (more ++ octets) := by
  intro b start
  obtain ⟨mid, ran, between, data⟩ := prepends b start
  obtain ⟨b', ranMore, after, dataMore⟩ := adds mid between
  refine ⟨b', ?_, after, ?_⟩
  · rw [run_bind_of_ok ran, ranMore, List.length_append, UInt64.ofNat_add, UInt64.add_comm]
  · rw [dataMore, data, List.append_assoc]

theorem Adds.andThen {f g : AsnLen → BufM AsnLen} {octets more : List UInt8} {l : AsnLen}
    (adds : Adds f octets l) (addsMore : Adds g more (l + .ofNat octets.length)) :
    Adds (fun l => f l >>= g) (more ++ octets) l := by
  intro b start
  obtain ⟨mid, ran, between, data⟩ := adds b start
  obtain ⟨b', ranMore, after, dataMore⟩ := addsMore mid between
  refine ⟨b', ?_, after, ?_⟩
  · rw [run_bind_of_ok ran, ranMore, List.length_append, Nat.add_comm, UInt64.ofNat_add,
      UInt64.add_assoc]
  · rw [dataMore, data, List.append_assoc]

theorem Adds.pure (l : AsnLen) : Adds (fun l => return l) [] l := by
  intro b start
  exact ⟨b, by rw [List.length_nil]; exact congrArg (EStateM.Result.ok · b) (UInt64.add_zero l).symm,
    start, rfl⟩

theorem Prepends.adds {x : BufM AsnLen} {octets : List UInt8} (prepends : Prepends x octets)
    (l : AsnLen) : Adds (fun l => do return l + (← x)) octets l := by
  intro b start
  obtain ⟨b', ran, after, data⟩ := prepends b start
  refine ⟨b', ?_, after, data⟩
  change (x >>= fun k => return l + k).run b = _
  rw [run_bind_of_ok ran]
  rfl

/-- An octet is put in front of the data. -/
theorem putByteRvs_puts (octet : UInt8) {b : AsnBuf} (start : b.passed = []) :
    ∃ b', (putByteRvs octet).run b = .ok () b' ∧ b'.passed = [] ∧ b'.data = octet :: b.data := by
  obtain ⟨passed, ahead⟩ := b
  obtain rfl : passed = [] := start
  -- There is a card to write to, and it has the same data.
  obtain ⟨c, rest, card, data⟩ : ∃ c rest, (AsnBuf.mk [] ahead).withCard = ⟨[], c :: rest⟩ ∧
      (AsnBuf.mk [] (c :: rest)).data = (AsnBuf.mk [] ahead).data := by
    cases ahead with
    | nil => exact ⟨.new, [], rfl, rfl⟩
    | cons c rest => exact ⟨c, rest, by simp [AsnBuf.withCard, AsnBuf.deck], rfl⟩
  have put : ∃ b', (AsnBuf.mk [] ahead).putByteRvs octet = .ok b' ∧ b'.passed = [] ∧
      b'.data = octet :: (AsnBuf.mk [] (c :: rest)).data := by
    rw [AsnBuf.putByteRvs, card]
    dsimp only
    by_cases room : 0 < c.room
    · exact ⟨_, by rw [AsnRvsBuf.sputc, if_pos room]; rfl, rfl, rfl⟩
    · exact ⟨_, by rw [AsnRvsBuf.sputc, if_neg room]; rfl, rfl, rfl⟩
  obtain ⟨b', ran, after, same⟩ := put
  refine ⟨b', ?_, after, same.trans (by rw [data])⟩
  apply run_onBuf_of_ok
  rw [ran]
  rfl

theorem putEachRvs_puts (octets : List UInt8) {b : AsnBuf} (start : b.passed = []) :
    ∃ b', (putEachRvs octets).run b = .ok () b' ∧ b'.passed = [] ∧
      b'.data = octets.reverse ++ b.data := by
  induction octets generalizing b with
  | nil => exact ⟨b, rfl, start, rfl⟩
  | cons octet rest ih =>
    obtain ⟨mid, ran, between, data⟩ := putByteRvs_puts octet start
    obtain ⟨b', ranRest, after, dataRest⟩ := ih between
    refine ⟨b', ?_, after, ?_⟩
    · rw [putEachRvs, run_bind_of_ok ran, ranRest]
    · rw [dataRest, data, List.reverse_cons, List.append_assoc]
      rfl

theorem prepends_putEachRvs (octets : List UInt8) :
    Prepends (do putEachRvs octets; return .ofNat octets.length) octets.reverse := by
  intro b start
  obtain ⟨b', ran, after, data⟩ := putEachRvs_puts octets start
  refine ⟨b', ?_, after, data⟩
  rw [run_bind_of_ok ran, List.length_reverse]
  rfl

/-! ## Lengths -/

/-- The octets of a length. -/
def defLenOctets (len : AsnLen) : List UInt8 :=
  if len < 128 then [len.toUInt8]
  else if len < 256 then [0x81, len.toUInt8]
  else if len < 65536 then [0x82, (len >>> 8).toUInt8, len.toUInt8]
  else if len < 16777126 then [0x83, (len >>> 16).toUInt8, (len >>> 8).toUInt8, len.toUInt8]
  else [0x84, (len >>> 24).toUInt8, (len >>> 16).toUInt8, (len >>> 8).toUInt8, len.toUInt8]

theorem bEncDefLen_prepends (len : AsnLen) : Prepends (bEncDefLen len) (defLenOctets len) := by
  unfold bEncDefLen defLenOctets
  by_cases one : len < 128
  · rw [if_pos one, if_pos one]
    exact prepends_putEachRvs [_]
  rw [if_neg one, if_neg one]
  by_cases two : len < 256
  · rw [if_pos two, if_pos two]
    exact prepends_putEachRvs [_, _]
  rw [if_neg two, if_neg two]
  by_cases three : len < 65536
  · rw [if_pos three, if_pos three]
    exact prepends_putEachRvs [_, _, _]
  rw [if_neg three, if_neg three]
  by_cases four : len < 16777126
  · rw [if_pos four, if_pos four]
    exact prepends_putEachRvs [_, _, _, _]
  rw [if_neg four, if_neg four]
  exact prepends_putEachRvs [_, _, _, _, _]

/-- A length that fits four octets is encoded as itself. -/
theorem isLength_defLenOctets {n : Nat} (small : n < 2 ^ 32) :
    IsLength (defLenOctets (.ofNat n)) n := by
  have word : (UInt64.ofNat n).toNat = n := UInt64.toNat_ofNat_of_lt' (by
    rw [UInt64.size]
    omega)
  have last : (UInt64.ofNat n).toUInt8.toNat = n % 256 := by rw [UInt64.toNat_toUInt8, word]
  have octet : ∀ k : UInt64, k.toNat < 64 →
      (UInt64.ofNat n >>> k).toUInt8.toNat = n / 2 ^ k.toNat % 256 := by
    intro k few
    rw [UInt64.toNat_toUInt8, UInt64.toNat_shiftRight, word, Nat.mod_eq_of_lt few,
      Nat.shiftRight_eq_div_pow]
  have below : ∀ k : UInt64, UInt64.ofNat n < k ↔ n < k.toNat := by
    intro k
    rw [UInt64.lt_iff_toNat_lt, word]
  unfold defLenOctets
  simp only [below]
  -- The cases are those of the number of octets.
  by_cases one : n < (128 : UInt64).toNat
  · have less : n < 128 := one
    rw [if_pos one]
    refine .inl ⟨_, rfl, ?_, ?_⟩
    · rw [UInt8.lt_iff_toNat_lt, last]
      change n % 256 < 128
      omega
    · rw [last]
      omega
  have few : ¬n < 128 := one
  rw [if_neg one]
  by_cases two : n < (256 : UInt64).toNat
  · have less : n < 256 := two
    rw [if_pos two]
    refine .inr ⟨_, _, rfl, by decide, by decide, rfl, ?_⟩
    simp only [ofOctets_cons, ofOctets_nil, last, List.length_nil]
    omega
  rw [if_neg two]
  by_cases three : n < (65536 : UInt64).toNat
  · have less : n < 65536 := three
    rw [if_pos three]
    refine .inr ⟨_, _, rfl, by decide, by decide, rfl, ?_⟩
    have second := octet 8 (by decide)
    change _ = n / 2 ^ 8 % 256 at second
    simp only [ofOctets_cons, ofOctets_nil, last, second, List.length_cons, List.length_nil]
    omega
  rw [if_neg three]
  by_cases four : n < (16777126 : UInt64).toNat
  · have less : n < 16777126 := four
    rw [if_pos four]
    refine .inr ⟨_, _, rfl, by decide, by decide, rfl, ?_⟩
    have second := octet 8 (by decide)
    have third := octet 16 (by decide)
    change _ = n / 2 ^ 8 % 256 at second
    change _ = n / 2 ^ 16 % 256 at third
    simp only [ofOctets_cons, ofOctets_nil, last, second, third, List.length_cons, List.length_nil]
    omega
  rw [if_neg four]
  refine .inr ⟨_, _, rfl, by decide, by decide, rfl, ?_⟩
  have second := octet 8 (by decide)
  have third := octet 16 (by decide)
  have fourth := octet 24 (by decide)
  change _ = n / 2 ^ 8 % 256 at second
  change _ = n / 2 ^ 16 % 256 at third
  change _ = n / 2 ^ 24 % 256 at fourth
  simp only [ofOctets_cons, ofOctets_nil, last, second, third, fourth, List.length_cons,
    List.length_nil]
  omega

theorem length_defLenOctets_le (len : AsnLen) : (defLenOctets len).length ≤ 5 := by
  unfold defLenOctets
  split_ifs <;> simp

/-! ## Tags -/

/-- A tag of a class and form that there are, with a code that fits the word of a tag. -/
structure ElmtTag.Proper (t : ElmtTag) : Prop where
  tclass : t.tclass ∈ [UNIV, APPL, CNTX, PRIV]
  form : t.form ∈ [none, some PRIM, some CONS]
  code : t.code.toNat < 2 ^ 21

/-- The octets of a tag. -/
def ElmtTag.octets (t : ElmtTag) : List UInt8 :=
  t.rvsOctets.reverse

/-- The word of the tag that is encoded. -/
def ElmtTag.id (t : ElmtTag) : AsnTag :=
  makeTagId t.tclass (t.form.getD PRIM) t.code

theorem ElmtTag.id_mem (t : ElmtTag) : t.id ∈ t.ids := by
  rw [ids]
  cases form : t.form with
  | none => simp [ElmtTag.id, form]
  | some f => simp [ElmtTag.id, form]

theorem bEncTag_prepends (t : ElmtTag) : Prepends (bEncTag t) t.octets := by
  have count : tagByteLen t.code = t.rvsOctets.length := by
    unfold ElmtTag.rvsOctets tagByteLen
    split_ifs <;> rfl
  rw [bEncTag, count]
  exact prepends_putEachRvs t.rvsOctets

/-- The octets of a tag are those of its word. -/
theorem ElmtTag.Proper.octets_tag {t : ElmtTag} (proper : t.Proper) :
    TagOctets t.octets t.id := by
  have form : t.form.getD PRIM ∈ [PRIM, CONS] := by
    have any := proper.form
    simp only [List.mem_cons, List.not_mem_nil, or_false] at any
    rcases any with found | found | found <;> rw [found] <;> decide
  have long := long_octet t.tclass proper.tclass _ form
  have below : ∀ k : UInt32, t.code < k ↔ t.code.toNat < k.toNat :=
    fun k => UInt32.lt_iff_toNat_lt
  unfold ElmtTag.octets ElmtTag.rvsOctets ElmtTag.id makeTagId makeTagIdCode tagByteLen
  -- The cases are those of the number of octets.
  by_cases one : t.code < 31
  · have less := (below 31).1 one
    obtain ⟨isShort, word⟩ := short_octet ⟨t.code.toNat, less⟩ t.tclass proper.tclass _ form
    rw [if_pos one, if_pos one]
    rw [show UInt32.ofNat (⟨t.code.toNat, less⟩ : Fin 31) = t.code from UInt32.ofNat_toNat]
      at isShort word
    exact ⟨.inl ⟨_, rfl, isShort⟩, show 1 ≤ 4 by decide, word.symm⟩
  rw [if_neg one, if_neg one]
  by_cases two : t.code < 128
  · have less := (below 128).1 two
    rw [if_pos two, if_pos two]
    refine ⟨.inr ⟨_, [], _, rfl, long, by simp, top_bit_clear_of_lt less⟩,
      show 2 ≤ 4 by decide, ?_⟩
    change _ = (t.classForm ||| 31).toUInt8.toUInt32 <<< 24 |||
      t.code.toUInt8.toUInt32 <<< 16
    rw [toUInt32_toUInt8, toUInt32_toUInt8, and_shiftLeft_24]
    exact (word_two t.tclass (t.form.getD PRIM) less).symm
  rw [if_neg two, if_neg two]
  by_cases three : t.code < 16384
  · rw [if_pos three, if_pos three]
    refine ⟨.inr ⟨_, [_], _, rfl, long, ?_, top_bit_clear _⟩, show 3 ≤ 4 by decide, ?_⟩
    · intro c listed
      rw [List.mem_singleton.1 listed]
      exact top_bit_set _
    · change _ = (t.classForm ||| 31).toUInt8.toUInt32 <<< 24 |||
        ((0x80 : UInt8) ||| (t.code >>> 7).toUInt8).toUInt32 <<< 16 |||
        (t.code &&& (0x7F : UInt32)).toUInt8.toUInt32 <<< 8
      rw [ElmtTag.classForm, UInt8.toUInt32_or, toUInt32_toUInt8, toUInt32_toUInt8,
        toUInt32_toUInt8, and_shiftLeft_24]
      exact (word_three t.tclass (t.form.getD PRIM) t.code).symm
  rw [if_neg three, if_neg three]
  have four : t.code < 2097152 := (below _).2 proper.code
  rw [if_pos four]
  refine ⟨.inr ⟨_, [_, _], _, rfl, long, ?_, top_bit_clear _⟩, show 4 ≤ 4 by decide, ?_⟩
  · intro c listed
    simp only [List.mem_cons, List.not_mem_nil, or_false] at listed
    rcases listed with rfl | rfl <;> exact top_bit_set _
  · change _ = (t.classForm ||| 31).toUInt8.toUInt32 <<< 24 |||
      ((0x80 : UInt8) ||| (t.code >>> 14).toUInt8).toUInt32 <<< 16 |||
      ((0x80 : UInt8) ||| (t.code >>> 7).toUInt8).toUInt32 <<< 8 |||
      (t.code &&& (0x7F : UInt32)).toUInt8.toUInt32 <<< 0
    rw [ElmtTag.classForm, UInt8.toUInt32_or, UInt8.toUInt32_or, toUInt32_toUInt8,
      toUInt32_toUInt8, toUInt32_toUInt8, toUInt32_toUInt8, and_shiftLeft_24, UInt32.shiftLeft_zero]
    exact (word_four t.tclass (t.form.getD PRIM) t.code).symm

/-! ## Tags and lengths in front of contents -/

/-- The octets of the length behind a tag. -/
def ElmtTag.lenOctets (t : ElmtTag) (isShort : Bool) (n : Nat) : List UInt8 :=
  if t.form ≠ some CONS ∧ isShort then [(UInt64.ofNat n).toUInt8] else defLenOctets (.ofNat n)

/-- Contents with tags and lengths in front of them. -/
@[grind =] def wrap (isShort : Bool) : List ElmtTag → List UInt8 → List UInt8
  | [], c => c
  | t :: rest, c =>
    let inner := wrap isShort rest c
    t.octets ++ (t.lenOctets isShort inner.length ++ inner)

theorem bEncLen_adds (isShort : Bool) (t : ElmtTag) (n : Nat) :
    Adds (bEncLen isShort t) (t.lenOctets isShort n) (.ofNat n) := by
  have definite := (bEncDefLen_prepends (.ofNat n)).adds (.ofNat n)
  unfold ElmtTag.lenOctets
  intro b start
  by_cases constructed : t.form = some CONS
  · obtain ⟨b', ran, after, data⟩ := definite b start
    rw [if_neg fun primitive => primitive.1 constructed]
    exact ⟨b', by rw [bEncLen, if_pos constructed]; exact ran, after, data⟩
  cases isShort with
  | false =>
    obtain ⟨b', ran, after, data⟩ := definite b start
    rw [if_neg fun short => Bool.false_ne_true short.2]
    exact ⟨b', by rw [bEncLen, if_neg constructed]; exact ran, after, data⟩
  | true =>
    obtain ⟨b', ran, after, data⟩ := putByteRvs_puts (UInt64.ofNat n).toUInt8 start
    rw [if_pos ⟨constructed, rfl⟩]
    refine ⟨b', ?_, after, data⟩
    rw [bEncLen, if_neg constructed, if_pos rfl, run_bind_of_ok ran]
    rfl

/-- Tags and lengths are put in front of contents that are counted. -/
theorem bEncTagAndLenList_adds (isShort : Bool) (tags : List ElmtTag) (c : List UInt8) :
    ∃ header, wrap isShort tags c = header ++ c ∧
      Adds (bEncTagAndLenList isShort tags) header (.ofNat c.length) := by
  induction tags with
  | nil => exact ⟨[], rfl, Adds.pure _⟩
  | cons t rest ih =>
    obtain ⟨header, inner, adds⟩ := ih
    have count : UInt64.ofNat c.length + .ofNat header.length =
        .ofNat (wrap isShort rest c).length := by
      rw [inner, List.length_append, Nat.add_comm, UInt64.ofNat_add]
    refine ⟨t.octets ++ (t.lenOctets isShort (wrap isShort rest c).length ++ header), ?_, ?_⟩
    · rw [wrap]
      nth_rewrite 2 [inner]
      simp only [List.append_assoc]
    · have tagged := (bEncTag_prepends t).adds (.ofNat (wrap isShort rest c).length +
        .ofNat (t.lenOctets isShort (wrap isShort rest c).length).length)
      have lengths := bEncLen_adds isShort t (wrap isShort rest c).length
      rw [← count] at lengths tagged
      have all := adds.andThen (lengths.andThen tagged)
      rw [← List.append_assoc]
      exact all

theorem Prepends.wrapped {x : BufM AsnLen} {c : List UInt8} (prepends : Prepends x c)
    (isShort : Bool) (tags : List ElmtTag) :
    Prepends (x >>= bEncTagAndLenList isShort tags) (wrap isShort tags c) := by
  obtain ⟨header, all, adds⟩ := bEncTagAndLenList_adds isShort tags c
  rw [all]
  exact prepends.andThen adds

end Esnacc.Cxx
