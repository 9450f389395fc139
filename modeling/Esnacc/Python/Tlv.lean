import Esnacc.Python.AsnBase

/-! What the Python library reads back of the tags and values that it wrote. -/

namespace Esnacc.Python

open Lib

variable {α : Type}

/-! ## Tags -/

@[simp] theorem run_ord_chr (c : UInt8) (buf : List PyObj) :
    (ord (.chr c)).run buf = .ok c.toNat buf := rfl

theorem run_bufferAt {place : Nat} {buf : List PyObj} {x : PyObj} (there : buf[place]? = some x) :
    (bufferAt place).run buf = .ok x buf := by
  rw [bufferAt, EStateM.run_bind, EStateM.run_get]
  dsimp only
  rw [there]
  rfl

theorem moreBit_iff (c : UInt8) : c.toNat &&& 0x80 = 0 ↔ c.toNat < 128 := by
  -- Every octet is looked at.
  have every : ∀ n : Fin 256, n.val &&& 0x80 = 0 ↔ n.val < 128 := by decide +kernel
  exact every ⟨c.toNat, c.toNat_lt⟩

/-- The octets of a long tag in front of its last one all say that octets follow. -/
theorem tagOctets_eq (tag : Nat) (tg : List UInt8) :
    ∃ front : List UInt8, tagOctets tag tg = front ++ tg ∧ (∀ c ∈ front, 128 ≤ c.toNat) ∧
      (front = [] ↔ tag = 0) := by
  -- Each turn writes one octet, and the rest of the tag is shorter.
  fun_induction tagOctets tag tg with
  | case1 tg => exact ⟨[], rfl, by simp, by simp⟩
  | case2 tag tg more ih =>
    obtain ⟨front, eq, high, -⟩ := ih
    refine ⟨front ++ [.ofNat (0x80 ||| (tag &&& 0x7f))], ?_, ?_, ?_⟩
    · rw [eq, List.append_assoc, List.singleton_append]
    · intro c isIn
      rcases List.mem_append.1 isIn with old | new
      · exact high c old
      · -- The seven low bits are joined to the bit that stands above them.
        rw [List.mem_singleton] at new
        have low : tag &&& 0x7f < 2 ^ 7 := Nat.and_lt_two_pow tag (by decide)
        have sum : 0x80 ||| (tag &&& 0x7f) = 128 + (tag &&& 0x7f) :=
          (Nat.two_pow_add_eq_or_of_lt low 1).symm
        rw [new, UInt8.toNat_ofNat', sum]
        omega
    · simp [more]

theorem bDecTagLoop_of_last {lastTag : Nat} (last : lastTag &&& 0x80 = 0) (rest : List PyObj)
    (bufTag al : Nat) : bDecTagLoop rest bufTag al lastTag = return (bufTag, al) := by
  cases rest <;> rw [bDecTagLoop, if_pos last]

/-- The loop over a long tag ends with the first octet that says that no octet follows. -/
theorem run_bDecTagLoop (front : List UInt8) (last : UInt8) (rest : List PyObj) (buf : List PyObj)
    (high : ∀ c ∈ front, 128 ≤ c.toNat) (low : last.toNat < 128) (bufTag al lastTag : Nat)
    (more : lastTag &&& 0x80 ≠ 0) :
    (bDecTagLoop ((front ++ [last]).map .chr ++ rest) bufTag al lastTag).run buf =
      .ok (bufTag * 256 ^ (front.length + 1) + ofOctets (front ++ [last]),
        al + (front.length + 1)) buf := by
  -- Along the octets in front of the last one.
  induction front generalizing bufTag al lastTag with
  | nil =>
    have ends : last.toNat &&& 0x80 = 0 := (moreBit_iff last).2 low
    rw [List.nil_append, List.map_singleton, List.singleton_append, bDecTagLoop, if_neg more]
    change (bDecTagLoop rest _ (al + 1) last.toNat).run buf = _
    rw [bDecTagLoop_of_last ends, shiftLeft_or_octet]
    simp [ofOctets, Nat.mul_comm]
  | cons c front ih =>
    have goesOn : c.toNat &&& 0x80 ≠ 0 := by
      intro ends
      have small := (moreBit_iff c).1 ends
      have large := high c (List.mem_cons_self ..)
      omega
    have later := ih (fun c isIn => high c (List.mem_cons_of_mem _ isIn))
      (bufTag <<< 8 ||| c.toNat) (al + 1) c.toNat goesOn
    rw [List.cons_append, List.map_cons, List.cons_append, bDecTagLoop, if_neg more]
    change (bDecTagLoop _ _ (al + 1) c.toNat).run buf = _
    rw [later, shiftLeft_or_octet, ofOctets_cons, List.length_append, List.length_singleton,
      List.length_cons, Nat.pow_succ 256 (front.length + 1)]
    congr 2
    · ring
    · ring

theorem firstOctet_low (cls : BerClass) (frm : BerForm) (n : Nat) (small : n < 32) :
    (UInt8.ofNat ((cls.value &&& 0xff) ||| (frm.value &&& 0xff) ||| n)).toNat &&& 0x1f = n := by
  -- Class and form stand above the five low bits.
  have mask (m : Nat) : m &&& 0x1f = m % 32 := Nat.and_two_pow_sub_one_eq_mod m 5
  have above : ((cls.value &&& 0xff) ||| (frm.value &&& 0xff)) &&& 0x1f = 0 := by
    cases cls <;> cases frm <;> decide
  have octet (m : Nat) : m % 2 ^ 8 &&& 0x1f = m &&& 0x1f := by
    rw [mask, mask]
    omega
  rw [UInt8.toNat_ofNat', octet, Nat.and_or_distrib_right, above, Nat.zero_or, mask]
  exact Nat.mod_eq_of_lt small

/-- A tag reads back as it was made exactly when it fits into its first octet or has more than two
octets. -/
theorem bDecTag_makeTag_iff (cls : BerClass) (frm : BerForm) (tag : Nat) (rest : List PyObj) :
    let octets := (makeTagString cls frm tag).map PyObj.chr
    bDecTag.run (octets ++ rest) =
      .ok (makeTag cls frm tag, octets.length) (octets ++ rest) ↔ tag < 31 ∨ 128 ≤ tag := by
  intro octets
  by_cases short : tag < 31
  · -- One octet, which is the tag.
    have byte : tag &&& 0xff = tag := by
      rw [show tag &&& 0xff = tag % 256 from Nat.and_two_pow_sub_one_eq_mod tag 8]
      omega
    have low := firstOctet_low cls frm tag (by omega)
    have notLong : ¬ tag = 0x1f := by omega
    have whole : makeTagString cls frm tag =
        [.ofNat ((cls.value &&& 0xff) ||| (frm.value &&& 0xff) ||| tag)] := by
      rw [makeTagString, if_pos short, byte]
    simp only [octets, makeTag, whole, short, true_or, iff_true]
    unfold bDecTag
    rw [run_bind_of_ok (run_bufferAt rfl), run_bind_of_ok (run_ord_chr _ _), low, if_pos notLong]
    simp [ofOctets]
  · -- The first octet says that the tag is a long one.
    have low := firstOctet_low cls frm 0x1f (by omega)
    obtain ⟨front, eq, high, isEmpty⟩ := tagOctets_eq (tag >>> 7) [.ofNat (tag &&& 0x7f)]
    have seven : tag >>> 7 = tag / 128 := Nat.shiftRight_eq_div_pow tag 7
    have endLow : (UInt8.ofNat (tag &&& 0x7f)).toNat < 128 := by
      rw [UInt8.toNat_ofNat', show tag &&& 0x7f = tag % 128 from
        Nat.and_two_pow_sub_one_eq_mod tag 7]
      omega
    have whole : makeTagString cls frm tag =
        .ofNat ((cls.value &&& 0xff) ||| (frm.value &&& 0xff) ||| 0x1f) ::
          (front ++ [.ofNat (tag &&& 0x7f)]) := by
      rw [makeTagString, if_neg short, eq]
    generalize UInt8.ofNat (tag &&& 0x7f) = last at whole endLow
    generalize UInt8.ofNat ((cls.value &&& 0xff) ||| (frm.value &&& 0xff) ||| 0x1f) = c
      at low whole
    have number : makeTag cls frm tag =
        c.toNat * 256 ^ (front.length + 1) + ofOctets (front ++ [last]) := by
      rw [makeTag, whole, ofOctets_cons, List.length_append, List.length_singleton]
    have count : octets.length = front.length + 2 := by simp [octets, whole]
    rw [number, count]
    simp only [octets, whole]
    unfold bDecTag
    cases front with
    | nil =>
      -- The second octet is the last one, and the loop is not entered.
      have small : tag < 128 := by
        have zero : tag >>> 7 = 0 := isEmpty.1 rfl
        omega
      rw [run_bind_of_ok (run_bufferAt rfl), run_bind_of_ok (run_ord_chr _ _), low,
        if_neg (by simp)]
      change (bDecTagLoop _ c.toNat 1 last.toNat).run _ = _ ↔ _
      rw [bDecTagLoop_of_last ((moreBit_iff last).2 endLow)]
      simp only [EStateM.run_pure, EStateM.Result.ok.injEq, Prod.mk.injEq]
      constructor
      · rintro ⟨⟨-, one⟩, -⟩
        simp at one
      · omega
    | cons second front =>
      have large : 128 ≤ tag := by
        have notZero : ¬ tag >>> 7 = 0 := fun zero => by simpa using isEmpty.2 zero
        omega
      have more : second.toNat &&& 0x80 ≠ 0 := by
        intro ends
        have small := (moreBit_iff second).1 ends
        have large := high second (List.mem_cons_self ..)
        omega
      rw [run_bind_of_ok (run_bufferAt rfl), run_bind_of_ok (run_ord_chr _ _), low,
        if_neg (by simp)]
      change (bDecTagLoop (((second :: front) ++ [last]).map .chr ++ rest) c.toNat 1
        second.toNat).run _ = _ ↔ _
      rw [run_bDecTagLoop _ last rest _ high endLow _ _ _ more]
      simp only [large, or_true, iff_true]
      congr 2
      omega

/-! ## Values -/

/-- Decoding what was encoded, with objects behind it, gives the value back, takes exactly what was
encoded and adds its number of octets. -/
def RoundTrips (t : AsnBase α) (x : α) (following : List PyObj) (asnlen : Int) : Prop :=
  ∃ n octets, (t.bEnc x).run [] = .ok n octets ∧ n = octets.length ∧
    (t.bDec asnlen).run (octets ++ following) = .ok (x, asnlen + n) following

/-- What was encoded starts with the tag as a number. -/
theorem bEnc_starts_with_number (t : AsnBase α) (x : α) {n : Nat} {octets : List PyObj}
    (ran : (t.bEnc x).run [] = .ok n octets) : ∃ number rest, octets = .int number :: rest := by
  -- The tag is put in front last, and the buffer to add to is empty.
  unfold AsnBase.bEnc at ran
  split at ran
  · simp at ran
  · obtain ⟨_, _, got, ran⟩ := run_bind_eq_ok.1 ran
    cases got
    obtain ⟨_, _, emptied, ran⟩ := run_bind_eq_ok.1 ran
    cases emptied
    obtain ⟨_, content, -, ran⟩ := run_bind_eq_ok.1 ran
    obtain ⟨_, length, -, ran⟩ := run_bind_eq_ok.1 ran
    cases ran
    exact ⟨_, _, rfl⟩

theorem bDec_number (t : AsnBase α) (asnlen : Int) (number : Nat) (rest : List PyObj) :
    (t.bDec asnlen).run (.int number :: rest) = .error .typeError (.int number :: rest) := rfl

theorem not_roundTrips (t : AsnBase α) (x : α) (following : List PyObj) (asnlen : Int) :
    ¬ RoundTrips t x following asnlen := by
  -- What was encoded starts with a number, which the decoder does not take for an octet.
  rintro ⟨n, octets, encoded, -, decoded⟩
  obtain ⟨number, rest, rfl⟩ := bEnc_starts_with_number t x encoded
  rw [List.cons_append, bDec_number] at decoded
  cases decoded

/-- Integers, enumerated values and octet strings never read back, and a tag reads back as it was
made exactly when it fits into its first octet or has more than two octets. -/
theorem tlv_iff (cls : BerClass) (frm : BerForm) (tag : Nat) (constraints : List IntConstraint)
    (following : List PyObj) (asnlen : Int) :
    (∀ value, ¬ RoundTrips (asnInt cls frm tag constraints) value following asnlen) ∧
      (∀ value, ¬ RoundTrips (asnEnum cls frm tag constraints) value following asnlen) ∧
      (∀ octs, ¬ RoundTrips (asnOcts cls frm tag) octs following asnlen) ∧
      (let octets := (makeTagString cls frm tag).map PyObj.chr
       bDecTag.run (octets ++ following) =
        .ok (makeTag cls frm tag, octets.length) (octets ++ following) ↔
          tag < 31 ∨ 128 ≤ tag) :=
  ⟨fun value => not_roundTrips _ value following asnlen,
    fun value => not_roundTrips _ value following asnlen,
    fun octs => not_roundTrips _ octs following asnlen,
    bDecTag_makeTag_iff cls frm tag following⟩

/-- The integer zero does not read back. -/
theorem zero_not_read_back :
    ¬ ∀ (value : Int) (following : List PyObj) (asnlen : Int),
      RoundTrips (asnInt .univ .prim 2 []) value following asnlen := by
  intro claimed
  exact not_roundTrips _ 0 [] 0 (claimed 0 [] 0)

end Esnacc.Python
