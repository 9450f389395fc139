import Mathlib.Data.List.Induction
import Mathlib.InformationTheory.Coding.UniquelyDecodable
import Mathlib.Tactic.Ring

/-! Octets of six bits each behind a first one, and words of which none begins another. -/

namespace Lib

/-- An octet that carries six bits behind its two top ones. -/
def IsTail (c : UInt8) : Prop :=
  128 ≤ c.toNat ∧ c.toNat < 192

instance (c : UInt8) : Decidable (IsTail c) :=
  inferInstanceAs (Decidable (_ ∧ _))

/-- The six bits that an octet adds to a number. -/
@[grind =] def addSixBits (n : Nat) (c : UInt8) : Nat :=
  64 * n + c.toNat % 64

/-- Octets for the low bits of a number, six in each. -/
@[grind =] def tailOctets : Nat → Nat → List UInt8
  | 0, _ => []
  | k + 1, n => tailOctets k (n / 64) ++ [UInt8.ofNat (128 + n % 64)]

@[simp] theorem length_tailOctets (k n : Nat) : (tailOctets k n).length = k := by
  induction k generalizing n with
  | zero => rfl
  | succ k ih => rw [tailOctets, List.length_append, ih, List.length_singleton]

theorem toNat_tailOctet (n : Nat) : (UInt8.ofNat (128 + n % 64)).toNat = 128 + n % 64 :=
  UInt8.toNat_ofNat_of_lt' (by
    rw [UInt8.size]
    omega)

theorem isTail_of_mem_tailOctets {k n : Nat} {c : UInt8} (among : c ∈ tailOctets k n) :
    IsTail c := by
  induction k generalizing n with
  | zero => cases among
  | succ k ih =>
    rw [tailOctets, List.mem_append, List.mem_singleton] at among
    rcases among with before | rfl
    · exact ih before
    · rw [IsTail, toNat_tailOctet]
      omega

theorem foldl_tailOctets (acc k n : Nat) :
    (tailOctets k n).foldl addSixBits acc = acc * 64 ^ k + n % 64 ^ k := by
  induction k generalizing n with
  | zero => simp [tailOctets, Nat.mod_one]
  | succ k ih =>
    rw [tailOctets, List.foldl_append, ih, List.foldl_cons, List.foldl_nil, addSixBits,
      toNat_tailOctet, pow_succ', Nat.mod_mul]
    have shares : 64 * (acc * 64 ^ k + n / 64 % 64 ^ k) =
        acc * (64 * 64 ^ k) + 64 * (n / 64 % 64 ^ k) := by ring
    omega

/-- Octets that are added to a number are the ones for its low bits, in front of which it is. -/
theorem foldl_addSixBits {octets : List UInt8} (tails : ∀ c ∈ octets, IsTail c) (acc : Nat) :
    tailOctets octets.length (octets.foldl addSixBits acc) = octets ∧
      octets.foldl addSixBits acc / 64 ^ octets.length = acc := by
  induction octets using List.reverseRecOn generalizing acc with
  | nil => simp [tailOctets]
  | append_singleton octets c ih =>
    obtain ⟨same, before⟩ := ih (fun d among => tails d (List.mem_append_left _ among)) acc
    have tail := tails c (List.mem_append_right _ (List.mem_singleton_self c))
    rw [IsTail] at tail
    have quotient :
        addSixBits (octets.foldl addSixBits acc) c / 64 = octets.foldl addSixBits acc := by
      rw [addSixBits]
      omega
    have rest : UInt8.ofNat (128 + addSixBits (octets.foldl addSixBits acc) c % 64) = c := by
      apply UInt8.toNat_inj.mp
      rw [toNat_tailOctet, addSixBits]
      omega
    rw [List.foldl_append, List.foldl_cons, List.foldl_nil, List.length_append,
      List.length_singleton, tailOctets, pow_succ', ← Nat.div_div_eq_div_mul, quotient, rest, same]
    exact ⟨rfl, before⟩

/-- Words of which none begins another are told apart however they are joined. -/
theorem uniquelyDecodable_of_prefixFree {α : Type*} {words : Set (List α)}
    (some_letter : [] ∉ words)
    (apart : ∀ v ∈ words, ∀ w ∈ words, v <+: w → v = w) :
    InformationTheory.UniquelyDecodable words := by
  intro some_words others left right same
  induction some_words generalizing others with
  | nil =>
    cases others with
    | nil => rfl
    | cons w others =>
      have empty : w = [] := (List.append_eq_nil_iff.mp same.symm).1
      exact absurd (empty ▸ right w List.mem_cons_self) some_letter
  | cons v some_words ih =>
    cases others with
    | nil =>
      have empty : v = [] := (List.append_eq_nil_iff.mp same).1
      exact absurd (empty ▸ left v List.mem_cons_self) some_letter
    | cons w others =>
      have inWords := left v List.mem_cons_self
      have inWords' := right w List.mem_cons_self
      -- Of two first words one begins the other.
      have first : v = w := by
        rw [List.flatten_cons, List.flatten_cons] at same
        rcases List.append_eq_append_iff.mp same with ⟨more, split, -⟩ | ⟨more, split, -⟩
        · exact apart v inWords w inWords' ⟨more, split.symm⟩
        · exact (apart w inWords' v inWords ⟨more, split.symm⟩).symm
      subst first
      rw [List.flatten_cons, List.flatten_cons, List.append_cancel_left_eq] at same
      rw [ih others (fun x among => left x (List.mem_cons_of_mem _ among))
        (fun x among => right x (List.mem_cons_of_mem _ among)) same]

/-- As many words as others begin those others only if they are the same. -/
theorem eq_of_flatten_prefix {α : Type*} {words : Set (List α)}
    (apart : ∀ v ∈ words, ∀ w ∈ words, v <+: w → v = w) {some_words others : List (List α)}
    (left : ∀ v ∈ some_words, v ∈ words) (right : ∀ w ∈ others, w ∈ words)
    (same : some_words.length = others.length) (begins : some_words.flatten <+: others.flatten) :
    some_words = others := by
  induction some_words generalizing others with
  | nil => exact (List.length_eq_zero_iff.mp same.symm).symm
  | cons v some_words ih =>
    cases others with
    | nil => cases same
    | cons w others =>
      obtain ⟨inWords, left⟩ := List.forall_mem_cons.mp left
      obtain ⟨inWords', behind⟩ := List.forall_mem_cons.mp right
      rw [List.flatten_cons, List.flatten_cons] at begins
      -- Of two first words one begins the other.
      have first : v = w := by
        have front := (List.prefix_append v some_words.flatten).trans begins
        rcases List.prefix_or_prefix_of_prefix front (List.prefix_append w others.flatten) with
          shorter | longer
        · exact apart v inWords w inWords' shorter
        · exact (apart w inWords' v inWords longer).symm
      subst first
      rw [List.prefix_append_right_inj] at begins
      have rest : some_words = others := ih left behind (by simpa using same) begins
      rw [rest]

end Lib
