import Mathlib.Data.Nat.Bitwise
import Mathlib.Data.Nat.ModEq
import Redon.Lib.Text

/-!
# FNV-1a

A hash of byte strings: each byte is xored into the number so far, which is then multiplied by a
prime, modulo `2 ^ 64`. The prime is odd and a byte is xored bit by bit, so the low bits of the hash
are one to one with the low bits of the number it starts from, whatever the string
(`hashFrom_modEq_iff`).
-/

namespace Lib

namespace Fnv

def offsetBasis : ℕ := 0xcbf29ce484222325

def prime : ℕ := 0x100000001b3

/-- The hash of a string that starts from `basis`. -/
def hashFrom (basis : ℕ) (s : Bytes) : ℕ :=
  s.foldl (fun h c => (h ^^^ c.toNat) * prime % 2 ^ 64) basis

/-- The 64-bit hash. -/
def fnv1a (s : Bytes) : ℕ := hashFrom offsetBasis s

variable {k a b : ℕ}

theorem xor_modEq_iff (k a b c : ℕ) :
    a ^^^ c ≡ b ^^^ c [MOD 2 ^ k] ↔ a ≡ b [MOD 2 ^ k] := by
  unfold Nat.ModEq
  rw [Nat.xor_mod_two_pow, Nat.xor_mod_two_pow]
  exact Nat.xor_left_inj

theorem mul_prime_modEq_iff (k a b : ℕ) :
    a * prime ≡ b * prime [MOD 2 ^ k] ↔ a ≡ b [MOD 2 ^ k] := by
  have hodd : Nat.gcd (2 ^ k) prime = 1 := Nat.Coprime.pow_left k (by decide)
  exact ⟨Nat.ModEq.cancel_right_of_coprime hodd, fun h => h.mul_right prime⟩

/-- Reducing modulo `2 ^ 64` keeps the low bits. -/
theorem mod_modEq (hk : k ≤ 64) (a : ℕ) : a % 2 ^ 64 ≡ a [MOD 2 ^ k] :=
  (Nat.mod_modEq a (2 ^ 64)).of_dvd (pow_dvd_pow 2 hk)

theorem hashFrom_modEq_iff (hk : k ≤ 64) : ∀ (s : Bytes) (a b : ℕ),
    hashFrom a s ≡ hashFrom b s [MOD 2 ^ k] ↔ a ≡ b [MOD 2 ^ k]
  | [], _, _ => Iff.rfl
  | c :: s, a, b => by
    have hstep : ∀ h : ℕ, (h ^^^ c.toNat) * prime % 2 ^ 64 ≡ (h ^^^ c.toNat) * prime [MOD 2 ^ k] :=
      fun h => mod_modEq hk _
    have hmod : (a ^^^ c.toNat) * prime % 2 ^ 64 ≡ (b ^^^ c.toNat) * prime % 2 ^ 64 [MOD 2 ^ k]
        ↔ (a ^^^ c.toNat) * prime ≡ (b ^^^ c.toNat) * prime [MOD 2 ^ k] :=
      ⟨fun h => (hstep a).symm.trans (h.trans (hstep b)),
        fun h => (hstep a).trans (h.trans (hstep b).symm)⟩
    rw [hashFrom, hashFrom, List.foldl_cons, List.foldl_cons]
    refine (hashFrom_modEq_iff hk s _ _).trans (hmod.trans ?_)
    exact (mul_prime_modEq_iff k _ _).trans (xor_modEq_iff k a b c.toNat)

end Fnv

end Lib
