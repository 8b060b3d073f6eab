import Redon.Lib.Fnv
import Redon.Router

/-!
# The shard map and FNV-1a

`fnv1a` multiplies by the right prime but starts from 1469598103934665603, which is the offset basis
without its last digit. The two numbers are both odd and differ in their second bit. So with one or
two shards the shard of a key is the one FNV-1a gives, with a multiple of four it never is, and with
any other number of shards there are keys whose shard is another one (`shard_map_iff`).
-/

namespace Redon

open Lib

namespace Router

theorem toNat_foldl : ∀ (s : Bytes) (h : UInt64),
    (s.foldl (fun h c => (h ^^^ c.toUInt64) * 1099511628211) h).toNat = Fnv.hashFrom h.toNat s
  | [], _ => rfl
  | c :: s, h => by
    have hstep : ((h ^^^ c.toUInt64) * 1099511628211).toNat
        = (h.toNat ^^^ c.toNat) * Fnv.prime % 2 ^ 64 := by
      rw [UInt64.toNat_mul, UInt64.toNat_xor, UInt8.toNat_toUInt64]
      rfl
    rw [List.foldl_cons, toNat_foldl s, hstep]
    rfl

theorem shardFor_eq {n : ℕ} (hn : n ≠ 0) (key : Bytes) :
    shardFor n key = Fnv.hashFrom 1469598103934665603 key % n := by
  rw [shardFor, if_neg hn]
  exact congrArg (· % n) (toNat_foldl key 1469598103934665603)

theorem shardFor_pow_iff {k n : ℕ} (hk : k ≤ 64) (hn : n = 2 ^ k) (key : Bytes) :
    shardFor n key = Fnv.fnv1a key % n ↔ 1469598103934665603 ≡ Fnv.offsetBasis [MOD 2 ^ k] := by
  subst hn
  rw [shardFor_eq (Nat.two_pow_pos k).ne']
  exact Fnv.hashFrom_modEq_iff hk key _ _

/-- The hashes of two keys differ from FNV-1a by numbers whose greatest common divisor is 2. -/
theorem dvd_two_of_shardFor {n : ℕ} (hn : n ≠ 0)
    (h : ∀ key, shardFor n key = Fnv.fnv1a key % n) : n ∣ 2 := by
  have hdvd : ∀ key, (n : ℤ) ∣ Fnv.fnv1a key - Fnv.hashFrom 1469598103934665603 key := by
    intro key
    have hk := h key
    rw [shardFor_eq hn] at hk
    exact Nat.modEq_iff_dvd.1 hk
  have htwo : Int.gcd (Fnv.fnv1a [] - Fnv.hashFrom 1469598103934665603 [])
      (Fnv.fnv1a [0] - Fnv.hashFrom 1469598103934665603 [0]) = 2 := by decide
  rw [← htwo]
  exact Int.natCast_dvd_natCast.1 (Int.dvd_coe_gcd (hdvd []) (hdvd [0]))

/-- The keys are where FNV-1a says exactly if there are at most two shards. -/
theorem shard_map_iff (shards : List Bytes) (hs : shards ≠ []) :
    ((∀ key, shardFor shards.length key = Fnv.fnv1a key % shards.length) ↔ shards.length ≤ 2)
    ∧ (4 ∣ shards.length →
      ∀ key, shardFor shards.length key ≠ Fnv.fnv1a key % shards.length) := by
  have hn : shards.length ≠ 0 := fun h => hs (List.eq_nil_of_length_eq_zero h)
  refine ⟨⟨fun h => Nat.le_of_dvd Nat.two_pos (dvd_two_of_shardFor hn h), fun hle key => ?_⟩, ?_⟩
  · have hcases : shards.length = 2 ^ 0 ∨ shards.length = 2 ^ 1 := by omega
    rcases hcases with h | h
    · exact (shardFor_pow_iff (by decide) h key).2 (by decide)
    · exact (shardFor_pow_iff (by decide) h key).2 (by decide)
  · intro hfour key heq
    rw [shardFor_eq hn] at heq
    have hmod : Fnv.hashFrom 1469598103934665603 key ≡ Fnv.fnv1a key [MOD 2 ^ 2] :=
      Nat.ModEq.of_dvd hfour heq
    exact absurd ((Fnv.hashFrom_modEq_iff (by decide) key _ _).1 hmod) (by decide)

/-- With two shards a key is where FNV-1a says. -/
theorem shard_map_iff_two : shardFor 2 (ascii "user:2") = Fnv.fnv1a (ascii "user:2") % 2 :=
  (shard_map_iff [ascii "a:1", ascii "b:2"] (by decide)).1.2 (by decide) (ascii "user:2")

/-- With three it is not. -/
theorem other_shard : shardFor [ascii "a:1", ascii "b:2", ascii "c:3"].length (ascii "user:2") = 0
    ∧ Fnv.fnv1a (ascii "user:2") % [ascii "a:1", ascii "b:2", ascii "c:3"].length = 1 := by
  decide

end Router

end Redon
