import Mathlib.Data.List.Prime
import Mathlib.NumberTheory.LucasPrimality
import Mathlib.Tactic.NormNum.Prime

/-!
# Powers modulo a number

A library on square-and-multiply, the loop that computes powers modulo `m`, and what it is good
for beside arithmetic: Lucas's primality test, by which the order of the group ristretto255 is
shown to be prime.

* `powMod_modEq` — the loop computes the power;
* `prime_of_lucasTest` — Lucas's test for a number whose predecessor is given by its factors;
* `ristrettoOrder_prime`.
-/

namespace Nerion

/-- The loop: `bits` halvings of the exponent `e`, with the base squared each time and
multiplied into `r` where the bit is set. -/
def squareMultiply (m : ℕ) : (bits e b r : ℕ) → ℕ
  | 0, _, _, r => r
  | bits + 1, e, b, r =>
    squareMultiply m bits (e / 2) (b * b % m) (if e % 2 = 1 then r * b % m else r)

/-- `b ^ e` modulo `m`. -/
def powMod (b e m : ℕ) : ℕ := squareMultiply m (e.log2 + 1) e b 1

theorem squareMultiply_modEq (m : ℕ) {bits e : ℕ} (he : e < 2 ^ bits) (b r : ℕ) :
    squareMultiply m bits e b r ≡ r * b ^ e [MOD m] := by
  induction bits generalizing e b r with
  | zero =>
    obtain rfl : e = 0 := Nat.lt_one_iff.mp he
    rw [squareMultiply, pow_zero, mul_one]
  | succ bits ih =>
    have hhalf : e / 2 < 2 ^ bits := by
      rw [pow_succ] at he
      omega
    -- the square raised to half the exponent, and what the last bit adds
    have hsquare : (b * b % m) ^ (e / 2) ≡ b ^ (2 * (e / 2)) [MOD m] := by
      rw [pow_mul, sq]
      exact (Nat.mod_modEq _ m).pow _
    have hbit : (if e % 2 = 1 then r * b % m else r) ≡ r * b ^ (e % 2) [MOD m] := by
      rcases Nat.mod_two_eq_zero_or_one e with h | h
      · rw [h, if_neg zero_ne_one, pow_zero, mul_one]
      · rw [h, if_pos rfl, pow_one]
        exact Nat.mod_modEq _ m
    calc squareMultiply m (bits + 1) e b r
        ≡ (if e % 2 = 1 then r * b % m else r) * (b * b % m) ^ (e / 2) [MOD m] := ih hhalf _ _
      _ ≡ r * b ^ (e % 2) * b ^ (2 * (e / 2)) [MOD m] := hbit.mul hsquare
      _ = r * b ^ e := by rw [mul_assoc, ← pow_add, Nat.mod_add_div]

theorem powMod_modEq (b e m : ℕ) : powMod b e m ≡ b ^ e [MOD m] := by
  have h := squareMultiply_modEq m (@Nat.lt_log2_self e) b 1
  rwa [one_mul] at h

/-! ## Lucas's test -/

/-- The test of `p` with the witness `w` and the factors of `p - 1`. -/
def lucasTest (p w : ℕ) (factors : List ℕ) : Bool :=
  decide (factors.prod = p - 1) && decide (powMod w (p - 1) p % p = 1) &&
    factors.all fun q => decide (powMod w ((p - 1) / q) p % p ≠ 1)

/-- **Lucas's test** shows that a number is prime. -/
theorem prime_of_lucasTest {p w : ℕ} {factors : List ℕ} (hprime : ∀ q ∈ factors, q.Prime)
    (htest : lucasTest p w factors = true) : p.Prime := by
  simp only [lucasTest, Bool.and_eq_true, decide_eq_true_iff, List.all_eq_true] at htest
  obtain ⟨⟨hprod, hone⟩, hne⟩ := htest
  have hlt : 1 < p := by
    have hpos : 0 < factors.prod := List.prod_pos fun q hq => (hprime q hq).pos
    omega
  have hcast : ∀ e, (w : ZMod p) ^ e = 1 ↔ powMod w e p % p = 1 := by
    intro e
    rw [powMod_modEq w e p, ← Nat.cast_pow, ← Nat.cast_one, ZMod.natCast_eq_natCast_iff, Nat.ModEq,
      Nat.mod_eq_of_lt hlt]
  refine lucas_primality p w ((hcast _).mpr hone) fun q hq hdvd => ?_
  rw [← hprod, Prime.dvd_prod_iff hq.prime] at hdvd
  obtain ⟨r, hr, hqr⟩ := hdvd
  obtain rfl := (Nat.prime_dvd_prime_iff_eq hq (hprime r hr)).mp hqr
  exact fun h => hne q hr ((hcast _).mp h)

/-! ## ristretto255 -/

/-- The order of ristretto255. -/
def ristrettoOrder : ℕ := 2 ^ 252 + 27742317777372353535851937790883648493

-- the primes of its predecessor, largest last, each from those of its own predecessor
private theorem prime_107 : Nat.Prime 198211423230930754013084525763697 := by
  have h : Nat.Prime 3044861653679985063343 :=
    @prime_of_lucasTest _ 5 [2, 3, 11, 30703, 82163, 132667, 137849] (by norm_num)
      (by decide +kernel)
  refine @prime_of_lucasTest _ 5 [2, 2, 2, 2, 3, 23, 58964693, 3044861653679985063343] ?_
    (by decide +kernel)
  simp only [List.forall_mem_cons, h]
  norm_num

private theorem prime_87 : Nat.Prime 172054593956031949258510691 := by
  have h₁ : Nat.Prime 1257559732178653 :=
    @prime_of_lucasTest _ 2 [2, 2, 3, 7, 23, 531581, 1224481] (by norm_num) (by decide +kernel)
  have h₂ : Nat.Prime 4434155615661930479 := by
    refine @prime_of_lucasTest _ 17 [2, 41, 43, 1257559732178653] ?_ (by decide +kernel)
    simp only [List.forall_mem_cons, h₁]
    norm_num
  refine @prime_of_lucasTest _ 2 [2, 5, 1361, 2851, 4434155615661930479] ?_ (by decide +kernel)
  simp only [List.forall_mem_cons, h₂]
  norm_num

private theorem prime_138 : Nat.Prime 276602624281642239937218680557139826668747 := by
  have h₀ : Nat.Prime 292386187 :=
    @prime_of_lucasTest _ 2 [2, 3, 3, 3, 3, 307, 5879] (by norm_num) (by decide +kernel)
  have h₁ : Nat.Prime 213441916511 := by
    refine @prime_of_lucasTest _ 13 [2, 5, 73, 292386187] ?_ (by decide +kernel)
    simp only [List.forall_mem_cons, h₀]
    norm_num
  have h₂ : Nat.Prime 19757330305831588566944191468367130476339 := by
    refine @prime_of_lucasTest _ 2 [2, 269, 213441916511, 172054593956031949258510691] ?_
      (by decide +kernel)
    simp only [List.forall_mem_cons, h₁, prime_87]
    norm_num
  refine @prime_of_lucasTest _ 2 [2, 7, 19757330305831588566944191468367130476339] ?_
    (by decide +kernel)
  simp only [List.forall_mem_cons, h₂]
  norm_num

/-- **The order of ristretto255 is prime.** -/
theorem ristrettoOrder_prime : ristrettoOrder.Prime := by
  refine @prime_of_lucasTest _ 2 [2, 2, 3, 11, 198211423230930754013084525763697,
    276602624281642239937218680557139826668747] ?_ (by decide +kernel)
  simp only [List.forall_mem_cons, prime_107, prime_138]
  norm_num

end Nerion
