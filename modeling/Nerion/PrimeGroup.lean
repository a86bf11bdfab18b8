import Mathlib.FieldTheory.Finite.Basic
import Mathlib.GroupTheory.OrderOfElement
import Mathlib.GroupTheory.SpecificGroups.Cyclic.Basic

/-!
# Groups of prime order

A library on the arithmetic that proofs of knowledge rest on, in an additive group of prime
order with integer scalars.

* `zsmul_congr` — a scalar counts modulo the order;
* `Relation` — a discrete-log relation between two elements, given by its coefficients;
* `relation_or_modEq` — two openings of one Pedersen commitment are congruent or give a relation;
* `zsmul_of_two_responses` — Schnorr's extraction: two responses to one commitment under
  different challenges give the discrete logarithm;
* `eq_zsmul_of_two_responses` — two responses that answer for two bases at once: the logarithms
  are the same.
-/

namespace Nerion

/-- A group of prime order. -/
structure PrimeGroup (P : Type) [AddCommGroup P] where
  order : ℕ
  /-- the order is prime -/
  prime : order.Prime
  /-- the order is the number of elements -/
  card : Nat.card P = order

namespace PrimeGroup

variable {P : Type} [AddCommGroup P] (g : PrimeGroup P)

theorem order_pos : (0 : ℤ) < g.order := Int.natCast_pos.mpr g.prime.pos

/-- The residue of a scalar, from truncated remainders. -/
theorem tmod_add_order_tmod (x : ℤ) :
    (x.tmod g.order + g.order).tmod g.order = x % g.order := by
  have hrem : 0 ≤ x.tmod g.order + g.order := by
    have := Int.lt_tmod_of_pos x g.order_pos
    omega
  rw [Int.tmod_eq_emod_of_nonneg hrem, Int.add_emod_right, Int.tmod_eq_emod]
  split
  · rw [Nat.cast_zero, sub_zero, Int.emod_emod_of_dvd _ dvd_rfl]
  · rw [Int.natAbs_natCast, Int.sub_emod_right, Int.emod_emod_of_dvd _ dvd_rfl]

theorem order_zsmul (p : P) : (g.order : ℤ) • p = 0 := by
  rw [natCast_zsmul, ← g.card]
  exact card_nsmul_eq_zero'

/-- Scalars count modulo the order. -/
theorem zsmul_congr {a b : ℤ} (h : a ≡ b [ZMOD g.order]) (p : P) : a • p = b • p := by
  obtain ⟨k, hk⟩ := h.dvd
  have hb : b = a + g.order * k := by omega
  rw [hb, add_zsmul, mul_comm, mul_zsmul, g.order_zsmul, zsmul_zero, add_zero]

theorem emod_zsmul (z : ℤ) (p : P) : (z % g.order) • p = z • p :=
  g.zsmul_congr (Int.mod_modEq z g.order) p

/-! ## Relations -/

/-- A discrete-log relation between `G` and `H`: coefficients, not both zero modulo the order,
with which they add up to zero. -/
def Relation (G H : P) (x y : ℤ) : Prop :=
  x • G + y • H = 0 ∧ ¬ ((g.order : ℤ) ∣ x ∧ (g.order : ℤ) ∣ y)

/-- **Binding**: two openings of one commitment are congruent, or their difference is a
relation. -/
theorem relation_or_modEq {G H : P} {v r v' r' : ℤ} (h : v • G + r • H = v' • G + r' • H) :
    g.Relation G H (v - v') (r - r') ∨ (v ≡ v' [ZMOD g.order] ∧ r ≡ r' [ZMOD g.order]) := by
  have hzero : (v - v') • G + (r - r') • H = 0 := by
    rw [sub_smul, sub_smul, sub_add_sub_comm, h, sub_self]
  by_cases htriv : (g.order : ℤ) ∣ v - v' ∧ (g.order : ℤ) ∣ r - r'
  · exact .inr ⟨(Int.modEq_iff_dvd.mpr htriv.1).symm, (Int.modEq_iff_dvd.mpr htriv.2).symm⟩
  · exact .inl ⟨hzero, htriv⟩

/-- A relation whose first coefficient is not zero and smaller than the order. -/
theorem relation_of_lt {G H : P} {x y : ℤ} (h : x • G + y • H = 0) (hx : x ≠ 0)
    (hlt : |x| < g.order) : g.Relation G H x y :=
  ⟨h, fun hdvd => hx (Int.eq_zero_of_abs_lt_dvd hdvd.1 hlt)⟩

/-! ## Extraction -/

/-- **Schnorr's extraction.** -/
theorem zsmul_of_two_responses {H T K : P} {s s' c c' u : ℤ} (h : s • H = T + c • K)
    (h' : s' • H = T + c' • K) (hu : (c - c') * u ≡ 1 [ZMOD g.order]) :
    (u * (s - s')) • H = K := by
  have hdiff : (s - s') • H = (c - c') • K := by
    rw [sub_smul, sub_smul, h, h', add_sub_add_left_eq_sub]
  calc (u * (s - s')) • H = ((c - c') * u) • K := by rw [mul_zsmul, hdiff, ← mul_zsmul, mul_comm]
    _ = (1 : ℤ) • K := g.zsmul_congr hu K
    _ = K := one_zsmul K

/-- Fermat's inverse. -/
theorem mul_pow_order_sub_two {a : ℤ} (ha : ¬ (g.order : ℤ) ∣ a) :
    a * a ^ (g.order - 2) ≡ 1 [ZMOD g.order] := by
  have hcoprime : IsCoprime a g.order :=
    ((Nat.prime_iff_prime_int.mp g.prime).coprime_iff_not_dvd.mpr ha).symm
  have htwo : g.order - 2 + 1 = g.order - 1 := by
    have := g.prime.two_le
    omega
  rw [← pow_succ', htwo]
  exact Int.ModEq.pow_card_sub_one_eq_one g.prime hcoprime

/-- Multiples of an element but zero are different modulo the order. -/
theorem modEq_of_zsmul_eq {B : P} (hB : B ≠ 0) {a b : ℤ} (h : a • B = b • B) :
    a ≡ b [ZMOD g.order] := by
  have : Fact g.order.Prime := ⟨g.prime⟩
  have hzero : (b - a) • B = 0 := by rw [sub_smul, h, sub_self]
  have hdvd := addOrderOf_dvd_iff_zsmul_eq_zero.mpr hzero
  rw [addOrderOf_eq_prime (by rw [← natCast_zsmul]; exact g.order_zsmul B) hB] at hdvd
  exact Int.modEq_iff_dvd.mpr hdvd

theorem zsmul_ne_zero_of_not_dvd {B : P} (hB : B ≠ 0) {k : ℤ} (hk : ¬ (g.order : ℤ) ∣ k) :
    k • B ≠ 0 := by
  intro hzero
  apply hk
  rw [← zero_zsmul B] at hzero
  exact Int.modEq_zero_iff_dvd.mp (g.modEq_of_zsmul_eq hB hzero)

include g in
/-- Every element but zero generates the group. -/
theorem exists_zsmul_eq {B : P} (hB : B ≠ 0) (y : P) : ∃ x : ℤ, y = x • B := by
  have : Fact g.order.Prime := ⟨g.prime⟩
  obtain ⟨x, hx⟩ := AddSubgroup.mem_zmultiples_iff.mp (mem_zmultiples_of_prime_card g.card hB)
  exact ⟨x, hx.symm⟩

/-- **Equality of logarithms**, from two responses that answer for two bases at once. -/
theorem eq_zsmul_of_two_responses {B H K U V : P} {x s s' c c' : ℤ} (hB : B ≠ 0)
    (hU : U = s • B - c • x • B) (hU' : U = s' • B - c' • x • B) (hV : V = s • H - c • K)
    (hV' : V = s' • H - c' • K) (hc : ¬ (g.order : ℤ) ∣ c - c') : K = x • H := by
  obtain ⟨u, hu⟩ : ∃ u, (c - c') * u ≡ 1 [ZMOD g.order] := ⟨_, g.mul_pow_order_sub_two hc⟩
  have hbase := g.zsmul_of_two_responses (eq_add_of_sub_eq hU.symm) (eq_add_of_sub_eq hU'.symm) hu
  have hother := g.zsmul_of_two_responses (eq_add_of_sub_eq hV.symm) (eq_add_of_sub_eq hV'.symm) hu
  rw [← hother]
  exact g.zsmul_congr (g.modEq_of_zsmul_eq hB hbase) H

end PrimeGroup

end Nerion
