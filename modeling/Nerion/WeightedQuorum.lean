import Mathlib.Algebra.BigOperators.Ring.Finset
import Mathlib.Algebra.Order.BigOperators.Group.Finset
import Mathlib.Tactic.Linarith

/-!
# Weighted quorums

A library on sets of voters with integer weights. A *quorum* for
the fraction `num / den` is a set whose weight is at least that fraction of the weight of
the universe.

* `IsQuorum.inter_weight` — two quorums overlap in at least `2 * num - den` of every
  `den` parts of the whole weight;
* `IsQuorum.exists_mem_inter` — so they share a voter outside any set lighter than that;
* `IsQuorum.agree` — and if the voters outside that set vote once, both quorums voted for
  the same thing.
-/

namespace Nerion

open Finset

section Quorum

variable {V : Type} {w : V → ℤ} {U A B F : Finset V} {num den : ℤ}

/-- `A` carries at least `num / den` of the weight of `U`. -/
structure IsQuorum (w : V → ℤ) (U : Finset V) (num den : ℤ) (A : Finset V) : Prop where
  /-- the members are voters -/
  subset : A ⊆ U
  /-- the cross-multiplied threshold -/
  weight : num * ∑ v ∈ U, w v ≤ den * ∑ v ∈ A, w v

/-- A quorum for a fraction is one for every smaller fraction. -/
theorem IsQuorum.of_le {num' den' : ℤ} (hw : ∀ v, 0 ≤ w v) (hden : 0 < den) (hden' : 0 ≤ den')
    (h : num' * den ≤ num * den') (hA : IsQuorum w U num den A) : IsQuorum w U num' den' A := by
  refine ⟨hA.subset, ?_⟩
  have hU : 0 ≤ ∑ v ∈ U, w v := sum_nonneg fun v _ => hw v
  have h1 : num' * den * ∑ v ∈ U, w v ≤ num * den' * ∑ v ∈ U, w v :=
    mul_le_mul_of_nonneg_right h hU
  have h2 : den' * (num * ∑ v ∈ U, w v) ≤ den' * (den * ∑ v ∈ A, w v) :=
    mul_le_mul_of_nonneg_left hA.weight hden'
  have h3 : den * (num' * ∑ v ∈ U, w v) ≤ den * (den' * ∑ v ∈ A, w v) := by linarith
  exact le_of_mul_le_mul_left h3 hden

/-- More voters are a quorum too. -/
theorem IsQuorum.superset (hw : ∀ v, 0 ≤ w v) (hden : 0 ≤ den) (hA : IsQuorum w U num den A)
    (hAB : A ⊆ B) (hB : B ⊆ U) : IsQuorum w U num den B := by
  have hle : ∑ v ∈ A, w v ≤ ∑ v ∈ B, w v :=
    sum_le_sum_of_subset_of_nonneg hAB fun v _ _ => hw v
  exact ⟨hB, hA.weight.trans (mul_le_mul_of_nonneg_left hle hden)⟩

variable [DecidableEq V]

/-- **Quorum intersection**, with exact weights. -/
theorem IsQuorum.inter_weight (hw : ∀ v, 0 ≤ w v) (hden : 0 ≤ den)
    (hA : IsQuorum w U num den A) (hB : IsQuorum w U num den B) :
    (2 * num - den) * ∑ v ∈ U, w v ≤ den * ∑ v ∈ A ∩ B, w v := by
  have hsplit : ∑ v ∈ A ∪ B, w v + ∑ v ∈ A ∩ B, w v = ∑ v ∈ A, w v + ∑ v ∈ B, w v :=
    sum_union_inter
  have hle : ∑ v ∈ A ∪ B, w v ≤ ∑ v ∈ U, w v :=
    sum_le_sum_of_subset_of_nonneg (union_subset hA.subset hB.subset) fun v _ _ => hw v
  have hmul : den * ∑ v ∈ A ∪ B, w v ≤ den * ∑ v ∈ U, w v :=
    mul_le_mul_of_nonneg_left hle hden
  have hsum : den * ∑ v ∈ A ∪ B, w v + den * ∑ v ∈ A ∩ B, w v =
      den * ∑ v ∈ A, w v + den * ∑ v ∈ B, w v := by
    rw [← mul_add, hsplit, mul_add]
  linarith [hA.weight, hB.weight]

/-- **Two quorums share a voter outside `F`**, when `F` is lighter than their overlap. -/
theorem IsQuorum.exists_mem_inter (hw : ∀ v, 0 ≤ w v) (hden : 0 ≤ den)
    (hA : IsQuorum w U num den A) (hB : IsQuorum w U num den B)
    (hF : den * ∑ v ∈ F, w v < (2 * num - den) * ∑ v ∈ U, w v) :
    ∃ v ∈ A ∩ B, v ∉ F := by
  by_contra hnone
  push Not at hnone
  have hle : ∑ v ∈ A ∩ B, w v ≤ ∑ v ∈ F, w v :=
    sum_le_sum_of_subset_of_nonneg hnone fun v _ _ => hw v
  have hmul := mul_le_mul_of_nonneg_left hle hden
  linarith [hA.inter_weight hw hden hB]

/-- **Quorums agree** when the voters outside a light set `F` vote for one value only. -/
theorem IsQuorum.agree {α : Type} {votes : V → α → Prop} {a b : α} (hw : ∀ v, 0 ≤ w v)
    (hden : 0 ≤ den) (hA : IsQuorum w U num den A) (hB : IsQuorum w U num den B)
    (hF : den * ∑ v ∈ F, w v < (2 * num - den) * ∑ v ∈ U, w v)
    (hvA : ∀ v ∈ A, v ∉ F → votes v a) (hvB : ∀ v ∈ B, v ∉ F → votes v b)
    (honce : ∀ v ∉ F, votes v a → votes v b → a = b) : a = b := by
  obtain ⟨v, hv, hvF⟩ := hA.exists_mem_inter hw hden hB hF
  obtain ⟨hmA, hmB⟩ := mem_inter.mp hv
  exact honce v hvF (hvA v hmA hvF) (hvB v hmB hvF)

end Quorum

end Nerion
