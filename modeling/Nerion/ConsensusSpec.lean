import Nerion.Refinement
import Nerion.WeightedQuorum
import Mathlib.Data.Set.Finite.Basic

/-!
# The specification of finality (`docs/formal/NerionConsensus.tla`)

The state of the specification is what each validator has attested. A validator that is not
Byzantine attests one block per height. The operators and invariants carry the names they
have there; the constants are arbitrary, where the model checker sees a few validators.

* `Consensus.noHonestEquivocation` — only Byzantine validators equivocate;
* `Consensus.accountable` — `AccountableSafety` for any fraction: two blocks that gather a
  quorum at one height have equivocators of the weight two quorums overlap in;
* `Consensus.steps_of_extends` — a state with more attestations is reached by adding them one
  by one.
-/

namespace Nerion

/-- The constants of the specification. -/
structure Consensus (V : Type) where
  /-- `Validators` -/
  validators : Finset V
  /-- `Stake` -/
  stake : V → ℕ
  /-- `Byzantine` -/
  byzantine : Finset V
  /-- `ByzantineIsSubset` -/
  byzantine_subset : byzantine ⊆ validators

namespace Consensus

variable {V H B : Type} (C : Consensus V)

/-- `SumStake`. -/
def sumStake (S : Finset V) : ℕ := ∑ v ∈ S, C.stake v

/-- `TotalStake`. -/
def totalStake : ℕ := C.sumStake C.validators

section Operators

variable (attested : V → Set (H × B))

open Classical in
/-- `Attestors`. -/
noncomputable def attestors (h : H) (b : B) : Finset V :=
  C.validators.filter fun v => (h, b) ∈ attested v

/-- `Finalized`: strictly more than two thirds of the stake attested. -/
def Finalized (h : H) (b : B) : Prop :=
  2 * C.totalStake < 3 * C.sumStake (C.attestors attested h b)

/-- `Equivocates`: two blocks at one height. -/
def Equivocates (v : V) : Prop :=
  ∃ h b₁ b₂, b₁ ≠ b₂ ∧ (h, b₁) ∈ attested v ∧ (h, b₂) ∈ attested v

open Classical in
/-- `Equivocators`. -/
noncomputable def equivocators : Finset V := C.validators.filter fun v => Equivocates attested v

def HonestFreeAt (v : V) (h : H) : Prop := ∀ b, (h, b) ∉ attested v

/-- At least `num / den` of the stake attested, which is how the ledger counts. -/
def QuorumAt (num den : ℤ) (h : H) (b : B) : Prop :=
  IsQuorum (fun v => (C.stake v : ℤ)) C.validators num den (C.attestors attested h b)

end Operators

/-- `Attest`: one validator attests one block. -/
inductive Attest [DecidableEq V] : (V → Set (H × B)) → (V → Set (H × B)) → Prop
  /-- the validator, the height and the block -/
  | attest {attested : V → Set (H × B)} (v : V) (h : H) (b : B) (hv : v ∈ C.validators)
      (hnew : (h, b) ∉ attested v) (hfree : v ∈ C.byzantine ∨ HonestFreeAt attested v h) :
      Attest attested (Function.update attested v (insert (h, b) (attested v)))

/-- `Spec`. -/
def spec [DecidableEq V] (H B : Type) : TransitionSystem (V → Set (H × B)) where
  init attested := attested = fun _ => ∅
  next := C.Attest

variable {C} {attested attested' : V → Set (H × B)} {h : H} {b b' : B} {v : V}

open Classical in
theorem mem_attestors : v ∈ C.attestors attested h b ↔ v ∈ C.validators ∧ (h, b) ∈ attested v := by
  rw [attestors, Finset.mem_filter]

open Classical in
theorem mem_equivocators :
    v ∈ C.equivocators attested ↔ v ∈ C.validators ∧ Equivocates attested v := by
  rw [equivocators, Finset.mem_filter]

/-- A quorum of two thirds is `Finalized`, unless it is two thirds to the unit. -/
theorem QuorumAt.finalized (hq : C.QuorumAt attested 2 3 h b) (hdvd : ¬ 3 ∣ C.totalStake) :
    C.Finalized attested h b := by
  have hle : (2 * C.totalStake : ℤ) ≤ 3 * C.sumStake (C.attestors attested h b) := by
    simpa only [totalStake, sumStake, Nat.cast_sum] using hq.weight
  rw [Finalized]
  omega

/-! ## The invariants -/

section Invariants

variable [DecidableEq V]

/-- A validator that is not Byzantine attests one block per height. -/
theorem honest_once : (C.spec H B).Invariant fun attested =>
    ∀ v ∉ C.byzantine, ∀ h b₁ b₂, (h, b₁) ∈ attested v → (h, b₂) ∈ attested v → b₁ = b₂ where
  init := by
    rintro _ rfl v _ h b₁ b₂ h₁ _
    exact absurd h₁ (Set.notMem_empty _)
  next := by
    rintro _ _ ⟨w, k, b, _, _, hfree⟩ ih v hv h b₁ b₂ h₁ h₂
    by_cases hvw : v = w
    · subst hvw
      rw [Function.update_self] at h₁ h₂
      have hfree := hfree.resolve_left hv
      -- the new attestation is the only one at its height
      rcases Set.mem_insert_iff.mp h₁ with h₁ | h₁ <;> rcases Set.mem_insert_iff.mp h₂ with h₂ | h₂
      · exact (Prod.mk.inj h₁).2.trans (Prod.mk.inj h₂).2.symm
      · exact absurd ((Prod.mk.inj h₁).1 ▸ h₂) (hfree b₂)
      · exact absurd ((Prod.mk.inj h₂).1 ▸ h₁) (hfree b₁)
      · exact ih v hv h b₁ b₂ h₁ h₂
    · rw [Function.update_of_ne hvw] at h₁ h₂
      exact ih v hv h b₁ b₂ h₁ h₂

variable (hreach : (C.spec H B).Reachable attested)

include hreach

/-- `NoHonestEquivocation`. -/
theorem noHonestEquivocation (hv : v ∉ C.byzantine) : ¬ Equivocates attested v := by
  rintro ⟨h, b₁, b₂, hne, h₁, h₂⟩
  exact hne (honest_once.of_reachable hreach v hv h b₁ b₂ h₁ h₂)

theorem equivocators_subset : C.equivocators attested ⊆ C.byzantine := by
  intro v hv
  by_contra hnot
  exact noHonestEquivocation hreach hnot (mem_equivocators.mp hv).2

omit hreach in
/-- **Accountable safety for any fraction.** -/
theorem accountable {num den : ℤ} (hden : 0 ≤ den) (hne : b ≠ b')
    (hb : C.QuorumAt attested num den h b) (hb' : C.QuorumAt attested num den h b') :
    (2 * num - den) * C.totalStake ≤ den * C.sumStake (C.equivocators attested) := by
  have hinter := hb.inter_weight (fun v => Int.natCast_nonneg _) hden hb'
  have hsub : C.attestors attested h b ∩ C.attestors attested h b' ⊆ C.equivocators attested := by
    intro v hv
    obtain ⟨h₁, h₂⟩ := Finset.mem_inter.mp hv
    exact mem_equivocators.mpr ⟨(mem_attestors.mp h₁).1, h, b, b', hne, (mem_attestors.mp h₁).2,
      (mem_attestors.mp h₂).2⟩
  have hle : ∑ v ∈ C.attestors attested h b ∩ C.attestors attested h b', (C.stake v : ℤ) ≤
      ∑ v ∈ C.equivocators attested, (C.stake v : ℤ) :=
    Finset.sum_le_sum_of_subset_of_nonneg hsub fun v _ _ => Int.natCast_nonneg _
  rw [totalStake, sumStake, sumStake, Nat.cast_sum, Nat.cast_sum]
  exact hinter.trans (mul_le_mul_of_nonneg_left hle hden)

end Invariants

/-! ## Steps -/

/-- **Attestations may be added one by one**, if there are finitely many and the validators
that are not Byzantine end with one block per height. -/
theorem steps_of_extends [DecidableEq V] (hsub : ∀ v, attested v ⊆ attested' v)
    (hfin : {p : V × H × B | p.2 ∈ attested' p.1}.Finite)
    (hval : ∀ v, ∀ p ∈ attested' v, v ∈ C.validators)
    (honce : ∀ v ∉ C.byzantine, ∀ h b₁ b₂, (h, b₁) ∈ attested' v → (h, b₂) ∈ attested' v →
      b₁ = b₂) : Relation.ReflTransGen C.Attest attested attested' := by
  -- the votes of `S` on top of those there are
  let join (S : Set (V × H × B)) (v : V) : Set (H × B) := attested v ∪ {p | (v, p) ∈ S}
  have hjoin : ∀ S ⊆ {p : V × H × B | p.2 ∈ attested' p.1}, ∀ v, join S v ⊆ attested' v := by
    rintro S hS v p (hp | hp)
    · exact hsub v hp
    · exact hS hp
  have hsteps : Relation.ReflTransGen C.Attest (join ∅) (join {p | p.2 ∈ attested' p.1}) := by
    refine hfin.induction_on_subset _ .refl ?_
    rintro ⟨v, h, b⟩ S hp hS hnew ih
    have hle := hjoin S hS v
    -- one vote more is nothing new, or one step
    by_cases hold : (h, b) ∈ attested v
    · have heq : join (insert (v, h, b) S) = join S := by
        funext w
        refine Set.Subset.antisymm ?_ (Set.union_subset_union_right _ fun p hp =>
          Set.mem_insert_of_mem _ hp)
        rintro p (hp | hp)
        · exact .inl hp
        · rcases Set.mem_insert_iff.mp hp with hp | hp
          · cases hp
            exact .inl hold
          · exact .inr hp
      rw [heq]
      exact ih
    · have hfresh : (h, b) ∉ join S v := by
        rintro (hp | hp)
        · exact hold hp
        · exact hnew hp
      have heq : join (insert (v, h, b) S) =
          Function.update (join S) v (insert (h, b) (join S v)) := by
        funext w
        by_cases hw : w = v
        · subst hw
          rw [Function.update_self]
          ext p
          simp only [join, Set.mem_union, Set.mem_ofPred_eq, Set.mem_insert_iff, Prod.mk.injEq,
            true_and]
          tauto
        · rw [Function.update_of_ne hw]
          ext p
          simp only [join, Set.mem_union, Set.mem_ofPred_eq, Set.mem_insert_iff, Prod.mk.injEq, hw,
            false_and, false_or]
      rw [heq]
      refine ih.tail (.attest v h b (hval v _ hp) hfresh ?_)
      refine or_iff_not_imp_left.mpr fun hhon b' hb' => ?_
      obtain rfl := honce v hhon h b b' hp (hle hb')
      exact hfresh hb'
  have hstart : join ∅ = attested := by
    funext v
    exact Set.union_empty _
  have hend : join {p | p.2 ∈ attested' p.1} = attested' := by
    funext v
    exact Set.union_eq_right.mpr (hsub v)
  rw [hstart, hend] at hsteps
  exact hsteps

end Consensus

end Nerion
