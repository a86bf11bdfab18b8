import Mathlib.Data.List.Perm.Basic
import Nerion.RangeComplete

/-!
# Set-membership proofs (`disclosure/src/setmembership.ts`)

A Pedersen commitment hides a member of a public set: the proof is a one-of-`k` proof of knowledge
of the logarithm of `commitment - set[j]·G` to the base `H`, in its compact form, with a share of
the challenge and a response for each branch. The prover simulates all branches but one, and
closes that one with the blinding. The scalars it draws are arguments.

* `shareSum_eq` — the shares count by their sum modulo the order;
* `branchCommitments_proved` — the verifier recomputes what the prover committed to;
* `verifyMembership_proveMembership` — **completeness**;
* `extractMembership_spec` — **special soundness**: two answers to the same branch commitments
  give an opening to a member of the set.
-/

namespace Nerion

structure MembershipProof where
  /-- shares of the challenge, one for each branch -/
  c : List ℤ
  /-- responses, one for each branch -/
  s : List ℤ

/-- The scalars that `proveMembership` draws. -/
structure MembershipCoins where
  /-- `c[j]`, for the simulated branches -/
  c : ℕ → ℤ
  /-- `s[j]`, for the simulated branches -/
  s : ℕ → ℤ
  kReal : ℤ

/-- `new SetMembershipError(m)`. -/
def setMembershipError (m : String) : JsError := ⟨"SetMembershipError", m⟩

/-- `MAX_SET_SIZE`. -/
def maxSetSize : ℕ := 1024

namespace PedersenGroup

variable {P : Type} [AddCommGroup P] (Z : PedersenGroup P)

def scalarTo32 (x : ℤ) : Bytes := bigEndian 32 (Z.mod x).toNat

/-- `challenge`, of the set-membership proof. -/
def membershipChallenge (commitment : P) (set : List ℤ) (ts : List P) : ℤ :=
  Z.scalarFromBytes (Z.shake256
    (utf8 ("Nerion/disclosure/set-membership/v1|k=" ++ toString set.length) ++
      Z.toBytes commitment ++ set.flatMap Z.scalarTo32 ++ ts.flatMap Z.toBytes))

/-- `P_j`, what is left of the commitment when the element `x` of the set is taken away. -/
def branchPoint (commitment : P) (x : ℤ) : P := Z.sub commitment (Z.mul Z.G x)

/-- `s_j·H - c_j·P_j`. -/
def branchCommitment (p : P) (c s : ℤ) : P := Z.sub (Z.mul Z.H s) (Z.mul p c)

/-- `sumC`, and `sumFake` over the simulated branches. -/
def shareSum (c : List ℤ) : ℤ := c.foldl (fun sum x => Z.mod (sum + x)) 0

def proveMembership (coins : MembershipCoins) (value r : ℤ) (set : List ℤ) :
    Except JsError MembershipProof :=
  if set.length = 0 then .error (setMembershipError "set must be non-empty")
  else if maxSetSize < set.length then
    .error (setMembershipError ("set exceeds MAX_SET_SIZE (" ++ toString maxSetSize ++ ")"))
  else
    let v := Z.mod value
    match set.findIdx? fun s => Z.mod s == v with
    | none => .error (setMembershipError "value is not a member of the set")
    | some t =>
      let commitment := Z.commit value r
      let k := set.length
      let points := set.map (Z.branchPoint commitment)
      -- the loop over the branches but `t`
      let sumFake := Z.shareSum (((List.range k).erase t).map coins.c)
      let ts := points.mapIdx fun j p =>
        if j = t then Z.mul Z.H coins.kReal else Z.branchCommitment p (coins.c j) (coins.s j)
      let chal := Z.membershipChallenge commitment set ts
      let cReal := Z.mod (chal - sumFake)
      let sReal := Z.mod (coins.kReal + cReal * r)
      .ok ⟨(List.range k).map fun j => if j = t then cReal else coins.c j,
        (List.range k).map fun j => if j = t then sReal else coins.s j⟩

/-- The commitments of the branches, as `verifyMembership` recomputes them. -/
def branchCommitments (commitment : P) (set : List ℤ) (proof : MembershipProof) : List P :=
  List.zipWith (fun x cs => Z.branchCommitment (Z.branchPoint commitment x) cs.1 cs.2) set
    (proof.c.zip proof.s)

def verifyMembership (commitment : P) (set : List ℤ) (proof : MembershipProof) : Bool :=
  let k := set.length
  if k = 0 ∨ maxSetSize < k then false
  else if proof.c.length ≠ k ∨ proof.s.length ≠ k then false
  else
    decide (Z.shareSum proof.c =
      Z.membershipChallenge commitment set (Z.branchCommitments commitment set proof))

/-! ## The branches -/

@[simp] theorem branchPoint_eq (commitment : P) (x : ℤ) :
    Z.branchPoint commitment x = commitment - x • Z.G := by
  rw [branchPoint, sub_eq, mul_eq]

@[simp] theorem branchCommitment_eq (p : P) (c s : ℤ) :
    Z.branchCommitment p c s = s • Z.H - c • p := by
  rw [branchCommitment, sub_eq, mul_eq, mul_eq]

/-- The sum is reduced at every branch, and comes out as the residue of the whole sum. -/
theorem shareSum_eq (c : List ℤ) : Z.shareSum c = Z.mod c.sum := by
  have hfold : ∀ sum, Z.mod (c.foldl (fun sum x => Z.mod (sum + x)) sum) = Z.mod (sum + c.sum) := by
    induction c with
    | nil => simp
    | cons x c ih =>
      intro sum
      rw [List.foldl_cons, ih, List.sum_cons, ← add_assoc, mod_eq_mod_iff]
      exact (Z.mod_modEq _).add_right _
  have hreduced : Z.mod (Z.shareSum c) = Z.shareSum c := by
    rcases List.eq_nil_or_concat c with rfl | ⟨c, x, rfl⟩
    · simp [shareSum, mod]
    · simp [shareSum, mod_mod]
  rw [← hreduced, shareSum, hfold, zero_add]

theorem mod_membershipChallenge (commitment : P) (set : List ℤ) (ts : List P) :
    Z.mod (Z.membershipChallenge commitment set ts) = Z.membershipChallenge commitment set ts := by
  rw [membershipChallenge, scalarFromBytes, mod_mod]

/-! ## Completeness -/

/-- The prover's share of the real branch makes the shares add up to the challenge. -/
theorem shareSum_proved (c : ℕ → ℤ) {k t : ℕ} (ht : t < k) {chal : ℤ} (hchal : Z.mod chal = chal) :
    Z.shareSum ((List.range k).map fun j =>
      if j = t then Z.mod (chal - Z.shareSum (((List.range k).erase t).map c)) else c j) =
      chal := by
  have hperm := List.perm_cons_erase (List.mem_range.mpr ht)
  have hrest : ∀ j ∈ (List.range k).erase t, j ≠ t := by
    intro j hj
    exact ((List.Nodup.mem_erase_iff List.nodup_range).mp hj).1
  rw [shareSum_eq, (hperm.map _).sum_eq, List.map_cons, List.sum_cons, if_pos rfl]
  rw [List.map_congr_left fun j hj => if_neg (hrest j hj), shareSum_eq, ← hchal, mod_eq_mod_iff]
  calc Z.mod (Z.mod chal - Z.mod (((List.range k).erase t).map c).sum) +
        (((List.range k).erase t).map c).sum
      ≡ chal - (((List.range k).erase t).map c).sum + (((List.range k).erase t).map c).sum
        [ZMOD Z.order] :=
        ((Z.mod_modEq _).trans ((Z.mod_modEq _).sub (Z.mod_modEq _))).add_right _
    _ = chal := sub_add_cancel _ _

/-- The real branch: its commitment is recomputed from a response that knows the blinding. -/
theorem real_branch {value x : ℤ} (hx : Z.mod x = Z.mod value) (r k c : ℤ) :
    Z.branchCommitment (Z.branchPoint (Z.commit value r) x) c (Z.mod (k + c * r)) =
      Z.mul Z.H k := by
  rw [branchPoint_eq, branchCommitment_eq, commit_eq, mul_eq, Z.zsmul_congr (Z.mod_modEq _),
    Z.zsmul_congr (Z.mod_eq_mod_iff.mp hx), add_sub_cancel_left, add_zsmul, mul_zsmul,
    add_sub_cancel_right]

/-- The verifier recomputes the commitments of the prover, in every branch. -/
theorem branchCommitments_proved (coins : MembershipCoins) {value : ℤ} (r : ℤ) {set : List ℤ}
    {t : ℕ} (ht : t < set.length) (hvalue : Z.mod set[t] = Z.mod value) (c : ℤ) :
    Z.branchCommitments (Z.commit value r) set
      ⟨(List.range set.length).map fun j => if j = t then c else coins.c j,
        (List.range set.length).map fun j =>
          if j = t then Z.mod (coins.kReal + c * r) else coins.s j⟩ =
      (set.map (Z.branchPoint (Z.commit value r))).mapIdx fun j p =>
        if j = t then Z.mul Z.H coins.kReal
        else Z.branchCommitment p (coins.c j) (coins.s j) := by
  apply List.ext_getElem
  · simp [branchCommitments]
  · intro j _ _
    by_cases hj : j = t
    · subst hj
      simpa [branchCommitments] using Z.real_branch hvalue r coins.kReal c
    · simp [branchCommitments, hj]

/-- **Completeness.** For every set of at most 1024 elements, every value with the residue of one
of them and every blinding, whatever the prover draws and whatever the hash: a proof is made, and
it is accepted. -/
theorem verifyMembership_proveMembership (coins : MembershipCoins) {value : ℤ} (r : ℤ)
    {set : List ℤ} (hsize : set.length ≤ maxSetSize) (hmember : ∃ x ∈ set, Z.mod x = Z.mod value) :
    ∃ proof, Z.proveMembership coins value r set = .ok proof ∧
      Z.verifyMembership (Z.commit value r) set proof = true := by
  have hempty : set.length ≠ 0 := by
    obtain ⟨x, hx, -⟩ := hmember
    exact List.length_pos_of_mem hx |>.ne'
  obtain ⟨t, ht, hvalue, hfind⟩ : ∃ t, ∃ ht : t < set.length, Z.mod set[t] = Z.mod value ∧
      set.findIdx? (fun s => Z.mod s == Z.mod value) = some t := by
    have hsome : (set.findIdx? fun s => Z.mod s == Z.mod value).isSome := by
      simpa [List.findIdx?_isSome] using hmember
    obtain ⟨t, hfind⟩ := Option.isSome_iff_exists.mp hsome
    obtain ⟨ht, hvalue, -⟩ := List.findIdx?_eq_some_iff_getElem.mp hfind
    exact ⟨t, ht, by simpa using hvalue, hfind⟩
  rw [proveMembership, if_neg hempty, if_neg (by omega)]
  simp only [hfind]
  refine ⟨_, rfl, ?_⟩
  rw [verifyMembership, if_neg (by omega), if_neg (by simp), decide_eq_true_iff]
  rw [branchCommitments_proved Z coins r ht hvalue]
  exact Z.shareSum_proved coins.c ht (Z.mod_membershipChallenge _ _ _)

/-! ## Special soundness -/

/-- The index of a branch and the blinding of the commitment, from two answers to the same branch
commitments: the first branch in which the shares are different. -/
def extractMembership (proof proof' : MembershipProof) : Option (ℕ × ℤ) :=
  let forked j := Z.mod (proof.c.getD j 0) != Z.mod (proof'.c.getD j 0)
  ((List.range proof.c.length).find? forked).map fun j =>
    (j, Z.inv (proof.c.getD j 0 - proof'.c.getD j 0) * (proof.s.getD j 0 - proof'.s.getD j 0))

/-- Shares that are the same modulo the order in every branch have the same sum. -/
theorem sum_modEq {c c' : List ℤ} (hlength : c.length = c'.length)
    (h : ∀ j < c.length, Z.mod (c.getD j 0) = Z.mod (c'.getD j 0)) :
    c.sum ≡ c'.sum [ZMOD Z.order] := by
  induction c generalizing c' with
  | nil =>
    obtain rfl := List.eq_nil_of_length_eq_zero hlength.symm
    rfl
  | cons x c ih =>
    obtain ⟨x', c', rfl⟩ := List.exists_cons_of_length_eq_add_one hlength.symm
    rw [List.sum_cons, List.sum_cons]
    apply Int.ModEq.add
    · exact Z.mod_eq_mod_iff.mp (h 0 (by simp))
    · apply ih
      · simpa using hlength
      · intro j hj
        simpa using h (j + 1) (by simpa using hj)

/-- In the branch `j`, the response answers for the branch commitment and the share. -/
theorem response_eq {commitment : P} {set : List ℤ} {proof : MembershipProof} {j : ℕ}
    (hc : proof.c.length = set.length) (hs : proof.s.length = set.length) (hj : j < set.length) :
    proof.s.getD j 0 • Z.H = (Z.branchCommitments commitment set proof).getD j 0 +
      proof.c.getD j 0 • (commitment - set.getD j 0 • Z.G) := by
  simp [branchCommitments, hc, hs, hj]

/-- **Special soundness.** For every commitment and set, two proofs with the same recomputed branch
commitments and different sums of shares give an element of the set and a blinding with which the
commitment opens to it. -/
theorem extractMembership_spec {commitment : P} {set : List ℤ} {proof proof' : MembershipProof}
    (hc : proof.c.length = set.length) (hs : proof.s.length = set.length)
    (hc' : proof'.c.length = set.length) (hs' : proof'.s.length = set.length)
    (hsame : Z.branchCommitments commitment set proof = Z.branchCommitments commitment set proof')
    (hsums : ¬ proof.c.sum ≡ proof'.c.sum [ZMOD Z.order]) :
    ∃ j r, Z.extractMembership proof proof' = some (j, r) ∧
      ∃ hj : j < set.length, commitment = Z.commit set[j] r := by
  obtain ⟨j, hfind⟩ : ∃ j, (List.range proof.c.length).find?
      (fun j => Z.mod (proof.c.getD j 0) != Z.mod (proof'.c.getD j 0)) = some j := by
    by_contra hnone
    apply hsums
    apply Z.sum_modEq (hc.trans hc'.symm)
    intro j hj
    have hall := List.find?_eq_none.mp (Option.eq_none_iff_forall_ne_some.mpr (not_exists.mp hnone))
    simpa using hall j (List.mem_range.mpr hj)
  have hj : j < set.length := by
    rw [← hc]
    exact List.mem_range.mp (List.mem_of_find?_eq_some hfind)
  have hne : ¬ (Z.order : ℤ) ∣ proof.c.getD j 0 - proof'.c.getD j 0 := by
    intro hdvd
    have hforked := List.find?_some hfind
    rw [bne_iff_ne] at hforked
    exact hforked (Z.mod_eq_mod_iff.mpr (Int.modEq_iff_dvd.mpr hdvd).symm)
  have hresponse := @response_eq _ _ Z commitment _ _ _ hc hs hj
  have hresponse' := @response_eq _ _ Z commitment _ _ _ hc' hs' hj
  rw [← hsame] at hresponse'
  have hopen := Z.zsmul_of_two_responses hresponse hresponse' (Z.mul_inv_modEq hne)
  refine ⟨j, _, by rw [extractMembership, hfind, Option.map_some], hj, ?_⟩
  rw [commit_eq, hopen]
  simp [hj]

/-- **The set-membership proof is complete and specially sound.** -/
theorem membership_complete_sound :
    (∀ (coins : MembershipCoins) (value r : ℤ) (set : List ℤ), set.length ≤ maxSetSize →
      (∃ x ∈ set, Z.mod x = Z.mod value) →
      ∃ proof, Z.proveMembership coins value r set = .ok proof ∧
        Z.verifyMembership (Z.commit value r) set proof = true) ∧
    ∀ (commitment : P) (set : List ℤ) (proof proof' : MembershipProof),
      proof.c.length = set.length → proof.s.length = set.length →
      proof'.c.length = set.length → proof'.s.length = set.length →
      Z.branchCommitments commitment set proof = Z.branchCommitments commitment set proof' →
      ¬ proof.c.sum ≡ proof'.c.sum [ZMOD Z.order] →
      ∃ j r, Z.extractMembership proof proof' = some (j, r) ∧
        ∃ hj : j < set.length, commitment = Z.commit set[j] r :=
  ⟨fun coins _ r _ hsize hmember => Z.verifyMembership_proveMembership coins r hsize hmember,
    fun _ _ _ _ hc hs hc' hs' hsame hsums => Z.extractMembership_spec hc hs hc' hs' hsame hsums⟩

end PedersenGroup

/-- A set with a repeated element and an unreduced one, and two proofs about a set of two elements
that answer to the same branch commitments, in a group to run the code in. -/
theorem membership_complete_sound_scalarGroup :
    (∃ proof, scalarGroup.proveMembership ⟨fun _ => 3, fun _ => 4, 5⟩ 9 11
        [7, 9, 9 + ristrettoOrder, 9] = .ok proof ∧
      scalarGroup.verifyMembership (scalarGroup.commit 9 11) [7, 9, 9 + ristrettoOrder, 9] proof =
        true) ∧
    ∃ j r, scalarGroup.extractMembership ⟨[1, 0], [0, 0]⟩ ⟨[1, 1], [0, 11]⟩ = some (j, r) ∧
      ∃ hj : j < [(7 : ℤ), 9].length, scalarGroup.commit 9 11 = scalarGroup.commit [7, 9][j] r := by
  obtain ⟨hcomplete, hsound⟩ := scalarGroup.membership_complete_sound
  constructor
  · exact hcomplete _ _ _ _ (by decide) ⟨9, by simp, rfl⟩
  · refine hsound _ [7, 9] ⟨[1, 0], [0, 0]⟩ ⟨[1, 1], [0, 11]⟩ rfl rfl rfl rfl ?_ ?_
    · simp [PedersenGroup.branchCommitments, PedersenGroup.commit_eq]
    · decide +kernel

end Nerion
