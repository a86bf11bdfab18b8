import Nerion.MerkleShape

/-!
# Generated Merkle proofs verify

Completeness of both proof kinds. The generators recurse on the split point, the
verifiers walk the bits of an index; both enumerate the same nodes because both follow
`leafPath` and `prefixPath`:

* `inclusionPath` lists the siblings along `leafPath`, and climbing them from the leaf
  gives the root (`climb_inclusionPath`);
* `subproof` lists the siblings along `prefixPath`, preceded by the seed unless the
  verifier already has it; one climb gives the new root and the right-turn climb the old
  one (`ConsistencyNodes`).
-/

namespace Nerion

section Hash

variable (H : Bytes → Bytes)

/-! ## One level of the tree -/

variable {E : List Bytes} {m : ℕ} {proof : List Bytes}

theorem merkleRoot_split (h : 2 ≤ E.length) :
    merkleRoot H E = nodeHash H (merkleRoot H (E.take (leftSize E.length)))
      (merkleRoot H (E.drop (leftSize E.length))) := by
  rcases E with _ | ⟨e₀, _ | ⟨e₁, es⟩⟩
  · simp at h
  · simp at h
  · rw [merkleRoot, splitPoint_eq h]

theorem inclusionPath_left (h : 2 ≤ E.length) (hm : m < leftSize E.length) :
    inclusionPath H E m = inclusionPath H (E.take (leftSize E.length)) m ++
      [merkleRoot H (E.drop (leftSize E.length))] := by
  rcases E with _ | ⟨e₀, _ | ⟨e₁, es⟩⟩
  · simp at h
  · simp at h
  · rw [inclusionPath, splitPoint_eq h]
    exact if_pos hm

theorem inclusionPath_right (h : 2 ≤ E.length) (hm : leftSize E.length ≤ m) :
    inclusionPath H E m = inclusionPath H (E.drop (leftSize E.length)) (m - leftSize E.length) ++
      [merkleRoot H (E.take (leftSize E.length))] := by
  rcases E with _ | ⟨e₀, _ | ⟨e₁, es⟩⟩
  · simp at h
  · simp at h
  · rw [inclusionPath, splitPoint_eq h]
    exact if_neg (not_lt.mpr hm)

theorem subproof_self (h : 0 < E.length) (b : Bool) :
    subproof H E E.length b = if b then [] else [merkleRoot H E] := by
  rcases E with _ | ⟨e₀, _ | ⟨e₁, es⟩⟩
  · simp at h
  · rw [subproof]
  · rw [subproof]
    exact if_pos rfl

theorem subproof_left (h : 2 ≤ E.length) (hm : m ≤ leftSize E.length) (b : Bool) :
    subproof H E m b = subproof H (E.take (leftSize E.length)) m b ++
      [merkleRoot H (E.drop (leftSize E.length))] := by
  have hlt := leftSize_lt h
  rcases E with _ | ⟨e₀, _ | ⟨e₁, es⟩⟩
  · simp at h
  · simp at h
  · rw [subproof, splitPoint_eq h, if_neg (by omega)]
    exact if_pos hm

theorem subproof_right (h : 2 ≤ E.length) (hk : leftSize E.length < m) (hm : m < E.length)
    (b : Bool) :
    subproof H E m b =
      subproof H (E.drop (leftSize E.length)) (m - leftSize E.length) false ++
        [merkleRoot H (E.take (leftSize E.length))] := by
  rcases E with _ | ⟨e₀, _ | ⟨e₁, es⟩⟩
  · simp at h
  · simp at h
  · rw [subproof, splitPoint_eq h, if_neg hm.ne]
    exact if_neg (not_le.mpr hk)

/-- A prefix that reaches past the split keeps the left subtree whole. -/
theorem merkleRoot_take_of_lt (hk : leftSize E.length < m) (hm : m ≤ E.length) :
    merkleRoot H (E.take m) = nodeHash H (merkleRoot H (E.take (leftSize E.length)))
      (merkleRoot H ((E.drop (leftSize E.length)).take (m - leftSize E.length))) := by
  have hpos := leftSize_pos E.length
  have hlen : (E.take m).length = m := List.length_take_of_le hm
  rw [merkleRoot_split H (by omega), hlen, leftSize_stable hk hm, List.take_take,
    min_eq_left hk.le, List.drop_take]

/-! ## Inclusion -/

/-- The generated audit path has one node per turn. -/
theorem length_inclusionPath (hm : m < E.length) :
    (inclusionPath H E m).length = (leafPath E.length m).length := by
  induction E using splitInduction generalizing m with
  | nil => simp at hm
  | single e =>
    rw [List.length_singleton, leafPath_one, inclusionPath]
    rfl
  | split E h2 ihl ihr =>
    rw [length_take_leftSize h2] at ihl
    rw [List.length_drop] at ihr
    by_cases hk : m < leftSize E.length
    · rw [inclusionPath_left H h2 hk, leafPath_left h2 hk, List.length_append, ihl hk]
      rfl
    · have hk' := not_lt.mp hk
      rw [inclusionPath_right H h2 hk', leafPath_right h2 hk', List.length_append,
        ihr (by omega)]
      rfl

/-- Climbing the generated audit path from the leaf ends in the root. -/
theorem climb_inclusionPath {e : Bytes} (he : E[m]? = some e) :
    climb (nodeHash H) (leafHash H e) ((leafPath E.length m).reverse.zip (inclusionPath H E m)) =
      merkleRoot H E := by
  induction E using splitInduction generalizing m with
  | nil => simp at he
  | single e' =>
    obtain ⟨hm, rfl⟩ := List.getElem?_eq_some_iff.mp he
    obtain rfl : m = 0 := by simpa using hm
    rw [List.length_singleton, leafPath_one, merkleRoot]
    rfl
  | split E h2 ihl ihr =>
    have hm := (List.getElem?_eq_some_iff.mp he).1
    by_cases hk : m < leftSize E.length
    · have hlen := length_inclusionPath H (E := E.take (leftSize E.length)) (m := m)
        (by rwa [length_take_leftSize h2])
      have hrec := @ihl m (by rw [List.getElem?_take_of_lt hk]; exact he)
      rw [length_take_leftSize h2] at hlen hrec
      rw [inclusionPath_left H h2 hk, leafPath_left h2 hk, climb_cons_turn _ hlen, hrec,
        if_neg (by simp), ← merkleRoot_split H h2]
    · have hk' := not_lt.mp hk
      have hlen := length_inclusionPath H (E := E.drop (leftSize E.length))
        (m := m - leftSize E.length) (by rw [List.length_drop]; omega)
      have hrec := @ihr (m - leftSize E.length)
        (by rw [List.getElem?_drop, Nat.add_sub_cancel' hk']; exact he)
      rw [List.length_drop] at hlen hrec
      rw [inclusionPath_right H h2 hk', leafPath_right h2 hk', climb_cons_turn _ hlen, hrec,
        if_pos rfl, ← merkleRoot_split H h2]

/-- **Inclusion completeness.** For every index in range the generator returns a proof the
verifier accepts, of the length the verifier derives from the bits of `m` and `n - 1`. -/
theorem verifyInclusion_inclusionProof (E : List Bytes) (m : ℕ) (e : Bytes)
    (he : E[m]? = some e) (hn : E.length ≤ maxTreeSize) :
    ∃ proof, inclusionProof H E m = .ok proof ∧
      verifyInclusion H m E.length e proof (merkleRoot H E) = true ∧
      (proof.length : ℤ) = bitLength (bitXor m (E.length - 1)) +
        popcount (shiftRight m (bitLength (bitXor m (E.length - 1)))) := by
  have hm := (List.getElem?_eq_some_iff.mp he).1
  have hlen := length_inclusionPath H hm
  refine ⟨inclusionPath H E m, if_neg (not_le.mpr hm), ?_, ?_⟩
  · exact (verifyInclusion_iff H).mpr ⟨hm, hn, hlen, climb_inclusionPath H he⟩
  · obtain ⟨inner, border⟩ := inclusionBits hm hn
    rw [inner, border, hlen, length_leafPath hm]
    push_cast
    rfl

/-- `verifyInclusion_inclusionProof` at the middle leaf of a ragged tree, with no hashing. -/
theorem verifyInclusion_inclusionProof_three :
    ∃ proof, inclusionProof id [[1], [2], [3]] 1 = .ok proof ∧
      verifyInclusion id (1 : ℕ) (3 : ℕ) [2] proof (merkleRoot id [[1], [2], [3]]) = true ∧
      (proof.length : ℤ) = bitLength (bitXor 1 (3 - 1)) +
        popcount (shiftRight 1 (bitLength (bitXor 1 (3 - 1)))) :=
  verifyInclusion_inclusionProof id [[1], [2], [3]] 1 [2] rfl (by decide)

/-! ## Consistency -/

/-- What `subproof` emits for the prefix of size `m`: the `seed`, the root of the subtree
that ends at leaf `m - 1`, and the siblings along the path to it. -/
structure ConsistencyNodes (E : List Bytes) (m : ℕ) where
  /-- root of the subtree both trees share at the right edge of the old one -/
  seed : Bytes
  /-- siblings along `prefixPath`, bottom first -/
  sibs : List Bytes
  /-- one sibling per turn -/
  length_sibs : sibs.length = (prefixPath E.length m).length
  /-- climbing every sibling gives the new root -/
  climb_eq : climb (nodeHash H) seed ((prefixPath E.length m).reverse.zip sibs) = merkleRoot H E
  /-- climbing the left siblings only gives the old root -/
  climbRight_eq : climbRight (nodeHash H) seed ((prefixPath E.length m).reverse.zip sibs) =
    merkleRoot H (E.take m)
  /-- the seed is left out when the old tree is itself a subtree of the new one -/
  subproof_eq : ∀ b, subproof H E m b =
    (if b = true ∧ true ∉ prefixPath E.length m then [] else [seed]) ++ sibs

/-- The whole tree: no sibling, and the root itself as the seed. -/
def ConsistencyNodes.whole {E : List Bytes} (h : 0 < E.length) :
    ConsistencyNodes H E E.length where
  seed := merkleRoot H E
  sibs := []
  length_sibs := by rw [prefixPath_self]; rfl
  climb_eq := by rw [prefixPath_self]; rfl
  climbRight_eq := by rw [prefixPath_self, List.take_length]; rfl
  subproof_eq b := by
    rw [prefixPath_self, subproof_self H h]
    cases b <;> simp

/-- A prefix inside the left subtree: the right subtree is one more sibling, which only
the new root has. -/
def ConsistencyNodes.left {E : List Bytes} {m : ℕ} (h0 : 0 < m) (h2 : 2 ≤ E.length)
    (hm : m ≤ leftSize E.length) (c : ConsistencyNodes H (E.take (leftSize E.length)) m) :
    ConsistencyNodes H E m where
  seed := c.seed
  sibs := c.sibs ++ [merkleRoot H (E.drop (leftSize E.length))]
  length_sibs := by
    have hlen := c.length_sibs
    rw [length_take_leftSize h2] at hlen
    rw [prefixPath_left (hm.trans_lt (leftSize_lt h2)) h0 hm, List.length_append, hlen]
    rfl
  climb_eq := by
    have hlen := c.length_sibs
    have hrec := c.climb_eq
    rw [length_take_leftSize h2] at hlen hrec
    rw [prefixPath_left (hm.trans_lt (leftSize_lt h2)) h0 hm, climb_cons_turn _ hlen, hrec,
      if_neg (by simp), ← merkleRoot_split H h2]
  climbRight_eq := by
    have hlen := c.length_sibs
    have hrec := c.climbRight_eq
    rw [length_take_leftSize h2] at hlen hrec
    rw [prefixPath_left (hm.trans_lt (leftSize_lt h2)) h0 hm, climbRight_cons_turn _ hlen, hrec,
      if_neg (by simp), List.take_take, min_eq_left hm]
  subproof_eq b := by
    have hrec := c.subproof_eq b
    rw [length_take_leftSize h2] at hrec
    rw [subproof_left H h2 hm, hrec, prefixPath_left (hm.trans_lt (leftSize_lt h2)) h0 hm,
      List.append_assoc]
    simp

/-- A prefix that reaches into the right subtree: the left subtree is a sibling both roots
have, and the old tree is no subtree any more. -/
def ConsistencyNodes.right {E : List Bytes} {m : ℕ} (hk : leftSize E.length < m)
    (hm : m < E.length)
    (c : ConsistencyNodes H (E.drop (leftSize E.length)) (m - leftSize E.length)) :
    ConsistencyNodes H E m where
  seed := c.seed
  sibs := c.sibs ++ [merkleRoot H (E.take (leftSize E.length))]
  length_sibs := by
    have hlen := c.length_sibs
    rw [List.length_drop] at hlen
    rw [prefixPath_right hm hk, List.length_append, hlen]
    rfl
  climb_eq := by
    have hpos := leftSize_pos E.length
    have hlen := c.length_sibs
    have hrec := c.climb_eq
    rw [List.length_drop] at hlen hrec
    rw [prefixPath_right hm hk, climb_cons_turn _ hlen, hrec, if_pos rfl,
      ← merkleRoot_split H (by omega)]
  climbRight_eq := by
    have hlen := c.length_sibs
    have hrec := c.climbRight_eq
    rw [List.length_drop] at hlen hrec
    rw [prefixPath_right hm hk, climbRight_cons_turn _ hlen, hrec, if_pos rfl,
      ← merkleRoot_take_of_lt H hk hm.le]
  subproof_eq b := by
    have hpos := leftSize_pos E.length
    rw [subproof_right H (by omega) hk hm, c.subproof_eq false, prefixPath_right hm hk]
    simp

/-- `subproof` always emits such nodes. -/
theorem nonempty_consistencyNodes (h0 : 0 < m) (hm : m ≤ E.length) :
    Nonempty (ConsistencyNodes H E m) := by
  induction E using splitInduction generalizing m with
  | nil => simp at hm; omega
  | single e =>
    obtain rfl : m = [e].length := le_antisymm hm h0
    exact ⟨.whole H h0⟩
  | split E h2 ihl ihr =>
    rcases hm.eq_or_lt with rfl | hlt
    · exact ⟨.whole H h0⟩
    · by_cases hk : m ≤ leftSize E.length
      · obtain ⟨c⟩ := ihl h0 (by rwa [length_take_leftSize h2])
        exact ⟨c.left H h0 h2 hk⟩
      · have hk' := not_le.mp hk
        obtain ⟨c⟩ := @ihr (m - leftSize E.length) (by omega) (by rw [List.length_drop]; omega)
        exact ⟨c.right H hk' hlt⟩

/-- A prefix whose size is a power of two has its own root as the seed. -/
theorem ConsistencyNodes.seed_eq (c : ConsistencyNodes H E m) (h : true ∉ prefixPath E.length m) :
    c.seed = merkleRoot H (E.take m) := by
  rw [← c.climbRight_eq]
  refine (climbRight_of_forall_left _ _ _ ?_).symm
  rintro ⟨b, p⟩ hs
  have hb := List.mem_reverse.mp (List.of_mem_zip hs).1
  cases b with
  | false => rfl
  | true => exact absurd hb h

/-- What `consistencyProof` gets: the siblings, after the seed unless `m` is a power of two. -/
theorem ConsistencyNodes.subproof_true (c : ConsistencyNodes H E m) (h0 : 0 < m) (hm : m < E.length)
    (hn : E.length ≤ maxTreeSize) :
    subproof H E m true = if m = 2 ^ trailingZeros m then c.sibs else c.seed :: c.sibs := by
  have hturn := true_mem_prefixPath_iff h0 hm hn
  rw [c.subproof_eq]
  by_cases hp : m = 2 ^ trailingZeros m
  · rw [if_pos hp, if_pos ⟨rfl, fun h => hturn.mp h hp⟩]
    rfl
  · rw [if_neg hp, if_neg fun h => h.2 (hturn.mpr hp)]
    rfl

/-- The length of the generated proof depends on the two sizes only. -/
theorem length_subproof (h0 : 0 < m) (hm : m < E.length) (hn : E.length ≤ maxTreeSize) :
    (subproof H E m true).length = consistencyLength m E.length := by
  obtain ⟨c⟩ := nonempty_consistencyNodes H h0 hm.le
  rw [c.subproof_true H h0 hm hn, consistencyLength, ← c.length_sibs]
  split <;> rfl

/-- The recursive generator meets the bit-wise verifier. -/
theorem verifyConsistency_subproof (h0 : 0 < m) (hm : m < E.length) (hn : E.length ≤ maxTreeSize) :
    verifyConsistency H m E.length (subproof H E m true) (merkleRoot H (E.take m))
      (merkleRoot H E) = true := by
  obtain ⟨c⟩ := nonempty_consistencyNodes H h0 hm.le
  have hsteps := auditSteps_eq_prefixPath h0 hm hn c.length_sibs
  have hbound : (subproof H E m true).length ≤ 2 * E.length.size + 1 := by
    rw [length_subproof H h0 hm hn]
    exact consistencyLength_le h0 hm hn
  refine (verifyConsistency_iff H h0 hm).mpr ⟨hn, hbound, c.seed, c.sibs, ?_, ?_, ?_⟩
  · rw [c.subproof_true H h0 hm hn, consistencyStart]
    by_cases hp : m = 2 ^ trailingZeros m
    · have hseed := c.seed_eq H fun h => (true_mem_prefixPath_iff h0 hm hn).mp h hp
      rw [if_pos hp, if_pos hp, hseed]
    · rw [if_neg hp, if_neg hp]
      rfl
  · rw [hsteps]
    exact c.climbRight_eq
  · rw [hsteps]
    exact c.climb_eq

/-- The generator and the verifier agree at every pair of sizes, the equal and the empty
ones included. -/
theorem verifyConsistency_of_consistencyProof {m n : ℕ} (hmn : m ≤ n) (hn : n ≤ E.length)
    (hmax : n ≤ maxTreeSize) :
    ∃ proof, consistencyProof H E m n = .ok proof ∧
      verifyConsistency H m n proof (merkleRoot H (E.take m)) (merkleRoot H (E.take n)) = true := by
  have hrange : ¬ (n < m ∨ E.length < n) := by omega
  rw [consistencyProof]
  rw [if_neg hrange]
  rcases hmn.eq_or_lt with rfl | hlt
  · rw [if_pos (Or.inr rfl)]
    exact ⟨[], rfl, (verifyConsistency_self H).mpr ⟨hmax, rfl, rfl⟩⟩
  · rcases Nat.eq_zero_or_pos m with rfl | h0
    · rw [if_pos (Or.inl rfl)]
      refine ⟨[], rfl, (verifyConsistency_zero H hlt).mpr ⟨hmax, rfl, ?_⟩⟩
      rw [List.take_zero, merkleRoot]
    · have hlen : (E.take n).length = n := List.length_take_of_le hn
      rw [if_neg (by omega)]
      refine ⟨_, rfl, ?_⟩
      have h := verifyConsistency_subproof H (E := E.take n) h0 (by omega) (by omega)
      rwa [hlen, List.take_take, min_eq_left hmn] at h

/-! ## Proofs of the wrong length

The verifier bounds the length of a proof but does not compare it with the length the two
sizes call for; the source relies on the root comparison instead. The roots are signed by
the operator and need not be roots of any tree, and then the comparison catches little. -/

/-- A complete old tree is steered by an all-zero mask. -/
theorem consistencyMask_of_two_pow (hp : m = 2 ^ trailingZeros m) : consistencyMask m = 0 := by
  have hpos := Nat.two_pow_pos (trailingZeros m)
  exact Nat.shiftRight_eq_zero _ _ (by omega)

/-- A complete old tree takes one node per bit of the window and nothing else. -/
theorem consistencyLength_of_two_pow {m n : ℕ} (h0 : 0 < m) (hmn : m < n)
    (hn : n ≤ maxTreeSize) (hp : m = 2 ^ trailingZeros m) :
    consistencyLength m n = innerCount m n := by
  rw [consistencyLength, if_pos hp, prefixPath_eq_bitTurns h0 hmn hn, length_bitTurns,
    consistencyMask_of_two_pow hp, Nat.zero_shiftRight]
  rfl

/-- From a complete old tree the old root is compared with itself, hashed under the nodes
beyond the expected length. -/
theorem verifyConsistency_two_pow {m n : ℕ} (h0 : 0 < m) (hmn : m < n) (hn : n ≤ maxTreeSize)
    (hp : m = 2 ^ trailingZeros m) {root1 root2 : Bytes} :
    verifyConsistency H m n proof root1 root2 = true ↔
      proof.length ≤ 2 * n.size + 1 ∧
        chainBorderRight H root1 (proof.drop (consistencyLength m n)) = root1 ∧
        climb (nodeHash H) root1 (auditSteps (innerCount m n) 0 proof) = root2 := by
  rw [verifyConsistency_iff H h0 hmn, consistencyStart, if_pos hp,
    consistencyMask_of_two_pow hp, consistencyLength_of_two_pow h0 hmn hn hp,
    chainBorderRight_eq_climbRight]
  constructor
  · rintro ⟨-, hl, seed, rest, hstart, h1, h2⟩
    obtain ⟨rfl, rfl⟩ := Prod.mk.inj (Option.some.inj hstart)
    rw [climbRight_auditSteps_zero] at h1
    exact ⟨hl, h1, h2⟩
  · rintro ⟨hl, h1, h2⟩
    exact ⟨hn, hl, root1, proof, rfl, (climbRight_auditSteps_zero _ _ _ _).trans h1, h2⟩

/-- For an old size that is no power of two the first node is the seed, and any further nodes
lead to some pair of roots. -/
theorem exists_roots_of_not_two_pow {m n : ℕ} (h0 : 0 < m) (hmn : m < n) (hn : n ≤ maxTreeSize)
    (hp : m ≠ 2 ^ trailingZeros m) {p : Bytes} {ps : List Bytes}
    (hl : (p :: ps).length ≤ 2 * n.size + 1) :
    ∃ root1 root2, verifyConsistency H m n (p :: ps) root1 root2 = true :=
  ⟨_, _, (verifyConsistency_iff H h0 hmn).mpr ⟨hn, hl, p, ps, if_neg hp, rfl, rfl⟩⟩

/-- The proofs whose length the verifier checks by its verdict: the right length, lengths
over the bound, no seed where one is needed, and surplus nodes above a complete old tree,
as long as no digest is a fixed point of hashing under them. -/
def LengthChecked (m n expected : ℕ) (proof : List Bytes) : Prop :=
  proof.length = expected ∨ 2 * bitLength n + 1 < proof.length ∨
    (proof = [] ∧ m ≠ 2 ^ trailingZeros m) ∨
    (m = 2 ^ trailingZeros m ∧ expected < proof.length ∧
      ∀ r, chainBorderRight H r (proof.drop expected) ≠ r)

/-- Outside `LengthChecked` some pair of roots makes the verifier accept. -/
theorem exists_roots_of_not_lengthChecked {m n : ℕ} (h0 : 0 < m) (hmn : m < n)
    (hn : n ≤ maxTreeSize) (h : ¬ LengthChecked H m n (consistencyLength m n) proof) :
    ∃ root1 root2, verifyConsistency H m n proof root1 root2 = true := by
  rw [LengthChecked] at h
  rw [bitLength_natCast, not_or, not_or, not_or, not_lt] at h
  obtain ⟨hne, hl, hseed, hfix⟩ := h
  by_cases hp : m = 2 ^ trailingZeros m
  · rcases Nat.lt_or_gt_of_ne hne with hlt | hgt
    · -- too short: nothing is hashed onto the old root
      refine ⟨[], _, (verifyConsistency_two_pow H h0 hmn hn hp).mpr ⟨hl, ?_, rfl⟩⟩
      rw [List.drop_eq_nil_of_le hlt.le]
      rfl
    · -- too long: the fixed point is the old root
      obtain ⟨r, hr⟩ : ∃ r, chainBorderRight H r (proof.drop (consistencyLength m n)) = r := by
        by_contra hno
        exact hfix ⟨hp, hgt, not_exists.mp hno⟩
      exact ⟨r, _, (verifyConsistency_two_pow H h0 hmn hn hp).mpr ⟨hl, hr, rfl⟩⟩
  · cases proof with
    | nil => exact absurd ⟨rfl, hp⟩ hseed
    | cons p ps => exact exists_roots_of_not_two_pow H h0 hmn hn hp hl

/-- Within `LengthChecked` the verifier accepts the right length only. -/
theorem length_eq_of_lengthChecked {m n : ℕ} (h0 : 0 < m) (hmn : m < n) (hn : n ≤ maxTreeSize)
    (h : LengthChecked H m n (consistencyLength m n) proof) {root1 root2 : Bytes}
    (hv : verifyConsistency H m n proof root1 root2 = true) :
    proof.length = consistencyLength m n := by
  obtain ⟨-, hl, seed, rest, hstart, -, -⟩ := (verifyConsistency_iff H h0 hmn).mp hv
  rcases h with hlen | hbound | ⟨rfl, hp⟩ | ⟨hp, -, hfix⟩
  · exact hlen
  · rw [bitLength_natCast] at hbound
    exact absurd hl (not_le.mpr hbound)
  · rw [consistencyStart, if_neg hp] at hstart
    cases hstart
  · obtain ⟨-, hr, -⟩ := (verifyConsistency_two_pow H h0 hmn hn hp).mp hv
    exact absurd hr (hfix root1)

/-- What the generator returns has the length the two sizes call for. -/
theorem length_of_consistencyProof {E gen : List Bytes} {m n : ℕ} (h0 : 0 < m) (hmn : m < n)
    (hn : n ≤ maxTreeSize) (hgen : consistencyProof H E m n = .ok gen) :
    gen.length = consistencyLength m n := by
  rw [consistencyProof] at hgen
  split at hgen
  · cases hgen
  · rename_i hrange
    rw [if_neg (by omega)] at hgen
    have hlen : (E.take n).length = n := List.length_take_of_le (by omega)
    rw [← Except.ok.inj hgen, length_subproof H h0 (by omega) (by omega), hlen]

/-- Any root is linked to itself between any two sizes, by no node or by itself. -/
theorem verifyConsistency_same_root {m n : ℕ} (h0 : 0 < m) (hmn : m < n) (hn : n ≤ maxTreeSize)
    (root : Bytes) :
    verifyConsistency H m n (if m = 2 ^ trailingZeros m then [] else [root]) root root = true := by
  have hempty : ∀ inner mask, auditSteps inner mask ([] : List Bytes) = [] := fun inner mask => by
    simp [auditSteps]
  by_cases hp : m = 2 ^ trailingZeros m
  · rw [if_pos hp]
    refine (verifyConsistency_two_pow H h0 hmn hn hp).mpr ⟨by simp, ?_, ?_⟩
    · rw [List.drop_nil]
      rfl
    · rw [hempty]
      rfl
  · rw [if_neg hp]
    refine (verifyConsistency_iff H h0 hmn).mpr ⟨hn, by simp, root, [], if_neg hp, ?_, ?_⟩
    · rw [hempty]
      rfl
    · rw [hempty]
      rfl

/-- **Wrong-length proofs.** The verdict enforces the generated length exactly on
`LengthChecked` proofs; and between any two sizes a root is accepted as its own successor,
by a proof shorter than the generated one. -/
theorem verifyConsistency_length_iff (m n : ℕ) (h0 : 0 < m) (hmn : m < n) (hn : n ≤ maxTreeSize)
    (E gen : List Bytes) (hgen : consistencyProof H E m n = .ok gen) (proof : List Bytes) :
    ((∀ root1 root2, verifyConsistency H m n proof root1 root2 = true →
        proof.length = gen.length) ↔ LengthChecked H m n gen.length proof) ∧
      ∀ root, verifyConsistency H m n (if m = 2 ^ trailingZeros m then [] else [root])
        root root = true := by
  rw [length_of_consistencyProof H h0 hmn hn hgen]
  refine ⟨⟨fun h => ?_, fun h root1 root2 => length_eq_of_lengthChecked H h0 hmn hn h⟩,
    verifyConsistency_same_root H h0 hmn hn⟩
  by_contra hno
  obtain ⟨root1, root2, hv⟩ := exists_roots_of_not_lengthChecked H h0 hmn hn hno
  exact hno (Or.inl (h root1 root2 hv))

theorem consistencyProof_pair (e₀ e₁ : Bytes) :
    consistencyProof H [e₀, e₁] 1 2 = .ok [leafHash H e₁] := by
  have hsub : subproof H [e₀, e₁] 1 true = [leafHash H e₁] := by
    rw [subproof_left H (by simp) (leftSize_pos _)]
    change subproof H [e₀] [e₀].length true ++ [merkleRoot H [e₁]] = _
    rw [subproof_self H (by simp), if_pos rfl, merkleRoot]
    rfl
  exact congrArg Except.ok hsub

/-- Sizes one and two with the same root and no proof node, where the generator emits one. -/
theorem verifyConsistency_wrong_length :
    (∀ (H : Bytes → Bytes) (root : Bytes),
      verifyConsistency H (1 : ℕ) (2 : ℕ) [] root root = true) ∧
    (∀ (H : Bytes → Bytes) (e₀ e₁ : Bytes), ∃ gen, consistencyProof H [e₀, e₁] 1 2 = .ok gen ∧
      gen.length = 1) :=
  ⟨fun H => verifyConsistency_same_root H (m := 1) (n := 2) (by decide) (by decide) (by decide),
    fun H e₀ e₁ => ⟨_, consistencyProof_pair H e₀ e₁, rfl⟩⟩

/-- `verifyConsistency_length_iff` at the same sizes: the empty proof is not checked. -/
theorem verifyConsistency_length_iff_pair :
    ((∀ root1 root2, verifyConsistency id (1 : ℕ) (2 : ℕ) [] root1 root2 = true →
        ([] : List Bytes).length = [leafHash id [2]].length) ↔ LengthChecked id 1 2 1 []) ∧
      ∀ root, verifyConsistency id (1 : ℕ) (2 : ℕ)
        (if (1 : ℕ) = 2 ^ trailingZeros (1 : ℕ) then [] else [root]) root root = true :=
  verifyConsistency_length_iff id 1 2 (by decide) (by decide) (by decide) [[1], [2]]
    [leafHash id [2]] (consistencyProof_pair id [1] [2]) []

end Hash

end Nerion
