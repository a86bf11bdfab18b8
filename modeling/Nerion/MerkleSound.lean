import Nerion.MerkleComplete

/-!
# Merkle proofs bind

Soundness of both verifiers against arbitrary proofs. Nothing is assumed of the proof's
nodes, not even their length. The hash has 32-byte outputs and no collision among the
byte strings that are actually hashed (`CollisionFree`); a global injectivity assumption
would be false of any hash.

Every argument peels the tree from the root. The last step of a climb and the root of
the tree are hashes of one string each, so the strings are equal (`peel`); as the
climb's accumulator is 32 bytes long, the string splits in one way only, and the walk
goes on one level below, on the side the step came from.
-/

namespace Nerion

/-- No two distinct strings of the list have the same hash. -/
def CollisionFree (H : Bytes → Bytes) (xs : List Bytes) : Prop :=
  ∀ a ∈ xs, ∀ b ∈ xs, H a = H b → a = b

theorem CollisionFree.mono {H : Bytes → Bytes} {xs ys : List Bytes} (h : CollisionFree H ys)
    (hsub : xs ⊆ ys) : CollisionFree H xs :=
  fun a ha b hb => h a (hsub ha) b (hsub hb)

section Hash

variable (H : Bytes → Bytes)

/-! ## The string behind a root -/

/-- The string whose hash is the root. -/
def rootInput : List Bytes → Bytes
  | [] => []
  | [e] => leafInput e
  | e₀ :: e₁ :: es =>
    let E := e₀ :: e₁ :: es
    nodeInput (merkleRoot H (E.take (leftSize E.length)))
      (merkleRoot H (E.drop (leftSize E.length)))

variable {E : List Bytes}

theorem rootInput_split (h : 2 ≤ E.length) :
    rootInput H E = nodeInput (merkleRoot H (E.take (leftSize E.length)))
      (merkleRoot H (E.drop (leftSize E.length))) := by
  rcases E with _ | ⟨e₀, _ | ⟨e₁, es⟩⟩
  · simp at h
  · simp at h
  · rfl

theorem merkleRoot_eq (E : List Bytes) : merkleRoot H E = H (rootInput H E) := by
  rcases E with _ | ⟨e₀, _ | ⟨e₁, es⟩⟩
  · rw [merkleRoot]
    rfl
  · rw [merkleRoot]
    rfl
  · exact merkleRoot_split H (by simp)

theorem merkleRootInputs_split (h : 2 ≤ E.length) :
    merkleRootInputs H E =
      merkleRootInputs H (E.take (leftSize E.length)) ++
        merkleRootInputs H (E.drop (leftSize E.length)) ++ [rootInput H E] := by
  rcases E with _ | ⟨e₀, _ | ⟨e₁, es⟩⟩
  · simp at h
  · simp at h
  · rw [merkleRootInputs, splitPoint_eq h]
    rfl

theorem rootInput_mem (E : List Bytes) : rootInput H E ∈ merkleRootInputs H E := by
  rcases E with _ | ⟨e₀, _ | ⟨e₁, es⟩⟩
  · rw [merkleRootInputs]
    exact List.mem_singleton.mpr rfl
  · rw [merkleRootInputs]
    exact List.mem_singleton.mpr rfl
  · rw [merkleRootInputs_split H (by simp)]
    exact List.mem_append_right _ (List.mem_singleton.mpr rfl)

/-- One side of the split: the right one for `true`, as turns have it. -/
def side (b : Bool) (E : List Bytes) : List Bytes :=
  if b then E.drop (leftSize E.length) else E.take (leftSize E.length)

theorem merkleRootInputs_side {E S : List Bytes} (h : 2 ≤ E.length)
    (hE : merkleRootInputs H E ⊆ S) (b : Bool) : merkleRootInputs H (side b E) ⊆ S := by
  rw [merkleRootInputs_split H h] at hE
  obtain ⟨hsides, -⟩ := List.append_subset.mp hE
  obtain ⟨hl, hr⟩ := List.append_subset.mp hsides
  cases b with
  | false => exact hl
  | true => exact hr

theorem rootInput_side (h : 2 ≤ E.length) (b : Bool) :
    rootInput H E =
      if b then nodeInput (merkleRoot H (side (!b) E)) (merkleRoot H (side b E))
      else nodeInput (merkleRoot H (side b E)) (merkleRoot H (side (!b) E)) := by
  cases b <;> exact rootInput_split H h

theorem side_append (E : List Bytes) : side false E ++ side true E = E :=
  List.take_append_drop _ E

theorem mem_of_mem_side {b : Bool} {e : Bytes} (h : e ∈ side b E) : e ∈ E := by
  cases b with
  | false => exact List.mem_of_mem_take h
  | true => exact List.mem_of_mem_drop h

/-- Only a tree of one entry hashes a leaf string at its root. -/
theorem eq_singleton_of_rootInput {e : Bytes} (h : rootInput H E = leafInput e) : E = [e] := by
  rcases E with _ | ⟨e₀, _ | ⟨e₁, es⟩⟩
  · cases h
  · exact congrArg (fun x => [x]) (List.cons.inj h).2
  · exact absurd (List.cons.inj h).1 (by decide)

/-- Only a tree of at least two entries hashes a node string at its root. -/
theorem two_le_of_rootInput {l r : Bytes} (h : rootInput H E = nodeInput l r) : 2 ≤ E.length := by
  rcases E with _ | ⟨e₀, _ | ⟨e₁, es⟩⟩
  · cases h
  · exact absurd (List.cons.inj h).1 (by decide)
  · simp

/-! ## Peeling the root -/

section Binding

variable (hlen : ∀ x, (H x).length = 32)

include hlen

theorem length_merkleRoot (E : List Bytes) : (merkleRoot H E).length = 32 := by
  rw [merkleRoot_eq]
  exact hlen _

variable {A B : List Bytes} {steps : List (Bool × Bytes)}

/-- A node string over 32-byte halves splits in one way as soon as one side has 32 bytes. -/
theorem nodeInput_inj_left {l r : Bytes} (hl : l.length = 32)
    (h : nodeInput (merkleRoot H A) (merkleRoot H B) = nodeInput l r) :
    merkleRoot H A = l ∧ merkleRoot H B = r :=
  List.append_inj (List.cons.inj h).2 (by rw [length_merkleRoot H hlen, hl])

theorem nodeInput_inj_right {l r : Bytes} (hr : r.length = 32)
    (h : nodeInput (merkleRoot H A) (merkleRoot H B) = nodeInput l r) :
    merkleRoot H A = l ∧ merkleRoot H B = r :=
  List.append_inj' (List.cons.inj h).2 (by rw [length_merkleRoot H hlen, hr])

/-- **Peeling.** If a step with a 32-byte accumulator reproduces the string hashed at the
root, the tree splits there, the accumulator is the root of the side the step came from
and the sibling the root of the other. -/
theorem peel {E : List Bytes} {b : Bool} {p acc : Bytes} (hacc : acc.length = 32)
    (h : rootInput H E = if b then nodeInput p acc else nodeInput acc p) :
    2 ≤ E.length ∧ merkleRoot H (side b E) = acc ∧ merkleRoot H (side (!b) E) = p := by
  have h2 : 2 ≤ E.length := by
    cases b <;> exact two_le_of_rootInput H h
  rw [rootInput_side H h2 b] at h
  cases b with
  | false =>
    obtain ⟨ha, hp⟩ := nodeInput_inj_left H hlen hacc h
    exact ⟨h2, ha, hp⟩
  | true =>
    obtain ⟨hp, ha⟩ := nodeInput_inj_right H hlen hacc h
    exact ⟨h2, ha, hp⟩

/-- The accumulator of a climb is a hash, hence 32 bytes, unless nothing was climbed. -/
theorem length_climb {seed : Bytes} (h : steps = [] → seed.length = 32) :
    (climb (nodeHash H) seed steps).length = 32 := by
  induction steps using List.reverseRecOn with
  | nil => exact h rfl
  | append_singleton steps s _ =>
    obtain ⟨b, p⟩ := s
    rw [climb_concat]
    split <;> exact hlen _

/-! ## Binding

From here on `S` is a list of strings without collisions that holds everything hashed. -/

variable {S : List Bytes} (hc : CollisionFree H S)

include hc

omit hlen in
/-- Equal roots hash equal strings. -/
theorem rootInput_eq {E : List Bytes} (hE : merkleRootInputs H E ⊆ S) {x : Bytes} (hx : x ∈ S)
    (h : H x = merkleRoot H E) : rootInput H E = x := by
  rw [merkleRoot_eq] at h
  exact (hc x hx _ (hE (rootInput_mem H E)) h).symm

/-- **Roots bind entries.** -/
theorem merkleRoot_inj (hA : merkleRootInputs H A ⊆ S) (hB : merkleRootInputs H B ⊆ S)
    (h : merkleRoot H A = merkleRoot H B) : A = B := by
  induction A using splitInduction generalizing B with
  | nil =>
    rw [merkleRoot_eq H []] at h
    have hin := rootInput_eq H hc hB (hA (rootInput_mem H [])) h
    rcases B with _ | ⟨e₀, _ | ⟨e₁, es⟩⟩
    · rfl
    · cases hin
    · cases hin
  | single e =>
    rw [merkleRoot_eq H [e]] at h
    have hin := rootInput_eq H hc hB (hA (rootInput_mem H [e])) h
    exact (eq_singleton_of_rootInput H hin).symm
  | split A h2 ihl ihr =>
    rw [merkleRoot_eq H A] at h
    have hin := rootInput_eq H hc hB (hA (rootInput_mem H A)) h
    rw [rootInput_split H h2] at hin
    -- both halves of `B` come off at once, as the halves of `A` are 32 bytes long
    have h2' := two_le_of_rootInput H hin
    rw [rootInput_split H h2'] at hin
    obtain ⟨hl, hr⟩ := nodeInput_inj_left H hlen (length_merkleRoot H hlen _) hin
    have hsideA := merkleRootInputs_side H h2 hA
    have hsideB := merkleRootInputs_side H h2' hB
    have htake := ihl (hsideA false) (hsideB false) hl.symm
    have hdrop := ihr (hsideA true) (hsideB true) hr.symm
    calc A = side false A ++ side true A := (side_append A).symm
      _ = side false B ++ side true B := congrArg₂ (· ++ ·) htake hdrop
      _ = B := side_append B

/-- One level of a climb that ends in a root: the tree splits, the rest of the climb ends
in the root of one side and the sibling is the root of the other. -/
theorem climb_concat_sound {E : List Bytes} {seed p : Bytes} {xs : List (Bool × Bytes)} {b : Bool}
    (hseed : xs = [] → seed.length = 32) (hE : merkleRootInputs H E ⊆ S)
    (hxs : climbInputs (nodeHash H) nodeInput seed (xs ++ [(b, p)]) ⊆ S)
    (h : climb (nodeHash H) seed (xs ++ [(b, p)]) = merkleRoot H E) :
    2 ≤ E.length ∧ climb (nodeHash H) seed xs = merkleRoot H (side b E) ∧
      p = merkleRoot H (side (!b) E) ∧ climbInputs (nodeHash H) nodeInput seed xs ⊆ S := by
  rw [climbInputs_append] at hxs
  obtain ⟨hrest, hlast⟩ := List.append_subset.mp hxs
  have hin : rootInput H E = if b then nodeInput p (climb (nodeHash H) seed xs)
      else nodeInput (climb (nodeHash H) seed xs) p := by
    refine rootInput_eq H hc hE (hlast (List.mem_singleton.mpr rfl)) ?_
    rw [← h, climb_concat]
    cases b <;> rfl
  obtain ⟨h2, hacc, hp⟩ := peel H hlen (length_climb H hlen hseed) hin
  exact ⟨h2, hacc.symm, hp.symm, hrest⟩

/-! ## Inclusion -/

/-- Any climb from a leaf hash that ends in the root started at an entry. -/
theorem mem_of_climb {E : List Bytes} {e : Bytes} (he : leafInput e ∈ S)
    (hE : merkleRootInputs H E ⊆ S)
    (hxs : climbInputs (nodeHash H) nodeInput (leafHash H e) steps ⊆ S)
    (h : climb (nodeHash H) (leafHash H e) steps = merkleRoot H E) : e ∈ E := by
  induction steps using List.reverseRecOn generalizing E with
  | nil =>
    have hin := rootInput_eq H hc hE he h
    rw [eq_singleton_of_rootInput H hin]
    exact List.mem_singleton.mpr rfl
  | append_singleton xs s ih =>
    obtain ⟨b, p⟩ := s
    obtain ⟨h2, hacc, -, hrest⟩ :=
      climb_concat_sound H hlen hc (fun _ => hlen _) hE hxs h
    exact mem_of_mem_side (ih (merkleRootInputs_side H h2 hE b) hrest hacc)

/-- A climb along the path to leaf `m` of the tree's own size started at entry `m`. -/
theorem getElem?_of_climb {E : List Bytes} {m : ℕ} {e : Bytes} {proof : List Bytes}
    (hm : m < E.length) (hlenp : proof.length = (leafPath E.length m).length)
    (he : leafInput e ∈ S) (hE : merkleRootInputs H E ⊆ S)
    (hxs : climbInputs (nodeHash H) nodeInput (leafHash H e)
      ((leafPath E.length m).reverse.zip proof) ⊆ S)
    (h : climb (nodeHash H) (leafHash H e) ((leafPath E.length m).reverse.zip proof) =
      merkleRoot H E) : E[m]? = some e := by
  induction E using splitInduction generalizing m proof with
  | nil => simp at hm
  | single e' =>
    rw [List.length_singleton, leafPath_one] at h
    have hin := rootInput_eq H hc hE he h
    obtain rfl : m = 0 := by simpa using hm
    rw [eq_singleton_of_rootInput H hin]
    rfl
  | split E h2 ihl ihr =>
    -- the last node of the proof is the sibling below the root
    have hsplit : ∀ {b turns}, leafPath E.length m = b :: turns →
        ∃ sibs p, proof = sibs ++ [p] ∧ sibs.length = turns.length := by
      intro b turns hpath
      rw [hpath] at hlenp
      rcases List.eq_nil_or_concat' proof with rfl | ⟨sibs, p, rfl⟩
      · cases hlenp
      · exact ⟨sibs, p, rfl, by simpa using hlenp⟩
    by_cases hk : m < leftSize E.length
    · have hpath := leafPath_left h2 hk
      obtain ⟨sibs, p, rfl, hsibs⟩ := hsplit hpath
      rw [hpath, zip_cons_turn hsibs] at hxs h
      obtain ⟨-, hacc, -, hrest⟩ := climb_concat_sound H hlen hc (fun _ => hlen _) hE hxs h
      have htake := length_take_leftSize h2
      rw [← htake] at hsibs hrest hacc
      have hrec := ihl (by rwa [htake]) hsibs
        (merkleRootInputs_side H h2 hE false) hrest hacc
      rwa [List.getElem?_take_of_lt hk] at hrec
    · have hk' := not_lt.mp hk
      have hpath := leafPath_right h2 hk'
      obtain ⟨sibs, p, rfl, hsibs⟩ := hsplit hpath
      rw [hpath, zip_cons_turn hsibs] at hxs h
      obtain ⟨-, hacc, -, hrest⟩ := climb_concat_sound H hlen hc (fun _ => hlen _) hE hxs h
      rw [← List.length_drop] at hsibs hrest hacc
      have hrec := ihr (by rw [List.length_drop]; omega) hsibs
        (merkleRootInputs_side H h2 hE true) hrest hacc
      rwa [List.getElem?_drop, Nat.add_sub_cancel' hk'] at hrec

/-! ## Consistency -/

/-- **Two climbs from one seed.** If the right-turn climb ends in the root of `A` and the
full climb in the root of `B`, then `A` is a prefix of `B`, wherever the steps came from. -/
theorem isPrefix_of_climbs {seed : Bytes} (hA : merkleRootInputs H A ⊆ S)
    (hB : merkleRootInputs H B ⊆ S) (hr : climbRightInputs (nodeHash H) nodeInput seed steps ⊆ S)
    (hl : climbInputs (nodeHash H) nodeInput seed steps ⊆ S)
    (hroot1 : climbRight (nodeHash H) seed steps = merkleRoot H A)
    (hroot2 : climb (nodeHash H) seed steps = merkleRoot H B) : A <+: B := by
  induction steps using List.reverseRecOn generalizing A B with
  | nil =>
    exact merkleRoot_inj H hlen hc hA hB (hroot1.symm.trans hroot2) ▸ List.prefix_rfl
  | append_singleton xs s ih =>
    obtain ⟨b, p⟩ := s
    rw [climbRightInputs_append] at hr
    obtain ⟨hrest, hlast⟩ := List.append_subset.mp hr
    rw [climbRight_concat] at hroot1
    cases b with
    | false =>
      -- the old root is complete below; `B` loses its right subtree
      have hseed : xs = [] → seed.length = 32 := by
        rintro rfl
        rw [show seed = merkleRoot H A from hroot1]
        exact length_merkleRoot H hlen A
      obtain ⟨h2, hacc, -, hlrest⟩ := climb_concat_sound H hlen hc hseed hB hl hroot2
      have hpre := ih hA (merkleRootInputs_side H h2 hB false) hrest hlrest hroot1 hacc
      exact hpre.trans ⟨side true B, side_append B⟩
    | true =>
      have hinA : nodeInput p (climbRight (nodeHash H) seed xs) ∈ S :=
        hlast (List.mem_singleton.mpr rfl)
      rcases List.eq_nil_or_concat' xs with rfl | ⟨ys, s, rfl⟩
      · -- both roots hash the same string
        exact merkleRoot_inj H hlen hc hA hB (hroot1.symm.trans hroot2) ▸ List.prefix_rfl
      · -- both trees lose the same left subtree
        obtain ⟨h2B, haccB, hpB, hlrest⟩ :=
          climb_concat_sound H hlen hc (fun h => absurd h (by simp)) hB hl hroot2
        have hstrA := rootInput_eq H hc hA hinA hroot1
        have h2A := two_le_of_rootInput H hstrA
        rw [rootInput_split H h2A] at hstrA
        have hp : p.length = 32 := by rw [hpB]; exact length_merkleRoot H hlen _
        obtain ⟨hleft, hright⟩ := nodeInput_inj_left H hlen hp hstrA
        have hpre := ih (merkleRootInputs_side H h2A hA true) (merkleRootInputs_side H h2B hB true)
          hrest hlrest hright.symm haccB
        have heq : side false A = side false B :=
          merkleRoot_inj H hlen hc (merkleRootInputs_side H h2A hA false)
            (merkleRootInputs_side H h2B hB false) (hleft.trans hpB)
        rw [← side_append A, ← side_append B, heq]
        exact (List.prefix_append_right_inj _).mpr hpre

end Binding

end Hash

/-! ## A concrete tree

Two entries, and a hash that keeps the first 32 bytes of its argument: enough to see the
hypotheses of both soundness theorems hold together. -/

/-- The argument's first 32 bytes, padded with zeros. -/
def padHash (x : Bytes) : Bytes := (x ++ List.replicate 32 0).take 32

theorem length_padHash (x : Bytes) : (padHash x).length = 32 := by
  simp [padHash]

theorem merkleRoot_pair (H : Bytes → Bytes) (a b : Bytes) :
    merkleRoot H [a, b] = nodeHash H (leafHash H a) (leafHash H b) := by
  rw [merkleRoot_split H (by simp)]
  change nodeHash H (merkleRoot H [a]) (merkleRoot H [b]) = _
  rw [merkleRoot, merkleRoot]

theorem merkleRootInputs_pair (H : Bytes → Bytes) (a b : Bytes) :
    merkleRootInputs H [a, b] =
      [leafInput a, leafInput b, nodeInput (leafHash H a) (leafHash H b)] := by
  rw [merkleRootInputs_split H (by simp), rootInput_split H (by simp)]
  change merkleRootInputs H [a] ++ merkleRootInputs H [b] ++
    [nodeInput (merkleRoot H [a]) (merkleRoot H [b])] = _
  rw [merkleRoot, merkleRoot, merkleRootInputs, merkleRootInputs]
  rfl

theorem collisionFree_padHash : CollisionFree padHash
    (merkleRootInputs padHash [[1], [2]]) := by
  rw [merkleRootInputs_pair]
  rw [CollisionFree]
  decide

theorem leafPath_two_zero : leafPath 2 0 = [false] := by
  rw [leafPath_left le_rfl (by decide), show leftSize 2 = 1 from rfl, leafPath_one]

theorem verifyInclusion_pair :
    verifyInclusion padHash (0 : ℕ) (2 : ℕ) [1] [leafHash padHash [2]]
      (merkleRoot padHash [[1], [2]]) = true := by
  refine (verifyInclusion_iff padHash).mpr ⟨by decide, by decide, ?_, ?_⟩
  · rw [leafPath_two_zero]
    rfl
  · rw [leafPath_two_zero, merkleRoot_pair]
    rfl

theorem prefixPath_two_one : prefixPath 2 1 = [false] := by
  rw [prefixPath_left (by decide) (by decide) (by decide), show leftSize 2 = 1 from rfl,
    prefixPath_self]

theorem auditSteps_pair (x : Bytes) :
    auditSteps (innerCount 1 2) (consistencyMask 1) [x] = [(false, x)] := by
  rw [auditSteps_eq_prefixPath (by decide) (by decide) (by decide)
    (by rw [prefixPath_two_one]; rfl), prefixPath_two_one]
  rfl

theorem consistencyStart_one (proof : List Bytes) (root1 : Bytes) :
    consistencyStart 1 proof root1 = some (root1, proof) :=
  if_pos (by decide)

theorem verifyConsistency_pair :
    verifyConsistency padHash (1 : ℕ) (2 : ℕ) [leafHash padHash [2]] (merkleRoot padHash [[1]])
      (merkleRoot padHash [[1], [2]]) = true := by
  refine (verifyConsistency_iff padHash (by decide) (by decide)).mpr
    ⟨by decide, by decide, _, _, consistencyStart_one _ _, ?_, ?_⟩
  · rw [auditSteps_pair]
    rfl
  · rw [auditSteps_pair, merkleRoot_pair, merkleRoot]
    rfl

/-! ## The verifiers -/

/-- **Inclusion soundness.** Whatever index, size and nodes a witness claims, an accepted
payload is an entry of the tree; with the true size, it is the entry at the index. -/
theorem verifyInclusion_sound (H : Bytes → Bytes) (hlen : ∀ x, (H x).length = 32)
    (E : List Bytes) (m n : JsNum) (payload : Bytes) (proof : List Bytes)
    (hc : CollisionFree H (verifyInclusionInputs H m n payload proof ++ merkleRootInputs H E))
    (h : verifyInclusion H m n payload proof (merkleRoot H E) = true) :
    payload ∈ E ∧ (n = (E.length : JsNum) → ∃ i : ℕ, m = i ∧ E[i]? = some payload) := by
  obtain ⟨i, k, rfl, rfl⟩ := exists_natCast_of_verifyInclusion H h
  obtain ⟨hik, -, hproof, hclimb⟩ := (verifyInclusion_iff H).mp h
  rw [verifyInclusionInputs_eq H h] at hc
  have hE := List.subset_append_right (leafInput payload ::
    climbInputs (nodeHash H) nodeInput (leafHash H payload) ((leafPath k i).reverse.zip proof))
    (merkleRootInputs H E)
  have hin := List.subset_append_left (leafInput payload ::
    climbInputs (nodeHash H) nodeInput (leafHash H payload) ((leafPath k i).reverse.zip proof))
    (merkleRootInputs H E)
  obtain ⟨hleaf, hxs⟩ := List.cons_subset.mp hin
  refine ⟨mem_of_climb H hlen hc hleaf hE hxs hclimb, fun hk => ⟨i, rfl, ?_⟩⟩
  obtain rfl := JsNum.natCast_injective hk
  exact getElem?_of_climb H hlen hc hik hproof hleaf hE hxs hclimb

/-- `verifyInclusion_sound` at the first of two entries. -/
theorem verifyInclusion_sound_pair :
    [1] ∈ ([[1], [2]] : List Bytes) ∧
      (((2 : ℕ) : JsNum) = (([[1], [2]] : List Bytes).length : JsNum) →
        ∃ i : ℕ, ((0 : ℕ) : JsNum) = i ∧ ([[1], [2]] : List Bytes)[i]? = some [1]) := by
  refine verifyInclusion_sound padHash length_padHash [[1], [2]] (0 : ℕ) (2 : ℕ) [1]
    [leafHash padHash [2]] (collisionFree_padHash.mono ?_) verifyInclusion_pair
  rw [verifyInclusionInputs_eq padHash verifyInclusion_pair, leafPath_two_zero,
    merkleRootInputs_pair]
  simp [climbInputs]

/-- **Consistency soundness.** Whatever the proof, if the verifier links the roots of two
trees, the entries of the older one are a prefix of those of the newer one. -/
theorem verifyConsistency_sound (H : Bytes → Bytes) (hlen : ∀ x, (H x).length = 32)
    (A B proof : List Bytes)
    (hc : CollisionFree H
      (verifyConsistencyInputs H A.length B.length proof (merkleRoot H A) ++
        (merkleRootInputs H A ++ merkleRootInputs H B)))
    (h : verifyConsistency H A.length B.length proof (merkleRoot H A) (merkleRoot H B) = true) :
    A <+: B := by
  obtain ⟨hver, htrees⟩ := List.append_subset.mp (List.Subset.refl
    (verifyConsistencyInputs H A.length B.length proof (merkleRoot H A) ++
      (merkleRootInputs H A ++ merkleRootInputs H B)))
  obtain ⟨hA, hB⟩ := List.append_subset.mp htrees
  generalize verifyConsistencyInputs H A.length B.length proof (merkleRoot H A) ++
    (merkleRootInputs H A ++ merkleRootInputs H B) = S at hc hver hA hB
  rcases (le_of_verifyConsistency H h).eq_or_lt with heq | hlt
  · rw [heq] at h
    obtain ⟨-, -, hroots⟩ := (verifyConsistency_self H).mp h
    exact merkleRoot_inj H hlen hc hA hB hroots ▸ List.prefix_rfl
  · rcases Nat.eq_zero_or_pos A.length with hzero | h0
    · rw [List.length_eq_zero_iff.mp hzero]
      exact ⟨B, rfl⟩
    · obtain ⟨hn, hl, seed, rest, hstart, hroot1, hroot2⟩ :=
        (verifyConsistency_iff H h0 hlt).mp h
      rw [verifyConsistencyInputs_eq H h0 hlt hn hl hstart] at hver
      obtain ⟨hin1, hin2⟩ := List.append_subset.mp hver
      exact isPrefix_of_climbs H hlen hc hA hB hin1 hin2 hroot1 hroot2

/-- `verifyConsistency_sound` between one and two entries. -/
theorem verifyConsistency_sound_pair :
    verifyConsistency padHash (1 : ℕ) (2 : ℕ) [leafHash padHash [2]] (merkleRoot padHash [[1]])
      (merkleRoot padHash [[1], [2]]) = true ∧ [[1]] <+: ([[1], [2]] : List Bytes) := by
  refine ⟨verifyConsistency_pair, verifyConsistency_sound padHash length_padHash [[1]] [[1], [2]]
    [leafHash padHash [2]] (collisionFree_padHash.mono ?_) verifyConsistency_pair⟩
  change verifyConsistencyInputs padHash (1 : ℕ) (2 : ℕ) _ _ ++ _ ⊆ _
  rw [verifyConsistencyInputs_eq padHash (by decide) (by decide) (by decide) (by decide)
    (consistencyStart_one _ _), auditSteps_pair, merkleRootInputs_pair]
  simp [climbInputs, climbRightInputs, merkleRoot, merkleRootInputs]

end Nerion
