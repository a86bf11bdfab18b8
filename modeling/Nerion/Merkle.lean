import Nerion.Basic
import Nerion.JsNumber
import Nerion.AuditPath

/-!
# The Merkle tree of the transparency log (`translog/src/merkle.ts`)

The hash `H` (SHA3-256) is a parameter. Proofs are *generated* by the recursive
RFC 6962 algorithm and *verified* by the index decomposition on bits of the index and
the size; this module translates both sides as they stand in the source. Loops are
structural recursions on a fuel the lemmas of `MerkleShape` show to be enough.

Beside each hashing function stands the list of byte strings it feeds to `H`
(`…Inputs`). Soundness is relative to the absence of collisions among those strings
only.
-/

namespace Nerion

/-- `LEAF_PREFIX` followed by the payload: what `leafHash` feeds to the hash. -/
def leafInput (data : Bytes) : Bytes := 0x00 :: data

/-- `NODE_PREFIX` followed by the two child hashes: what `nodeHash` feeds to the hash. -/
def nodeInput (l r : Bytes) : Bytes := 0x01 :: (l ++ r)

def bytesEqual (a b : Bytes) : Bool :=
  if a.length ≠ b.length then false else (a.zip b).all fun p => p.1 == p.2

/-! ## Bit helpers -/

/-- Loop of `bitLength`: `while (x > 0) { n++; x = Math.floor(x / 2) }`. -/
def bitLengthLoop : ℕ → ℕ → ℤ → ℕ
  | 0, n, _ => n
  | fuel + 1, n, x => if 0 < x then bitLengthLoop fuel (n + 1) (x / 2) else n

def bitLength (x : ℤ) : ℕ := bitLengthLoop x.toNat 0 x

/-- Loop of `popcount`: `while (x > 0) { c += x & 1; x = Math.floor(x / 2) }`. -/
def popcountLoop : ℕ → ℤ → ℤ → ℤ
  | 0, c, _ => c
  | fuel + 1, c, x => if 0 < x then popcountLoop fuel (c + bitAnd x 1) (x / 2) else c

def popcount (x : ℤ) : ℤ := popcountLoop x.toNat 0 x

/-- Loop of `trailingZeros`: `while ((x & 1) === 0) { n++; x >>= 1 }`. -/
def trailingZerosLoop : ℕ → ℕ → ℤ → ℕ
  | 0, n, _ => n
  | fuel + 1, n, x =>
    if bitAnd x 1 = 0 then trailingZerosLoop fuel (n + 1) (shiftRight x 1) else n

/-- `trailingZeros`; the guard keeps a non-positive argument out of the loop. -/
def trailingZeros (x : ℤ) : ℕ := if x ≤ 0 then 0 else trailingZerosLoop x.toNat 0 x

/-- Loop of `splitPoint`: `while (k * 2 < n) k *= 2`. -/
def splitPointLoop (n : ℕ) : ℕ → ℕ → ℕ
  | 0, k => k
  | fuel + 1, k => if k * 2 < n then splitPointLoop n fuel (k * 2) else k

/-- `splitPoint`: largest power of two strictly less than `n` (for `n ≥ 2`). -/
def splitPoint (n : ℕ) : ℕ := splitPointLoop n n 1

/-- The loop leaves with the split point: `2 ^ j < n` is its invariant, and the fuel
covers the doublings that remain. -/
theorem splitPointLoop_eq {n fuel j : ℕ} (hlo : 2 ^ j < n) (hfuel : n ≤ 2 ^ (j + fuel)) :
    splitPointLoop n fuel (2 ^ j) = leftSize n := by
  induction fuel generalizing j with
  | zero =>
    rw [Nat.add_zero] at hfuel
    omega
  | succ fuel ih =>
    rw [splitPointLoop, ← pow_succ]
    split
    · rename_i hlt
      exact ih hlt (hfuel.trans (Nat.pow_le_pow_right (by omega) (by omega)))
    · rename_i hge
      exact (leftSize_eq hlo (not_lt.mp hge)).symm

theorem splitPoint_eq {n : ℕ} (hn : 2 ≤ n) : splitPoint n = leftSize n := by
  have hfuel : n ≤ 2 ^ (0 + n) := by
    rw [Nat.zero_add]
    exact Nat.lt_two_pow_self.le
  exact splitPointLoop_eq (j := 0) (by omega) hfuel

theorem splitPoint_pos {n : ℕ} (hn : 2 ≤ n) : 0 < splitPoint n := by
  rw [splitPoint_eq hn]
  exact leftSize_pos n

theorem splitPoint_lt {n : ℕ} (hn : 2 ≤ n) : splitPoint n < n := by
  rw [splitPoint_eq hn]
  exact leftSize_lt hn

theorem length_take_splitPoint (e₀ e₁ : Bytes) (es : List Bytes) :
    ((e₀ :: e₁ :: es).take (splitPoint (e₀ :: e₁ :: es).length)).length <
      (e₀ :: e₁ :: es).length := by
  have := splitPoint_lt (n := (e₀ :: e₁ :: es).length) (by simp)
  simp only [List.length_take]
  omega

theorem length_drop_splitPoint (e₀ e₁ : Bytes) (es : List Bytes) :
    ((e₀ :: e₁ :: es).drop (splitPoint (e₀ :: e₁ :: es).length)).length <
      (e₀ :: e₁ :: es).length := by
  have := splitPoint_pos (n := (e₀ :: e₁ :: es).length) (by simp)
  simp only [List.length_drop, List.length_cons] at this ⊢
  omega

section Hash

variable (H : Bytes → Bytes)

/-! ## The tree -/

def emptyRoot : Bytes := H []

def leafHash (data : Bytes) : Bytes := H (leafInput data)

def nodeHash (l r : Bytes) : Bytes := H (nodeInput l r)

/-- `merkleRoot`: Merkle tree hash of the entries. -/
def merkleRoot : List Bytes → Bytes
  | [] => emptyRoot H
  | [e] => leafHash H e
  | e₀ :: e₁ :: es =>
    let entries := e₀ :: e₁ :: es
    let k := splitPoint entries.length
    nodeHash H (merkleRoot (entries.take k)) (merkleRoot (entries.drop k))
termination_by entries => entries.length
decreasing_by exacts [length_take_splitPoint _ _ _, length_drop_splitPoint _ _ _]

/-- The byte strings `merkleRoot` hashes. -/
def merkleRootInputs : List Bytes → List Bytes
  | [] => [[]]
  | [e] => [leafInput e]
  | e₀ :: e₁ :: es =>
    let entries := e₀ :: e₁ :: es
    let k := splitPoint entries.length
    merkleRootInputs (entries.take k) ++ merkleRootInputs (entries.drop k) ++
      [nodeInput (merkleRoot H (entries.take k)) (merkleRoot H (entries.drop k))]
termination_by entries => entries.length
decreasing_by exacts [length_take_splitPoint _ _ _, length_drop_splitPoint _ _ _]

/-- The recursion of `inclusionProof`, on an index in range. -/
def inclusionPath : List Bytes → ℕ → List Bytes
  | [], _ => []
  | [_], _ => []
  | e₀ :: e₁ :: es, m =>
    let entries := e₀ :: e₁ :: es
    let k := splitPoint entries.length
    if m < k then inclusionPath (entries.take k) m ++ [merkleRoot H (entries.drop k)]
    else inclusionPath (entries.drop k) (m - k) ++ [merkleRoot H (entries.take k)]
termination_by entries _ => entries.length
decreasing_by exacts [length_take_splitPoint _ _ _, length_drop_splitPoint _ _ _]

/-- `inclusionProof`: audit path for entry `m`. The range check can only fail at the
outermost call. -/
def inclusionProof (entries : List Bytes) (m : ℕ) : Except JsError (List Bytes) :=
  if entries.length ≤ m then .error (rangeError "index out of range")
  else .ok (inclusionPath H entries m)

/-- `subproof`: the recursion of `consistencyProof`. `b` says that the old tree is still
a left-edge subtree, whose root the verifier already holds. -/
def subproof : List Bytes → ℕ → Bool → List Bytes
  | [], _, _ => []
  | [e], _, b => if b then [] else [merkleRoot H [e]]
  | e₀ :: e₁ :: es, m, b =>
    let entries := e₀ :: e₁ :: es
    if m = entries.length then if b then [] else [merkleRoot H entries]
    else
      let k := splitPoint entries.length
      if m ≤ k then subproof (entries.take k) m b ++ [merkleRoot H (entries.drop k)]
      else subproof (entries.drop k) (m - k) false ++ [merkleRoot H (entries.take k)]
termination_by entries _ _ => entries.length
decreasing_by exacts [length_take_splitPoint _ _ _, length_drop_splitPoint _ _ _]

/-- `consistencyProof`: proof that the size-`m` tree is a prefix of the size-`n` tree. -/
def consistencyProof (entries : List Bytes) (m n : ℕ) : Except JsError (List Bytes) :=
  if n < m ∨ entries.length < n then .error (rangeError "bad consistency range")
  else if m = 0 ∨ m = n then .ok []
  else .ok (subproof H (entries.take n) m true)

/-! ## Hash chains -/

/-- Loop of `chainInner` from position `i`. -/
def chainInnerFrom (index : ℤ) : ℕ → Bytes → List Bytes → Bytes
  | _, acc, [] => acc
  | i, acc, p :: ps =>
    chainInnerFrom index (i + 1)
      (if bitAnd (shiftRight index i) 1 = 0 then nodeHash H acc p else nodeHash H p acc) ps

def chainInner (seed : Bytes) (proof : List Bytes) (index : ℤ) : Bytes :=
  chainInnerFrom H index 0 seed proof

/-- Loop of `chainInnerRight` from position `i`. -/
def chainInnerRightFrom (index : ℤ) : ℕ → Bytes → List Bytes → Bytes
  | _, acc, [] => acc
  | i, acc, p :: ps =>
    chainInnerRightFrom index (i + 1)
      (if bitAnd (shiftRight index i) 1 = 1 then nodeHash H p acc else acc) ps

def chainInnerRight (seed : Bytes) (proof : List Bytes) (index : ℤ) : Bytes :=
  chainInnerRightFrom H index 0 seed proof

def chainBorderRight (seed : Bytes) (proof : List Bytes) : Bytes :=
  proof.foldl (fun acc h => nodeHash H h acc) seed

/-- The byte strings `chainInner` hashes from position `i`. -/
def chainInnerInputs (index : ℤ) : ℕ → Bytes → List Bytes → List Bytes
  | _, _, [] => []
  | i, acc, p :: ps =>
    let x := if bitAnd (shiftRight index i) 1 = 0 then nodeInput acc p else nodeInput p acc
    x :: chainInnerInputs index (i + 1) (H x) ps

/-- The byte strings `chainInnerRight` hashes from position `i`. -/
def chainInnerRightInputs (index : ℤ) : ℕ → Bytes → List Bytes → List Bytes
  | _, _, [] => []
  | i, acc, p :: ps =>
    if bitAnd (shiftRight index i) 1 = 1 then
      nodeInput p acc :: chainInnerRightInputs index (i + 1) (nodeHash H p acc) ps
    else chainInnerRightInputs index (i + 1) acc ps

/-- The byte strings `chainBorderRight` hashes. -/
def chainBorderRightInputs : Bytes → List Bytes → List Bytes
  | _, [] => []
  | acc, p :: ps => nodeInput p acc :: chainBorderRightInputs (nodeHash H p acc) ps

/-! ## Verification -/

/-- `MAX_TREE_SIZE`. -/
def maxTreeSize : ℕ := 2 ^ 31 - 1

/-- The guards of `rootFromInclusion`, with the two counts they establish. -/
def inclusionCounts (m n : JsNum) (proof : List Bytes) : Except JsError (ℕ × ℕ) :=
  if !m.isInteger || !n.isInteger || m.lt 0 || n.lt 0 then
    .error (rangeError "non-integer or negative index/size")
  else if n.le m then .error (rangeError "index >= size")
  else if JsNum.lt maxTreeSize n then
    .error (rangeError "tree size exceeds 32-bit-safe bound (TLOG-002)")
  else
    let inner := bitLength (bitXor m.toInt (n.toInt - 1))
    let border := popcount (shiftRight m.toInt inner)
    if (proof.length : ℤ) ≠ inner + border then .error (error "malformed inclusion proof length")
    else .ok (inner, border.toNat)

def rootFromInclusion (m n : JsNum) (leaf : Bytes) (proof : List Bytes) :
    Except JsError Bytes :=
  (inclusionCounts m n proof).map fun (inner, _) =>
    chainBorderRight H (chainInner H leaf (proof.take inner) m.toInt) (proof.drop inner)

/-- `verifyInclusion`; a thrown error is a rejection. -/
def verifyInclusion (m n : JsNum) (leaf : Bytes) (proof : List Bytes) (root : Bytes) : Bool :=
  match rootFromInclusion H m n (leafHash H leaf) proof with
  | .ok r => bytesEqual r root
  | .error _ => false

/-- The byte strings `verifyInclusion` hashes. -/
def verifyInclusionInputs (m n : JsNum) (leaf : Bytes) (proof : List Bytes) : List Bytes :=
  leafInput leaf ::
    match inclusionCounts m n proof with
    | .ok (inner, _) =>
      chainInnerInputs H m.toInt 0 (leafHash H leaf) (proof.take inner) ++
        chainBorderRightInputs H (chainInner H (leafHash H leaf) (proof.take inner) m.toInt)
          (proof.drop inner)
    | .error _ => []

/-- What `verifyConsistency` derives from the sizes and the proof before it hashes: the
seed, the inner and border parts of the proof and the mask. -/
structure ConsistencyPlan where
  /-- where both chains start -/
  seed : Bytes
  /-- proof nodes consumed bit by bit -/
  innerProof : List Bytes
  /-- proof nodes that are left siblings -/
  borderProof : List Bytes
  /-- the index whose bits steer the inner part -/
  mask : ℤ

/-- The body of `verifyConsistency` between the size guards and the hashing, for
`0 < m < n ≤ MAX_TREE_SIZE`; `none` where it returns `false`. -/
def consistencyPlan (m n : ℤ) (proof : List Bytes) (root1 : Bytes) : Option ConsistencyPlan :=
  let shift := trailingZeros m
  let inner : ℤ := (bitLength (bitXor (m - 1) (n - 1)) : ℤ) - shift
  if inner < 0 then none
  else
    -- the seed and how many proof nodes it used; a power of two starts from `root1`
    let start : Option (Bytes × ℕ) :=
      if m = shiftLeft 1 shift then some (root1, 0) else proof.head?.map fun p => (p, 1)
    start.bind fun (seed, used) =>
      let p := proof.drop used
      let mask := shiftRight (m - 1) shift
      if 2 * bitLength n + 1 < proof.length then none
      else some ⟨seed, p.take inner.toNat, p.drop inner.toNat, mask⟩

/-- `hash1` of `verifyConsistency`: the old root as the proof has it. -/
def ConsistencyPlan.hash1 (c : ConsistencyPlan) : Bytes :=
  chainBorderRight H (chainInnerRight H c.seed c.innerProof c.mask) c.borderProof

/-- `hash2` of `verifyConsistency`: the new root as the proof has it. -/
def ConsistencyPlan.hash2 (c : ConsistencyPlan) : Bytes :=
  chainBorderRight H (chainInner H c.seed c.innerProof c.mask) c.borderProof

/-- The byte strings hashed for `hash1` and `hash2`. -/
def ConsistencyPlan.inputs (c : ConsistencyPlan) : List Bytes :=
  chainInnerRightInputs H c.mask 0 c.seed c.innerProof ++
    chainBorderRightInputs H (chainInnerRight H c.seed c.innerProof c.mask) c.borderProof ++
    (chainInnerInputs H c.mask 0 c.seed c.innerProof ++
      chainBorderRightInputs H (chainInner H c.seed c.innerProof c.mask) c.borderProof)

def verifyConsistency (m n : JsNum) (proof : List Bytes) (root1 root2 : Bytes) : Bool :=
  if !m.isInteger || !n.isInteger || m.lt 0 || n.lt 0 then false
  else if n.lt m then false
  else if JsNum.lt maxTreeSize n then false
  else if m.strictEq n then proof.length == 0 && bytesEqual root1 root2
  -- the empty tree is a prefix of any tree, but its root must be the empty root
  else if m.strictEq 0 then proof.length == 0 && bytesEqual root1 (emptyRoot H)
  else
    match consistencyPlan m.toInt n.toInt proof root1 with
    | none => false
    | some c => bytesEqual (c.hash1 H) root1 && bytesEqual (c.hash2 H) root2

/-- The byte strings `verifyConsistency` hashes. -/
def verifyConsistencyInputs (m n : JsNum) (proof : List Bytes) (root1 : Bytes) : List Bytes :=
  if !m.isInteger || !n.isInteger || m.lt 0 || n.lt 0 then []
  else if n.lt m then []
  else if JsNum.lt maxTreeSize n then []
  else if m.strictEq n then []
  else if m.strictEq 0 then if proof.length == 0 then [[]] else []
  else
    match consistencyPlan m.toInt n.toInt proof root1 with
    | none => []
    | some c => c.inputs H

end Hash

end Nerion
