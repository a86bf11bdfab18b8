import Nerion.EvmProfile
import Nerion.MerkleSound

/-!
# The finality verifier (`contracts/NerionFinalityVerifier.sol`)

The contract recomputes the set id and the message from its calldata and counts the stake
behind valid signatures. Its arithmetic is checked: an addition or a multiplication that
leaves the range of a `uint256` reverts. The members have to come sorted; a key counts once
it has been counted, which the contract looks up by the hashes of the keys.

* `sumStakes_iff`, `countFrom_iff` — the loops return the exact sums, unless those are too
  large;
* `attestingWeight_eq` — what is counted, by member;
* `verifyFinality_eq_true_iff` — what the contract accepts, over natural numbers;
* `verifyEquivocation_eq_true_iff` — what it takes for an equivocation.

Gas is not modelled.
-/

namespace Nerion

namespace FinalityVerifier

/-- `uint256`. -/
abbrev Uint256 : Type := BitVec 256

/-- How a call ends when it does not return. -/
inductive Revert where
  /-- a `require` that fails, with its message -/
  | reason (message : String)
  /-- a failed check of the language, with its code -/
  | panic (code : ℕ)
  deriving DecidableEq

/-- What the contract takes from the chain it runs on. -/
structure Env where
  /-- `block.chainid` -/
  chainid : Uint256
  /-- `address(this)` -/
  self : FixedBytes 20
  keccak256 : Bytes → FixedBytes 32
  /-- `MLDSA87.verify` -/
  mldsa87 : (publicKey message signature : Bytes) → Bool

structure Validator where
  /-- public key -/
  pubkey : Bytes
  stake : Uint256
  /-- VRF key, empty if there is none -/
  vrfPubkey : Bytes

structure Attestation where
  /-- public key of the signer -/
  pubkey : Bytes
  signature : Bytes

/-- The calldata of `verifyFinality`. -/
structure Call where
  /-- the members, sorted -/
  validators : List Validator
  attestations : List Attestation
  suite : String
  /-- destination chain -/
  chainId : Uint256
  /-- destination contract -/
  verifier : FixedBytes 20
  /-- height of the block -/
  height : Uint256
  blockHash : FixedBytes 32
  /-- epoch of the set -/
  epoch : Uint256
  /-- numerator of the threshold -/
  finalityNum : Uint256
  /-- denominator of the threshold -/
  finalityDen : Uint256

/-- `SET_TAG`. -/
def setTag : Bytes := utf8 "Nerion/evm-consensus-set/v1"

/-- `ATT_TAG`. -/
def attTag : Bytes := utf8 "Nerion/evm-attest/v1"

/-- `MAX_VALIDATORS`. -/
def maxValidators : ℕ := 4096

/-- `MAX_ATTESTATIONS`. -/
def maxAttestations : ℕ := 8192

/-- A word as `abi.encodePacked` writes it. -/
def word (x : Uint256) : Bytes := bigEndian 32 x.toNat

/-! ## Checked arithmetic -/

/-- `a + b`. -/
def checkedAdd (a b : Uint256) : Except Revert Uint256 :=
  if a.toNat + b.toNat < 2 ^ 256 then .ok (a + b) else .error (.panic 0x11)

/-- `a * b`. -/
def checkedMul (a b : Uint256) : Except Revert Uint256 :=
  if a.toNat * b.toNat < 2 ^ 256 then .ok (a * b) else .error (.panic 0x11)

theorem toNat_zero : (0 : Uint256).toNat = 0 := rfl

theorem toNat_ofNat_of_lt {n : ℕ} (h : n < 2 ^ 256) : (BitVec.ofNat 256 n).toNat = n := by
  rw [BitVec.toNat_ofNat, Nat.mod_eq_of_lt h]

theorem checkedAdd_iff {a b r : Uint256} : checkedAdd a b = .ok r ↔
    a.toNat + b.toNat < 2 ^ 256 ∧ r.toNat = a.toNat + b.toNat := by
  rw [checkedAdd]
  refine ⟨fun h => ?_, ?_⟩
  · split at h
    · rename_i hlt
      obtain rfl := Except.ok.inj h
      exact ⟨hlt, BitVec.toNat_add_of_lt hlt⟩
    · cases h
  · rintro ⟨hlt, hr⟩
    rw [if_pos hlt]
    exact congrArg _ (BitVec.eq_of_toNat_eq ((BitVec.toNat_add_of_lt hlt).trans hr.symm))

theorem checkedMul_iff {a b r : Uint256} : checkedMul a b = .ok r ↔
    a.toNat * b.toNat < 2 ^ 256 ∧ r.toNat = a.toNat * b.toNat := by
  rw [checkedMul]
  refine ⟨fun h => ?_, ?_⟩
  · split at h
    · rename_i hlt
      obtain rfl := Except.ok.inj h
      exact ⟨hlt, BitVec.toNat_mul_of_lt hlt⟩
    · cases h
  · rintro ⟨hlt, hr⟩
    rw [if_pos hlt]
    exact congrArg _ (BitVec.eq_of_toNat_eq ((BitVec.toNat_mul_of_lt hlt).trans hr.symm))

/-! ## The set id and the message -/

/-- `_lt`. -/
def lt : Bytes → Bytes → Bool
  | [], [] => false
  | [], _ :: _ => true
  | _ :: _, [] => false
  | x :: xs, y :: ys => if x ≠ y then decide (x < y) else lt xs ys

/-- One turn of the loop of `evmSetId`. -/
def foldValidator (env : Env) (h : Bytes) (v : Validator) : Bytes :=
  env.keccak256 (h ++ env.keccak256 v.pubkey ++ word v.stake ++ env.keccak256 v.vrfPubkey)

/-- The loop of `evmSetId`; `prev` is the key before, if there is one. -/
def foldFrom (env : Env) : Option Bytes → Bytes → List Validator → Except Revert Bytes
  | _, h, [] => .ok h
  | prev, h, v :: vs =>
    if v.pubkey.length = 0 then .error (.reason "empty pubkey")
    else if prev.all (fun p => lt p v.pubkey) = false then .error (.reason "unsorted/dup")
    else foldFrom env (some v.pubkey) (foldValidator env h v) vs

def evmSetId (env : Env) (validators : List Validator) (epoch : Uint256) :
    Except Revert Bytes := do
  let h ← foldFrom env none (env.keccak256 setTag) validators
  .ok (env.keccak256 (h ++ word epoch))

def evmMessage (env : Env) (suite : String) (chainId : Uint256) (verifier : FixedBytes 20)
    (height : Uint256) (blockHash : FixedBytes 32) (setId : Bytes) : Bytes :=
  env.keccak256 ((env.keccak256 attTag).1 ++ env.keccak256 (utf8 suite) ++ word chainId ++
    verifier ++ word height ++ blockHash ++ setId)

/-! ## Finality -/

/-- The loop that sums up the stakes. -/
def sumStakes : Uint256 → List Validator → Except Revert Uint256
  | total, [] => .ok total
  | total, v :: vs => do
    let total' ← checkedAdd total v.stake
    sumStakes total' vs

/-- The stake of the first member whose key has the same hash. -/
def memberStake (env : Env) (validators : List Validator) (pk : Bytes) : Uint256 :=
  match validators.find? (fun v => decide (env.keccak256 v.pubkey = env.keccak256 pk)) with
  | some v => v.stake
  | none => 0

/-- An earlier attestation for the same key was counted. -/
def alreadyCounted (env : Env) (earlier : List (Attestation × Bool)) (pk : Bytes) : Bool :=
  earlier.any fun e => e.2 && decide (env.keccak256 e.1.pubkey = env.keccak256 pk)

/-- The counting loop: the attestations before, with their `counted` flags, and the stake. -/
def countFrom (env : Env) (validators : List Validator) (message : Bytes) :
    List (Attestation × Bool) → Uint256 → List Attestation → Except Revert Uint256
  | _, attesting, [] => .ok attesting
  | earlier, attesting, a :: as =>
    if alreadyCounted env earlier a.pubkey = true then
      countFrom env validators message (earlier ++ [(a, false)]) attesting as
    else if memberStake env validators a.pubkey = 0 then
      countFrom env validators message (earlier ++ [(a, false)]) attesting as
    else if env.mldsa87 a.pubkey message a.signature = false then
      countFrom env validators message (earlier ++ [(a, false)]) attesting as
    else do
      let attesting' ← checkedAdd attesting (memberStake env validators a.pubkey)
      countFrom env validators message (earlier ++ [(a, true)]) attesting' as

/-- The two stakes `verifyFinality` compares. -/
structure Counts where
  attesting : Uint256
  total : Uint256

/-- `verifyFinality` up to the comparison. -/
def countStakes (env : Env) (c : Call) : Except Revert Counts :=
  if ¬ (1 ≤ c.finalityNum.toNat ∧ 1 ≤ c.finalityDen.toNat ∧
      c.finalityNum.toNat ≤ c.finalityDen.toNat) then .error (.reason "bad threshold")
  else if c.chainId ≠ env.chainid then .error (.reason "wrong chain")
  else if c.verifier ≠ env.self then .error (.reason "wrong verifier")
  else if maxValidators < c.validators.length then .error (.reason "too many validators")
  else if maxAttestations < c.attestations.length then
    .error (.reason "too many attestations")
  else do
    let setId ← evmSetId env c.validators c.epoch
    let message := evmMessage env c.suite c.chainId c.verifier c.height c.blockHash setId
    let total ← sumStakes 0 c.validators
    if total.toNat = 0 then .error (.reason "empty set")
    else do
      let attesting ← countFrom env c.validators message [] 0 c.attestations
      .ok ⟨attesting, total⟩

def verifyFinality (env : Env) (c : Call) : Except Revert Bool := do
  let counts ← countStakes env c
  let signed ← checkedMul counts.attesting c.finalityDen
  let needed ← checkedMul c.finalityNum counts.total
  .ok (decide (needed.toNat ≤ signed.toNat))

/-! ## Sorted members -/

theorem lt_iff {a b : Bytes} : lt a b = true ↔ a < b := by
  induction a generalizing b with
  | nil =>
    cases b with
    | nil => exact iff_of_false Bool.false_ne_true (List.lt_irrefl [])
    | cons y b => exact iff_of_true rfl (List.nil_lt_cons y b)
  | cons x a ih =>
    cases b with
    | nil => exact iff_of_false Bool.false_ne_true (List.not_lt_nil _)
    | cons y b =>
      rw [lt, List.cons_lt_cons_iff]
      by_cases hxy : x = y
      · subst hxy
        simp [ih, UInt8.lt_irrefl]
      · simp [hxy]

/-- Members in strictly ascending order of their keys. -/
def Sorted (vs : List Validator) : Prop := vs.Pairwise fun a b => a.pubkey < b.pubkey

variable {vs : List Validator}

/-- The loop accepts keys that are not empty and ascend. -/
theorem foldFrom_iff {env : Env} {prev : Option Bytes} {h r : Bytes} :
    foldFrom env prev h vs = .ok r ↔ (∀ v ∈ vs, v.pubkey ≠ []) ∧
      (∀ p ∈ prev, ∀ v ∈ vs, p < v.pubkey) ∧ Sorted vs ∧
      r = vs.foldl (foldValidator env) h := by
  induction vs generalizing prev h with
  | nil =>
    rw [foldFrom]
    refine ⟨fun hr => ⟨?_, ?_, .nil, (Except.ok.inj hr).symm⟩, fun hr => congrArg _ hr.2.2.2.symm⟩
    · intro v hv
      exact absurd hv List.not_mem_nil
    · intro p _ v hv
      exact absurd hv List.not_mem_nil
  | cons v vs ih =>
    have hprev : prev.all (fun p => lt p v.pubkey) = true ↔ ∀ p ∈ prev, p < v.pubkey := by
      rw [Option.all_eq_true]
      exact forall₂_congr fun p _ => lt_iff
    rw [foldFrom]
    refine ⟨fun hr => ?_, ?_⟩
    · split at hr
      · cases hr
      rename_i hne
      split at hr
      · cases hr
      rename_i hsorted
      rw [Bool.not_eq_false, hprev] at hsorted
      obtain ⟨hnes, hlts, hvs, rfl⟩ := ih.mp hr
      have hfirst : ∀ u ∈ vs, v.pubkey < u.pubkey := hlts v.pubkey rfl
      refine ⟨?_, ?_, List.pairwise_cons.mpr ⟨hfirst, hvs⟩, rfl⟩
      · rintro u (_ | ⟨_, hu⟩)
        · exact mt List.length_eq_zero_iff.mpr hne
        · exact hnes u hu
      · rintro p hp u (_ | ⟨_, hu⟩)
        · exact hsorted p hp
        · exact List.lt_trans (hsorted p hp) (hfirst u hu)
    · rintro ⟨hnes, hlts, hvs, rfl⟩
      obtain ⟨hfirst, hvs⟩ := List.pairwise_cons.mp hvs
      have hne : ¬ v.pubkey.length = 0 :=
        mt List.length_eq_zero_iff.mp (hnes v List.mem_cons_self)
      have hall := hprev.mpr fun p hp => hlts p hp v List.mem_cons_self
      rw [if_neg hne, hall, if_neg (by decide)]
      refine ih.mpr ⟨fun u hu => hnes u (List.mem_cons_of_mem v hu), ?_, hvs, rfl⟩
      intro p hp u hu
      obtain rfl := Option.mem_some.mp hp
      exact hfirst u hu

/-! ## The sums -/

/-- The sum of the stakes, unless it is too large. -/
theorem sumStakes_iff {total r : Uint256} : sumStakes total vs = .ok r ↔
    total.toNat + (vs.map (·.stake.toNat)).sum < 2 ^ 256 ∧
      r.toNat = total.toNat + (vs.map (·.stake.toNat)).sum := by
  induction vs generalizing total with
  | nil =>
    rw [sumStakes, List.map_nil, List.sum_nil, Nat.add_zero]
    refine ⟨fun h => ?_, fun h => congrArg _ (BitVec.eq_of_toNat_eq h.2.symm)⟩
    obtain rfl := Except.ok.inj h
    exact ⟨total.isLt, rfl⟩
  | cons v vs ih =>
    rw [sumStakes, List.map_cons, List.sum_cons, ← Nat.add_assoc]
    refine ⟨fun h => ?_, fun ⟨hlt, hr⟩ => ?_⟩
    · obtain ⟨total', hadd, h⟩ := Except.bind_eq_ok h
      rw [← (checkedAdd_iff.mp hadd).2]
      exact ih.mp h
    · have hfits := (Nat.le_add_right _ _).trans_lt hlt
      refine Except.bind_ok (checkedAdd_iff.mpr ⟨hfits, BitVec.toNat_add_of_lt hfits⟩)
        (ih.mpr ?_)
      rw [BitVec.toNat_add_of_lt hfits]
      exact ⟨hlt, hr⟩

/-- The hash by which an attestation's key is looked up. -/
def keyHash (env : Env) (a : Attestation) : FixedBytes 32 := env.keccak256 a.pubkey

/-- An attestation that counts if its key has not been counted: of a member with stake, and
valid. -/
def eligible (env : Env) (vs : List Validator) (message : Bytes) (a : Attestation) : Bool :=
  decide (memberStake env vs a.pubkey ≠ 0) && env.mldsa87 a.pubkey message a.signature

/-- The stake of the first eligible attestation of each key that is not in `seen`. -/
def weightFrom (env : Env) (vs : List Validator) (message : Bytes) (seen : List (FixedBytes 32))
    (as : List Attestation) : ℕ :=
  ((firstValid (keyHash env) (eligible env vs message) seen as).map fun a =>
    (memberStake env vs a.pubkey).toNat).sum

/-- The loop counts that stake, unless it is too large. -/
theorem countFrom_iff {env : Env} {message : Bytes} {earlier : List (Attestation × Bool)}
    {seen : List (FixedBytes 32)} {attesting r : Uint256} {as : List Attestation}
    (hseen : ∀ a, alreadyCounted env earlier a.pubkey = true ↔ keyHash env a ∈ seen) :
    countFrom env vs message earlier attesting as = .ok r ↔
      attesting.toNat + weightFrom env vs message seen as < 2 ^ 256 ∧
        r.toNat = attesting.toNat + weightFrom env vs message seen as := by
  induction as generalizing earlier seen attesting with
  | nil =>
    rw [countFrom, weightFrom, firstValid, List.map_nil, List.sum_nil, Nat.add_zero]
    refine ⟨fun h => ?_, fun h => congrArg _ (BitVec.eq_of_toNat_eq h.2.symm)⟩
    obtain rfl := Except.ok.inj h
    exact ⟨attesting.isLt, rfl⟩
  | cons a as ih =>
    -- an attestation that is passed over is not counted later either
    have hskip : ∀ b, alreadyCounted env (earlier ++ [(a, false)]) b.pubkey = true ↔
        keyHash env b ∈ seen := by
      intro b
      rw [← hseen, alreadyCounted, alreadyCounted, List.any_append]
      simp
    rw [countFrom]
    split
    · rename_i hold
      rw [weightFrom, firstValid_cons_seen ((hseen a).mp hold)]
      exact ih hskip
    rename_i hnew
    split
    · rename_i hstake
      rw [weightFrom, firstValid_cons_invalid (by simp [eligible, hstake])]
      exact ih hskip
    rename_i hstake
    split
    · rename_i hsig
      rw [weightFrom, firstValid_cons_invalid (by simp [eligible, hsig])]
      exact ih hskip
    rename_i hsig
    have hcounted : ∀ b, alreadyCounted env (earlier ++ [(a, true)]) b.pubkey = true ↔
        keyHash env b ∈ keyHash env a :: seen := by
      intro b
      rw [List.mem_cons, ← hseen, alreadyCounted, alreadyCounted, List.any_append, Bool.or_eq_true,
        or_comm]
      refine or_congr ?_ Iff.rfl
      simp only [List.any_cons, List.any_nil, Bool.or_false, Bool.true_and, decide_eq_true_iff]
      exact eq_comm
    have hvalid : eligible env vs message a = true := by
      rw [eligible, decide_eq_true hstake, (Bool.not_eq_false _).mp hsig]
      rfl
    rw [weightFrom, firstValid_cons_pos (mt (hseen a).mpr hnew) hvalid, List.map_cons,
      List.sum_cons, ← Nat.add_assoc]
    constructor
    · intro h
      obtain ⟨attesting', hadd, h⟩ := Except.bind_eq_ok h
      rw [← (checkedAdd_iff.mp hadd).2]
      exact (ih hcounted).mp h
    · rintro ⟨hlt, hr⟩
      have hfits := (Nat.le_add_right _ _).trans_lt hlt
      refine Except.bind_ok (checkedAdd_iff.mpr ⟨hfits, BitVec.toNat_add_of_lt hfits⟩)
        ((ih hcounted).mpr ?_)
      rw [BitVec.toNat_add_of_lt hfits]
      exact ⟨hlt, hr⟩

/-! ## What the contract accepts -/

section Accepts

variable (env : Env) (c : Call)

/-- The set id of the calldata. -/
def setIdOf : Bytes :=
  env.keccak256 (c.validators.foldl (foldValidator env) (env.keccak256 setTag) ++ word c.epoch)

/-- The message of the calldata. -/
def messageOf : Bytes :=
  evmMessage env c.suite c.chainId c.verifier c.height c.blockHash (setIdOf env c)

/-- The stake of the members. -/
def totalWeight : ℕ := (c.validators.map (·.stake.toNat)).sum

/-- The stake behind the message. -/
def attestingWeight : ℕ := weightFrom env c.validators (messageOf env c) [] c.attestations

/-- The calldata passes every `require`. -/
structure Admits : Prop where
  /-- the threshold is positive -/
  num_pos : 1 ≤ c.finalityNum.toNat
  /-- the threshold is at most one -/
  num_le : c.finalityNum.toNat ≤ c.finalityDen.toNat
  chain : c.chainId = env.chainid
  /-- it is for this contract -/
  verifier : c.verifier = env.self
  /-- the set is within its cap -/
  validators : c.validators.length ≤ maxValidators
  /-- the list is within its cap -/
  attestations : c.attestations.length ≤ maxAttestations
  /-- no key is empty -/
  keys : ∀ v ∈ c.validators, v.pubkey ≠ []
  /-- the members are sorted -/
  sorted : Sorted c.validators
  /-- there is stake -/
  stake : 0 < totalWeight c

variable {env c}

theorem evmSetId_iff {id : Bytes} : evmSetId env c.validators c.epoch = .ok id ↔
    (∀ v ∈ c.validators, v.pubkey ≠ []) ∧ Sorted c.validators ∧ id = setIdOf env c := by
  refine ⟨fun h => ?_, ?_⟩
  · obtain ⟨r, hr, h⟩ := Except.bind_eq_ok h
    obtain ⟨hkeys, -, hsorted, rfl⟩ := foldFrom_iff.mp hr
    exact ⟨hkeys, hsorted, (Except.ok.inj h).symm⟩
  · rintro ⟨hkeys, hsorted, rfl⟩
    refine Except.bind_ok (foldFrom_iff.mpr ⟨hkeys, ?_, hsorted, rfl⟩) rfl
    intro p hp
    cases hp

/-- **When the stakes are counted, and what they are.** -/
theorem countStakes_iff {counts : Counts} : countStakes env c = .ok counts ↔
    Admits env c ∧ totalWeight c < 2 ^ 256 ∧ attestingWeight env c < 2 ^ 256 ∧
      counts.total.toNat = totalWeight c ∧ counts.attesting.toNat = attestingWeight env c := by
  have hseen : ∀ a : Attestation, alreadyCounted env [] a.pubkey = true ↔
      keyHash env a ∈ ([] : List (FixedBytes 32)) :=
    fun a => iff_of_false Bool.false_ne_true List.not_mem_nil
  rw [countStakes]
  refine ⟨fun h => ?_, ?_⟩
  · split at h
    · cases h
    rename_i hthreshold
    obtain ⟨hnum, -, hle⟩ := not_not.mp hthreshold
    split at h
    · cases h
    rename_i hchain
    split at h
    · cases h
    rename_i hverifier
    split at h
    · cases h
    rename_i hvalidators
    split at h
    · cases h
    rename_i hattestations
    obtain ⟨id, hid, h⟩ := Except.bind_eq_ok h
    obtain ⟨hkeys, hsorted, rfl⟩ := evmSetId_iff.mp hid
    obtain ⟨total, htotal, h⟩ := Except.bind_eq_ok h
    split at h
    · cases h
    rename_i hstake
    obtain ⟨attesting, hattesting, h⟩ := Except.bind_eq_ok h
    obtain rfl := Except.ok.inj h
    rw [sumStakes_iff, toNat_zero, Nat.zero_add] at htotal
    rw [countFrom_iff hseen, toNat_zero, Nat.zero_add] at hattesting
    refine ⟨⟨hnum, hle, not_not.mp hchain, not_not.mp hverifier, not_lt.mp hvalidators,
      not_lt.mp hattestations, hkeys, hsorted, ?_⟩, htotal.1, hattesting.1, htotal.2, hattesting.2⟩
    exact Nat.pos_of_ne_zero fun h0 => hstake (htotal.2.trans h0)
  · rintro ⟨ha, htotal, hattesting, htotal', hattesting'⟩
    rw [if_neg (not_not.mpr ⟨ha.num_pos, ha.num_pos.trans ha.num_le, ha.num_le⟩),
      if_neg (not_not.mpr ha.chain), if_neg (not_not.mpr ha.verifier),
      if_neg ha.validators.not_gt, if_neg ha.attestations.not_gt]
    refine Except.bind_ok (evmSetId_iff.mpr ⟨ha.keys, ha.sorted, rfl⟩) ?_
    have hsum : sumStakes 0 c.validators = .ok counts.total := by
      rw [sumStakes_iff, toNat_zero, Nat.zero_add]
      exact ⟨htotal, htotal'⟩
    have hcount : countFrom env c.validators (messageOf env c) [] 0 c.attestations =
        .ok counts.attesting := by
      rw [countFrom_iff hseen, toNat_zero, Nat.zero_add]
      exact ⟨hattesting, hattesting'⟩
    refine Except.bind_ok hsum ?_
    rw [if_neg (htotal'.trans_ne ha.stake.ne')]
    exact Except.bind_ok hcount rfl

/-- **What the contract accepts.** Of its checks against overflow the one on the stake that
signed, times the denominator, is the only one that an accepted call could fail. -/
theorem verifyFinality_eq_true_iff : verifyFinality env c = .ok true ↔
    Admits env c ∧ attestingWeight env c * c.finalityDen.toNat < 2 ^ 256 ∧
      c.finalityNum.toNat * totalWeight c ≤ attestingWeight env c * c.finalityDen.toNat := by
  refine ⟨fun h => ?_, ?_⟩
  · obtain ⟨counts, hcounts, h⟩ := Except.bind_eq_ok h
    obtain ⟨signed, hsigned, h⟩ := Except.bind_eq_ok h
    obtain ⟨needed, hneeded, h⟩ := Except.bind_eq_ok h
    obtain ⟨ha, -, -, htotal, hattesting⟩ := countStakes_iff.mp hcounts
    obtain ⟨hlt, hsigned⟩ := checkedMul_iff.mp hsigned
    obtain ⟨-, hneeded⟩ := checkedMul_iff.mp hneeded
    have hle := of_decide_eq_true (Except.ok.inj h)
    rw [hneeded, hsigned, htotal, hattesting] at hle
    rw [hattesting] at hlt
    exact ⟨ha, hlt, hle⟩
  · rintro ⟨ha, hlt, hle⟩
    have htotal : totalWeight c < 2 ^ 256 :=
      (Nat.le_mul_of_pos_left _ ha.num_pos).trans_lt (hle.trans_lt hlt)
    have hattesting : attestingWeight env c < 2 ^ 256 :=
      (Nat.le_mul_of_pos_right _ (ha.num_pos.trans ha.num_le)).trans_lt hlt
    have hcounts : countStakes env c =
        .ok ⟨BitVec.ofNat 256 (attestingWeight env c), BitVec.ofNat 256 (totalWeight c)⟩ :=
      countStakes_iff.mpr ⟨ha, htotal, hattesting, toNat_ofNat_of_lt htotal,
        toNat_ofNat_of_lt hattesting⟩
    have hsigned : checkedMul (BitVec.ofNat 256 (attestingWeight env c)) c.finalityDen =
        .ok (BitVec.ofNat 256 (attestingWeight env c * c.finalityDen.toNat)) := by
      rw [checkedMul_iff, toNat_ofNat_of_lt hattesting, toNat_ofNat_of_lt hlt]
      exact ⟨hlt, rfl⟩
    have hneeded : checkedMul c.finalityNum (BitVec.ofNat 256 (totalWeight c)) =
        .ok (BitVec.ofNat 256 (c.finalityNum.toNat * totalWeight c)) := by
      rw [checkedMul_iff, toNat_ofNat_of_lt htotal,
        toNat_ofNat_of_lt (hle.trans_lt hlt)]
      exact ⟨hle.trans_lt hlt, rfl⟩
    refine Except.bind_ok hcounts (Except.bind_ok hsigned (Except.bind_ok hneeded ?_))
    rw [toNat_ofNat_of_lt hlt, toNat_ofNat_of_lt (hle.trans_lt hlt),
      decide_eq_true hle]

end Accepts

/-! ## What is counted, by member -/

/-- The strings whose hashes the contract compares. -/
def comparedKeys (c : Call) : List Bytes :=
  c.validators.map (·.pubkey) ++ c.attestations.map (·.pubkey)

section Members

variable {env : Env} {c : Call}

theorem nodup_pubkeys {vs : List Validator} (h : Sorted vs) : (vs.map (·.pubkey)).Nodup := by
  refine List.pairwise_map.mpr (List.Pairwise.imp ?_ h)
  intro a b hlt heq
  exact List.lt_irrefl b.pubkey (heq ▸ hlt)

variable (hsorted : Sorted c.validators)
  (hc : CollisionFree (fun b => (env.keccak256 b).1) (comparedKeys c))
include hsorted hc

theorem nodup_hashes : (c.validators.map fun v => env.keccak256 v.pubkey).Nodup := by
  have hnodup := (nodup_pubkeys hsorted).map_on (f := env.keccak256) fun x hx y hy heq =>
    hc x (List.mem_append_left _ hx) y (List.mem_append_left _ hy) (congrArg Subtype.val heq)
  rwa [List.map_map] at hnodup

/-- A member's stake is the one it is listed with. -/
theorem memberStake_of_mem {v : Validator} (hv : v ∈ c.validators) {pk : Bytes}
    (hpk : env.keccak256 pk = env.keccak256 v.pubkey) :
    memberStake env c.validators pk = v.stake := by
  rw [memberStake, hpk]
  split
  · rename_i u hf
    have hu : u = v := List.inj_on_of_nodup_map (nodup_hashes hsorted hc)
      (List.mem_of_find?_eq_some hf) hv (by simpa using List.find?_some hf)
    rw [hu]
  · rename_i hf
    exact absurd (decide_eq_true rfl) (List.find?_eq_none.mp hf v hv)

omit hsorted hc in
theorem exists_member_of_stake {pk : Bytes} (h : memberStake env c.validators pk ≠ 0) :
    ∃ v ∈ c.validators, env.keccak256 v.pubkey = env.keccak256 pk := by
  rw [memberStake] at h
  split at h
  · rename_i v hf
    exact ⟨v, List.mem_of_find?_eq_some hf, by simpa using List.find?_some hf⟩
  · exact absurd rfl h

/-- **What is counted**: the members for which some attestation is valid. -/
theorem attestingWeight_eq : attestingWeight env c =
    ((c.validators.filter fun v => c.attestations.any fun a =>
      decide (a.pubkey = v.pubkey) && env.mldsa87 a.pubkey (messageOf env c) a.signature).map
        (·.stake.toNat)).sum := by
  have hmembers : ∀ a ∈ c.attestations, eligible env c.validators (messageOf env c) a = true →
      keyHash env a ∈ c.validators.map fun v => env.keccak256 v.pubkey := by
    intro a _ hvalid
    obtain ⟨hne, -⟩ := Bool.and_eq_true_iff.mp hvalid
    obtain ⟨v, hv, heq⟩ := exists_member_of_stake (of_decide_eq_true hne)
    exact List.mem_map.mpr ⟨v, hv, heq⟩
  have hperm := perm_map_firstValid (nodup_hashes hsorted hc) hmembers
  -- a stake depends on the hash of the key alone
  obtain ⟨weight, hweight⟩ : ∃ weight : FixedBytes 32 → ℕ, ∀ pk,
      (memberStake env c.validators pk).toNat = weight (env.keccak256 pk) :=
    ⟨fun h => (match c.validators.find? fun (v : Validator) => decide (env.keccak256 v.pubkey = h)
        with
      | some v => v.stake
      | none => 0).toNat, fun _ => rfl⟩
  have hmember : ∀ v ∈ c.validators, weight (env.keccak256 v.pubkey) = v.stake.toNat := by
    intro v hv
    rw [← hweight, memberStake_of_mem hsorted hc hv rfl]
  have hsum := (hperm.map weight).sum_eq
  rw [List.map_map, List.map_map] at hsum
  rw [attestingWeight, weightFrom]
  simp only [hweight]
  refine hsum.trans ?_
  have hstakes := List.map_congr_left fun (v : Validator) hv =>
    hmember v (List.mem_of_mem_filter (p := fun v => c.attestations.any fun a =>
      decide (keyHash env a = env.keccak256 v.pubkey) &&
        eligible env c.validators (messageOf env c) a) hv)
  refine (congrArg List.sum hstakes).trans (sum_filter_congr fun v hv hne => ?_)
  have hpoint : ∀ a ∈ c.attestations,
      (decide (keyHash env a = env.keccak256 v.pubkey) &&
        eligible env c.validators (messageOf env c) a) =
      (decide (a.pubkey = v.pubkey) && env.mldsa87 a.pubkey (messageOf env c) a.signature) := by
    intro a ha
    by_cases hkey : a.pubkey = v.pubkey
    · have hstake : memberStake env c.validators a.pubkey ≠ 0 := by
        rw [memberStake_of_mem hsorted hc hv (congrArg env.keccak256 hkey)]
        exact fun h0 => hne (congrArg BitVec.toNat h0)
      have hhash : keyHash env a = env.keccak256 v.pubkey := congrArg env.keccak256 hkey
      rw [eligible, decide_eq_true hstake, decide_eq_true hhash, decide_eq_true hkey, Bool.true_and]
    · have hhash : keyHash env a ≠ env.keccak256 v.pubkey := fun h => hkey
        (hc a.pubkey (List.mem_append_right _ (List.mem_map_of_mem ha)) v.pubkey
          (List.mem_append_left _ (List.mem_map_of_mem hv)) (congrArg Subtype.val h))
      rw [decide_eq_false hhash, decide_eq_false hkey, Bool.false_and, Bool.false_and]
  rw [Bool.eq_iff_iff, List.any_eq_true, List.any_eq_true]
  exact exists_congr fun a => and_congr_right fun ha => by rw [hpoint a ha]

end Members

/-! ## Equivocation -/

/-- The calldata of `verifyEquivocation`. -/
structure EquivocationCall where
  /-- the members, sorted -/
  validators : List Validator
  /-- public key of the accused -/
  validator : Bytes
  suite : String
  /-- destination chain -/
  chainId : Uint256
  /-- destination contract -/
  verifier : FixedBytes 20
  /-- height of both blocks -/
  height : Uint256
  /-- hash of the one block -/
  blockHashA : FixedBytes 32
  /-- signature for the one -/
  sigA : Bytes
  /-- hash of the other block -/
  blockHashB : FixedBytes 32
  /-- signature for the other -/
  sigB : Bytes
  /-- epoch of the set -/
  epoch : Uint256

def verifyEquivocation (env : Env) (c : EquivocationCall) : Except Revert Bool :=
  if c.chainId ≠ env.chainid then .error (.reason "wrong chain")
  else if c.verifier ≠ env.self then .error (.reason "wrong verifier")
  else if maxValidators < c.validators.length then .error (.reason "too many validators")
  else if c.blockHashA = c.blockHashB then .ok false
  else if memberStake env c.validators c.validator = 0 then .ok false
  else do
    let setId ← evmSetId env c.validators c.epoch
    let msgA := evmMessage env c.suite c.chainId c.verifier c.height c.blockHashA setId
    let msgB := evmMessage env c.suite c.chainId c.verifier c.height c.blockHashB setId
    .ok (env.mldsa87 c.validator msgA c.sigA && env.mldsa87 c.validator msgB c.sigB)

/-- The calldata of `verifyFinality` for one of the blocks, with no attestations. -/
def EquivocationCall.finality (c : EquivocationCall) (blockHash : FixedBytes 32) : Call where
  validators := c.validators
  attestations := []
  suite := c.suite
  chainId := c.chainId
  verifier := c.verifier
  height := c.height
  blockHash := blockHash
  epoch := c.epoch
  finalityNum := 1
  finalityDen := 1

/-- What the contract takes for an equivocation. -/
structure Slashes (env : Env) (c : EquivocationCall) : Prop where
  chain : c.chainId = env.chainid
  /-- it is for this contract -/
  verifier : c.verifier = env.self
  /-- the set is within its cap -/
  validators : c.validators.length ≤ maxValidators
  /-- the blocks differ -/
  blocks : c.blockHashA ≠ c.blockHashB
  /-- the accused has stake -/
  stake : memberStake env c.validators c.validator ≠ 0
  /-- no key is empty -/
  keys : ∀ v ∈ c.validators, v.pubkey ≠ []
  /-- the members are sorted -/
  sorted : Sorted c.validators
  /-- the accused signed the message of the one block -/
  sigA : env.mldsa87 c.validator (messageOf env (c.finality c.blockHashA)) c.sigA = true
  /-- the accused signed the message of the other block -/
  sigB : env.mldsa87 c.validator (messageOf env (c.finality c.blockHashB)) c.sigB = true

theorem verifyEquivocation_eq_true_iff {env : Env} {c : EquivocationCall} :
    verifyEquivocation env c = .ok true ↔ Slashes env c := by
  have hid : ∀ {id}, evmSetId env c.validators c.epoch = .ok id ↔
      (∀ v ∈ c.validators, v.pubkey ≠ []) ∧ Sorted c.validators ∧
        id = setIdOf env (c.finality c.blockHashA) :=
    evmSetId_iff (c := c.finality c.blockHashA)
  rw [verifyEquivocation]
  refine ⟨fun h => ?_, fun h => ?_⟩
  · split at h
    · cases h
    rename_i hchain
    split at h
    · cases h
    rename_i hverifier
    split at h
    · cases h
    rename_i hcap
    split at h
    · cases h
    rename_i hblocks
    split at h
    · cases h
    rename_i hstake
    obtain ⟨id, hset, h⟩ := Except.bind_eq_ok h
    obtain ⟨hkeys, hsorted, rfl⟩ := hid.mp hset
    obtain ⟨hA, hB⟩ := Bool.and_eq_true_iff.mp (Except.ok.inj h)
    exact ⟨not_not.mp hchain, not_not.mp hverifier, not_lt.mp hcap, hblocks, hstake, hkeys,
      hsorted, hA, hB⟩
  · rw [if_neg (not_not.mpr h.chain), if_neg (not_not.mpr h.verifier),
      if_neg h.validators.not_gt, if_neg h.blocks, if_neg h.stake]
    refine Except.bind_ok (hid.mpr ⟨h.keys, h.sorted, rfl⟩) (congrArg _ ?_)
    exact Bool.and_eq_true_iff.mpr ⟨h.sigA, h.sigB⟩

/-- The accused has stake if a member with its key has. -/
theorem memberStake_ne_zero_iff {env : Env} {pk : Bytes} (hsorted : Sorted vs)
    (hc : CollisionFree (fun b => (env.keccak256 b).1) (pk :: vs.map (·.pubkey))) :
    memberStake env vs pk ≠ 0 ↔ ∃ v ∈ vs, v.pubkey = pk ∧ v.stake ≠ 0 := by
  have hkey : ∀ v ∈ vs, env.keccak256 v.pubkey = env.keccak256 pk → v.pubkey = pk := fun v hv h =>
    hc v.pubkey (List.mem_cons_of_mem _ (List.mem_map_of_mem hv)) pk List.mem_cons_self
      (congrArg Subtype.val h)
  rw [memberStake]
  rcases hf : vs.find? (fun v => decide (env.keccak256 v.pubkey = env.keccak256 pk)) with _ | u
  · rw [hf]
    refine iff_of_false (not_not.mpr rfl) ?_
    rintro ⟨v, hv, rfl, -⟩
    exact List.find?_eq_none.mp hf v hv (decide_eq_true rfl)
  · rw [hf]
    have hmem := List.mem_of_find?_eq_some hf
    have hu : u.pubkey = pk := hkey u hmem (by simpa using List.find?_some hf)
    refine ⟨fun hne => ⟨u, hmem, hu, hne⟩, ?_⟩
    rintro ⟨v, hv, hpk, hne⟩
    have huv : u = v := List.inj_on_of_nodup_map (nodup_pubkeys hsorted) hmem hv
      (hu.trans hpk.symm)
    exact huv ▸ hne

end FinalityVerifier

end Nerion
