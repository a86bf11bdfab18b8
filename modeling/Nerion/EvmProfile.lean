import Nerion.ByteString
import Nerion.FirstValid
import Nerion.Symbolic

/-!
# The EVM profile (`ledger/src/evmprofile.ts`)

A second attestation message, made of `keccak256` over fixed-width fields only, so that a
contract can recompute it. The validator set is put into a canonical order first: by the
decoded bytes of the keys, without repetition.

* `canonicalMembers_iff` — the canonical members are the decoded members in strictly
  ascending order, whatever order the set lists them in;
* `evmCount_eq`, `validSigs_entries`, `equivocationsFrom_eq` — the three loops accept the
  first valid entry of each validator;
* `evmSetId_eq_ok`, `evmAttestMessage_eq_ok` — what the set id and the message are the
  hashes of;
* `verifyEvmFinality_finalized_iff` — what a finalized verdict stands for.

Hex decoding and the hash are parameters. Strings are sequences of Unicode characters; a
lone surrogate, which a JavaScript string can hold, is not one.
-/

namespace Nerion

/-- A byte string of a fixed length. -/
abbrev FixedBytes (n : ℕ) : Type := { b : Bytes // b.length = n }

/-- What the profile calls beyond the rest of the code. -/
structure EvmExternals extends Externals where
  /-- `keccak_256` -/
  keccak256 : Bytes → FixedBytes 32

/-- `DOMAIN_TAGS.EVM_CONSENSUS_SET`, encoded. -/
def setTag : Bytes := utf8 "Nerion/evm-consensus-set/v1"

/-- `DOMAIN_TAGS.EVM_ATTEST`, encoded. -/
def attTag : Bytes := utf8 "Nerion/evm-attest/v1"

/-- `U256_MAX`. -/
@[irreducible] def u256Max : ℤ := 2 ^ 256 - 1

/-- `MAX_VALIDATORS`. -/
def maxValidators : ℕ := 4096

/-- `MAX_ATTESTATIONS` of the profile. -/
def maxEvmAttestations : ℕ := 8192

structure EvmTarget where
  /-- destination chain -/
  chainId : ℤ
  /-- hex address of the verifying contract -/
  verifier : String
  deriving DecidableEq

/-! ## Encoding -/

/-- `u256`, of a bigint. -/
def u256 (x : ℤ) : Except JsError Bytes :=
  if x < 0 then .error (error "u256: negative")
  else if u256Max < x then .error (error "u256: overflow")
  else .ok (bigEndian 32 x.toNat)

/-- `LOWER_HEX.test(hex)`. -/
def isLowerHex (hex : String) : Bool :=
  hex.toList.all fun c => decide ('0' ≤ c ∧ c ≤ '9') || decide ('a' ≤ c ∧ c ≤ 'f')

def decodeHex (X : Externals) (label hex : String) : Except JsError Bytes :=
  if jsLength hex % 2 ≠ 0 ∨ isLowerHex hex = false then
    .error (error ("evmprofile: " ++ label ++ " is not lowercase even-length hex"))
  else X.hexToBytes hex

def decodeHexExact (X : Externals) (label hex : String) (n : ℕ) : Except JsError Bytes := do
  let b ← decodeHex X label hex
  if b.length ≠ n then
    .error (error ("evmprofile: " ++ label ++ " must be " ++ n.repr ++ " bytes, got " ++
      b.length.repr))
  else .ok b

def safeUint (label : String) (x : JsNum) : Except JsError JsNum :=
  if x.isSafeInteger = false ∨ JsNum.lt x 0 = true then
    .error (error ("evmprofile: " ++ label ++ " is not a safe non-negative integer"))
  else .ok x

def cmpBytes : Bytes → Bytes → ℤ
  | [], [] => 0
  | [], _ :: _ => -1
  | _ :: _, [] => 1
  | a :: as, b :: bs => if a ≠ b then (if a < b then -1 else 1) else cmpBytes as bs

/-! ## The validator set -/

structure CanonMember where
  /-- the key as the set spells it -/
  pubkey : String
  /-- the decoded key -/
  pubkeyBytes : Bytes
  /-- stake, nothing if negative -/
  stake : ℤ
  /-- hash of the VRF key -/
  vrfHash : Bytes
  deriving DecidableEq

/-- `vrfHash` of a member: the hash of no bytes stands for no key. -/
def vrfHashOf (X : EvmExternals) : Option String → Except JsError Bytes
  | some vrfPubkey => do
    let b ← decodeHex X.toExternals "vrfPubkey" vrfPubkey
    .ok (X.keccak256 b)
  | none => .ok (X.keccak256 [])

/-- The member that `canonicalMembers` makes of a validator. -/
def canonMember (X : EvmExternals) (v : Validator) : Except JsError CanonMember := do
  let pubkeyBytes ← decodeHex X.toExternals "pubkey" v.pubkey
  if pubkeyBytes.length = 0 then .error (error "evmprofile: empty pubkey")
  else if u256Max < (if 0 < v.stake then v.stake else 0) then
    .error (error "evmprofile: stake overflow")
  else do
    let vrfHash ← vrfHashOf X v.vrfPubkey
    .ok ⟨v.pubkey, pubkeyBytes, if 0 < v.stake then v.stake else 0, vrfHash⟩

/-- The order of the sort: `cmpBytes(a.pubkeyBytes, b.pubkeyBytes)` does not put `b` first. -/
def memberLe (a b : CanonMember) : Prop := cmpBytes a.pubkeyBytes b.pubkeyBytes ≤ 0

instance : DecidableRel memberLe := fun a b =>
  inferInstanceAs (Decidable (cmpBytes a.pubkeyBytes b.pubkeyBytes ≤ 0))

/-- Two neighbours have the same key. -/
def hasDuplicate : List CanonMember → Bool
  | a :: b :: ms => decide (cmpBytes a.pubkeyBytes b.pubkeyBytes = 0) || hasDuplicate (b :: ms)
  | _ => false

def canonicalMembers (X : EvmExternals) (set : ValidatorSet) :
    Except JsError (List CanonMember) := do
  let decoded ← set.validators.mapM (canonMember X)
  if hasDuplicate (decoded.insertionSort memberLe) = true then
    .error (error "evmprofile: duplicate pubkey in validator set")
  else .ok (decoded.insertionSort memberLe)

/-- One turn of the fold of `evmSetId`. -/
def foldMember (X : EvmExternals) (h : Bytes) (m : CanonMember) : Except JsError Bytes := do
  let stake ← u256 m.stake
  .ok (X.keccak256 (h ++ X.keccak256 m.pubkeyBytes ++ stake ++ m.vrfHash))

def evmSetId (X : EvmExternals) (set : ValidatorSet) : Except JsError Bytes := do
  let members ← canonicalMembers X set
  let h ← members.foldlM (foldMember X) (X.keccak256 setTag).1
  let epoch ← safeUint "epoch" (set.epoch.getD 0)
  let epochWord ← u256 epoch.toInt
  .ok (X.keccak256 (h ++ epochWord))

def evmAttestMessage (X : EvmExternals) (suite : String) (height : JsNum) (blockHashHex : String)
    (setId : Bytes) (target : EvmTarget) : Except JsError Bytes :=
  if setId.length ≠ 32 then .error (error "evmprofile: setId must be 32 bytes")
  else do
    let verifier ← decodeHexExact X.toExternals "verifier" target.verifier 20
    let blockHash ← decodeHexExact X.toExternals "blockHash" blockHashHex 32
    let chainId ← u256 target.chainId
    let height ← safeUint "height" height
    let heightWord ← u256 height.toInt
    .ok (X.keccak256 ((X.keccak256 attTag).1 ++ X.keccak256 (utf8 suite) ++ chainId ++ verifier ++
      heightWord ++ blockHash ++ setId))

/-- The message for a set: `evmAttestMessage(…, evmSetId(set), target)`. -/
def evmMessageOf (X : EvmExternals) (set : ValidatorSet) (suite : String) (height : JsNum)
    (blockHashHex : String) (target : EvmTarget) : Except JsError Bytes := do
  let setId ← evmSetId X set
  evmAttestMessage X suite height blockHashHex setId target

/-! ## Attestations -/

structure EvmSignedAttestation where
  /-- hex key of the signer -/
  validator : String
  /-- its signature -/
  evmSig : Bytes
  deriving DecidableEq

def signEvmAttestation (X : EvmExternals) (publicKey secretKey entropy : Bytes)
    (set : ValidatorSet) (suite : String) (height : JsNum) (blockHashHex : String)
    (target : EvmTarget) : Except JsError EvmSignedAttestation := do
  let msg ← evmMessageOf X set suite height blockHashHex target
  let signer ← X.signerFor suite
  let evmSig ← signer.sign msg secretKey entropy
  .ok ⟨X.bytesToHex publicKey, evmSig⟩

/-- `safeEvmVerify`; the loop of `verifyEvmFinality` has the same lines in place. -/
def safeEvmVerify (X : Externals) (sig msg : Bytes) (validatorHex : String)
    (verifier : SignatureScheme) : Bool :=
  match X.hexToBytes validatorHex >>= verifier.verify sig msg with
  | .ok valid => valid
  | .error _ => false

/-- `new Map(members.map((m) => [m.pubkey, m.stake]))`. -/
def memberStakes (members : List CanonMember) : JsMap String ℤ :=
  members.foldl (fun m c => m.set c.pubkey c.stake) JsMap.empty

/-! ## Finality -/

structure EvmFinalityVerdict where
  /-- the quorum is met -/
  finalized : Bool
  /-- stake counted -/
  attestingStake : ℤ
  /-- stake of the set -/
  totalStake : ℤ
  deriving DecidableEq

/-- `fail(t)`. -/
def evmFail (t : ℤ) : EvmFinalityVerdict := ⟨false, 0, t⟩

/-- The counting loop of `verifyEvmFinality`: the validators seen and the stake so far. -/
def evmCount (stakeOf : JsMap String ℤ) (ok : EvmSignedAttestation → Bool) :
    List String → ℤ → List EvmSignedAttestation → ℤ
  | _, attesting, [] => attesting
  | seen, attesting, a :: as =>
    if a.validator ∈ seen then evmCount stakeOf ok seen attesting as
    else if (stakeOf.get? a.validator).getD 0 ≤ 0 then evmCount stakeOf ok seen attesting as
    else if ok a = false then evmCount stakeOf ok seen attesting as
    else evmCount stakeOf ok (a.validator :: seen)
      (attesting + (stakeOf.get? a.validator).getD 0) as

/-- The thresholds that `verifyEvmFinality` turns away at once. -/
def badThreshold (finalityNum finalityDen : JsNum) : Bool :=
  !finalityNum.isInteger || !finalityDen.isInteger || JsNum.lt finalityNum 1 ||
    JsNum.lt finalityDen 1 || JsNum.lt finalityDen finalityNum

/-- The guarded part of `verifyEvmFinality`: the total stake and, unless there is none, the
message and the stakes. -/
def finalityContext (X : EvmExternals) (set : ValidatorSet) (suite : String) (height : JsNum)
    (blockHashHex : String) (target : EvmTarget) :
    Except JsError (ℤ × Option (Bytes × JsMap String ℤ)) := do
  let members ← canonicalMembers X set
  if members.foldl (fun a m => a + m.stake) 0 ≤ 0 then
    .ok (members.foldl (fun a m => a + m.stake) 0, none)
  else do
    let msg ← evmMessageOf X set suite height blockHashHex target
    .ok (members.foldl (fun a m => a + m.stake) 0, some (msg, memberStakes members))

def verifyEvmFinality (X : EvmExternals) (set : ValidatorSet) (atts : List EvmSignedAttestation)
    (suite : String) (height : JsNum) (blockHashHex : String) (target : EvmTarget)
    (finalityNum finalityDen : JsNum) : Except JsError EvmFinalityVerdict :=
  if badThreshold finalityNum finalityDen = true then .ok (evmFail 0)
  else if maxValidators < set.validators.length ∨ maxEvmAttestations < atts.length then
    .ok (evmFail 0)
  else
    match finalityContext X set suite height blockHashHex target with
    | .error _ => .ok (evmFail 0)
    | .ok (total, none) => .ok (evmFail total)
    | .ok (total, some (msg, stakeOf)) => do
      -- the suite is resolved outside the guarded part
      let verifier ← X.signerFor suite
      let attesting := evmCount stakeOf
        (fun a => safeEvmVerify X.toExternals a.evmSig msg a.validator verifier) [] 0 atts
      .ok ⟨decide (finalityNum.toInt * total ≤ attesting * finalityDen.toInt), attesting, total⟩

/-! ## Equivocation -/

structure EvmEquivocationProof where
  /-- the accused -/
  validator : String
  /-- the height of both blocks -/
  height : JsNum
  /-- one block -/
  blockHashA : String
  /-- the other block -/
  blockHashB : String
  /-- signature for the one -/
  sigA : Bytes
  /-- signature for the other -/
  sigB : Bytes
  deriving DecidableEq

/-- The loop over `attsA`: the first valid signature of each validator with stake. -/
def validSigs (stakeOf : JsMap String ℤ) (ok : EvmSignedAttestation → Bool) :
    JsMap String Bytes → List EvmSignedAttestation → JsMap String Bytes
  | validA, [] => validA
  | validA, a :: as =>
    if validA.has a.validator = true then validSigs stakeOf ok validA as
    else if (stakeOf.get? a.validator).getD 0 ≤ 0 then validSigs stakeOf ok validA as
    else if ok a = true then validSigs stakeOf ok (validA.set a.validator a.evmSig) as
    else validSigs stakeOf ok validA as

/-- The loop over `attsB`. -/
def equivocationsFrom (height : JsNum) (blockHashA blockHashB : String)
    (validA : JsMap String Bytes) (ok : EvmSignedAttestation → Bool) :
    List String → List EvmSignedAttestation → List EvmEquivocationProof
  | _, [] => []
  | seen, b :: bs =>
    if b.validator ∈ seen then equivocationsFrom height blockHashA blockHashB validA ok seen bs
    else
      match validA.get? b.validator with
      | none => equivocationsFrom height blockHashA blockHashB validA ok seen bs
      | some sigA =>
        if ok b = false then equivocationsFrom height blockHashA blockHashB validA ok seen bs
        else ⟨b.validator, height, blockHashA, blockHashB, sigA, b.evmSig⟩ ::
          equivocationsFrom height blockHashA blockHashB validA ok (b.validator :: seen) bs

/-- The guarded part of `detectEvmEquivocations`: the stakes and the two messages. -/
def equivocationContext (X : EvmExternals) (set : ValidatorSet) (suite : String) (height : JsNum)
    (target : EvmTarget) (blockHashA blockHashB : String) :
    Except JsError (JsMap String ℤ × Bytes × Bytes) := do
  let members ← canonicalMembers X set
  let setId ← evmSetId X set
  let msgA ← evmAttestMessage X suite height blockHashA setId target
  let msgB ← evmAttestMessage X suite height blockHashB setId target
  .ok (memberStakes members, msgA, msgB)

def detectEvmEquivocations (X : EvmExternals) (set : ValidatorSet) (suite : String)
    (height : JsNum) (target : EvmTarget) (blockHashA : String)
    (attsA : List EvmSignedAttestation) (blockHashB : String)
    (attsB : List EvmSignedAttestation) : Except JsError (List EvmEquivocationProof) :=
  if blockHashA = blockHashB then .ok []
  else if maxEvmAttestations < attsA.length ∨ maxEvmAttestations < attsB.length then .ok []
  else
    match equivocationContext X set suite height target blockHashA blockHashB with
    | .error _ => .ok []
    | .ok (stakeOf, msgA, msgB) => do
      let verifier ← X.signerFor suite
      let validA := validSigs stakeOf
        (fun a => safeEvmVerify X.toExternals a.evmSig msgA a.validator verifier) JsMap.empty attsA
      .ok (equivocationsFrom height blockHashA blockHashB validA
        (fun b => safeEvmVerify X.toExternals b.evmSig msgB b.validator verifier) [] attsB)

/-- The guarded part of `verifyEvmEquivocationProof`: the two messages, unless the accused
has no stake. -/
def proofContext (X : EvmExternals) (proof : EvmEquivocationProof) (set : ValidatorSet)
    (suite : String) (target : EvmTarget) : Except JsError (Option (Bytes × Bytes)) := do
  let members ← canonicalMembers X set
  if ((memberStakes members).get? proof.validator).getD 0 ≤ 0 then .ok none
  else do
    let setId ← evmSetId X set
    let msgA ← evmAttestMessage X suite proof.height proof.blockHashA setId target
    let msgB ← evmAttestMessage X suite proof.height proof.blockHashB setId target
    .ok (some (msgA, msgB))

def verifyEvmEquivocationProof (X : EvmExternals) (proof : EvmEquivocationProof)
    (set : ValidatorSet) (suite : String) (target : EvmTarget) : Except JsError Bool :=
  if proof.blockHashA = proof.blockHashB then .ok false
  else
    match proofContext X proof set suite target with
    | .error _ => .ok false
    | .ok none => .ok false
    | .ok (some (msgA, msgB)) => do
      let verifier ← X.signerFor suite
      .ok (safeEvmVerify X.toExternals proof.sigA msgA proof.validator verifier &&
        safeEvmVerify X.toExternals proof.sigB msgB proof.validator verifier)

/-! ## Canonical order -/

theorem cmpBytes_self (a : Bytes) : cmpBytes a a = 0 := by
  induction a with
  | nil => rfl
  | cons x a ih => rw [cmpBytes, if_neg (not_not.mpr rfl), ih]

/-- A negative comparison is the lexicographic order. -/
theorem cmpBytes_neg_iff {a b : Bytes} : cmpBytes a b < 0 ↔ a < b := by
  induction a generalizing b with
  | nil =>
    cases b with
    | nil => exact iff_of_false (lt_irrefl 0) (List.lt_irrefl [])
    | cons y b => exact iff_of_true (by simp [cmpBytes]) (List.nil_lt_cons y b)
  | cons x a ih =>
    cases b with
    | nil => exact iff_of_false (by simp [cmpBytes]) (List.not_lt_nil _)
    | cons y b =>
      rw [cmpBytes, List.cons_lt_cons_iff]
      by_cases hxy : x = y
      · subst hxy
        rw [if_neg (not_not.mpr rfl), ih]
        simp [UInt8.lt_irrefl]
      · rw [if_pos hxy]
        by_cases hlt : x < y <;> simp [hlt, hxy]

theorem cmpBytes_eq_zero_iff {a b : Bytes} : cmpBytes a b = 0 ↔ a = b := by
  constructor
  · intro h
    induction a generalizing b with
    | nil =>
      cases b with
      | nil => rfl
      | cons y b => exact absurd h (by simp [cmpBytes])
    | cons x a ih =>
      cases b with
      | nil => exact absurd h (by simp [cmpBytes])
      | cons y b =>
        rw [cmpBytes] at h
        by_cases hxy : x = y
        · rw [if_neg (not_not.mpr hxy)] at h
          rw [hxy, ih h]
        · rw [if_pos hxy] at h
          split at h <;> cases h
  · rintro rfl
    exact cmpBytes_self a

theorem cmpBytes_nonpos_iff {a b : Bytes} : cmpBytes a b ≤ 0 ↔ a < b ∨ a = b := by
  rw [le_iff_lt_or_eq, cmpBytes_neg_iff, cmpBytes_eq_zero_iff]

theorem cmpBytes_total (a b : Bytes) : cmpBytes a b ≤ 0 ∨ cmpBytes b a ≤ 0 := by
  rw [cmpBytes_nonpos_iff, cmpBytes_nonpos_iff]
  rcases Std.lt_trichotomy a b with h | h | h
  · exact .inl (.inl h)
  · exact .inl (.inr h)
  · exact .inr (.inl h)

theorem cmpBytes_trans {a b c : Bytes} (hab : cmpBytes a b ≤ 0) (hbc : cmpBytes b c ≤ 0) :
    cmpBytes a c ≤ 0 := by
  rw [cmpBytes_nonpos_iff] at hab hbc ⊢
  rcases hab with hab | rfl
  · rcases hbc with hbc | rfl
    · exact .inl (List.lt_trans hab hbc)
    · exact .inl hab
  · exact hbc

instance : Std.Total memberLe where
  total a b := cmpBytes_total a.pubkeyBytes b.pubkeyBytes

instance : IsTrans CanonMember memberLe where
  trans _ _ _ := cmpBytes_trans

/-- Members in strictly ascending order of their decoded keys. -/
def Ascending (ms : List CanonMember) : Prop :=
  ms.Pairwise fun a b => a.pubkeyBytes < b.pubkeyBytes

variable {X : EvmExternals} {set : ValidatorSet}

variable {ms : List CanonMember}

theorem pairwise_memberLe (h : Ascending ms) : ms.Pairwise memberLe :=
  h.imp fun hlt => cmpBytes_nonpos_iff.mpr (.inl hlt)

/-- Members that ascend weakly, with no two neighbours alike, ascend strictly. -/
theorem ascending_of_not_hasDuplicate (hle : ms.Pairwise memberLe)
    (hdup : hasDuplicate ms = false) : Ascending ms := by
  induction ms with
  | nil => exact .nil
  | cons a ms ih =>
    obtain ⟨ha, hms⟩ := List.pairwise_cons.mp hle
    cases ms with
    | nil => exact List.pairwise_singleton _ a
    | cons b ms =>
      rw [hasDuplicate, Bool.or_eq_false_iff, decide_eq_false_iff_not, cmpBytes_eq_zero_iff] at hdup
      have hrest := ih hms hdup.2
      have hab : a.pubkeyBytes < b.pubkeyBytes :=
        (cmpBytes_nonpos_iff.mp (ha b List.mem_cons_self)).resolve_right hdup.1
      refine List.pairwise_cons.mpr ⟨fun m hm => ?_, hrest⟩
      rcases List.mem_cons.mp hm with rfl | hm
      · exact hab
      · exact List.lt_trans hab ((List.pairwise_cons.mp hrest).1 m hm)

theorem hasDuplicate_of_ascending (h : Ascending ms) : hasDuplicate ms = false := by
  induction ms with
  | nil => rfl
  | cons a ms ih =>
    obtain ⟨ha, hms⟩ := List.pairwise_cons.mp h
    cases ms with
    | nil => rfl
    | cons b ms =>
      rw [hasDuplicate, ih hms, Bool.or_false, decide_eq_false_iff_not, cmpBytes_eq_zero_iff]
      intro heq
      exact List.lt_irrefl b.pubkeyBytes (heq ▸ ha b List.mem_cons_self)

/-- In ascending order a member is determined by its decoded key. -/
theorem Ascending.eq_of_pubkeyBytes (h : Ascending ms) {a b : CanonMember} (ha : a ∈ ms)
    (hb : b ∈ ms) (heq : a.pubkeyBytes = b.pubkeyBytes) : a = b := by
  have hnodup : (ms.map (·.pubkeyBytes)).Nodup := by
    refine List.pairwise_map.mpr (List.Pairwise.imp ?_ h)
    intro a b hlt heq
    exact List.lt_irrefl b.pubkeyBytes (heq ▸ hlt)
  exact List.inj_on_of_nodup_map hnodup ha hb heq

/-- **The canonical members** are the decoded ones in strictly ascending order. The order
in which the set lists them does not matter. -/
theorem canonicalMembers_iff : canonicalMembers X set = .ok ms ↔
    (∃ us, List.Forall₂ (fun v m => canonMember X v = .ok m) set.validators us ∧ us.Perm ms) ∧
      Ascending ms := by
  constructor
  · intro h
    obtain ⟨us, hus, h⟩ := Except.bind_eq_ok h
    split at h
    · cases h
    · rename_i hdup
      obtain rfl := Except.ok.inj h
      refine ⟨⟨us, Except.mapM_eq_ok.mp hus, (List.perm_insertionSort memberLe us).symm⟩, ?_⟩
      exact ascending_of_not_hasDuplicate (List.pairwise_insertionSort memberLe us)
        ((Bool.not_eq_true _).mp hdup)
  · rintro ⟨⟨us, hus, hperm⟩, hasc⟩
    -- sorting gives the one ascending arrangement there is
    have hsort : us.insertionSort memberLe = ms := by
      refine List.Perm.eq_of_pairwise ?_ (List.pairwise_insertionSort memberLe us)
        (pairwise_memberLe hasc) ((List.perm_insertionSort memberLe us).trans hperm)
      intro a b ha hb hab hba
      have ha' : a ∈ ms := hperm.mem_iff.mp ((List.mem_insertionSort memberLe).mp ha)
      refine hasc.eq_of_pubkeyBytes ha' hb ?_
      rcases cmpBytes_nonpos_iff.mp hab with hlt | heq
      · rcases cmpBytes_nonpos_iff.mp hba with hlt' | heq'
        · exact absurd hlt' (List.lt_asymm hlt)
        · exact heq'.symm
      · exact heq
    refine Except.bind_ok (Except.mapM_eq_ok.mpr hus) ?_
    rw [hsort, if_neg]
    rw [hasDuplicate_of_ascending hasc]
    decide

/-! ## Members and their stake -/

/-- What a member is made of. -/
theorem canonMember_eq_ok {v : Validator} {m : CanonMember} : canonMember X v = .ok m ↔
    ∃ b vrfHash, decodeHex X.toExternals "pubkey" v.pubkey = .ok b ∧ b ≠ [] ∧
      safeStake v.stake ≤ u256Max ∧ vrfHashOf X v.vrfPubkey = .ok vrfHash ∧
      m = ⟨v.pubkey, b, safeStake v.stake, vrfHash⟩ := by
  have hstake : (if 0 < v.stake then v.stake else 0) = safeStake v.stake := by
    rw [safeStake]
    split <;> split <;> omega
  rw [canonMember, hstake]
  constructor
  · intro h
    obtain ⟨b, hb, h⟩ := Except.bind_eq_ok h
    split at h
    · cases h
    rename_i hne
    split at h
    · cases h
    rename_i hle
    obtain ⟨vrfHash, hvrf, h⟩ := Except.bind_eq_ok h
    exact ⟨b, vrfHash, hb, mt List.length_eq_zero_iff.mpr hne, not_lt.mp hle, hvrf,
      (Except.ok.inj h).symm⟩
  · rintro ⟨b, vrfHash, hb, hne, hle, hvrf, rfl⟩
    refine Except.bind_ok hb ?_
    rw [if_neg (mt List.length_eq_zero_iff.mp hne), if_neg (not_lt.mpr hle)]
    exact Except.bind_ok hvrf rfl

/-- The canonical members stand for the validators of the set. -/
theorem members_perm (h : canonicalMembers X set = .ok ms) :
    (ms.map fun m => (m.pubkey, m.stake)).Perm
      (set.validators.map fun v => (v.pubkey, safeStake v.stake)) := by
  obtain ⟨⟨us, hus, hperm⟩, -⟩ := canonicalMembers_iff.mp h
  have heq : set.validators.map (fun v => (v.pubkey, safeStake v.stake)) =
      us.map fun m => (m.pubkey, m.stake) := by
    rw [← List.forall₂_eq_eq_eq, List.forall₂_map_left_iff, List.forall₂_map_right_iff]
    refine hus.imp fun v m hm => ?_
    obtain ⟨b, vrfHash, -, -, -, -, rfl⟩ := canonMember_eq_ok.mp hm
    rfl
  rw [heq]
  exact hperm.symm.map _

/-- Keys that decode to different bytes are different. -/
theorem nodup_pubkeys (h : canonicalMembers X set = .ok ms) :
    (set.validators.map (·.pubkey)).Nodup := by
  obtain ⟨⟨us, hus, hperm⟩, hasc⟩ := canonicalMembers_iff.mp h
  have hdecoded : ∀ m ∈ ms, decodeHex X.toExternals "pubkey" m.pubkey = .ok m.pubkeyBytes := by
    intro m hm
    obtain ⟨v, -, hv⟩ := exists_of_forall₂_of_mem hus (hperm.mem_iff.mpr hm)
    obtain ⟨b, vrfHash, hb, -, -, -, rfl⟩ := canonMember_eq_ok.mp hv
    exact hb
  have hnodup : (ms.map (·.pubkey)).Nodup := by
    refine List.pairwise_map.mpr (List.Pairwise.imp_of_mem ?_ hasc)
    intro a b ha hb hlt heq
    have hbytes : a.pubkeyBytes = b.pubkeyBytes :=
      Except.ok.inj ((hdecoded a ha).symm.trans (heq ▸ hdecoded b hb))
    exact List.lt_irrefl b.pubkeyBytes (hbytes ▸ hlt)
  have hkeys := (members_perm h).map Prod.fst
  rw [List.map_map, List.map_map] at hkeys
  exact hkeys.nodup_iff.mp hnodup

/-- The total of the profile is that of the ledger. -/
theorem sum_members (h : canonicalMembers X set = .ok ms) :
    ms.foldl (fun a m => a + m.stake) 0 = totalStake set := by
  have hsum := ((members_perm h).map Prod.snd).sum_eq
  rw [List.map_map, List.map_map] at hsum
  rw [totalStake_eq_sum, ← List.foldl_map, ← List.sum_eq_foldl]
  exact hsum

theorem get?_foldl_set (ms : List CanonMember) (init : JsMap String ℤ) (k : String)
    (hnodup : (ms.map (·.pubkey)).Nodup) :
    (ms.foldl (fun m c => m.set c.pubkey c.stake) init).get? k =
      ((ms.find? fun c => decide (c.pubkey = k)).map (·.stake)).or (init.get? k) := by
  induction ms generalizing init with
  | nil => rfl
  | cons c ms ih =>
    obtain ⟨hc, hms⟩ := List.nodup_cons.mp hnodup
    rw [List.foldl_cons, ih _ hms, List.find?_cons, JsMap.get?_set]
    by_cases hk : c.pubkey = k
    · -- no later member overwrites the entry
      have hnone : ms.find? (fun c => decide (c.pubkey = k)) = none := by
        refine List.find?_eq_none.mpr fun d hd hdk => hc ?_
        exact List.mem_map.mpr ⟨d, hd, (of_decide_eq_true hdk).trans hk.symm⟩
      rw [hnone, decide_eq_true hk, if_pos hk.symm]
      rfl
    · rw [decide_eq_false hk, if_neg (Ne.symm hk)]

/-- The stakes of the profile are those of the ledger. -/
theorem get?_memberStakes (h : canonicalMembers X set = .ok ms) (k : String) :
    ((memberStakes ms).get? k).getD 0 = stakeOf set k := by
  have hnodup := nodup_pubkeys h
  have hkeys := (members_perm h).map Prod.fst
  rw [List.map_map, List.map_map] at hkeys
  rw [memberStakes, get?_foldl_set ms _ k (hkeys.nodup_iff.mpr hnodup), JsMap.get?_empty,
    Option.or_none]
  rcases hf : ms.find? (fun c => decide (c.pubkey = k)) with _ | m
  · -- no member, so no validator, has the key
    rw [hf, Option.map_none, Option.getD_none]
    refine le_antisymm (stakeOf_nonneg set k) (not_lt.mp fun hpos => ?_)
    have hmem : k ∈ ms.map (·.pubkey) := hkeys.mem_iff.mpr (mem_of_stakeOf_pos hpos)
    obtain ⟨m, hm, rfl⟩ := List.mem_map.mp hmem
    exact List.find?_eq_none.mp hf m hm (decide_eq_true rfl)
  · have hk : m.pubkey = k := by simpa using List.find?_some hf
    have hpair : (m.pubkey, m.stake) ∈ set.validators.map fun v => (v.pubkey, safeStake v.stake) :=
      (members_perm h).mem_iff.mp (List.mem_map_of_mem (List.mem_of_find?_eq_some hf))
    obtain ⟨v, hv, heq⟩ := List.mem_map.mp hpair
    obtain ⟨hvk, hvs⟩ := Prod.mk.inj heq
    rw [hf, Option.map_some, Option.getD_some, ← hk, ← hvk, ValidatorSet.stakeOf_mem hnodup hv,
      hvs]

/-! ## The loops -/

/-- The counting loop adds the stake of the first valid attestation of each validator. -/
theorem evmCount_eq (stakes : JsMap String ℤ) (ok : EvmSignedAttestation → Bool)
    (seen : List String) (attesting : ℤ) (atts : List EvmSignedAttestation) :
    evmCount stakes ok seen attesting atts = attesting +
      ((firstValid (·.validator) (fun a => decide (0 < (stakes.get? a.validator).getD 0) && ok a)
        seen atts).map fun a => (stakes.get? a.validator).getD 0).sum := by
  induction atts generalizing seen attesting with
  | nil => exact (add_zero attesting).symm
  | cons a as ih =>
    rw [evmCount]
    split
    · rename_i hseen
      rw [firstValid_cons_seen hseen, ih]
    rename_i hnew
    split
    · rename_i hstake
      rw [firstValid_cons_invalid (by simp [not_lt.mpr hstake]), ih]
    rename_i hstake
    split
    · rename_i hok
      rw [firstValid_cons_invalid (by simp [hok]), ih]
    · rename_i hok
      rw [firstValid_cons_pos hnew (by simpa [hok] using hstake), ih, List.map_cons, List.sum_cons,
        add_assoc]

/-- The map of `detectEvmEquivocations` holds the first valid signature of each validator. -/
theorem validSigs_entries (stakes : JsMap String ℤ) (ok : EvmSignedAttestation → Bool)
    {seen : List String} {validA : JsMap String Bytes}
    (hseen : ∀ v, v ∈ seen ↔ validA.has v = true) (atts : List EvmSignedAttestation) :
    (validSigs stakes ok validA atts).entries = validA.entries ++
      (firstValid (·.validator) (fun a => decide (0 < (stakes.get? a.validator).getD 0) && ok a)
        seen atts).map fun a => (a.validator, a.evmSig) := by
  induction atts generalizing seen validA with
  | nil => exact (List.append_nil _).symm
  | cons a as ih =>
    rw [validSigs]
    split
    · rename_i hhas
      rw [firstValid_cons_seen ((hseen _).mpr hhas), ih hseen]
    rename_i hhas
    split
    · rename_i hstake
      rw [firstValid_cons_invalid (by simp [not_lt.mpr hstake]), ih hseen]
    rename_i hstake
    split
    · rename_i hok
      have hentries : (validA.set a.validator a.evmSig).entries =
          validA.entries ++ [(a.validator, a.evmSig)] :=
        JsMap.entries_set_of_none _ (Option.not_isSome_iff_eq_none.mp hhas)
      have hseen' : ∀ v, v ∈ a.validator :: seen ↔
          (validA.set a.validator a.evmSig).has v = true := by
        intro v
        rw [List.mem_cons, hseen, JsMap.has, JsMap.has, JsMap.get?_set]
        by_cases hv : v = a.validator <;> simp [hv]
      rw [firstValid_cons_pos (mt (hseen _).mp hhas) (by simpa [hok] using hstake), ih hseen',
        hentries, List.append_assoc, List.map_cons]
      rfl
    · rename_i hok
      rw [firstValid_cons_invalid (by simp [hok]), ih hseen]

/-- The proofs are of the first valid attestation of each validator in the map. -/
theorem equivocationsFrom_eq (height : JsNum) (blockHashA blockHashB : String)
    (validA : JsMap String Bytes) (ok : EvmSignedAttestation → Bool) (seen : List String)
    (atts : List EvmSignedAttestation) :
    equivocationsFrom height blockHashA blockHashB validA ok seen atts =
      (firstValid (·.validator) (fun b => validA.has b.validator && ok b) seen atts).map fun b =>
        ⟨b.validator, height, blockHashA, blockHashB, (validA.get? b.validator).getD [],
          b.evmSig⟩ := by
  induction atts generalizing seen with
  | nil => rfl
  | cons b bs ih =>
    rw [equivocationsFrom]
    split
    · rename_i hseen
      rw [firstValid_cons_seen hseen, ih]
    rename_i hnew
    rcases hsig : validA.get? b.validator with _ | sigA
    · have hhas : validA.has b.validator = false := by rw [JsMap.has, hsig, Option.isSome_none]
      rw [firstValid_cons_invalid (by simp [hhas])]
      exact ih seen
    · have hhas : validA.has b.validator = true := by rw [JsMap.has, hsig, Option.isSome_some]
      cases hok : ok b with
      | false =>
        rw [firstValid_cons_invalid (by simp [hok])]
        exact ih seen
      | true =>
        rw [firstValid_cons_pos hnew (by simp [hhas, hok]), List.map_cons, hsig]
        exact congrArg _ (ih _)

/-! ## Messages -/

theorem safeUint_eq_ok {label : String} {x y : JsNum} : safeUint label x = .ok y ↔
    y = x ∧ ∃ n : ℕ, x = n ∧ n < 2 ^ 53 := by
  rw [safeUint]
  constructor
  · intro h
    split at h
    · cases h
    rename_i hcond
    obtain ⟨hsafe, hneg⟩ := not_or.mp hcond
    rw [Bool.not_eq_false] at hsafe
    obtain ⟨n, rfl⟩ := JsNum.exists_natCast_of_isInteger (JsNum.isInteger_of_isSafeInteger hsafe)
      ((Bool.not_eq_true _).mp hneg)
    exact ⟨(Except.ok.inj h).symm, n, rfl, JsNum.isSafeInteger_natCast.mp hsafe⟩
  · rintro ⟨rfl, n, rfl, hlt⟩
    rw [if_neg]
    rw [JsNum.isSafeInteger_natCast.mpr hlt, JsNum.zero_def, JsNum.lt_natCast]
    simp

theorem u256_eq_ok {x : ℤ} {b : Bytes} : u256 x = .ok b ↔
    0 ≤ x ∧ x ≤ u256Max ∧ b = bigEndian 32 x.toNat := by
  rw [u256]
  constructor
  · intro h
    split at h
    · cases h
    rename_i hneg
    split at h
    · cases h
    rename_i hmax
    exact ⟨not_lt.mp hneg, not_lt.mp hmax, (Except.ok.inj h).symm⟩
  · rintro ⟨hneg, hmax, rfl⟩
    rw [if_neg (not_lt.mpr hneg), if_neg (not_lt.mpr hmax)]

theorem natCast_le_u256Max {n : ℕ} : (n : ℤ) ≤ u256Max ↔ n < 2 ^ 256 := by
  rw [u256Max]
  omega

theorem lt_two_pow_256 {n : ℕ} (h : n < 2 ^ 53) : n < 2 ^ 256 :=
  h.trans (Nat.pow_lt_pow_right (by decide) (by decide))

theorem u256_natCast {n : ℕ} (h : n < 2 ^ 256) : u256 n = .ok (bigEndian 32 n) :=
  u256_eq_ok.mpr ⟨Int.natCast_nonneg n, natCast_le_u256Max.mpr h, rfl⟩

theorem decodeHex_eq_ok {E : Externals} {label hex : String} {b : Bytes} :
    decodeHex E label hex = .ok b ↔
      jsLength hex % 2 = 0 ∧ isLowerHex hex = true ∧ E.hexToBytes hex = .ok b := by
  rw [decodeHex]
  refine ⟨fun h => ?_, ?_⟩
  · split at h
    · cases h
    rename_i hcond
    obtain ⟨heven, hlower⟩ := not_or.mp hcond
    exact ⟨not_not.mp heven, (Bool.not_eq_false _).mp hlower, h⟩
  · rintro ⟨heven, hlower, h⟩
    rw [if_neg, h]
    rw [heven, hlower]
    simp

theorem decodeHexExact_eq_ok {E : Externals} {label hex : String} {n : ℕ} {b : Bytes} :
    decodeHexExact E label hex n = .ok b ↔ decodeHex E label hex = .ok b ∧ b.length = n := by
  constructor
  · intro h
    obtain ⟨b', hb, h⟩ := Except.bind_eq_ok h
    split at h
    · cases h
    rename_i hlen
    obtain rfl := Except.ok.inj h
    exact ⟨hb, not_not.mp hlen⟩
  · rintro ⟨hb, hlen⟩
    refine Except.bind_ok hb ?_
    rw [if_neg (not_not.mpr hlen)]

/-- The hash that one member adds to the fold. -/
def memberHash (X : EvmExternals) (h : Bytes) (m : CanonMember) : Bytes :=
  X.keccak256 (h ++ X.keccak256 m.pubkeyBytes ++ bigEndian 32 m.stake.toNat ++ m.vrfHash)

/-- The stake of a canonical member is a uint256. -/
theorem stake_range (h : canonicalMembers X set = .ok ms) {m : CanonMember} (hm : m ∈ ms) :
    0 ≤ m.stake ∧ m.stake ≤ u256Max := by
  obtain ⟨⟨us, hus, hperm⟩, -⟩ := canonicalMembers_iff.mp h
  obtain ⟨v, -, hv⟩ := exists_of_forall₂_of_mem hus (hperm.mem_iff.mpr hm)
  obtain ⟨b, vrfHash, -, -, hle, -, rfl⟩ := canonMember_eq_ok.mp hv
  exact ⟨safeStake_nonneg _, hle⟩

theorem foldlM_foldMember (h : ∀ m ∈ ms, 0 ≤ m.stake ∧ m.stake ≤ u256Max) (init : Bytes) :
    ms.foldlM (foldMember X) init = .ok (ms.foldl (memberHash X) init) := by
  induction ms generalizing init with
  | nil => rfl
  | cons m ms ih =>
    obtain ⟨h0, hmax⟩ := h m List.mem_cons_self
    have hstep : foldMember X init m = .ok (memberHash X init m) :=
      Except.bind_ok (u256_eq_ok.mpr ⟨h0, hmax, rfl⟩) rfl
    rw [List.foldlM_cons, hstep]
    exact ih (fun m' hm' => h m' (List.mem_cons_of_mem m hm')) _

/-- **What the set id is the hash of.** -/
theorem evmSetId_eq_ok {id : Bytes} : evmSetId X set = .ok id ↔
    ∃ ms, ∃ epoch : ℕ, canonicalMembers X set = .ok ms ∧ set.epoch.getD 0 = epoch ∧
      epoch < 2 ^ 53 ∧
      id = X.keccak256 (ms.foldl (memberHash X) (X.keccak256 setTag) ++ bigEndian 32 epoch) := by
  constructor
  · intro h
    obtain ⟨ms, hms, h⟩ := Except.bind_eq_ok h
    obtain ⟨_, hfold, h⟩ := Except.bind_eq_ok h
    rw [foldlM_foldMember fun m hm => stake_range hms hm] at hfold
    obtain rfl := Except.ok.inj hfold
    obtain ⟨_, hepoch, h⟩ := Except.bind_eq_ok h
    obtain ⟨_, hword, h⟩ := Except.bind_eq_ok h
    obtain ⟨rfl, epoch, hepoch, hlt⟩ := safeUint_eq_ok.mp hepoch
    obtain ⟨-, -, rfl⟩ := u256_eq_ok.mp hword
    rw [hepoch, JsNum.toInt_natCast, Int.toNat_natCast] at h
    exact ⟨ms, epoch, hms, hepoch, hlt, (Except.ok.inj h).symm⟩
  · rintro ⟨ms, epoch, hms, hepoch, hlt, rfl⟩
    refine Except.bind_ok hms (Except.bind_ok
      (foldlM_foldMember (fun m hm => stake_range hms hm) _) ?_)
    refine Except.bind_ok (safeUint_eq_ok.mpr ⟨rfl, epoch, hepoch, hlt⟩) ?_
    rw [hepoch, JsNum.toInt_natCast]
    exact Except.bind_ok (u256_natCast (lt_two_pow_256 hlt)) rfl

theorem length_of_evmSetId {id : Bytes} (h : evmSetId X set = .ok id) : id.length = 32 := by
  obtain ⟨ms, epoch, -, -, -, rfl⟩ := evmSetId_eq_ok.mp h
  exact (X.keccak256 _).2

/-- The fields of the attestation message, in order. -/
def evmMessageInput (X : EvmExternals) (suite : String) (chainId : ℕ) (verifier : Bytes)
    (height : ℕ) (blockHash setId : Bytes) : Bytes :=
  (X.keccak256 attTag).1 ++ X.keccak256 (utf8 suite) ++ bigEndian 32 chainId ++ verifier ++
    bigEndian 32 height ++ blockHash ++ setId

/-- **What the message is the hash of.** -/
theorem evmAttestMessage_eq_ok {suite hash : String} {height : JsNum} {setId msg : Bytes}
    {target : EvmTarget} : evmAttestMessage X suite height hash setId target = .ok msg ↔
    ∃ verifier blockHash, ∃ n chainId : ℕ, setId.length = 32 ∧
      decodeHex X.toExternals "verifier" target.verifier = .ok verifier ∧ verifier.length = 20 ∧
      decodeHex X.toExternals "blockHash" hash = .ok blockHash ∧ blockHash.length = 32 ∧
      target.chainId = chainId ∧ chainId < 2 ^ 256 ∧ height = n ∧ n < 2 ^ 53 ∧
      msg = X.keccak256 (evmMessageInput X suite chainId verifier n blockHash setId) := by
  rw [evmAttestMessage]
  constructor
  · intro h
    split at h
    · cases h
    rename_i hlen
    obtain ⟨verifier, hverifier, h⟩ := Except.bind_eq_ok h
    obtain ⟨blockHash, hhash, h⟩ := Except.bind_eq_ok h
    obtain ⟨chainWord, hchain, h⟩ := Except.bind_eq_ok h
    obtain ⟨height', hheight, h⟩ := Except.bind_eq_ok h
    obtain ⟨heightWord, hword, h⟩ := Except.bind_eq_ok h
    obtain ⟨heq, n, rfl, hlt⟩ := safeUint_eq_ok.mp hheight
    obtain ⟨-, -, rfl⟩ := u256_eq_ok.mp hword
    rw [heq, JsNum.toInt_natCast, Int.toNat_natCast] at h
    obtain ⟨hneg, hmax, rfl⟩ := u256_eq_ok.mp hchain
    obtain ⟨chainId, hid⟩ := Int.eq_ofNat_of_zero_le hneg
    rw [hid] at hmax
    obtain ⟨hv, hvlen⟩ := decodeHexExact_eq_ok.mp hverifier
    obtain ⟨hb, hblen⟩ := decodeHexExact_eq_ok.mp hhash
    refine ⟨verifier, blockHash, n, chainId, not_not.mp hlen, hv, hvlen, hb, hblen, hid,
      natCast_le_u256Max.mp hmax, rfl, hlt, ?_⟩
    rw [hid] at h
    exact (Except.ok.inj h).symm
  · rintro ⟨verifier, blockHash, n, chainId, hlen, hv, hvlen, hb, hblen, hid, hmax, rfl, hlt, rfl⟩
    rw [if_neg (not_not.mpr hlen), hid]
    refine Except.bind_ok (decodeHexExact_eq_ok.mpr ⟨hv, hvlen⟩)
      (Except.bind_ok (decodeHexExact_eq_ok.mpr ⟨hb, hblen⟩)
        (Except.bind_ok (u256_natCast hmax)
          (Except.bind_ok (safeUint_eq_ok.mpr ⟨rfl, n, rfl, hlt⟩) ?_)))
    rw [JsNum.toInt_natCast]
    exact Except.bind_ok (u256_natCast (lt_two_pow_256 hlt)) rfl

/-! ## Verdicts -/

theorem badThreshold_eq (num den : JsNum) : badThreshold num den = !validThreshold num den := by
  have hone : ((1 : JsNum) != JsNum.nan) = true := bne_iff_ne.mpr (by decide)
  have hfin : ∀ q, (JsNum.fin q != JsNum.nan) = true := fun q => bne_iff_ne.mpr JsNum.noConfusion
  cases num <;> cases den <;>
    simp [badThreshold, validThreshold, JsNum.isInteger, JsNum.le, JsNum.lt, Bool.or_assoc, hone,
      hfin]

section Verdict

variable (X) (set) (verifier : SignatureScheme) (msg : Bytes)
  (atts : List EvmSignedAttestation)

/-- The validators counted for a message: those with stake and a valid signature. -/
def evmSigners : List String :=
  (firstValid (·.validator) (fun a => decide (0 < stakeOf set a.validator) &&
    safeEvmVerify X.toExternals a.evmSig msg a.validator verifier) [] atts).map (·.validator)

/-- The stake they hold. -/
def evmAttesting : ℤ := ((evmSigners X set verifier msg atts).map (stakeOf set)).sum

variable {X set verifier msg atts}

theorem nodup_evmSigners : (evmSigners X set verifier msg atts).Nodup :=
  nodup_map_firstValid _ _ _ _

/-- **A validator is counted when it has stake and any of its signatures is valid.** -/
theorem mem_evmSigners {v : String} : v ∈ evmSigners X set verifier msg atts ↔
    0 < stakeOf set v ∧ ∃ a ∈ atts, a.validator = v ∧
      safeEvmVerify X.toExternals a.evmSig msg v verifier = true := by
  rw [evmSigners, mem_map_firstValid]
  constructor
  · rintro ⟨-, a, ha, rfl, hvalid⟩
    obtain ⟨hstake, hsig⟩ := Bool.and_eq_true_iff.mp hvalid
    exact ⟨of_decide_eq_true hstake, a, ha, rfl, hsig⟩
  · rintro ⟨hstake, a, ha, rfl, hsig⟩
    exact ⟨List.not_mem_nil, a, ha, rfl, Bool.and_eq_true_iff.mpr ⟨decide_eq_true hstake, hsig⟩⟩

theorem evmCount_memberStakes {ms : List CanonMember} (h : canonicalMembers X set = .ok ms) :
    evmCount (memberStakes ms)
      (fun a => safeEvmVerify X.toExternals a.evmSig msg a.validator verifier) [] 0 atts =
      evmAttesting X set verifier msg atts := by
  rw [evmCount_eq, zero_add, evmAttesting, evmSigners, List.map_map]
  simp only [get?_memberStakes h]
  rfl

end Verdict

/-- A message is computed from canonical members. -/
theorem members_of_message {suite hash : String} {height : JsNum} {target : EvmTarget}
    {msg : Bytes} (h : evmMessageOf X set suite height hash target = .ok msg) :
    ∃ ms, canonicalMembers X set = .ok ms := by
  obtain ⟨setId, hset, -⟩ := Except.bind_eq_ok h
  obtain ⟨ms, hms, -⟩ := Except.bind_eq_ok hset
  exact ⟨ms, hms⟩

/-! The guarded parts come through when the messages can be computed. -/

section Contexts

variable {suite hash hashA hashB : String} {height : JsNum} {target : EvmTarget}

theorem finalityContext_eq_some {total : ℤ} {r : Bytes × JsMap String ℤ} :
    finalityContext X set suite height hash target = .ok (total, some r) ↔
      ∃ ms msg, canonicalMembers X set = .ok ms ∧ 0 < totalStake set ∧
        evmMessageOf X set suite height hash target = .ok msg ∧ total = totalStake set ∧
        r = (msg, memberStakes ms) := by
  refine ⟨fun h => ?_, ?_⟩
  · obtain ⟨ms, hms, h⟩ := Except.bind_eq_ok h
    rw [sum_members hms] at h
    split at h
    · cases h
    rename_i hstake
    obtain ⟨msg, hmsg, h⟩ := Except.bind_eq_ok h
    cases h
    exact ⟨ms, msg, hms, not_le.mp hstake, hmsg, rfl, rfl⟩
  · rintro ⟨ms, msg, hms, hstake, hmsg, rfl, rfl⟩
    refine Except.bind_ok hms ?_
    rw [sum_members hms, if_neg (not_le.mpr hstake)]
    exact Except.bind_ok hmsg rfl

theorem equivocationContext_eq_ok {r : JsMap String ℤ × Bytes × Bytes} :
    equivocationContext X set suite height target hashA hashB = .ok r ↔
      ∃ ms msgA msgB, canonicalMembers X set = .ok ms ∧
        evmMessageOf X set suite height hashA target = .ok msgA ∧
        evmMessageOf X set suite height hashB target = .ok msgB ∧
        r = (memberStakes ms, msgA, msgB) := by
  refine ⟨fun h => ?_, ?_⟩
  · obtain ⟨ms, hms, h⟩ := Except.bind_eq_ok h
    obtain ⟨setId, hset, h⟩ := Except.bind_eq_ok h
    obtain ⟨msgA, hA, h⟩ := Except.bind_eq_ok h
    obtain ⟨msgB, hB, h⟩ := Except.bind_eq_ok h
    exact ⟨ms, msgA, msgB, hms, Except.bind_ok hset hA, Except.bind_ok hset hB,
      (Except.ok.inj h).symm⟩
  · rintro ⟨ms, msgA, msgB, hms, hA, hB, rfl⟩
    obtain ⟨setId, hset, hA⟩ := Except.bind_eq_ok hA
    obtain ⟨setId', hset', hB⟩ := Except.bind_eq_ok hB
    obtain rfl := Except.ok.inj (hset.symm.trans hset')
    exact Except.bind_ok hms (Except.bind_ok hset (Except.bind_ok hA (Except.bind_ok hB rfl)))

/-- The proof's context is that of the detection, for an accused with stake. -/
theorem proofContext_eq_some {p : EvmEquivocationProof} {r : Bytes × Bytes} :
    proofContext X p set suite target = .ok (some r) ↔ 0 < stakeOf set p.validator ∧
      ∃ stakes, equivocationContext X set suite p.height target p.blockHashA p.blockHashB =
        .ok (stakes, r) := by
  refine ⟨fun h => ?_, ?_⟩
  · obtain ⟨ms, hms, h⟩ := Except.bind_eq_ok h
    rw [get?_memberStakes hms] at h
    split at h
    · cases h
    rename_i hstake
    obtain ⟨setId, hset, h⟩ := Except.bind_eq_ok h
    obtain ⟨msgA, hA, h⟩ := Except.bind_eq_ok h
    obtain ⟨msgB, hB, h⟩ := Except.bind_eq_ok h
    obtain rfl := Option.some.inj (Except.ok.inj h)
    exact ⟨not_le.mp hstake, memberStakes ms, Except.bind_ok hms (Except.bind_ok hset
      (Except.bind_ok hA (Except.bind_ok hB rfl)))⟩
  · rintro ⟨hstake, stakes, h⟩
    obtain ⟨ms, hms, h⟩ := Except.bind_eq_ok h
    obtain ⟨setId, hset, h⟩ := Except.bind_eq_ok h
    obtain ⟨msgA, hA, h⟩ := Except.bind_eq_ok h
    obtain ⟨msgB, hB, h⟩ := Except.bind_eq_ok h
    obtain ⟨rfl, rfl⟩ := Prod.mk.inj (Except.ok.inj h)
    refine Except.bind_ok hms ?_
    rw [get?_memberStakes hms, if_neg (not_le.mpr hstake)]
    exact Except.bind_ok hset (Except.bind_ok hA (Except.bind_ok hB rfl))

end Contexts

/-- What a finalized verdict stands for. -/
structure EvmFinalizes (X : EvmExternals) (set : ValidatorSet) (atts : List EvmSignedAttestation)
    (suite : String) (height : JsNum) (hash : String) (target : EvmTarget) (num den : JsNum)
    (msg : Bytes) (verifier : SignatureScheme) : Prop where
  /-- the thresholds make sense -/
  threshold : validThreshold num den = true
  /-- the set is within its cap -/
  validators : set.validators.length ≤ maxValidators
  /-- the list is within its cap -/
  attestations : atts.length ≤ maxEvmAttestations
  /-- there is stake -/
  stake : 0 < totalStake set
  /-- the message is computed -/
  message : evmMessageOf X set suite height hash target = .ok msg
  /-- the suite has a signer -/
  signer : X.signerFor suite = .ok verifier
  /-- the quorum is met -/
  met : num.toInt * totalStake set ≤ evmAttesting X set verifier msg atts * den.toInt

/-- **What `verifyEvmFinality` finalizes**, with the stakes it reports. -/
theorem verifyEvmFinality_finalized_iff {atts : List EvmSignedAttestation} {suite hash : String}
    {height num den : JsNum} {target : EvmTarget} {v : EvmFinalityVerdict} :
    (verifyEvmFinality X set atts suite height hash target num den = .ok v ∧
      v.finalized = true) ↔
    ∃ msg verifier, EvmFinalizes X set atts suite height hash target num den msg verifier ∧
      v = ⟨true, evmAttesting X set verifier msg atts, totalStake set⟩ := by
  rw [verifyEvmFinality, badThreshold_eq]
  constructor
  · rintro ⟨h, hfin⟩
    split at h
    · cases h
      cases hfin
    rename_i hthreshold
    split at h
    · cases h
      cases hfin
    rename_i hcaps
    obtain ⟨hvalidators, hatts⟩ := not_or.mp hcaps
    split at h
    · cases h
      cases hfin
    · cases h
      cases hfin
    · rename_i total msg stakes hctx
      obtain ⟨ms, msg', hms, hstake, hmsg, rfl, hr⟩ := finalityContext_eq_some.mp hctx
      obtain ⟨rfl, rfl⟩ := Prod.mk.inj hr
      obtain ⟨verifier, hsigner, h⟩ := Except.bind_eq_ok h
      obtain rfl := Except.ok.inj h
      have hmet := of_decide_eq_true hfin
      rw [evmCount_memberStakes hms] at hmet ⊢
      refine ⟨_, verifier, ⟨?_, not_lt.mp hvalidators, not_lt.mp hatts, hstake, hmsg, hsigner,
        hmet⟩, ?_⟩
      · simpa using hthreshold
      · rw [decide_eq_true hmet]
  · rintro ⟨msg, verifier, hf, rfl⟩
    obtain ⟨ms, hms⟩ := members_of_message hf.message
    have hcaps : ¬ (maxValidators < set.validators.length ∨ maxEvmAttestations < atts.length) :=
      not_or.mpr ⟨hf.validators.not_gt, hf.attestations.not_gt⟩
    have hctx := finalityContext_eq_some.mpr ⟨ms, msg, hms, hf.stake, hf.message, rfl, rfl⟩
    rw [hf.threshold, if_neg (by decide), if_neg hcaps, hctx]
    refine ⟨Except.bind_ok hf.signer ?_, rfl⟩
    dsimp only
    rw [evmCount_memberStakes hms, decide_eq_true hf.met]

/-! ## An instance for concrete runs -/

/-- The number a string spells with the digits `1` to `256`, modulo `2 ^ 256`, as a hash. -/
def spellHash (b : Bytes) : FixedBytes 32 :=
  ⟨bigEndian 32 (b.foldl (fun n x => (n * 257 + x.toNat + 1) % 2 ^ 256) 0), length_bigEndian _ _⟩

/-- The symbolic externals with that hash. -/
def spellExternals : EvmExternals :=
  { symbolicExternals.toExternals with keccak256 := spellHash }

/-- Three validators of equal stake. -/
def trioSet : ValidatorSet := ⟨[⟨"02", 1, none⟩, ⟨"00", 1, none⟩, ⟨"01", 1, none⟩], none⟩

/-- Where their attestations are exported to. -/
def trioTarget : EvmTarget := ⟨1, hexText (List.replicate 20 7)⟩

/-- The hash of a block, all of one byte. -/
def trioHash (x : UInt8) : String := hexText (List.replicate 32 x)

/-- The attestation of one of them for a block. -/
def trioAttestation (key block : UInt8) : EvmSignedAttestation :=
  valueOr ⟨"", []⟩ (signEvmAttestation spellExternals [key] [key] [] trioSet "PS-5" 4
    (trioHash block) trioTarget)

end Nerion
