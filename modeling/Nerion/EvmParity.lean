import Nerion.EvmMessage
import Nerion.FinalityVerifier

/-!
# The contract against its reference

`verifyFinality` of the contract takes sorted members as bytes and words, and counts with
checked arithmetic; `verifyEvmFinality` takes hex texts in any order, sorts them and counts
with unbounded integers. `Encodes` says when calldata stands for the arguments of the
reference. For such data the two compute the same message, the same total and the same
stake behind the message, so that they can only part in the arithmetic:

* `Encodes.verifyFinality_iff` — the contract accepts when the reference does, the call is
  made where it is meant for, and the stake that signed, times the denominator, is a
  `uint256`;
* `contract_sound` — what the contract accepts, the reference finalizes, with the same
  stakes;
* `contract_accepts_iff` — the part of what the reference finalizes that the contract
  accepts.
-/

namespace Nerion

open FinalityVerifier (Env Call Uint256)

/-! ## What the reference counts, by member -/

/-- Some attestation has a valid signature of `k`. -/
def attestedBy (X : EvmExternals) (verifier : SignatureScheme) (msg : Bytes)
    (atts : List EvmSignedAttestation) (k : String) : Bool :=
  atts.any fun a => decide (a.validator = k) &&
    safeEvmVerify X.toExternals a.evmSig msg a.validator verifier

/-- **The stake counted** is that of the members with a valid attestation. -/
theorem evmAttesting_eq_stakeHeld {X : EvmExternals} {set : ValidatorSet}
    {verifier : SignatureScheme} {msg : Bytes} {atts : List EvmSignedAttestation}
    {ms : List CanonMember} (h : canonicalMembers X set = .ok ms) :
    evmAttesting X set verifier msg atts = set.stakeHeld (attestedBy X verifier msg atts) := by
  have hsigners : set.stakeHeld (attestedBy X verifier msg atts) =
      set.stakeHeld fun k => decide (k ∈ evmSigners X set verifier msg atts) := by
    refine ValidatorSet.stakeHeld_congr (nodup_pubkeys h) fun k hk => ?_
    rw [Bool.eq_iff_iff, decide_eq_true_iff, mem_evmSigners, attestedBy, List.any_eq_true]
    refine ⟨?_, ?_⟩
    · rintro ⟨a, ha, hok⟩
      obtain ⟨hname, hsig⟩ := Bool.and_eq_true_iff.mp hok
      obtain rfl := of_decide_eq_true hname
      exact ⟨hk, a, ha, rfl, hsig⟩
    · rintro ⟨-, a, ha, rfl, hsig⟩
      exact ⟨a, ha, Bool.and_eq_true_iff.mpr ⟨decide_eq_true rfl, hsig⟩⟩
  have hfilter : set.pubkeys.filter (fun k =>
      decide (k ∈ evmSigners X set verifier msg atts) = true) =
        (evmSigners X set verifier msg atts).toFinset := by
    ext k
    rw [Finset.mem_filter, List.mem_toFinset, decide_eq_true_iff]
    refine ⟨And.right, fun hk => ⟨?_, hk⟩⟩
    exact List.mem_toFinset.mpr (mem_of_stakeOf_pos (mem_evmSigners.mp hk).1)
  rw [hsigners, ValidatorSet.stakeHeld_eq_sum (nodup_pubkeys h), hfilter,
    List.sum_toFinset _ nodup_evmSigners]
  rfl

/-! ## Calldata for the arguments of the reference -/

/-- The contract and the reference call the same hash and the same signature scheme. -/
structure SamePrimitives (env : Env) (X : EvmExternals) : Prop where
  /-- `keccak256` -/
  hash : env.keccak256 = X.keccak256
  /-- the precompile accepts what ML-DSA-87 verifies -/
  verify : ∀ pk msg sig, env.mldsa87 pk msg sig = true ↔ X.mlDsa87.verify sig msg pk = .ok true

theorem SamePrimitives.safeEvmVerify_eq {env : Env} {X : EvmExternals} (P : SamePrimitives env X)
    {name : String} {pk : Bytes} (h : X.hexToBytes name = .ok pk) (sig msg : Bytes) :
    safeEvmVerify X.toExternals sig msg name X.mlDsa87 = env.mldsa87 pk msg sig := by
  rw [Bool.eq_iff_iff, P.verify, safeEvmVerify, h]
  cases hverify : X.mlDsa87.verify sig msg pk with
  | ok valid =>
    rw [Except.bind_ok rfl hverify]
    exact ⟨congrArg _, Except.ok.inj⟩
  | error e =>
    have hbind : (Except.ok pk >>= X.mlDsa87.verify sig msg) = .error e := hverify
    rw [hbind]
    exact iff_of_false Bool.false_ne_true nofun

/-- The bytes of a VRF key, none without one. -/
def vrfBytes (X : Externals) : Option String → Except JsError Bytes
  | some vrfPubkey => decodeHex X "vrfPubkey" vrfPubkey
  | none => .ok []

/-- The contract's entry `u` stands for the validator `v`. -/
structure EncodesValidator (X : EvmExternals) (v : Validator) (u : FinalityVerifier.Validator) :
    Prop where
  /-- the key is its hex text -/
  pubkey : decodeHex X.toExternals "pubkey" v.pubkey = .ok u.pubkey
  /-- the key is not empty -/
  ne_nil : u.pubkey ≠ []
  /-- a negative stake is none -/
  stake : safeStake v.stake = u.stake.toNat
  /-- no VRF key is the empty one -/
  vrfPubkey : vrfBytes X.toExternals v.vrfPubkey = .ok u.vrfPubkey

/-- The bytes a text stands for, the empty ones if it is not lower-case hex. -/
def hexBytes (X : Externals) (hex : String) : Bytes := valueOr [] (decodeHex X "pubkey" hex)

/-- The contract's entry for an attestation. No member has the empty key, so a name that is
not lower-case hex is no member's on either side. -/
def encodeAttestation (X : EvmExternals) (a : EvmSignedAttestation) :
    FinalityVerifier.Attestation :=
  ⟨hexBytes X.toExternals a.validator, a.evmSig⟩

/-- The calldata `c` stands for the arguments of the reference. -/
structure Encodes (X : EvmExternals) (set : ValidatorSet) (atts : List EvmSignedAttestation)
    (suite : String) (height : JsNum) (hash : String) (target : EvmTarget) (num den : JsNum)
    (c : Call) : Prop where
  /-- the validators, in another order -/
  validators : ∃ us, List.Forall₂ (EncodesValidator X) set.validators us ∧
    us.Perm c.validators
  /-- the list is ascending -/
  sorted : FinalityVerifier.Sorted c.validators
  attestations : c.attestations = atts.map (encodeAttestation X)
  suite : c.suite = suite
  chainId : target.chainId = c.chainId.toNat
  /-- the contract -/
  verifier : decodeHex X.toExternals "verifier" target.verifier = .ok c.verifier
  height : height = c.height.toNat
  /-- a safe integer -/
  height_lt : c.height.toNat < 2 ^ 53
  blockHash : decodeHex X.toExternals "blockHash" hash = .ok c.blockHash
  epoch : set.epoch.getD 0 = c.epoch.toNat
  /-- a safe integer -/
  epoch_lt : c.epoch.toNat < 2 ^ 53
  /-- the numerator -/
  num : num = c.finalityNum.toNat
  /-- the denominator -/
  den : den = c.finalityDen.toNat

/-- The canonical member for an entry of the contract. -/
def memberOf (X : EvmExternals) (u : FinalityVerifier.Validator) : CanonMember :=
  ⟨X.bytesToHex u.pubkey, u.pubkey, u.stake.toNat, X.keccak256 u.vrfPubkey⟩

theorem vrfHashOf_eq_ok {X : EvmExternals} {k : Option String} {b : Bytes}
    (h : vrfBytes X.toExternals k = .ok b) : vrfHashOf X k = .ok (X.keccak256 b) := by
  cases k with
  | none =>
    obtain rfl := Except.ok.inj h
    rfl
  | some k => exact Except.bind_ok h rfl

theorem EncodesValidator.canonMember {X : EvmExternals} (H : HexCodec X.toExternals)
    {v : Validator} {u : FinalityVerifier.Validator} (h : EncodesValidator X v u) :
    canonMember X v = .ok (memberOf X u) := by
  refine canonMember_eq_ok.mpr ⟨u.pubkey, X.keccak256 u.vrfPubkey, h.pubkey, h.ne_nil, ?_,
    vrfHashOf_eq_ok h.vrfPubkey, ?_⟩
  · rw [h.stake]
    exact natCast_le_u256Max.mpr u.stake.isLt
  · rw [memberOf, ← H.eq_of_decodeHex h.pubkey, h.stake]

namespace Encodes

variable {X : EvmExternals} {env : Env} {set : ValidatorSet} {atts : List EvmSignedAttestation}
  {suite hash : String} {height num den : JsNum} {target : EvmTarget} {c : Call}
  (H : HexCodec X.toExternals) (P : SamePrimitives env X)
  (h : Encodes X set atts suite height hash target num den c)

include H h in
/-- The members, already in canonical order. -/
theorem members : canonicalMembers X set = .ok (c.validators.map (memberOf X)) := by
  obtain ⟨us, hus, hperm⟩ := h.validators
  refine canonicalMembers_iff.mpr ⟨⟨us.map (memberOf X), ?_, hperm.map _⟩, ?_⟩
  · exact List.forall₂_map_right_iff.mpr (hus.imp fun v u hu => hu.canonMember H)
  · exact List.pairwise_map.mpr h.sorted

include P in
theorem foldl_memberHash (us : List FinalityVerifier.Validator) (init : Bytes) :
    (us.map (memberOf X)).foldl (memberHash X) init =
      us.foldl (FinalityVerifier.foldValidator env) init := by
  rw [List.foldl_map]
  congr 1
  funext b u
  rw [FinalityVerifier.foldValidator, P.hash]
  rfl

include H P h in
/-- **The contract computes the set id of the code.** -/
theorem setId : evmSetId X set = .ok (FinalityVerifier.setIdOf env c) := by
  refine evmSetId_eq_ok.mpr ⟨_, c.epoch.toNat, h.members H, h.epoch, h.epoch_lt, ?_⟩
  rw [foldl_memberHash P, FinalityVerifier.setIdOf, P.hash]
  rfl

include H P h in
/-- **The contract computes the message of the code.** -/
theorem message : evmMessageOf X set suite height hash target =
    .ok (FinalityVerifier.messageOf env c) := by
  have hid := h.setId H P
  refine Except.bind_ok hid (evmAttestMessage_eq_ok.mpr ⟨c.verifier, c.blockHash,
    c.height.toNat, c.chainId.toNat, length_of_evmSetId hid, h.verifier, c.verifier.2,
    h.blockHash, c.blockHash.2, h.chainId, c.chainId.isLt, h.height, h.height_lt, ?_⟩)
  rw [FinalityVerifier.messageOf, FinalityVerifier.evmMessage, P.hash, h.suite]
  rfl

include H h in
/-- **The contract computes the total stake of the code.** -/
theorem totalStake_eq : totalStake set = FinalityVerifier.totalWeight c := by
  rw [← sum_members (h.members H), List.foldl_map, ← List.foldl_map, ← List.sum_eq_foldl,
    FinalityVerifier.totalWeight, Nat.cast_list_sum, List.map_map]
  rfl

/-- A name is a member's on both sides or on neither. -/
theorem name_eq_iff {v : Validator} {u : FinalityVerifier.Validator} (hu : EncodesValidator X v u)
    (H : HexCodec X.toExternals) (name : String) :
    hexBytes X.toExternals name = u.pubkey ↔ name = v.pubkey := by
  refine ⟨fun heq => ?_, ?_⟩
  · rw [hexBytes] at heq
    cases hb : decodeHex X.toExternals "pubkey" name with
    | ok b =>
      rw [hb] at heq
      obtain rfl : b = u.pubkey := heq
      exact (H.eq_of_decodeHex hb).trans (H.eq_of_decodeHex hu.pubkey).symm
    | error e =>
      rw [hb] at heq
      exact absurd heq.symm hu.ne_nil
  · rintro rfl
    rw [hexBytes, hu.pubkey]
    rfl

include H P h in
/-- **The contract counts the stake that the code counts.** -/
theorem attesting_eq
    (hc : CollisionFree (fun b => (env.keccak256 b).1) (FinalityVerifier.comparedKeys c)) :
    evmAttesting X set X.mlDsa87 (FinalityVerifier.messageOf env c) atts =
      FinalityVerifier.attestingWeight env c := by
  obtain ⟨us, hus, hperm⟩ := h.validators
  rw [evmAttesting_eq_stakeHeld (h.members H),
    FinalityVerifier.attestingWeight_eq h.sorted hc, ValidatorSet.stakeHeld,
    ← ((hperm.filter _).map _).sum_eq]
  refine sum_filter_forall₂ hus (fun v u hu => ?_) fun v u hu => hu.stake
  rw [attestedBy, h.attestations, List.any_map]
  congr 1
  funext a
  by_cases hname : a.validator = v.pubkey
  · have hbytes : hexBytes X.toExternals a.validator = u.pubkey := (name_eq_iff hu H _).mpr hname
    have hdecode := (decodeHex_eq_ok.mp hu.pubkey).2.2
    rw [P.safeEvmVerify_eq (hname ▸ hdecode), decide_eq_true hname, Function.comp_apply,
      encodeAttestation, hbytes, decide_eq_true rfl]
  · rw [decide_eq_false hname, Function.comp_apply, encodeAttestation,
      decide_eq_false (mt (name_eq_iff hu H _).mp hname), Bool.false_and, Bool.false_and]

include H P h in
/-- **The two sides part only in the arithmetic.** -/
theorem verifyFinality_iff (hsigner : X.signerFor suite = .ok X.mlDsa87)
    (hc : CollisionFree (fun b => (env.keccak256 b).1) (FinalityVerifier.comparedKeys c)) :
    FinalityVerifier.verifyFinality env c = .ok true ↔
      (c.chainId = env.chainid ∧ c.verifier = env.self) ∧
      FinalityVerifier.attestingWeight env c * c.finalityDen.toNat < 2 ^ 256 ∧
      EvmFinalizes X set atts suite height hash target num den
        (FinalityVerifier.messageOf env c) X.mlDsa87 := by
  have hlen : set.validators.length = c.validators.length := by
    obtain ⟨us, hus, hperm⟩ := h.validators
    exact hus.length_eq.trans hperm.length_eq
  have hatts : atts.length = c.attestations.length := by rw [h.attestations, List.length_map]
  rw [FinalityVerifier.verifyFinality_eq_true_iff]
  refine ⟨?_, ?_⟩
  · rintro ⟨ha, hlt, hle⟩
    refine ⟨⟨ha.chain, ha.verifier⟩, hlt, ?_, hlen.trans_le ha.validators,
      hatts.trans_le ha.attestations, ?_, h.message H P, hsigner, ?_⟩
    · rw [h.num, h.den, validThreshold_natCast]
      exact ⟨ha.num_pos, ha.num_le⟩
    · rw [h.totalStake_eq H]
      exact Int.natCast_pos.mpr ha.stake
    · rw [h.totalStake_eq H, h.attesting_eq H P hc, h.num, h.den, JsNum.toInt_natCast,
        JsNum.toInt_natCast]
      exact_mod_cast hle
  · rintro ⟨⟨hchain, hverifier⟩, hlt, hf⟩
    obtain ⟨hpos, hle⟩ := validThreshold_natCast.mp (h.num ▸ h.den ▸ hf.threshold)
    have hstake := hf.stake
    have hmet := hf.met
    rw [h.totalStake_eq H] at hstake
    rw [h.totalStake_eq H, h.attesting_eq H P hc, h.num, h.den, JsNum.toInt_natCast,
      JsNum.toInt_natCast] at hmet
    refine ⟨⟨hpos, hle, hchain, hverifier, hlen.symm.trans_le hf.validators,
      hatts.symm.trans_le hf.attestations, ?_, h.sorted, Int.natCast_pos.mp hstake⟩, hlt, ?_⟩
    · intro u hu
      obtain ⟨us, hus, hperm⟩ := h.validators
      obtain ⟨v, -, hv⟩ := exists_of_forall₂_of_mem hus (hperm.mem_iff.mpr hu)
      exact hv.ne_nil
    · exact_mod_cast hmet

end Encodes

/-! ## What the contract accepts is final -/

section Render

variable (X : EvmExternals) (c : Call)

/-- A validator of the calldata as hex text, an empty VRF key as none. -/
def renderValidator (u : FinalityVerifier.Validator) : Validator :=
  ⟨X.bytesToHex u.pubkey, u.stake.toNat,
    if u.vrfPubkey = [] then none else some (X.bytesToHex u.vrfPubkey)⟩

/-- The set of the calldata. -/
def renderSet : ValidatorSet :=
  ⟨c.validators.map (renderValidator X), some (c.epoch.toNat : JsNum)⟩

/-- An attestation of the calldata. -/
def renderAttestation (a : FinalityVerifier.Attestation) : EvmSignedAttestation :=
  ⟨X.bytesToHex a.pubkey, a.signature⟩

/-- The target of the calldata. -/
def renderTarget : EvmTarget := ⟨c.chainId.toNat, X.bytesToHex c.verifier⟩

/-- `verifyEvmFinality` on the data of the calldata. -/
def verifyRendered : Except JsError EvmFinalityVerdict :=
  verifyEvmFinality X (renderSet X c) (c.attestations.map (renderAttestation X)) c.suite
    c.height.toNat (X.bytesToHex c.blockHash) (renderTarget X c) c.finalityNum.toNat
    c.finalityDen.toNat

variable {X c}

theorem encodesValidator_render (H : HexCodec X.toExternals) {u : FinalityVerifier.Validator}
    (hne : u.pubkey ≠ []) : EncodesValidator X (renderValidator X u) u := by
  refine ⟨H.decodeHex_bytesToHex _ _, hne, ?_, ?_⟩
  · exact if_pos (Int.natCast_nonneg _)
  · rw [renderValidator]
    split
    · rename_i hnil
      rw [hnil]
      rfl
    · exact H.decodeHex_bytesToHex _ _

theorem encodes_render (H : HexCodec X.toExternals) (hkeys : ∀ v ∈ c.validators, v.pubkey ≠ [])
    (hsorted : FinalityVerifier.Sorted c.validators) (hheight : c.height.toNat < 2 ^ 53)
    (hepoch : c.epoch.toNat < 2 ^ 53) :
    Encodes X (renderSet X c) (c.attestations.map (renderAttestation X)) c.suite c.height.toNat
      (X.bytesToHex c.blockHash) (renderTarget X c) c.finalityNum.toNat c.finalityDen.toNat
      c where
  validators := by
    refine ⟨c.validators, List.forall₂_map_left_iff.mpr (List.forall₂_same.mpr ?_), .refl _⟩
    intro u hu
    exact encodesValidator_render H (hkeys u hu)
  sorted := hsorted
  attestations := by
    rw [List.map_map]
    refine ((List.map_congr_left fun a _ => ?_).trans (List.map_id _)).symm
    rw [Function.comp_apply, encodeAttestation, renderAttestation, hexBytes,
      H.decodeHex_bytesToHex]
    rfl
  suite := rfl
  chainId := rfl
  verifier := H.decodeHex_bytesToHex _ _
  height := rfl
  height_lt := hheight
  blockHash := H.decodeHex_bytesToHex _ _
  epoch := rfl
  epoch_lt := hepoch
  num := rfl
  den := rfl

end Render

/-- **The contract is sound against its reference.** Calldata that the contract accepts is
final for the reference, which reports the two stakes the contract counted. -/
theorem contract_sound {X : EvmExternals} {env : Env} {c : Call} (H : HexCodec X.toExternals)
    (P : SamePrimitives env X)
    (hc : CollisionFree (fun b => (env.keccak256 b).1) (FinalityVerifier.comparedKeys c))
    (hsigner : X.signerFor c.suite = .ok X.mlDsa87) (hheight : c.height.toNat < 2 ^ 53)
    (hepoch : c.epoch.toNat < 2 ^ 53)
    (haccept : FinalityVerifier.verifyFinality env c = .ok true) :
    ∃ counts, FinalityVerifier.countStakes env c = .ok counts ∧
      verifyRendered X c = .ok ⟨true, counts.attesting.toNat, counts.total.toNat⟩ := by
  obtain ⟨ha, -, -⟩ := FinalityVerifier.verifyFinality_eq_true_iff.mp haccept
  obtain ⟨counts, hcounts, -⟩ := Except.bind_eq_ok haccept
  obtain ⟨-, -, -, htotal, hattesting⟩ := FinalityVerifier.countStakes_iff.mp hcounts
  have hencodes := encodes_render H ha.keys ha.sorted hheight hepoch
  obtain ⟨-, -, hf⟩ := (hencodes.verifyFinality_iff H P hsigner hc).mp haccept
  have hverdict := (verifyEvmFinality_finalized_iff.mpr ⟨_, _, hf, rfl⟩).1
  rw [hencodes.totalStake_eq H, hencodes.attesting_eq H P hc, ← htotal, ← hattesting] at hverdict
  exact ⟨counts, hcounts, hverdict⟩

/-- The chain of `trioTarget`, with the primitives of the symbolic instance. -/
def trioEnv : Env :=
  ⟨1, ⟨List.replicate 20 7, rfl⟩, spellHash, fun pk msg sig => decide (sig = pk ++ msg)⟩

theorem samePrimitives_trio : SamePrimitives trioEnv spellExternals where
  hash := rfl
  verify pk msg sig := by
    change decide (sig = pk ++ msg) = true ↔ Except.ok (decide (sig = pk ++ msg)) = .ok true
    exact ⟨congrArg _, Except.ok.inj⟩

/-- Calldata of the three validators. Of the four attestations one has no signature and one is
nobody's. -/
def trioCall : Call where
  validators := [⟨[0], 1, []⟩, ⟨[1], 1, []⟩, ⟨[2], 1, []⟩]
  attestations := [⟨[0], []⟩, ⟨[0], (trioAttestation 0 8).evmSig⟩, ⟨[9], []⟩,
    ⟨[1], (trioAttestation 1 8).evmSig⟩]
  suite := "PS-5"
  chainId := 1
  verifier := ⟨List.replicate 20 7, rfl⟩
  height := 4
  blockHash := ⟨List.replicate 32 8, rfl⟩
  epoch := 0
  finalityNum := 2
  finalityDen := 3

/-- `contract_sound` on that calldata. -/
theorem contract_sound_trio : FinalityVerifier.verifyFinality trioEnv trioCall = .ok true ∧
    ∃ counts, FinalityVerifier.countStakes trioEnv trioCall = .ok counts ∧
      verifyRendered spellExternals trioCall =
        .ok ⟨true, counts.attesting.toNat, counts.total.toNat⟩ := by
  have haccept : FinalityVerifier.verifyFinality trioEnv trioCall = .ok true := by
    decide +kernel
  have hc : CollisionFree (fun b => (trioEnv.keccak256 b).1)
      (FinalityVerifier.comparedKeys trioCall) := by
    rw [CollisionFree]
    decide +kernel
  exact ⟨haccept, contract_sound hexCodec_spell samePrimitives_trio hc rfl (by decide +kernel)
    (by decide +kernel) haccept⟩

/-! ## What is final, encoded for the contract -/

section Encode

/-- A number as a word; one that does not fit wraps. -/
def uint256 (x : ℤ) : Uint256 := BitVec.ofNat 256 x.toNat

/-- The first `n` bytes, padded with zeros. -/
def fixedBytes (n : ℕ) (b : Bytes) : FixedBytes n :=
  ⟨(b ++ List.replicate n 0).take n, by simp⟩

variable (X : EvmExternals)

/-- The contract's entry for a validator. -/
def encodeValidator (v : Validator) : FinalityVerifier.Validator :=
  ⟨hexBytes X.toExternals v.pubkey, uint256 (safeStake v.stake),
    valueOr [] (vrfBytes X.toExternals v.vrfPubkey)⟩

/-- The order in which the contract wants its members. -/
def validatorLe (a b : FinalityVerifier.Validator) : Prop := cmpBytes a.pubkey b.pubkey ≤ 0

instance : DecidableRel validatorLe := fun a b =>
  inferInstanceAs (Decidable (cmpBytes a.pubkey b.pubkey ≤ 0))

instance : Std.Total validatorLe where
  total a b := cmpBytes_total a.pubkey b.pubkey

instance : IsTrans FinalityVerifier.Validator validatorLe where
  trans _ _ _ := cmpBytes_trans

/-- The calldata for the arguments of the reference, with the members sorted. -/
def encodeCall (set : ValidatorSet) (atts : List EvmSignedAttestation) (suite : String)
    (height : JsNum) (hash : String) (target : EvmTarget) (num den : JsNum) : Call where
  validators := (set.validators.map (encodeValidator X)).insertionSort validatorLe
  attestations := atts.map (encodeAttestation X)
  suite := suite
  chainId := uint256 target.chainId
  verifier := fixedBytes 20 (hexBytes X.toExternals target.verifier)
  height := uint256 height.toInt
  blockHash := fixedBytes 32 (hexBytes X.toExternals hash)
  epoch := uint256 (set.epoch.getD 0).toInt
  finalityNum := uint256 num.toInt
  finalityDen := uint256 den.toInt

variable {X}

theorem toNat_uint256 {n : ℕ} (h : n < 2 ^ 256) : (uint256 n).toNat = n :=
  FinalityVerifier.toNat_ofNat_of_lt h

theorem toNat_uint256_toInt {n : ℕ} (h : n < 2 ^ 256) : (uint256 (n : JsNum).toInt).toNat = n := by
  rw [JsNum.toInt_natCast, toNat_uint256 h]

theorem fixedBytes_val {n : ℕ} {b : Bytes} (h : b.length = n) : (fixedBytes n b).1 = b := by
  subst h
  exact List.take_left

theorem hexBytes_of_decodeHex {E : Externals} {label hex : String} {b : Bytes}
    (h : decodeHex E label hex = .ok b) : hexBytes E hex = b := by
  have hsame : decodeHex E "pubkey" hex = .ok b := decodeHex_eq_ok.mpr (decodeHex_eq_ok.mp h)
  rw [hexBytes, hsame]
  rfl

theorem encodesValidator_encode {v : Validator} {m : CanonMember} (h : canonMember X v = .ok m) :
    EncodesValidator X v (encodeValidator X v) := by
  obtain ⟨b, vrfHash, hb, hne, hle, hvrf, -⟩ := canonMember_eq_ok.mp h
  have hbytes : (encodeValidator X v).pubkey = b := hexBytes_of_decodeHex hb
  refine ⟨hbytes.symm ▸ hb, hbytes.symm ▸ hne, ?_, ?_⟩
  · obtain ⟨n, hn⟩ := Int.eq_ofNat_of_zero_le (safeStake_nonneg v.stake)
    rw [hn, natCast_le_u256Max] at hle
    rw [encodeValidator, hn, toNat_uint256 hle]
  · cases hk : v.vrfPubkey with
    | none =>
      rw [encodeValidator, hk]
      rfl
    | some k =>
      rw [hk] at hvrf
      obtain ⟨b', hb', -⟩ := Except.bind_eq_ok hvrf
      have hbytes' : vrfBytes X.toExternals (some k) = .ok b' := hb'
      rw [encodeValidator, hk, hbytes']
      rfl

theorem encodesValidator_of_mem {set : ValidatorSet} {ms : List CanonMember}
    (h : canonicalMembers X set = .ok ms) {v : Validator} (hv : v ∈ set.validators) :
    EncodesValidator X v (encodeValidator X v) := by
  obtain ⟨⟨us, hus, -⟩, -⟩ := canonicalMembers_iff.mp h
  obtain ⟨m, -, hm⟩ := exists_of_forall₂_of_mem hus.flip hv
  exact encodesValidator_encode hm

/-- Sorting gives the strict order: no two members have the same bytes. -/
theorem sorted_encode (H : HexCodec X.toExternals) {set : ValidatorSet} {ms : List CanonMember}
    (h : canonicalMembers X set = .ok ms) :
    FinalityVerifier.Sorted ((set.validators.map (encodeValidator X)).insertionSort
      validatorLe) := by
  have htext : set.validators.map (·.pubkey) =
      ((set.validators.map (encodeValidator X)).map (·.pubkey)).map X.bytesToHex := by
    rw [List.map_map, List.map_map]
    refine List.map_congr_left fun v hv => ?_
    exact H.eq_of_decodeHex (encodesValidator_of_mem h hv).pubkey
  have hnodup := List.Nodup.of_map X.bytesToHex (htext ▸ nodup_pubkeys h)
  have hperm := List.perm_insertionSort validatorLe (set.validators.map (encodeValidator X))
  have hne := List.pairwise_map.mp ((hperm.map (·.pubkey)).nodup_iff.mpr hnodup)
  refine ((List.pairwise_insertionSort validatorLe _).and hne).imp ?_
  rintro a b ⟨hle, hne⟩
  exact (cmpBytes_nonpos_iff.mp hle).resolve_right hne

/-- What has a message is encoded, if the thresholds fit. -/
theorem encodes_encodeCall (H : HexCodec X.toExternals) {set : ValidatorSet}
    (atts : List EvmSignedAttestation) {suite hash : String} {height : JsNum} {target : EvmTarget}
    {num den : ℕ} {msg : Bytes} (hmsg : evmMessageOf X set suite height hash target = .ok msg)
    (hnum : num < 2 ^ 256) (hden : den < 2 ^ 256) :
    Encodes X set atts suite height hash target num den
      (encodeCall X set atts suite height hash target num den) := by
  obtain ⟨id, hid, hmsg⟩ := Except.bind_eq_ok hmsg
  obtain ⟨ms, epoch, hms, hepoch, hepochlt, -⟩ := evmSetId_eq_ok.mp hid
  obtain ⟨v, b, n, chain, -, hv, hvlen, hb, hblen, hchain, hchainlt, rfl, hn, -⟩ :=
    evmAttestMessage_eq_ok.mp hmsg
  have hheight := toNat_uint256_toInt (lt_two_pow_256 hn)
  have hepoch' : (uint256 (set.epoch.getD 0).toInt).toNat = epoch := by
    rw [hepoch, toNat_uint256_toInt (lt_two_pow_256 hepochlt)]
  refine ⟨⟨set.validators.map (encodeValidator X), ?_, (List.perm_insertionSort _ _).symm⟩,
    sorted_encode H hms, rfl, rfl, ?_, ?_, ?_, ?_, ?_, ?_, ?_, ?_, ?_⟩
  · exact List.forall₂_map_right_iff.mpr (List.forall₂_same.mpr fun v hv =>
      encodesValidator_of_mem hms hv)
  · rw [encodeCall, hchain, toNat_uint256 hchainlt]
  · rw [encodeCall, hexBytes_of_decodeHex hv, fixedBytes_val hvlen, hv]
  · exact congrArg Nat.cast hheight.symm
  · exact hheight.trans_lt hn
  · rw [encodeCall, hexBytes_of_decodeHex hb, fixedBytes_val hblen, hb]
  · exact hepoch.trans (congrArg Nat.cast hepoch'.symm)
  · exact hepoch'.trans_lt hepochlt
  · exact congrArg Nat.cast (toNat_uint256_toInt hnum).symm
  · exact congrArg Nat.cast (toNat_uint256_toInt hden).symm

end Encode

/-- **What the contract accepts of what is final.** For arguments on which the reference
reports finality, the contract at the target returns true on their calldata exactly if the
stake behind the message, times the denominator, is a `uint256`; otherwise its checked
arithmetic reverts, or the denominator is not a word to begin with. -/
theorem contract_accepts_iff {X : EvmExternals} {env : Env} (H : HexCodec X.toExternals)
    (P : SamePrimitives env X) {set : ValidatorSet} {atts : List EvmSignedAttestation}
    {suite hash : String} {height num den : JsNum} {target : EvmTarget} {v : EvmFinalityVerdict}
    {msg : Bytes} (hsigner : X.signerFor suite = .ok X.mlDsa87)
    (hchain : env.chainid = uint256 target.chainId)
    (hself : env.self = fixedBytes 20 (hexBytes X.toExternals target.verifier))
    (hc : CollisionFree (fun b => (env.keccak256 b).1) (FinalityVerifier.comparedKeys
      (encodeCall X set atts suite height hash target num den)))
    (hfinal : verifyEvmFinality X set atts suite height hash target num den = .ok v)
    (htrue : v.finalized = true) (hmsg : evmMessageOf X set suite height hash target = .ok msg) :
    (den.toInt < 2 ^ 256 ∧ FinalityVerifier.verifyFinality env
      (encodeCall X set atts suite height hash target num den) = .ok true) ↔
    set.stakeHeld (attestedBy X X.mlDsa87 msg atts) * den.toInt < 2 ^ 256 := by
  obtain ⟨msg', verifier, hf, -⟩ := verifyEvmFinality_finalized_iff.mp ⟨hfinal, htrue⟩
  obtain rfl := Except.ok.inj (hf.message.symm.trans hmsg)
  obtain rfl := Except.ok.inj (hf.signer.symm.trans hsigner)
  obtain ⟨ms, hms⟩ := members_of_message hmsg
  obtain ⟨n, d, rfl, rfl, hn, hd⟩ := exists_natCast_of_validThreshold hf.threshold
  rw [JsNum.toInt_natCast]
  -- for a denominator that fits, the contract counts that stake
  have hiff : d < 2 ^ 256 → (FinalityVerifier.verifyFinality env
      (encodeCall X set atts suite height hash target n d) = .ok true ↔
        set.stakeHeld (attestedBy X X.mlDsa87 msg' atts) * d < 2 ^ 256) := by
    intro hfits
    have hencodes := encodes_encodeCall H atts hmsg (hd.trans_lt hfits) hfits
    have hsame := Except.ok.inj ((hencodes.message H P).symm.trans hmsg)
    have hweight := hencodes.attesting_eq H P hc
    rw [hsame, evmAttesting_eq_stakeHeld hms] at hweight
    have hword := toNat_uint256_toInt hfits
    rw [hencodes.verifyFinality_iff H P hsigner hc, hsame, hweight]
    refine ⟨fun h => ?_, fun h => ⟨⟨hchain.symm, hself.symm⟩, ?_, hf⟩⟩
    · have hlt := h.2.1
      rw [encodeCall, hword] at hlt
      exact_mod_cast hlt
    · rw [encodeCall, hword]
      exact_mod_cast h
  refine ⟨fun h => (hiff (by exact_mod_cast h.1)).mp h.2, fun h => ?_⟩
  -- some member attested, so the denominator fits
  have hmet := hf.met
  rw [evmAttesting_eq_stakeHeld hms, JsNum.toInt_natCast, JsNum.toInt_natCast] at hmet
  have hdpos : (0 : ℤ) < d := Int.natCast_pos.mpr (hn.trans hd)
  have hpos := (mul_pos (Int.natCast_pos.mpr hn) hf.stake).trans_le hmet
  have hheld := (pos_iff_pos_of_mul_pos hpos).mpr hdpos
  have hfits : (d : ℤ) < 2 ^ 256 := (le_mul_of_one_le_left hdpos.le hheld).trans_lt h
  exact ⟨hfits, (hiff (by exact_mod_cast hfits)).mpr h⟩

/-- `contract_accepts_iff` on the three validators, listed out of order, and a list with an
entry whose name is not hex. -/
theorem contract_accepts_iff_trio :
    FinalityVerifier.verifyFinality trioEnv (encodeCall spellExternals trioSet
      [trioAttestation 0 8, ⟨"zz", []⟩, trioAttestation 1 8] "PS-5" 4 (trioHash 8) trioTarget 2 3) =
        .ok true := by
  obtain ⟨msg, hmsg, hfinal, hcond, hc⟩ : ∃ msg,
      evmMessageOf spellExternals trioSet "PS-5" 4 (trioHash 8) trioTarget = .ok msg ∧
      verifyEvmFinality spellExternals trioSet
        [trioAttestation 0 8, ⟨"zz", []⟩, trioAttestation 1 8] "PS-5" 4 (trioHash 8) trioTarget
        2 3 = .ok ⟨true, 2, 3⟩ ∧
      trioSet.stakeHeld (attestedBy spellExternals spellExternals.mlDsa87 msg
        [trioAttestation 0 8, ⟨"zz", []⟩, trioAttestation 1 8]) * (3 : JsNum).toInt < 2 ^ 256 ∧
      CollisionFree (fun b => (trioEnv.keccak256 b).1) (FinalityVerifier.comparedKeys
        (encodeCall spellExternals trioSet [trioAttestation 0 8, ⟨"zz", []⟩, trioAttestation 1 8]
          "PS-5" 4 (trioHash 8) trioTarget 2 3)) := by
    refine ⟨valueOr [] (evmMessageOf spellExternals trioSet "PS-5" 4 (trioHash 8) trioTarget), ?_⟩
    rw [CollisionFree]
    decide +kernel
  exact ((contract_accepts_iff hexCodec_spell samePrimitives_trio rfl (by decide +kernel)
    (by decide +kernel) hc hfinal rfl hmsg).mpr hcond).2

/-- One validator with half the range of a `uint256` as stake. -/
def wealthySet : ValidatorSet := ⟨[⟨"00", 2 ^ 255, none⟩], none⟩

/-- The wealthy validator's attestation. -/
def wealthyAttestation : EvmSignedAttestation :=
  valueOr ⟨"", []⟩ (signEvmAttestation spellExternals [0] [0] [] wealthySet "PS-5" 4 (trioHash 8)
    trioTarget)

/-- **The contract reverts on what is final.** Three times the stake leaves the range. -/
theorem final_but_reverts :
    verifyEvmFinality spellExternals wealthySet [wealthyAttestation] "PS-5" 4 (trioHash 8)
      trioTarget 2 3 = .ok ⟨true, 2 ^ 255, 2 ^ 255⟩ ∧
    FinalityVerifier.verifyFinality trioEnv (encodeCall spellExternals wealthySet
      [wealthyAttestation] "PS-5" 4 (trioHash 8) trioTarget 2 3) = .error (.panic 0x11) := by
  decide +kernel

end Nerion
