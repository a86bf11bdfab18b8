import Nerion.EvmAccountability
import Nerion.EvmParity

/-!
# Slashing evidence on the chain

`verifyEvmEquivocationProof` and `verifyEquivocation` of the contract judge the same evidence:
an accused validator, two blocks of one height, a signature for each. The contract gets the
key of the accused as bytes and looks it up by hash; the reference gets a text and looks that
up among the texts of the set, which are lower-case. So the two can only part on a name that
is spelled with a capital:

* `EncodesProof.verifyEquivocation_iff` — for calldata that stands for the evidence, the
  contract and the reference agree if the name is lower-case;
* `equivocation_parity` — what the reference accepts is what the contract accepts under a
  lower-case name;
* `capital_name_rejected` — the same evidence under a name with a capital.
-/

namespace Nerion

open FinalityVerifier (Env EquivocationCall)

/-- The calldata `c` stands for a proof, against a set and for a target. The name of the
accused is any text that decodes to the key. -/
structure EncodesProof (X : EvmExternals) (proof : EvmEquivocationProof) (set : ValidatorSet)
    (suite : String) (target : EvmTarget) (c : EquivocationCall) : Prop where
  /-- the validators, in another order -/
  validators : ∃ us, List.Forall₂ (EncodesValidator X) set.validators us ∧
    us.Perm c.validators
  /-- the list is ascending -/
  sorted : FinalityVerifier.Sorted c.validators
  /-- the accused -/
  validator : X.hexToBytes proof.validator = .ok c.validator
  suite : c.suite = suite
  chainId : target.chainId = c.chainId.toNat
  /-- the contract -/
  verifier : decodeHex X.toExternals "verifier" target.verifier = .ok c.verifier
  height : proof.height = c.height.toNat
  /-- the one block -/
  blockHashA : decodeHex X.toExternals "blockHash" proof.blockHashA = .ok c.blockHashA
  /-- its signature -/
  sigA : c.sigA = proof.sigA
  /-- the other block -/
  blockHashB : decodeHex X.toExternals "blockHash" proof.blockHashB = .ok c.blockHashB
  /-- its signature -/
  sigB : c.sigB = proof.sigB
  epoch : set.epoch.getD 0 = c.epoch.toNat

/-- The strings whose hashes `verifyEquivocation` compares. -/
def accusedKeys (c : EquivocationCall) : List Bytes := c.validator :: c.validators.map (·.pubkey)

namespace EncodesProof

variable {X : EvmExternals} {env : Env} {proof : EvmEquivocationProof} {set : ValidatorSet}
  {suite : String} {target : EvmTarget} {c : EquivocationCall}
  (H : HexCodec X.toExternals) (P : SamePrimitives env X)
  (h : EncodesProof X proof set suite target c)

include h in
/-- For each of the blocks it is calldata of `verifyFinality`, too. -/
theorem encodes (hheight : proof.height.isSafeInteger = true)
    (hepoch : (set.epoch.getD 0).isSafeInteger = true) {hash : String} {b : FixedBytes 32}
    (hb : decodeHex X.toExternals "blockHash" hash = .ok b) :
    Encodes X set [] suite proof.height hash target 1 1 (c.finality b) where
  validators := h.validators
  sorted := h.sorted
  attestations := rfl
  suite := h.suite
  chainId := h.chainId
  verifier := h.verifier
  height := h.height
  height_lt := JsNum.isSafeInteger_natCast.mp (h.height ▸ hheight)
  blockHash := hb
  epoch := h.epoch
  epoch_lt := JsNum.isSafeInteger_natCast.mp (h.epoch ▸ hepoch)
  num := rfl
  den := rfl

include H h in
/-- **The accused has stake on both sides**, under a lower-case name. -/
theorem stake_pos_iff (hnodup : (set.validators.map (·.pubkey)).Nodup) :
    0 < stakeOf set proof.validator ↔ isLowerHex proof.validator = true ∧
      ∃ u ∈ c.validators, u.pubkey = c.validator ∧ u.stake ≠ 0 := by
  obtain ⟨us, hus, hperm⟩ := h.validators
  have hpos : ∀ {v u}, v ∈ set.validators → EncodesValidator X v u →
      (0 < stakeOf set v.pubkey ↔ u.stake ≠ 0) := by
    intro v u hv hu
    rw [ValidatorSet.stakeOf_mem hnodup hv, hu.stake, Int.natCast_pos, Nat.pos_iff_ne_zero]
    exact not_congr (BitVec.toNat_eq (x := u.stake) (y := 0)).symm
  constructor
  · intro hstake
    obtain ⟨v, hv, hname⟩ := List.mem_map.mp (mem_of_stakeOf_pos hstake)
    obtain ⟨u, hmem, hu⟩ := exists_of_forall₂_of_mem hus.flip hv
    obtain ⟨-, hlower, hbytes⟩ := decodeHex_eq_ok.mp hu.pubkey
    rw [hname] at hlower hbytes
    refine ⟨hlower, u, hperm.mem_iff.mp hmem, ?_, (hpos hv hu).mp (hname ▸ hstake)⟩
    exact Except.ok.inj (hbytes.symm.trans h.validator)
  · rintro ⟨hlower, u, hmem, hkey, hne⟩
    obtain ⟨v, hv, hu⟩ := exists_of_forall₂_of_mem hus (hperm.mem_iff.mpr hmem)
    have hname : v.pubkey = proof.validator := by
      rw [H.eq_of_decodeHex hu.pubkey, hkey]
      exact H.encode _ _ hlower h.validator
    exact hname ▸ (hpos hv hu).mpr hne

include H h in
/-- The blocks differ on both sides. -/
theorem blocks_ne_iff : c.blockHashA ≠ c.blockHashB ↔ proof.blockHashA ≠ proof.blockHashB := by
  rw [H.eq_of_decodeHex h.blockHashA, H.eq_of_decodeHex h.blockHashB]
  refine not_congr ⟨fun heq => congrArg (fun b => X.bytesToHex b.1) heq, fun heq => ?_⟩
  have hdecode := (H.decode c.blockHashA).symm.trans ((congrArg X.hexToBytes heq).trans
    (H.decode c.blockHashB))
  exact Subtype.ext (Except.ok.inj hdecode)

include H P h in
/-- **The contract and the reference agree**, unless the name has a capital. -/
theorem verifyEquivocation_iff (hsigner : X.signerFor suite = .ok X.mlDsa87)
    (hlen : set.validators.length ≤ maxValidators) (hheight : proof.height.isSafeInteger = true)
    (hepoch : (set.epoch.getD 0).isSafeInteger = true)
    (hchain : c.chainId = env.chainid) (hself : c.verifier = env.self)
    (hc : CollisionFree (fun b => (env.keccak256 b).1) (accusedKeys c)) :
    verifyEvmEquivocationProof X proof set suite target = .ok true ↔
      isLowerHex proof.validator = true ∧
        FinalityVerifier.verifyEquivocation env c = .ok true := by
  have hA := h.encodes hheight hepoch h.blockHashA
  have hB := h.encodes hheight hepoch h.blockHashB
  have hnodup := nodup_pubkeys (hA.members H)
  have hstake := h.stake_pos_iff H hnodup
  rw [← FinalityVerifier.memberStake_ne_zero_iff h.sorted hc] at hstake
  rw [verifyEvmEquivocationProof_eq_true_iff, FinalityVerifier.verifyEquivocation_eq_true_iff]
  constructor
  · rintro ⟨hne, msgA, msgB, verifier, hmsgA, hmsgB, hverifier, he⟩
    obtain rfl := Except.ok.inj (hsigner.symm.trans hverifier)
    obtain rfl := Except.ok.inj ((hA.message H P).symm.trans hmsgA)
    obtain rfl := Except.ok.inj ((hB.message H P).symm.trans hmsgB)
    obtain ⟨hlower, hmember⟩ := hstake.mp he.stake
    have hsigA := he.sigA
    have hsigB := he.sigB
    rw [P.safeEvmVerify_eq h.validator, ← h.sigA] at hsigA
    rw [P.safeEvmVerify_eq h.validator, ← h.sigB] at hsigB
    obtain ⟨us, hus, hperm⟩ := h.validators
    refine ⟨hlower, hchain, hself, ?_, (h.blocks_ne_iff H).mpr hne, hmember, ?_, h.sorted, hsigA,
      hsigB⟩
    · exact (hus.length_eq.trans hperm.length_eq).symm.trans_le hlen
    · intro u hu
      obtain ⟨v, -, hv⟩ := exists_of_forall₂_of_mem hus (hperm.mem_iff.mpr hu)
      exact hv.ne_nil
  · rintro ⟨hlower, hs⟩
    refine ⟨(h.blocks_ne_iff H).mp hs.blocks, _, _, _, hA.message H P, hB.message H P, hsigner, rfl,
      rfl, rfl, hstake.mpr ⟨hlower, hs.stake⟩, ?_, ?_⟩
    · rw [P.safeEvmVerify_eq h.validator, ← h.sigA]
      exact hs.sigA
    · rw [P.safeEvmVerify_eq h.validator, ← h.sigB]
      exact hs.sigB

end EncodesProof

/-! ## Evidence encoded for the contract -/

section Encode

variable (X : EvmExternals)

/-- The calldata for a proof, with the members sorted. -/
def encodeProof (proof : EvmEquivocationProof) (set : ValidatorSet) (suite : String)
    (target : EvmTarget) : EquivocationCall where
  validators := (set.validators.map (encodeValidator X)).insertionSort validatorLe
  validator := valueOr [] (X.hexToBytes proof.validator)
  suite := suite
  chainId := uint256 target.chainId
  verifier := fixedBytes 20 (hexBytes X.toExternals target.verifier)
  height := uint256 proof.height.toInt
  blockHashA := fixedBytes 32 (hexBytes X.toExternals proof.blockHashA)
  sigA := proof.sigA
  blockHashB := fixedBytes 32 (hexBytes X.toExternals proof.blockHashB)
  sigB := proof.sigB
  epoch := uint256 (set.epoch.getD 0).toInt

variable {X}

/-- Evidence that has its two messages is encoded. -/
theorem encodesProof_encodeProof (H : HexCodec X.toExternals) {proof : EvmEquivocationProof}
    {set : ValidatorSet} {suite : String} {target : EvmTarget} {pk msgA msgB : Bytes}
    (hpk : X.hexToBytes proof.validator = .ok pk)
    (hA : evmMessageOf X set suite proof.height proof.blockHashA target = .ok msgA)
    (hB : evmMessageOf X set suite proof.height proof.blockHashB target = .ok msgB) :
    EncodesProof X proof set suite target (encodeProof X proof set suite target) := by
  have hone : 1 < 2 ^ 256 := by norm_num
  have hcallA := encodes_encodeCall H [] hA hone hone
  have hcallB := encodes_encodeCall H [] hB hone hone
  refine ⟨hcallA.validators, hcallA.sorted, ?_, rfl, hcallA.chainId, hcallA.verifier,
    hcallA.height, hcallA.blockHash, rfl, hcallB.blockHash, rfl, hcallA.epoch⟩
  rw [encodeProof, hpk]
  rfl

end Encode

/-- **Slashing evidence is adjudicated alike.** Let calldata stand for a proof, with the
members sorted, at the chain and address of the target. The reference accepts the proof
exactly if the contract accepts the calldata and the name of the accused is lower-case. There
is such calldata for every proof that the reference accepts. -/
theorem equivocation_parity {X : EvmExternals} {env : Env} (H : HexCodec X.toExternals)
    (P : SamePrimitives env X) {proof : EvmEquivocationProof} {set : ValidatorSet}
    {suite : String} {target : EvmTarget} (hsigner : X.signerFor suite = .ok X.mlDsa87)
    (hlen : set.validators.length ≤ maxValidators) (hheight : proof.height.isSafeInteger = true)
    (hepoch : (set.epoch.getD 0).isSafeInteger = true) :
    (∀ c, EncodesProof X proof set suite target c → c.chainId = env.chainid →
      c.verifier = env.self → CollisionFree (fun b => (env.keccak256 b).1) (accusedKeys c) →
      (verifyEvmEquivocationProof X proof set suite target = .ok true ↔
        isLowerHex proof.validator = true ∧
          FinalityVerifier.verifyEquivocation env c = .ok true)) ∧
    (verifyEvmEquivocationProof X proof set suite target = .ok true →
      ∃ c, EncodesProof X proof set suite target c) := by
  refine ⟨fun c h hchain hself hc => ?_, fun h => ?_⟩
  · exact h.verifyEquivocation_iff H P hsigner hlen hheight hepoch hchain hself hc
  · obtain ⟨-, msgA, msgB, verifier, hA, hB, -, he⟩ := verifyEvmEquivocationProof_eq_true_iff.mp h
    obtain ⟨ms, hms⟩ := members_of_message hA
    -- the accused is a member, so its name decodes
    obtain ⟨v, hv, hname⟩ := List.mem_map.mp (mem_of_stakeOf_pos he.stake)
    have hdecode := (decodeHex_eq_ok.mp (encodesValidator_of_mem hms hv).pubkey).2.2
    exact ⟨_, encodesProof_encodeProof H (hname ▸ hdecode) hA hB⟩

/-! ## A name with a capital -/

/-- Hex texts in lower case. -/
def lowered (s : String) : String := String.ofList (s.toList.map Char.toLower)

/-- The symbolic externals with a decoder that takes capitals. -/
def caselessExternals : EvmExternals :=
  { spellExternals with hexToBytes := fun s => spellExternals.hexToBytes (lowered s) }

theorem hexToBytes_caseless (s : String) :
    caselessExternals.hexToBytes s = spellExternals.hexToBytes (lowered s) := rfl

theorem bytesToHex_caseless (b : Bytes) :
    caselessExternals.bytesToHex b = spellExternals.bytesToHex b := rfl

theorem lowered_of_isLowerHex {s : String} (h : isLowerHex s = true) : lowered s = s := by
  have hchar : ∀ c ∈ s.toList, c.toLower = c := by
    intro c hc
    have hrange := List.all_eq_true.mp h c hc
    rw [Bool.or_eq_true, decide_eq_true_iff, decide_eq_true_iff] at hrange
    refine dif_neg fun ⟨hA, hZ⟩ => ?_
    -- the capitals come after the digits and before the letters
    rcases hrange with ⟨-, h9⟩ | ⟨ha, -⟩
    · exact absurd (UInt32.le_trans hA h9) (by decide)
    · exact absurd (UInt32.le_trans ha hZ) (by decide)
  rw [lowered, List.map_congr_left hchar, List.map_id', String.ofList_toList]

theorem hexCodec_caseless : HexCodec caselessExternals.toExternals where
  lower b := by
    rw [bytesToHex_caseless]
    exact hexCodec_spell.lower b
  length b := by
    rw [bytesToHex_caseless]
    exact hexCodec_spell.length b
  decode b := by
    rw [hexToBytes_caseless, bytesToHex_caseless, lowered_of_isLowerHex (hexCodec_spell.lower b)]
    exact hexCodec_spell.decode b
  encode s b hlower h := by
    rw [hexToBytes_caseless, lowered_of_isLowerHex hlower] at h
    rw [bytesToHex_caseless]
    exact hexCodec_spell.encode s b hlower h

theorem decodeHex_caseless (label : String) (b : Bytes) :
    decodeHex caselessExternals.toExternals label (hexText b) = .ok b :=
  hexCodec_caseless.decodeHex_bytesToHex label b

theorem samePrimitives_caseless : SamePrimitives trioEnv caselessExternals where
  hash := rfl
  verify pk msg sig := samePrimitives_trio.verify pk msg sig

/-- Two validators, one with a letter in the text of its key. -/
def letterSet : ValidatorSet := ⟨[⟨"01", 1, none⟩, ⟨"0a", 1, none⟩], none⟩

/-- What is signed for a block. -/
def letterMessage (block : UInt8) : Except JsError Bytes :=
  evmMessageOf caselessExternals letterSet "PS-5" 4 (trioHash block) trioTarget

/-- Evidence against that validator, under a name. -/
def letterProof (name : String) : EvmEquivocationProof :=
  ⟨name, 4, trioHash 8, trioHash 9, [10] ++ valueOr [] (letterMessage 8),
    [10] ++ valueOr [] (letterMessage 9)⟩

/-- The calldata for it. -/
def letterCall (name : String) : EquivocationCall :=
  encodeProof caselessExternals (letterProof name) letterSet "PS-5" trioTarget

theorem letterMessage_eq (block : UInt8) :
    letterMessage block = .ok (valueOr [] (letterMessage block)) := by
  obtain ⟨id, hid⟩ : ∃ id, evmSetId caselessExternals letterSet = .ok id :=
    Except.exists_of_isOk (by decide +kernel)
  obtain ⟨msg, hmsg⟩ : ∃ msg, letterMessage block = .ok msg :=
    ⟨_, Except.bind_ok hid (evmAttestMessage_eq_ok.mpr ⟨List.replicate 20 7,
      List.replicate 32 block, 4, 1, length_of_evmSetId hid,
      decodeHex_caseless "verifier" (List.replicate 20 7), List.length_replicate,
      decodeHex_caseless "blockHash" (List.replicate 32 block), List.length_replicate, rfl,
      by norm_num, rfl, by norm_num, rfl⟩)⟩
  rw [hmsg]
  rfl

theorem encodesProof_letter {name : String} (hname : caselessExternals.hexToBytes name = .ok [10]) :
    EncodesProof caselessExternals (letterProof name) letterSet "PS-5" trioTarget
      (letterCall name) :=
  encodesProof_encodeProof hexCodec_caseless hname (letterMessage_eq 8) (letterMessage_eq 9)

theorem letterCall_verifier (name : String) : (letterCall name).verifier = trioEnv.self := by
  have hbytes : hexBytes caselessExternals.toExternals trioTarget.verifier = List.replicate 20 7 :=
    hexBytes_of_decodeHex (decodeHex_caseless "verifier" (List.replicate 20 7))
  refine Subtype.ext ?_
  rw [letterCall, encodeProof, hbytes, fixedBytes_val List.length_replicate]
  rfl

theorem letterProof_accepted : verifyEvmEquivocationProof caselessExternals (letterProof "0a")
    letterSet "PS-5" trioTarget = .ok true := by
  have hkey : caselessExternals.hexToBytes "0a" = .ok [10] := by decide +kernel
  refine verifyEvmEquivocationProof_eq_true_iff.mpr ⟨by decide +kernel, _, _, _,
    letterMessage_eq 8, letterMessage_eq 9, rfl, rfl, rfl, rfl, by decide +kernel, ?_, ?_⟩
  · exact (samePrimitives_caseless.safeEvmVerify_eq hkey _ _).trans (decide_eq_true rfl)
  · exact (samePrimitives_caseless.safeEvmVerify_eq hkey _ _).trans (decide_eq_true rfl)

theorem collisionFree_letter : CollisionFree (fun b => (trioEnv.keccak256 b).1)
    (accusedKeys (letterCall "0a")) := by
  rw [CollisionFree]
  decide +kernel

/-- `equivocation_parity` for that evidence, under the lower-case name. -/
theorem equivocation_parity_letter :
    FinalityVerifier.verifyEquivocation trioEnv (letterCall "0a") = .ok true := by
  have hparity := (equivocation_parity hexCodec_caseless samePrimitives_caseless rfl
    (by decide +kernel) (by decide +kernel) (by decide +kernel)).1 _
    (@encodesProof_letter "0a" (by decide +kernel)) (by decide +kernel) (letterCall_verifier "0a")
    collisionFree_letter
  exact (hparity.mp letterProof_accepted).2

/-- **A name with a capital.** The decoder takes it, and the contract accepts the evidence;
the reference finds no stake under that text. -/
theorem capital_name_rejected :
    EncodesProof caselessExternals (letterProof "0A") letterSet "PS-5" trioTarget
      (letterCall "0A") ∧
    FinalityVerifier.verifyEquivocation trioEnv (letterCall "0A") = .ok true ∧
    verifyEvmEquivocationProof caselessExternals (letterProof "0A") letterSet "PS-5" trioTarget =
      .ok false := by
  have hkeys : caselessExternals.hexToBytes "0A" = .ok [10] ∧
      caselessExternals.hexToBytes "0a" = .ok [10] := by decide +kernel
  -- the two names make the same calldata
  have hsame : letterCall "0A" = letterCall "0a" := by
    rw [letterCall, letterCall, encodeProof, encodeProof, letterProof, letterProof, hkeys.1,
      hkeys.2]
  refine ⟨encodesProof_letter hkeys.1, ?_, by decide +kernel⟩
  rw [hsame]
  exact (((encodesProof_letter hkeys.2).verifyEquivocation_iff hexCodec_caseless
    samePrimitives_caseless rfl (by decide +kernel) (by decide +kernel) (by decide +kernel)
    (by decide +kernel) (letterCall_verifier "0a") collisionFree_letter).mp
      letterProof_accepted).2

end Nerion
