import Nerion.Counting
import Nerion.GossipPrune

/-!
# The pool of a gossip node and the finality check

`onAttestation` filters what comes in, and the loop of `verifyFinalized` filters what it
counts. The two are separate code, but what the pool holds for a hash is what the loop counts
for a block of that hash, of the node's suite, except for entries that were signed for another
height.

* `attestationsFor_length_le` — the pool is within the bound of the check;
* `finalizes_of_pool` — the pool finalizes what the same voters finalize;
* `pool_counted` — the stake the check reports is that of the validators in the pool.
-/

namespace Nerion

section Pool

variable {X : LedgerExternals} {C : GossipConfig} {n : GossipNode} {hash : String}

/-- The attestations for a hash are from different validators, all with stake. -/
theorem attestationsFor_validators (hsound : n.PoolSound X C) (hash : String) :
    ((n.attestationsFor hash).map (·.validator)).Nodup ∧
      ∀ a ∈ n.attestationsFor hash, 0 < stakeOf C.ledger.set a.validator := by
  constructor
  · rcases hby : n.attestations.get? hash with _ | byV
    · rw [GossipNode.attestationsFor, hby]
      exact List.nodup_nil
    · -- they are filed under their validators
      have hkeys : (n.attestationsFor hash).map (·.validator) = byV.keys := by
        rw [GossipNode.attestationsFor, hby]
        change (byV.entries.map Prod.snd).map (·.validator) = byV.entries.map Prod.fst
        rw [List.map_map]
        refine List.map_congr_left fun e he => ?_
        have hslot : n.slot hash e.1 = some e.2 :=
          GossipNode.slot_eq_some.mpr ⟨byV, hby, JsMap.mem_entries_iff.mp he⟩
        exact (hsound hash e.1 e.2 hslot).2.1
      rw [hkeys]
      exact byV.nodup
  · intro a ha
    obtain ⟨v, hv⟩ := GossipNode.mem_attestationsFor.mp ha
    obtain ⟨-, rfl, -, hstake, -⟩ := hsound hash v a hv
    exact hstake

/-- Attestations of different validators with stake are no more than the validators. -/
theorem length_le_of_nodup {set : ValidatorSet} {atts : List Attestation}
    (h : (atts.map (·.validator)).Nodup ∧ ∀ a ∈ atts, 0 < stakeOf set a.validator) :
    atts.length ≤ set.validators.length := by
  have hsub : atts.map (·.validator) ⊆ set.validators.map (·.pubkey) := by
    intro v hv
    obtain ⟨a, ha, rfl⟩ := List.mem_map.mp hv
    exact mem_of_stakeOf_pos (h.2 a ha)
  simpa only [List.length_map] using (List.subperm_of_subset h.1 hsub).length_le

/-- The pool has no more attestations of a hash than the finality check looks at. -/
theorem attestationsFor_length_le (hsound : n.PoolSound X C) :
    (n.attestationsFor hash).length ≤ maxAttestations C.ledger.set := by
  refine (length_le_of_nodup (attestationsFor_validators hsound hash)).trans
    (le_trans ?_ (le_max_left _ _))
  omega

/-- **The pool finalizes what the same voters finalize**: when it has, for each voter behind
a finalized block, an attestation of that block, the block finalizes with the pool's. -/
theorem finalizes_of_pool (hsound : n.PoolSound X C) {block : Block} {atts : List Attestation}
    {prev setId : String} {opts : VerifyOpts} {t : Tally}
    (hsuite : opts.expectedSuite = some C.ledger.suite)
    (hf : Finalizes X block atts C.ledger.set prev C.ledger.finalityNum C.ledger.finalityDen opts
      hash setId t)
    (hheld : ∀ a ∈ atts, attests block hash opts a = true →
      0 < stakeOf C.ledger.set a.validator → verifyAttestationSig X a C.ledger.set = .ok true →
      ∃ a', n.slot hash a.validator = some a' ∧ a'.height = a.height) :
    ∃ t', Finalizes X block (n.attestationsFor hash) C.ledger.set prev C.ledger.finalityNum
      C.ledger.finalityDen opts hash setId t' := by
  have hcount := (tallyAttestations_eq hf.setHash atts).symm.trans hf.tally
  -- every check returns, since what is in the pool has been checked
  obtain ⟨t', ht'⟩ : ∃ t', (finalityPoll X C.ledger.set block hash opts).count C.ledger.set
      (n.attestationsFor hash) = .ok t' := by
    refine exists_tally_eq_ok _ fun a ha _ => ?_
    obtain ⟨v, hv⟩ := GossipNode.mem_attestationsFor.mp ha
    exact ⟨true, (hsound hash v a hv).2.2.2.2⟩
  have hsupport : t.stake ≤ t'.stake := by
    have hun : (finalityPoll X C.ledger.set block hash opts).Unshadowed C.ledger.set
        (n.attestationsFor hash) := .of_nodup (attestationsFor_validators hsound hash).1
    rw [(Poll.count_stake_eq_iff ht').mpr hun]
    refine (Poll.count_stake_le hcount).trans (Poll.support_le fun v hstake hsup => ?_)
    obtain ⟨a, ha, hat, rfl, hsig⟩ := Poll.supports_iff.mp hsup
    obtain ⟨a', hslot, hheight⟩ := hheld a ha hat hstake hsig
    obtain ⟨hash', hval', hsuite', -, hsig'⟩ := hsound hash _ a' hslot
    obtain ⟨-, haheight, hasuite, haexpected⟩ := attests_iff.mp hat
    refine Poll.supports_iff.mpr ⟨a', GossipNode.mem_attestationsFor.mpr ⟨_, hslot⟩, ?_, hval',
      hsig'⟩
    refine attests_iff.mpr ⟨hash', hheight ▸ haheight, ?_, fun s hs => ?_⟩
    · rw [hsuite', ← hasuite]
      exact (haexpected _ hsuite).symm
    · rw [hsuite] at hs
      exact hsuite'.trans (Option.some.inj hs)
  have hden : 0 ≤ C.ledger.finalityDen.toInt := by
    obtain ⟨num, den, -, hd, -, -⟩ := exists_natCast_of_validThreshold hf.threshold
    rw [hd, JsNum.toInt_natCast]
    exact Int.natCast_nonneg den
  exact ⟨t', hf.hash, attestationsFor_length_le hsound, hf.setHash, hf.header, hf.leader,
    hf.proposer, (tallyAttestations_eq hf.setHash _).trans ht', hf.threshold, hf.wellFormed,
    hf.stake, hf.met.trans (mul_le_mul_of_nonneg_right hsupport hden)⟩

/-- The validators with an attestation for the hash that was signed for the height. -/
def GossipNode.voters (n : GossipNode) (hash : String) (height : JsNum) : Finset String :=
  (((n.attestationsFor hash).filter fun a => JsNum.strictEq a.height height).map
    (·.validator)).toFinset

/-- An entry of the pool is for a block of its hash unless its height is another one. -/
theorem attests_pooled (hsound : n.PoolSound X C) {block : Block} {opts : VerifyOpts}
    (hsuite : block.suite = C.ledger.suite)
    (hopts : ∀ s, opts.expectedSuite = some s → s = C.ledger.suite) {a : Attestation}
    (ha : a ∈ n.attestationsFor hash) :
    attests block hash opts a = true ↔ JsNum.strictEq a.height block.header.height = true := by
  obtain ⟨v, hv⟩ := GossipNode.mem_attestationsFor.mp ha
  obtain ⟨hhash, -, hasuite, -, -⟩ := hsound hash v a hv
  refine attests_iff.trans ⟨fun h => h.2.1, fun hheight => ⟨hhash, hheight, ?_, fun s hs => ?_⟩⟩
  · rw [hasuite, hsuite]
  · rw [hasuite, hopts s hs]

/-- **The loop counts the validators in the pool**, all of them. -/
theorem count_pool (hsound : n.PoolSound X C) {block : Block} {opts : VerifyOpts}
    (hsuite : block.suite = C.ledger.suite)
    (hopts : ∀ s, opts.expectedSuite = some s → s = C.ledger.suite) :
    ∃ t, (finalityPoll X C.ledger.set block hash opts).count C.ledger.set
        (n.attestationsFor hash) = .ok t ∧
      t.counted.toFinset = n.voters hash block.header.height := by
  have hchecked : ∀ a ∈ n.attestationsFor hash,
      verifyAttestationSig X a C.ledger.set = .ok true := fun a ha => by
    obtain ⟨v, hv⟩ := GossipNode.mem_attestationsFor.mp ha
    exact (hsound hash v a hv).2.2.2.2
  obtain ⟨hnodup, hstake⟩ := attestationsFor_validators hsound hash
  obtain ⟨t, ht⟩ : ∃ t, (finalityPoll X C.ledger.set block hash opts).count C.ledger.set
      (n.attestationsFor hash) = .ok t :=
    exists_tally_eq_ok _ fun a ha _ => ⟨true, hchecked a ha⟩
  refine ⟨t, ht, Finset.ext fun v => ?_⟩
  rw [List.mem_toFinset, GossipNode.voters, List.mem_toFinset, List.mem_map]
  constructor
  · intro hv
    obtain ⟨a, ha, hrel, hval, -⟩ := Poll.supports_iff.mp (Poll.supports_of_counted ht hv)
    exact ⟨a, List.mem_filter.mpr ⟨ha, (attests_pooled hsound hsuite hopts ha).mp hrel⟩, hval⟩
  · rintro ⟨a, ha, rfl⟩
    obtain ⟨ha, hheight⟩ := List.mem_filter.mp ha
    have hsup : (finalityPoll X C.ledger.set block hash opts).supports (n.attestationsFor hash)
        a.validator = true :=
      Poll.supports_iff.mpr ⟨a, ha, (attests_pooled hsound hsuite hopts ha).mpr hheight, rfl,
        hchecked a ha⟩
    -- one entry for each validator, so that none is hidden by an earlier one
    exact (Poll.mem_counted_iff ht).mpr ⟨hstake a ha,
      Poll.Unshadowed.of_nodup hnodup a.validator (hstake a ha) hsup⟩

end Pool

/-- **The pool holds what the finality check counts.** For a node between two messages and a
block of its suite, of its height or another one, what the node has pooled for the block is
within the bound of `verifyFinalized` and never makes it throw. The stake it reports is that of
the distinct validators with a pooled attestation for the block's hash and height, and its loop
counts every one of them. -/
theorem pool_counted {X : LedgerExternals} {C : GossipConfig} {n : GossipNode}
    (hn : NodeHistory X C (fun _ _ => True) n) {block : Block} {h : String}
    (hsuite : block.suite = C.ledger.suite) (hhash : blockHash X block.header = .ok h)
    (finalityNum finalityDen : JsNum) {opts : VerifyOpts}
    (hopts : ∀ s, opts.expectedSuite = some s → s = C.ledger.suite) :
    (n.attestationsFor h).length ≤ maxAttestations C.ledger.set ∧
    ((∃ v, verifyFinalized X block (n.attestationsFor h) C.ledger.set (headHash n.chain)
        finalityNum finalityDen opts = .ok v) ↔
      ∃ v, verifyFinalized X block [] C.ledger.set (headHash n.chain) finalityNum finalityDen
        opts = .ok v) ∧
    ∀ v, verifyFinalized X block (n.attestationsFor h) C.ledger.set (headHash n.chain)
        finalityNum finalityDen opts = .ok v →
      v.attestingStake = ∑ w ∈ n.voters h block.header.height, stakeOf C.ledger.set w ∧
      ∃ setId t, consensusSetId X C.ledger.set = .ok setId ∧
        tallyAttestations X block h setId C.ledger.set opts (n.attestationsFor h) = .ok t ∧
        v.attestingStake = t.stake ∧
        ∀ a ∈ n.attestationsFor h, JsNum.strictEq a.height block.header.height = true →
          a.validator ∈ t.counted := by
  have hbound := @attestationsFor_length_le X C n h hn.poolSound
  obtain ⟨t, ht, hcounted⟩ := @count_pool X C n h hn.poolSound block opts hsuite hopts
  refine ⟨hbound, ⟨?_, ?_⟩, fun v hv => ?_⟩
  · rintro ⟨v, hv⟩
    obtain ⟨h', setId, leader, proposer, -, hh', hid, hleader, hproposer, -⟩ :=
      (verifyFinalized_eq_ok hbound).mp hv
    exact ⟨_, (verifyFinalized_eq_ok (Nat.zero_le _)).mpr
      ⟨h', setId, leader, proposer, .zero, hh', hid, hleader, hproposer, rfl, rfl⟩⟩
  · rintro ⟨v, hv⟩
    obtain ⟨h', setId, leader, proposer, -, hh', hid, hleader, hproposer, -⟩ :=
      (verifyFinalized_eq_ok (Nat.zero_le _)).mp hv
    obtain rfl : h' = h := Except.ok.inj (hh'.symm.trans hhash)
    exact ⟨_, (verifyFinalized_eq_ok hbound).mpr ⟨h', setId, leader, proposer, t, hh', hid,
      hleader, hproposer, (tallyAttestations_eq hid _).trans ht, rfl⟩⟩
  · obtain ⟨h', setId, leader, proposer, t', hh', hid, -, -, ht', rfl⟩ :=
      (verifyFinalized_eq_ok hbound).mp hv
    obtain rfl : h' = h := Except.ok.inj (hh'.symm.trans hhash)
    have hcount := (tallyAttestations_eq hid _).symm.trans ht'
    obtain rfl : t = t' := Except.ok.inj (ht.symm.trans hcount)
    refine ⟨?_, setId, t, hid, ht', rfl, fun a ha hah => ?_⟩
    · rw [← hcounted]
      exact Poll.count_stake ht
    · rw [← List.mem_toFinset, hcounted, GossipNode.voters, List.mem_toFinset]
      exact List.mem_map_of_mem (List.mem_filter.mpr ⟨ha, hah⟩)

/-- A follower is sent an attestation of the block of its height, and another one for the same
hash that was signed for the next height. -/
def mislabelledPool : GossipNode :=
  (onMessage checksumExternals follower id (.attestation (mixedAttestation 1 "01" "b6" 1))
    (onMessage checksumExternals follower id (.attestation (mixedAttestation 0 "00" "b6" 0))
      .new).1).1

/-- `pool_counted` for that pool: both attestations are in it, and one counts. -/
theorem pool_counted_mislabelled :
    (mislabelledPool.attestationsFor "b6").map (·.validator) = ["00", "01"] ∧
    ∃ v, verifyFinalized checksumExternals pairBlock (mislabelledPool.attestationsFor "b6")
        mixedLedger.set (headHash mislabelledPool.chain) 2 3 .none = .ok v ∧
      v.attestingStake = ∑ w ∈ {"00"}, stakeOf mixedLedger.set w := by
  have hhistory : NodeHistory checksumExternals follower (fun _ _ => True) mislabelledPool := by
    rw [mislabelledPool]
    exact (Relation.ReflTransGen.single (.deliver id trivial)).tail (.deliver id trivial)
  have hhash : blockHash checksumExternals pairBlock.header = .ok "b6" := by decide +kernel
  have hvoters : mislabelledPool.voters "b6" pairBlock.header.height = {"00"} := by decide +kernel
  obtain ⟨-, hreturns, hcounts⟩ := @pool_counted checksumExternals follower mislabelledPool hhistory
    pairBlock "b6" rfl hhash 2 3 .none nofun
  obtain ⟨v, hv⟩ := hreturns.mpr (Except.exists_of_isOk (by decide +kernel))
  refine ⟨by decide +kernel, v, hv, ?_⟩
  rw [← hvoters]
  exact (hcounts v hv).1

end Nerion
