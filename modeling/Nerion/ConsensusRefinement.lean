import Nerion.Agreement
import Nerion.ConsensusSpec
import Nerion.Equivocation
import Nerion.GossipLiveness
import Nerion.GossipPool
import Mathlib.Data.Set.Finite.Lattice

/-!
# The gossip network implements the specification of finality

A state of the network is seen as a state of `NerionConsensus`: a validator has attested what
a node of its name has signed, and what a finalized block shows verified in its name.

* `gossip_refines_consensus` — every run of the network is a run of the specification, and a
  block that a node finalizes is one that the specification counts a quorum for. The
  specification asks for strictly more than two thirds and the ledger for two thirds, so the
  two agree unless the stake divides by three;
* `gossip_slashes_overlap` — when two nodes finalize different blocks at a height, what they
  keep with the blocks is evidence that removes the stake two quorums overlap in. No bound on
  the Byzantine stake is assumed;
* `no_honest_slashed` — no evidence that the network can put together removes an honest node.
-/

namespace Nerion

/-! ## Chains only grow -/

section Grow

variable {X : LedgerExternals} {C : GossipConfig} {src : GossipMessage → Prop}
  {n n' : GossipNode}

theorem NodeStep.chain_isPrefix (h : NodeStep X C src n n') : n.chain <+: n'.chain := by
  cases h with
  | finalize _ _ hsubmit =>
    obtain ⟨rfl, -⟩ := submit_eq_ok hsubmit
    exact List.prefix_append _ _
  | observe _ _ =>
    rw [GossipNode.observe]
    split <;> exact List.prefix_rfl
  | _ => exact List.prefix_rfl

theorem NodeRun.chain_isPrefix (h : NodeRun X C src n n') : n.chain <+: n'.chain :=
  h.preserves (P := fun m => n.chain <+: m.chain) (fun hstep hle => hle.trans hstep.chain_isPrefix)
    List.prefix_rfl

end Grow

theorem Finalizes.den_nonneg {X : LedgerExternals} {block : Block} {atts : List Attestation}
    {set : ValidatorSet} {prev h setId : String} {num den : JsNum} {opts : VerifyOpts} {t : Tally}
    (hf : Finalizes X block atts set prev num den opts h setId t) : 0 ≤ den.toInt := by
  obtain ⟨_, d, -, rfl, -, -⟩ := exists_natCast_of_validThreshold hf.threshold
  rw [JsNum.toInt_natCast]
  exact Int.natCast_nonneg d

/-! ## What a state of the network is in the specification -/

section Mapping

variable (X : LedgerExternals) (L : LedgerConfig) {ι : Type} (keys : ι → KeyPair)

/-- The constants: the validators of the set, and as Byzantine those that no node runs. -/
def consensus [Fintype ι] : Consensus String where
  validators := L.set.pubkeys
  stake v := (stakeOf L.set v).toNat
  byzantine := byzantine X L keys
  byzantine_subset := Finset.filter_subset _ _

/-- A block that a node finalized at height `k` comes with a verified attestation of `v`. -/
def Shown (s : ι → GossipNode) (k : JsNum) (v hash : String) : Prop :=
  ∃ i, ∃ m : ℕ, ∃ fb, (s i).chain[m]? = some fb ∧ k = m ∧ fb.hash = hash ∧
    ∃ a ∈ fb.attestations, a.validator = v ∧ a.height = k ∧ a.blockHash = hash ∧
      verifyAttestationSig X a L.set = .ok true

/-- What each validator has attested. -/
def shownBy (s : ι → GossipNode) (v : String) : Set (JsNum × String) :=
  {p | v ∈ L.set.pubkeys ∧ (Voted X L keys s p.1 v p.2 ∨ Shown X L s p.1 v p.2)}

variable {X L keys} {s s' : ι → GossipNode}

/-- A step takes back no attestation and no finalized block. -/
theorem grows_of_step [DecidableEq ι] (h : (gossipNetwork X L keys).Step s s') (i : ι) :
    (s i).signed ⊆ (s' i).signed ∧ (s i).chain <+: (s' i).chain := by
  obtain ⟨j, hmove⟩ := h
  by_cases hij : i = j
  · subst hij
    rw [Function.update_self]
    exact ⟨hmove.run.signed_subset, hmove.run.chain_isPrefix⟩
  · rw [Function.update_of_ne hij]
    exact ⟨List.Subset.refl _, List.prefix_rfl⟩

theorem shownBy_mono (hsigned : ∀ i, (s i).signed ⊆ (s' i).signed)
    (hchain : ∀ i, (s i).chain <+: (s' i).chain) (v : String) :
    shownBy X L keys s v ⊆ shownBy X L keys s' v := by
  rintro ⟨k, hash⟩ ⟨hv, h⟩
  refine ⟨hv, h.imp ?_ ?_⟩
  · rintro ⟨l, hl, own, hown, hk⟩
    exact ⟨l, hl, own, hsigned l hown, hk⟩
  · rintro ⟨i, m, fb, hfb, hrest⟩
    obtain ⟨hm, rfl⟩ := List.getElem?_eq_some_iff.mp hfb
    exact ⟨i, m, _, List.prefix_iff_getElem?.mp (hchain i) m hm, hrest⟩

/-- Finitely much has been attested. -/
theorem shownBy_finite [Fintype ι] (s : ι → GossipNode) :
    {p : String × JsNum × String | p.2 ∈ shownBy X L keys s p.1}.Finite := by
  let vote (a : Attestation) : String × JsNum × String := (a.validator, a.height, a.blockHash)
  let signed (i : ι) : List (String × JsNum × String) :=
    (s i).signed.map fun a => (nodeId X L keys i, a.height, a.blockHash)
  let shown (i : ι) : List (String × JsNum × String) :=
    ((s i).chain.flatMap (·.attestations)).map vote
  refine Set.Finite.subset (Set.finite_iUnion fun i => (signed i ++ shown i).finite_toSet) ?_
  rintro ⟨v, k, hash⟩ ⟨-, ⟨l, rfl, own, hown, rfl, rfl⟩ | ⟨i, m, fb, hfb, -, -, a, ha, rfl, rfl,
    rfl, -⟩⟩
  · refine Set.mem_iUnion.mpr ⟨l, List.mem_append_left _ ?_⟩
    exact List.mem_map.mpr ⟨own, hown, rfl⟩
  · refine Set.mem_iUnion.mpr ⟨i, List.mem_append_right _ ?_⟩
    exact List.mem_map.mpr ⟨a, List.mem_flatMap.mpr ⟨fb, List.mem_of_getElem? hfb, ha⟩, rfl⟩

section Refinement

variable [DecidableEq ι] [Fintype ι] (hkeys : Function.Injective (nodeId X L keys))
  (hmsg : AttestMessageInjective X) (hs : (gossipNetwork X L keys).Reachable s)

include hkeys hmsg hs

/-- What a finalized block shows in the name of a node, the node has signed. -/
theorem Shown.voted {k : JsNum} {v hash : String} (hv : v ∈ L.set.pubkeys)
    (hhon : v ∉ byzantine X L keys) (h : Shown X L s k v hash) : Voted X L keys s k v hash := by
  obtain ⟨i, m, fb, hfb, -, -, a, ha, rfl, rfl, rfl, hsig⟩ := h
  obtain ⟨l, hl⟩ : ∃ l, nodeId X L keys l = a.validator := by
    by_contra hnone
    exact hhon (Finset.mem_filter.mpr ⟨hv, not_exists.mp hnone⟩)
  exact voted_of_sourced hkeys hmsg hs ((certified_of_reachable hs hfb).sourced a ha) hl.symm hsig

/-- A validator that a node runs has attested one block per height. -/
theorem shownBy_once {v : String} (hhon : v ∉ byzantine X L keys) {k : JsNum}
    {hash hash' : String} (h : (k, hash) ∈ shownBy X L keys s v)
    (h' : (k, hash') ∈ shownBy X L keys s v) : hash = hash' := by
  have hvoted : ∀ {hash : String}, (k, hash) ∈ shownBy X L keys s v →
      Voted X L keys s k v hash := by
    rintro hash ⟨hv, hvote | hshown⟩
    · exact hvote
    · exact hshown.voted hkeys hmsg hs hv hhon
  exact Voted.once hkeys hs (hvoted h) (hvoted h')

/-- **A step of the network is a run of the specification.** -/
theorem shownBy_step (hstep : (gossipNetwork X L keys).Step s s') :
    Relation.ReflTransGen (consensus X L keys).Attest (shownBy X L keys s)
      (shownBy X L keys s') := by
  have hs' : (gossipNetwork X L keys).Reachable s' := hs.tail hstep
  have hgrow := grows_of_step hstep
  exact Consensus.steps_of_extends
    (shownBy_mono (fun i => (hgrow i).1) fun i => (hgrow i).2) (shownBy_finite s')
    (fun _ _ hp => hp.1) fun v hv k b₁ b₂ => shownBy_once hkeys hmsg hs' hv

omit hkeys hmsg in
/-- **A block that a node finalizes has a quorum in the specification.** -/
theorem quorumAt_of_finalized {i : ι} {k : ℕ} {fb : FinalizedBlock}
    (hi : (s i).chain[k]? = some fb) :
    (consensus X L keys).QuorumAt (shownBy X L keys s) L.finalityNum.toInt
      L.finalityDen.toInt (k : JsNum) fb.hash := by
  obtain ⟨setId, t, hf⟩ := (certified_of_reachable hs hi).finalizes
  -- the attestations that came with the block are what the specification has on record
  have hcert : Certified X L (· ∈ fb.attestations) (s i).chain k fb :=
    ⟨fun _ ha => ha, setId, t, hf⟩
  obtain ⟨A, hA, hatt⟩ := hcert.quorum
  have hweight : (fun v => (((consensus X L keys).stake v : ℕ) : ℤ)) = stakeOf L.set :=
    funext fun v => Int.toNat_of_nonneg (stakeOf_nonneg L.set v)
  rw [Consensus.QuorumAt, hweight]
  refine hA.superset (stakeOf_nonneg L.set) hf.den_nonneg (fun v hv => ?_)
    fun v hv => (Consensus.mem_attestors.mp hv).1
  obtain ⟨a, ha, hval, hheight, hhash, hsig⟩ := hatt v hv
  exact Consensus.mem_attestors.mpr ⟨hA.subset hv, hA.subset hv, .inr ⟨i, k, fb, hi, rfl, rfl, a,
    ha, hval, hheight, hhash, hsig⟩⟩

omit hs in
/-- The network starts where the specification starts, and takes its steps. -/
theorem refines_consensus :
    Refines (gossipNetwork X L keys).system ((consensus X L keys).spec JsNum String)
      (shownBy X L keys) := by
  refine ⟨?_, fun s s' hs hstep => ?_⟩
  · rintro _ rfl
    funext v
    refine Set.eq_empty_iff_forall_notMem.mpr ?_
    rintro p ⟨-, ⟨l, -, own, hown, -⟩ | ⟨i, m, fb, hfb, -⟩⟩
    · exact absurd hown List.not_mem_nil
    · cases hfb
  · exact shownBy_step hkeys hmsg (Network.reachable_system.mp hs) hstep

end Refinement

end Mapping

/-! ## Evidence -/

section Evidence

variable {X : LedgerExternals} {L : LedgerConfig} {a : Attestation} {set : ValidatorSet}

/-- The check of the verifier and that of the evidence agree on a name that both decode alike. -/
theorem verifyAttestationSig_iff_safeVerifyAtt
    (hhex : X.hexToBytes a.validator = .ok (hexToBytesLocal a.validator)) :
    verifyAttestationSig X a set = .ok true ↔
      ∃ setId, consensusSetId X set = .ok setId ∧ safeVerifyAtt X a setId = true := by
  simp only [safeVerifyAtt_iff]
  constructor
  · intro h
    obtain ⟨setId, hid, h⟩ := Except.bind_eq_ok h
    obtain ⟨msg, hmsg, h⟩ := Except.bind_eq_ok h
    have hsafe : safeVerify X a.suite a.sig msg (hexToBytesLocal a.validator) = true :=
      Except.ok.inj h
    rw [safeVerify] at hsafe
    split at hsafe
    · rename_i valid hok
      obtain ⟨signer, hsigner, hok⟩ := Except.bind_eq_ok hok
      exact ⟨setId, hid, signer, msg, _, hsigner, hmsg, hhex, hsafe ▸ hok⟩
    · cases hsafe
  · rintro ⟨setId, hid, signer, msg, pub, hsigner, hmsg, hpub, hverify⟩
    cases hhex.symm.trans hpub
    refine Except.bind_ok hid (Except.bind_ok hmsg ?_)
    have hok : ((X.signerFor a.suite).bind fun signer =>
        signer.verify a.sig msg (hexToBytesLocal a.validator)) = .ok true :=
      Except.bind_ok hsigner hverify
    rw [safeVerify, hok]

variable {atts : List Attestation}

/-- One attestation per validator: a search by validator finds it. -/
theorem firstAttestation_of_nodup (hnodup : (atts.map (·.validator)).Nodup) (ha : a ∈ atts) :
    firstAttestation a.blockHash atts a.validator = some a := by
  have hsome : (firstAttestation a.blockHash atts a.validator).isSome = true :=
    List.find?_isSome.mpr ⟨a, ha, by simp⟩
  obtain ⟨b, hb⟩ := Option.isSome_iff_exists.mp hsome
  obtain ⟨hmem, -, hval⟩ := firstAttestation_eq_some hb
  exact hb.trans (congrArg some (List.inj_on_of_nodup_map hnodup hmem ha hval))

theorem lastAttestation_of_nodup (hnodup : (atts.map (·.validator)).Nodup) (ha : a ∈ atts) :
    lastAttestation a.blockHash atts a.validator = some a := by
  refine firstAttestation_of_nodup ?_ (List.mem_reverse.mpr ha)
  rw [List.map_reverse]
  exact List.nodup_reverse.mpr hnodup

/-- A verified attestation is evidence at its height. -/
theorem validFor_of_verified {height : JsNum}
    (hhex : X.hexToBytes a.validator = .ok (hexToBytesLocal a.validator))
    (hheight : JsNum.strictEq height a.height = true)
    (hsig : verifyAttestationSig X a set = .ok true) : validFor X set height a = true := by
  obtain ⟨setId, hid, hsafe⟩ := (verifyAttestationSig_iff_safeVerifyAtt hhex).mp hsig
  rw [validFor, hheight, hid]
  exact hsafe

/-- Where there is one attestation per validator, the detector picks the one that was counted. -/
theorem Finalizes.picked {block : Block} {prev h setId : String} {num den : JsNum}
    {opts : VerifyOpts} {t : Tally} (hf : Finalizes X block atts set prev num den opts h setId t)
    (hnodup : (atts.map (·.validator)).Nodup)
    (hhex : ∀ v ∈ set.pubkeys, X.hexToBytes v = .ok (hexToBytesLocal v)) {v : String}
    (hv : v ∈ t.counted) :
    ∃ a, lastAttestation h atts v = some a ∧ firstAttestation h atts v = some a ∧
      validFor X set block.header.height a = true := by
  obtain ⟨a, ha, rfl, hat, hsig⟩ := hf.attested hv
  obtain ⟨rfl, hheight, -, -⟩ := attests_iff.mp hat
  have hmem : a.validator ∈ set.pubkeys := hf.isQuorum.subset (List.mem_toFinset.mpr hv)
  obtain ⟨hnan, heq⟩ := JsNum.strictEq_iff.mp hheight
  exact ⟨a, lastAttestation_of_nodup hnodup ha, firstAttestation_of_nodup hnodup ha,
    validFor_of_verified (hhex _ hmem) (JsNum.strictEq_iff.mpr ⟨hf.height_ne_nan, heq.symm⟩) hsig⟩

end Evidence

/-! ## What a node keeps with its blocks -/

section Kept

variable {X : LedgerExternals} {C : GossipConfig} {src : GossipMessage → Prop}
  {n n' : GossipNode}

/-- Each finalized block comes with one attestation per validator, all with stake. -/
def GossipNode.OneEach (C : GossipConfig) (n : GossipNode) : Prop :=
  ∀ fb ∈ n.chain, (fb.attestations.map (·.validator)).Nodup ∧
    ∀ a ∈ fb.attestations, 0 < stakeOf C.ledger.set a.validator

theorem NodeStep.oneEach (h : NodeStep X C src n n') (hpool : n.PoolSound X C)
    (hn : n.OneEach C) : n'.OneEach C := by
  cases h with
  | @finalize hash _ _ _ _ _ hsubmit =>
    obtain ⟨rfl, -, hatts, -⟩ := submit_eq_ok hsubmit
    intro fb hfb
    rcases List.mem_append.mp hfb with hfb | hfb
    · exact hn fb hfb
    · obtain rfl := List.mem_singleton.mp hfb
      rw [hatts]
      exact attestationsFor_validators hpool hash
  | observe _ _ =>
    rw [GossipNode.observe]
    split <;> exact hn
  | _ => exact hn

/-- What each node of the network keeps. -/
theorem oneEach_local {L : LedgerConfig} {ι : Type} {keys : ι → KeyPair} [DecidableEq ι] :
    (gossipNetwork X L keys).LocalInvariant fun i _ n =>
      n.PoolSound X (nodeConfig L keys i) ∧ n.OneEach (nodeConfig L keys i) where
  init i := by
    refine ⟨fun hash v a ha => ?_, fun fb hfb => absurd hfb List.not_mem_nil⟩
    cases ha
  mono _ hn := hn
  move := by
    intro i src n n' hmove hn
    refine hmove.run.preserves (P := fun m => m.PoolSound X (nodeConfig L keys i) ∧
      m.OneEach (nodeConfig L keys i)) (fun hstep hm => ?_) hn
    exact ⟨hstep.poolSound hm.1, hstep.oneEach hm.1 hm.2⟩
  grow := nodeInvariant_local.grow

end Kept

/-! ## Two followers of a validator that equivocates -/

/-- Two followers without stake. -/
def forkKeys (second : Bool) : KeyPair := if second then ⟨[2], [2]⟩ else ⟨[1], [1]⟩

/-- The validator's block for each of the two. -/
def forkBlock (second : Bool) : Block :=
  if second then
    { pairBlock with
      header := { pairBlock.header with payloadRoot := "01" }
      proposerSig := [0] ++ valueOr [] (blockSignMessage checksumExternals "PS-5" "b7") }
  else pairBlock

/-- The validator's attestation of `forkBlock`. -/
def forkAttestation (second : Bool) : Attestation :=
  if second then
    { pairAttestation with
      blockHash := "b7"
      sig := [0] ++ valueOr [] (attestMessage checksumExternals "PS-5" 0 "b7"
        (valueOr "" (consensusSetId checksumExternals pairLedger.set))) }
  else pairAttestation

/-- A follower that got its block and its attestation. -/
def forkNode (second : Bool) : GossipNode :=
  deliverAll checksumExternals (nodeConfig pairLedger forkKeys second)
    [(id, .block (forkBlock second)), (id, .attestation (forkAttestation second))] .new

/-- The validator is none of the nodes: the network has whatever it likes in its name. -/
theorem authentic_fork (s : Bool → GossipNode) (second : Bool) :
    Authentic checksumExternals pairLedger forkKeys s (forkAttestation second) := by
  intro i hval
  exact absurd hval (by revert i second; decide +kernel)

/-- A node is handed messages that the network has in any state. -/
theorem reachable_deliverAll {X : LedgerExternals} {L : LedgerConfig} {ι : Type}
    {keys : ι → KeyPair} [DecidableEq ι] (i : ι) {ms : List ((Bytes → Bytes) × GossipMessage)}
    (hms : ∀ m ∈ ms, ∀ s, Available X L keys s m.2) {s : ι → GossipNode}
    (hs : (gossipNetwork X L keys).Reachable s) :
    (gossipNetwork X L keys).Reachable
      (Function.update s i (deliverAll X (nodeConfig L keys i) ms (s i))) := by
  induction ms generalizing s with
  | nil =>
    rw [deliverAll, Function.update_eq_self]
    exact hs
  | cons m ms ih =>
    have hstep : (gossipNetwork X L keys).Step s
        (Function.update s i (onMessage X (nodeConfig L keys i) m.1 m.2 (s i)).1) :=
      .move i (.deliver m.1 (hms m List.mem_cons_self s))
    have hrest := ih (fun m' hm' => hms m' (List.mem_cons_of_mem _ hm')) (hs.tail hstep)
    rw [Function.update_self, Function.update_idem] at hrest
    exact hrest

theorem forkNode_reachable :
    (gossipNetwork checksumExternals pairLedger forkKeys).Reachable forkNode := by
  have hms : ∀ second : Bool, ∀ m ∈ [((id : Bytes → Bytes), GossipMessage.block (forkBlock second)),
      (id, .attestation (forkAttestation second))], ∀ s,
      Available checksumExternals pairLedger forkKeys s m.2 := by
    intro second m hm s
    rcases List.mem_pair.mp hm with rfl | rfl
    · trivial
    · exact authentic_fork s second
  have hnew : (gossipNetwork checksumExternals pairLedger forkKeys).Reachable
    (gossipNetwork checksumExternals pairLedger forkKeys).init := .refl
  have hboth := reachable_deliverAll true (hms true) (reachable_deliverAll false (hms false) hnew)
  convert hboth using 1
  funext second
  cases second with
  | false =>
    rw [Function.update_of_ne Bool.false_ne_true, Function.update_self]
    rfl
  | true =>
    rw [Function.update_self, Function.update_of_ne Bool.false_ne_true.symm]
    rfl

/-- The followers have finalized different blocks. -/
theorem forkNode_chains : ∃ fb fb', (forkNode false).chain[0]? = some fb ∧
    (forkNode true).chain[0]? = some fb' ∧ fb.hash ≠ fb'.hash := by
  have hhashes : ((forkNode false).chain.map (·.hash))[0]? = some "b6" ∧
      ((forkNode true).chain.map (·.hash))[0]? = some "b7" := by decide +kernel
  rw [List.getElem?_map, List.getElem?_map] at hhashes
  obtain ⟨fb, hfst, hb⟩ := Option.map_eq_some_iff.mp hhashes.1
  obtain ⟨fb', hsnd, hb'⟩ := Option.map_eq_some_iff.mp hhashes.2
  refine ⟨fb, fb', hfst, hsnd, ?_⟩
  rw [hb, hb']
  decide

theorem pairLedger_fraction :
    2 * pairLedger.finalityNum.toInt - pairLedger.finalityDen.toInt = 1 ∧
      pairLedger.finalityDen.toInt = 3 := by decide

/-! ## The results -/

/-- **The gossip network implements `NerionConsensus`.** Seen through `shownBy`, the network
starts in the initial state of the specification and each of its steps is a run of it. A block
that a node finalizes has in the specification at least the stake the ledger asks for; at two
thirds, with a total stake that does not divide by three, it is `Finalized` there. So the
specification accounts for a fork of the network: its `Equivocators` are all Byzantine and
hold the stake that two quorums overlap in. -/
theorem gossip_refines_consensus {X : LedgerExternals} {L : LedgerConfig} {ι : Type}
    {keys : ι → KeyPair} [Fintype ι] [DecidableEq ι]
    (hkeys : Function.Injective (nodeId X L keys)) (hmsg : AttestMessageInjective X) :
    Refines (gossipNetwork X L keys).system ((consensus X L keys).spec JsNum String)
        (shownBy X L keys) ∧
      (∀ s, (gossipNetwork X L keys).Reachable s → ∀ (i : ι) (k : ℕ) (fb : FinalizedBlock),
        (s i).chain[k]? = some fb →
          (consensus X L keys).QuorumAt (shownBy X L keys s) L.finalityNum.toInt
              L.finalityDen.toInt (k : JsNum) fb.hash ∧
            (L.finalityNum = 2 → L.finalityDen = 3 → ¬ 3 ∣ (consensus X L keys).totalStake →
              (consensus X L keys).Finalized (shownBy X L keys s) (k : JsNum) fb.hash)) ∧
      ∀ s, (gossipNetwork X L keys).Reachable s → ∀ (i j : ι) (k : ℕ) (fb fb' : FinalizedBlock),
        (s i).chain[k]? = some fb → (s j).chain[k]? = some fb' → fb.hash ≠ fb'.hash →
          (consensus X L keys).equivocators (shownBy X L keys s) ⊆ byzantine X L keys ∧
            (2 * L.finalityNum.toInt - L.finalityDen.toInt) * (consensus X L keys).totalStake ≤
              L.finalityDen.toInt * (consensus X L keys).sumStake
                ((consensus X L keys).equivocators (shownBy X L keys s)) := by
  have hrefines := refines_consensus hkeys hmsg
  refine ⟨hrefines, fun s hs i k fb hi => ?_, fun s hs i j k fb fb' hi hj hne => ?_⟩
  · have hquorum := quorumAt_of_finalized hs hi
    refine ⟨hquorum, fun hnum hden hdvd => ?_⟩
    rw [hnum, hden] at hquorum
    exact hquorum.finalized hdvd
  · obtain ⟨_, _, hf⟩ := (certified_of_reachable hs hi).finalizes
    have hspec := hrefines.reachable (Network.reachable_system.mpr hs)
    exact ⟨Consensus.equivocators_subset hspec, Consensus.accountable hf.den_nonneg hne
      (quorumAt_of_finalized hs hi) (quorumAt_of_finalized hs hj)⟩

/-- `gossip_refines_consensus` where the validator has shown each follower another block. -/
theorem gossip_refines_consensus_fork :
    Refines (gossipNetwork checksumExternals pairLedger forkKeys).system
        ((consensus checksumExternals pairLedger forkKeys).spec JsNum String)
        (shownBy checksumExternals pairLedger forkKeys) ∧
      (consensus checksumExternals pairLedger forkKeys).totalStake ≤
        3 * (consensus checksumExternals pairLedger forkKeys).sumStake
          ((consensus checksumExternals pairLedger forkKeys).equivocators
            (shownBy checksumExternals pairLedger forkKeys forkNode)) := by
  obtain ⟨hrefines, -, hfork⟩ := @gossip_refines_consensus checksumExternals pairLedger Bool
    forkKeys _ _ (by decide +kernel) attestMessageInjective_checksum
  obtain ⟨fb, fb', hfst, hsnd, hne⟩ := forkNode_chains
  obtain ⟨-, hle⟩ := hfork forkNode forkNode_reachable false true 0 fb fb' hfst hsnd hne
  rw [pairLedger_fraction.1, pairLedger_fraction.2, one_mul] at hle
  exact ⟨hrefines, mod_cast hle⟩

/-- **Evidence against a third of the stake is at hand whenever two nodes disagree.** Whatever
the network does and however much stake is Byzantine: when two nodes have finalized different
blocks at a height, the attestations they keep with the blocks are proofs for the detector on
which `slash` removes at least the stake that two quorums overlap in, a third of the total for
a threshold of two thirds. The names of the validators have to be hex, and there are no more
than the detector reads. -/
theorem gossip_slashes_overlap {X : LedgerExternals} {L : LedgerConfig} {ι : Type}
    {keys : ι → KeyPair} [DecidableEq ι]
    (hhex : ∀ v ∈ L.set.pubkeys, X.hexToBytes v = .ok (hexToBytesLocal v))
    (hsize : L.set.validators.length ≤ maxAttestationsPerSide)
    {s : ι → GossipNode} (hs : (gossipNetwork X L keys).Reachable s) {i j : ι} {k : ℕ}
    {fb fb' : FinalizedBlock} (hi : (s i).chain[k]? = some fb) (hj : (s j).chain[k]? = some fb')
    (hne : fb.hash ≠ fb'.hash) :
    ∃ proofs, detectEquivocations X fb.block fb.attestations fb'.block fb'.attestations =
        .ok proofs ∧
      (2 * L.finalityNum.toInt - L.finalityDen.toInt) * totalStake L.set ≤
        L.finalityDen.toInt *
          (totalStake L.set - totalStake (slash X L.set (proofs.map some)).set) := by
  obtain ⟨idA, tA, hfA⟩ := (certified_of_reachable hs hi).finalizes
  obtain ⟨idB, tB, hfB⟩ := (certified_of_reachable hs hj).finalizes
  have honeA := (oneEach_local.of_reachable hs i).2
  have honeB := (oneEach_local.of_reachable hs j).2
  have hmemA := List.mem_of_getElem? hi
  have hmemB := List.mem_of_getElem? hj
  have hheight : fb.block.header.height = fb'.block.header.height :=
    (hfA.height_eq rfl).trans (hfB.height_eq rfl).symm
  obtain ⟨proofs, hdetect, hremoved⟩ := slash_detected_stake hfA.wellFormed
    ((length_le_of_nodup (honeA fb hmemA)).trans hsize)
    ((length_le_of_nodup (honeB fb' hmemB)).trans hsize)
    (JsNum.strictEq_iff.mpr ⟨hfA.height_ne_nan, hheight⟩) hfA.hash hfB.hash hne
  refine ⟨proofs, hdetect, ?_⟩
  rw [hremoved, ← ValidatorSet.sum_stakeOf hfA.wellFormed.nodup]
  have hinter := hfA.isQuorum.inter_weight (stakeOf_nonneg L.set) hfA.den_nonneg hfB.isQuorum
  refine hinter.trans (mul_le_mul_of_nonneg_left ?_ hfA.den_nonneg)
  -- the validators counted for both blocks are exposed
  refine ValidatorSet.sum_le_stakeHeld hfA.wellFormed.nodup
    (Finset.inter_subset_left.trans hfA.isQuorum.subset) fun v hv => ?_
  obtain ⟨hvA, hvB⟩ := Finset.mem_inter.mp hv
  obtain ⟨a, hlast, -, hvalidA⟩ :=
    hfA.picked (honeA fb hmemA).1 hhex (List.mem_toFinset.mp hvA)
  obtain ⟨b, -, hfirst, hvalidB⟩ :=
    hfB.picked (honeB fb' hmemB).1 hhex (List.mem_toFinset.mp hvB)
  rw [exposed, hlast, hfirst, Option.any_some, Option.any_some, hvalidA, hheight, hvalidB]
  rfl

/-- `gossip_slashes_overlap` where the validator has shown each follower another block. -/
theorem gossip_slashes_overlap_fork :
    ∃ fb fb' proofs, (forkNode false).chain[0]? = some fb ∧ (forkNode true).chain[0]? = some fb' ∧
      detectEquivocations checksumExternals fb.block fb.attestations fb'.block fb'.attestations =
        .ok proofs ∧
      totalStake pairLedger.set ≤ 3 * (totalStake pairLedger.set -
        totalStake (slash checksumExternals pairLedger.set (proofs.map some)).set) := by
  obtain ⟨fb, fb', hfst, hsnd, hne⟩ := forkNode_chains
  obtain ⟨proofs, hdetect, hle⟩ := gossip_slashes_overlap (by decide +kernel) (by decide)
    forkNode_reachable hfst hsnd hne
  rw [pairLedger_fraction.1, pairLedger_fraction.2, one_mul] at hle
  exact ⟨fb, fb', proofs, hfst, hsnd, hdetect, hle⟩

/-- **No honest node is slashed.** Whatever proofs are put together from attestations the
network can have, with any heights, hashes and accused: none of the nodes is removed. -/
theorem no_honest_slashed {X : LedgerExternals} {L : LedgerConfig} {ι : Type}
    {keys : ι → KeyPair} [DecidableEq ι]
    (hmsg : AttestMessageInjective X)
    (hhex : ∀ v ∈ L.set.pubkeys, X.hexToBytes v = .ok (hexToBytesLocal v))
    {s : ι → GossipNode} (hs : (gossipNetwork X L keys).Reachable s)
    {proofs : List (Option EquivocationProof)}
    (hproofs : ∀ p, some p ∈ proofs → Authentic X L keys s p.attA ∧ Authentic X L keys s p.attB)
    (l : ι) : nodeId X L keys l ∉ (slash X L.set proofs).slashed := by
  intro hmem
  by_cases hlen : proofs.length ≤ maxProofsPerSlash
  · obtain ⟨p, hp, hval, hver⟩ := (mem_slashed_iff hlen).mp hmem
    obtain ⟨hne, hvalA, hvalB, hhashA, hhashB, hheights, -, hstake, setId, hid, hsigA, hsigB⟩ :=
      verifyEquivocationProof_iff.mp hver
    have hmemv : p.validator ∈ L.set.pubkeys := List.mem_toFinset.mpr (mem_of_stakeOf_pos hstake)
    have hhexv := hhex _ hmemv
    obtain ⟨hauthA, hauthB⟩ := hproofs p hp
    have hverA : verifyAttestationSig X p.attA L.set = .ok true :=
      (verifyAttestationSig_iff_safeVerifyAtt (hvalA.symm ▸ hhexv)).mpr ⟨setId, hid, hsigA⟩
    have hverB : verifyAttestationSig X p.attB L.set = .ok true :=
      (verifyAttestationSig_iff_safeVerifyAtt (hvalB.symm ▸ hhexv)).mpr ⟨setId, hid, hsigB⟩
    -- the node signed both messages, at one height
    have hl := nodeInvariant_local.of_reachable hs l
    obtain ⟨a, ha, haheight, hahash⟩ := hauthA.signed hmsg hl.hashed (hvalA.trans hval) hverA
    obtain ⟨b, hb, hbheight, hbhash⟩ := hauthB.signed hmsg hl.hashed (hvalB.trans hval) hverB
    have hsame := hl.votes.once a ha b hb
      (haheight.trans ((JsNum.strictEq_iff.mp hheights).2.trans hbheight.symm))
    exact hne ((hhashA.symm.trans (hahash.symm.trans hsame)).trans (hbhash.trans hhashB))
  · rw [slash, if_pos (not_le.mp hlen)] at hmem
    exact absurd hmem List.not_mem_nil

/-- `no_honest_slashed` where both attestations of the validator accuse a follower. -/
theorem no_honest_slashed_fork :
    nodeId checksumExternals pairLedger forkKeys false ∉
      (slash checksumExternals pairLedger.set
        [some ⟨nodeId checksumExternals pairLedger forkKeys false, 0, "b6", "b7",
          forkAttestation false, forkAttestation true⟩]).slashed := by
  refine no_honest_slashed attestMessageInjective_checksum (by decide +kernel) forkNode_reachable
    (fun p hp => ?_) false
  cases List.mem_singleton.mp hp
  exact ⟨authentic_fork _ false, authentic_fork _ true⟩

end Nerion
