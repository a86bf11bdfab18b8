import Nerion.GossipSteps
import Nerion.Network
import Nerion.Symbolic

/-!
# Agreement of honest gossip nodes

Any number of nodes run the code over one validator set. The network delivers, drops,
repeats and reorders what it likes and makes up blocks and attestations; it only cannot
sign for a node (`Authentic`).

* `NodeStep.votesOnce` — a node attests one hash per height, although it forgets the
  heights its chain has passed;
* `NodeStep.grounded` — what is pooled, and what a block was finalized with, was signed by
  the node or handed to it;
* `gossip_agreement` — no two nodes ever finalize different blocks at one height.
-/

namespace Nerion

/-! ## A node attests once per height -/

/-- The attestations a node has signed, against the record it keeps of them. -/
structure VotesOnce (id : String) (height : JsNum) (attestedAt : JsMap JsNum String)
    (signed : List Attestation) : Prop where
  /-- they are in the node's name -/
  own : ∀ a ∈ signed, a.validator = id
  /-- each is on record, unless the head has passed it -/
  voted : ∀ a ∈ signed,
    JsNum.lt a.height height = true ∨ attestedAt.get? a.height = some a.blockHash
  /-- no two are for different blocks of one height -/
  once : ∀ a ∈ signed, ∀ b ∈ signed, a.height = b.height → a.blockHash = b.blockHash

namespace VotesOnce

variable {id : String} {height : JsNum} {attestedAt : JsMap JsNum String}
  {signed : List Attestation} (h : VotesOnce id height attestedAt signed)

include h

/-- A live height that is not on record has no attestation. -/
theorem fresh {k : JsNum} (hlive : JsNum.lt k height = false)
    (hnone : attestedAt.get? k = none) : ∀ a ∈ signed, a.height ≠ k := by
  rintro a ha rfl
  rcases h.voted a ha with hlt | hsome
  · rw [hlive] at hlt
    cases hlt
  · rw [hnone] at hsome
    cases hsome

theorem vote {k : JsNum} (hlive : JsNum.lt k height = false) (hnone : attestedAt.get? k = none)
    (hash : String) : VotesOnce id height (attestedAt.set k hash) signed := by
  refine ⟨h.own, fun a ha => ?_, h.once⟩
  rw [JsMap.get?_set, if_neg (h.fresh hlive hnone a ha)]
  exact h.voted a ha

theorem sign {att : Attestation} (hlive : JsNum.lt att.height height = false)
    (hnone : attestedAt.get? att.height = none) (hown : att.validator = id) :
    VotesOnce id height (attestedAt.set att.height att.blockHash) (signed ++ [att]) := by
  have hfresh := h.fresh hlive hnone
  have hvote := h.vote hlive hnone att.blockHash
  refine ⟨fun a ha => ?_, fun a ha => ?_, fun a ha b hb hab => ?_⟩
  · rcases List.mem_append.mp ha with ha | ha
    · exact h.own a ha
    · exact List.mem_singleton.mp ha ▸ hown
  · rcases List.mem_append.mp ha with ha | ha
    · exact hvote.voted a ha
    · obtain rfl := List.mem_singleton.mp ha
      exact .inr ((JsMap.get?_set _ _ _ _).trans (if_pos rfl))
  · -- an old attestation and the new one never share a height
    rcases List.mem_append.mp ha with hold | hnew <;>
      rcases List.mem_append.mp hb with hold' | hnew'
    · exact h.once a hold b hold' hab
    · obtain rfl := List.mem_singleton.mp hnew'
      exact absurd hab (hfresh a hold)
    · obtain rfl := List.mem_singleton.mp hnew
      exact absurd hab.symm (hfresh b hold')
    · rw [List.mem_singleton.mp hnew, List.mem_singleton.mp hnew']

theorem advance {height' : JsNum} (hle : JsNum.le height height' = true) :
    VotesOnce id height' attestedAt signed :=
  ⟨h.own, fun a ha => (h.voted a ha).imp_left fun hlt => JsNum.lt_of_lt_of_le hlt hle, h.once⟩

theorem prune : VotesOnce id height (attestedAt.filter fun k _ => !JsNum.lt k height) signed := by
  refine ⟨h.own, fun a ha => ?_, h.once⟩
  rcases hlt : JsNum.lt a.height height with _ | _
  · refine .inr (JsMap.get?_filter_eq_some.mpr ⟨?_, by rw [hlt]; rfl⟩)
    exact (h.voted a ha).resolve_left (ne_true_of_eq_false hlt)
  · exact .inl rfl

end VotesOnce

section Steps

variable {X : LedgerExternals} {C : GossipConfig} {src : GossipMessage → Prop}
  {n n' : GossipNode}

/-- **Every step of a node keeps its votes single.** -/
theorem NodeStep.votesOnce (h : NodeStep X C src n n')
    (hn : VotesOnce (C.id X) n.height n.attestedAt n.signed) :
    VotesOnce (C.id X) n'.height n'.attestedAt n'.signed := by
  cases h with
  | @attest block att _ hcur _ hnone _ hatt =>
    obtain ⟨-, hheight, hval, -⟩ := attest_eq_ok hatt
    have hlive := hcur.live
    rw [GossipNode.passed, ← hheight] at hlive
    rw [← hheight] at hnone ⊢
    exact hn.sign hlive hnone hval
  | abstain hcur _ hnone => exact hn.vote hcur.live hnone _
  | finalize hnew hknown hsubmit =>
    have hstep : NodeStep X C src n _ := .finalize hnew hknown hsubmit
    exact hn.advance (JsNum.le_natCast.trans (decide_eq_true hstep.length_le))
  | prune => exact hn.prune
  | observe _ _ =>
    rw [GossipNode.observe]
    split <;> exact hn
  | know _ _ _ _ => exact hn
  | pool _ _ _ _ _ => exact hn
  | buffer _ _ _ _ _ => exact hn
  | release => exact hn

/-- The hash of a block is the hex text of a digest. -/
def Hashed (X : LedgerExternals) (a : Attestation) : Prop :=
  ∃ digest, a.blockHash = X.bytesToHex digest

/-- **A node attests hashes it has computed.** -/
theorem NodeStep.hashed (h : NodeStep X C src n n') (hn : ∀ a ∈ n.signed, Hashed X a) :
    ∀ a ∈ n'.signed, Hashed X a := by
  cases h with
  | @attest block att _ _ _ _ _ hatt =>
    intro a ha
    rcases List.mem_append.mp ha with ha | ha
    · exact hn a ha
    · obtain rfl := List.mem_singleton.mp ha
      obtain ⟨bytes, -, hhash⟩ := Except.bind_eq_ok (attest_eq_ok hatt).1
      exact ⟨X.digest bytes, (Except.ok.inj hhash).symm⟩
  | observe _ _ =>
    rw [GossipNode.observe]
    split <;> exact hn
  | _ => exact hn

/-- What a node has signed stays signed. -/
theorem NodeStep.signed_subset (h : NodeStep X C src n n') : n.signed ⊆ n'.signed := by
  cases h with
  | attest _ _ _ _ _ => exact List.subset_append_left _ _
  | observe _ _ =>
    rw [GossipNode.observe]
    split <;> exact List.Subset.refl _
  | _ => exact List.Subset.refl _

theorem NodeRun.signed_subset (h : NodeRun X C src n n') : n.signed ⊆ n'.signed :=
  h.preserves (P := fun m => n.signed ⊆ m.signed)
    (fun hstep hsub => List.Subset.trans hsub hstep.signed_subset) (List.Subset.refl _)

end Steps

/-! ## Where attestations come from -/

/-- Signed by the node, or handed to it. -/
def GossipNode.Sourced (src : GossipMessage → Prop) (n : GossipNode) (a : Attestation) : Prop :=
  a ∈ n.signed ∨ src (.attestation a)

section Grounded

variable (X : LedgerExternals) (L : LedgerConfig)

/-- Block number `k` of a chain finalizes on the one before it, at that height, with
attestations that satisfy `P`. -/
structure Certified (P : Attestation → Prop) (chain : List FinalizedBlock) (k : ℕ)
    (fb : FinalizedBlock) : Prop where
  /-- where the attestations come from -/
  sourced : ∀ a ∈ fb.attestations, P a
  /-- they finalize the block -/
  finalizes : ∃ setId t, Finalizes X fb.block fb.attestations L.set (headHash (chain.take k))
    L.finalityNum L.finalityDen ⟨some (k : JsNum), some L.suite⟩ fb.hash setId t

/-- The pool and the chain rest on attestations that satisfy `P`. -/
structure Grounded (P : Attestation → Prop)
    (attestations : JsMap String (JsMap String Attestation)) (chain : List FinalizedBlock) :
    Prop where
  /-- the pool -/
  pooled : ∀ hash byValidator, attestations.get? hash = some byValidator →
    ∀ a ∈ byValidator.values, P a
  /-- the chain -/
  chained : ∀ k fb, chain[k]? = some fb → Certified X L P chain k fb

variable {X L} {P Q : Attestation → Prop}
  {attestations : JsMap String (JsMap String Attestation)} {chain : List FinalizedBlock}

namespace Grounded

theorem mono (hPQ : ∀ a, P a → Q a) (h : Grounded X L P attestations chain) :
    Grounded X L Q attestations chain :=
  ⟨fun hash byV hby a ha => hPQ a (h.pooled hash byV hby a ha),
    fun k fb hk => ⟨fun a ha => hPQ a ((h.chained k fb hk).sourced a ha),
      (h.chained k fb hk).finalizes⟩⟩

theorem set (h : Grounded X L P attestations chain) {hash validator : String} {att : Attestation}
    (hatt : P att) :
    Grounded X L P (attestations.set hash
      (((attestations.get? hash).getD .empty).set validator att)) chain := by
  refine ⟨fun hash' byV hby a ha => ?_, h.chained⟩
  rw [JsMap.get?_set] at hby
  split at hby
  · cases hby
    obtain ⟨v, hv⟩ := JsMap.mem_values_iff.mp ha
    rw [JsMap.get?_set] at hv
    split at hv
    · exact Option.some.inj hv ▸ hatt
    · -- it was in the pool before
      rcases hold : attestations.get? hash with _ | old
      · rw [hold] at hv
        cases hv
      · rw [hold] at hv
        exact h.pooled hash old hold a (JsMap.mem_values_iff.mpr ⟨v, hv⟩)
  · exact h.pooled hash' byV hby a ha

theorem filter (h : Grounded X L P attestations chain)
    (p : String → JsMap String Attestation → Bool) :
    Grounded X L P (attestations.filter p) chain :=
  ⟨fun hash byV hby => h.pooled hash byV (JsMap.get?_filter_eq_some.mp hby).1, h.chained⟩

theorem append (h : Grounded X L P attestations chain) {fb : FinalizedBlock}
    (hfb : Certified X L P chain chain.length fb) :
    Grounded X L P attestations (chain ++ [fb]) := by
  refine ⟨h.pooled, fun k fb' hk => ?_⟩
  have hlt : k < chain.length + 1 := by
    have := (List.getElem?_eq_some_iff.mp hk).1
    rwa [List.length_append] at this
  -- the head a block extends is not touched by what comes after
  have htake : (chain ++ [fb]).take k = chain.take k :=
    List.take_append_of_le_length (Nat.lt_succ_iff.mp hlt)
  rcases Nat.lt_succ_iff_lt_or_eq.mp hlt with hlt | rfl
  · rw [List.getElem?_append_left hlt] at hk
    have hold := h.chained k fb' hk
    exact ⟨hold.sourced, htake ▸ hold.finalizes⟩
  · rw [List.getElem?_concat_length] at hk
    cases hk
    exact ⟨hfb.sourced, htake ▸ hfb.finalizes⟩

end Grounded

end Grounded

section Sources

variable {X : LedgerExternals} {C : GossipConfig} {src : GossipMessage → Prop}
  {n n' : GossipNode}

/-- **Every step of a node keeps its pool and its chain grounded.** -/
theorem NodeStep.grounded (h : NodeStep X C src n n')
    (hn : Grounded X C.ledger (n.Sourced src) n.attestations n.chain) :
    Grounded X C.ledger (n'.Sourced src) n'.attestations n'.chain := by
  cases h with
  | attest _ _ _ _ _ => exact hn.mono fun a ha => ha.imp_left (List.mem_append_left _)
  | pool hsource _ _ _ _ => exact hn.set hsource
  | @finalize hash block fb chain hnew hknown hsubmit =>
    obtain ⟨rfl, rfl, hatts, hfin⟩ := submit_eq_ok hsubmit
    refine hn.append ⟨fun a ha => ?_, ?_⟩
    · -- the attestations come out of the pool
      rw [hatts, GossipNode.attestationsFor] at ha
      rcases hby : n.attestations.get? hash with _ | byV
      · rw [hby] at ha
        exact absurd ha List.not_mem_nil
      · rw [hby] at ha
        exact hn.pooled hash byV hby a ha
    · rw [hatts, List.take_length]
      exact hfin
  | prune =>
    change Grounded X C.ledger (n.Sourced src) n.livePool n.chain
    rw [GossipNode.livePool]
    exact (hn.filter _).filter _
  | observe _ _ =>
    rw [GossipNode.observe]
    split <;> exact hn
  | know _ _ _ _ => exact hn
  | abstain _ _ _ => exact hn
  | buffer _ _ _ _ _ => exact hn
  | release => exact hn

/-- The invariant of a node. -/
structure NodeInvariant (X : LedgerExternals) (C : GossipConfig) (src : GossipMessage → Prop)
    (n : GossipNode) : Prop where
  /-- it attests once per height -/
  votes : VotesOnce (C.id X) n.height n.attestedAt n.signed
  /-- it attests hashes of blocks -/
  hashed : ∀ a ∈ n.signed, Hashed X a
  /-- its pool and chain have their sources -/
  grounded : Grounded X C.ledger (n.Sourced src) n.attestations n.chain

theorem NodeInvariant.new : NodeInvariant X C src .new := by
  refine ⟨⟨?_, ?_, ?_⟩, ?_, ⟨?_, ?_⟩⟩
  · exact fun a ha => absurd ha List.not_mem_nil
  · exact fun a ha => absurd ha List.not_mem_nil
  · exact fun a ha => absurd ha List.not_mem_nil
  · exact fun a ha => absurd ha List.not_mem_nil
  · intro hash byV h
    cases h
  · intro k fb h
    cases h

theorem NodeRun.invariant (h : NodeRun X C src n n') (hn : NodeInvariant X C src n) :
    NodeInvariant X C src n' :=
  h.preserves (fun hstep hm =>
    ⟨hstep.votesOnce hm.votes, hstep.hashed hm.hashed, hstep.grounded hm.grounded⟩) hn

end Sources

/-! ## The network -/

section System

variable (X : LedgerExternals) (L : LedgerConfig) {ι : Type} (keys : ι → KeyPair)

/-- A node's own key, and the ledger fields that all nodes share. -/
def nodeConfig (i : ι) : GossipConfig := ⟨keys i, L⟩

/-- The id of a node, which is its name as a validator. -/
def nodeId (i : ι) : String := (nodeConfig L keys i).id X

/-- The bytes an attestation is a signature of. -/
def attestedMessage (a : Attestation) : Except JsError Bytes := do
  let setId ← consensusSetId X L.set
  attestMessage X a.suite a.height a.blockHash setId

/-- An attestation the network can have: if it verifies in the name of a node, that node has
signed the same message. -/
def Authentic (s : ι → GossipNode) (a : Attestation) : Prop :=
  ∀ i, a.validator = nodeId X L keys i → verifyAttestationSig X a L.set = .ok true →
    ∃ own ∈ (s i).signed, attestedMessage X L own = attestedMessage X L a

/-- The messages the network can have: any block, and authentic attestations. -/
def Available (s : ι → GossipNode) : GossipMessage → Prop
  | .block _ => True
  | .attestation a => Authentic X L keys s a

/-- The honest nodes and the network between them. -/
def gossipNetwork : Network ι GossipNode GossipMessage where
  init _ := .new
  available := Available X L keys
  move i := NodeMove X (nodeConfig L keys i)

/-- The validators that no honest node runs. -/
def byzantine [Fintype ι] : Finset String :=
  L.set.pubkeys.filter fun v => ∀ i, nodeId X L keys i ≠ v

/-- The stake of the Byzantine validators. -/
def byzantineStake [Fintype ι] : ℤ := ∑ v ∈ byzantine X L keys, stakeOf L.set v

/-- The message of an attestation tells its height and its hash, where the hash is one that
`blockHash` can return: no other height or text has the same message. An encoder that
normalises texts meets this, since it leaves hex digits as they are. -/
def AttestMessageInjective : Prop :=
  ∀ ⦃suite suite' : String⦄ ⦃height height' : JsNum⦄ ⦃digest : Bytes⦄ ⦃hash setId setId' : String⦄
    ⦃m : Bytes⦄, attestMessage X suite height (X.bytesToHex digest) setId = .ok m →
    attestMessage X suite' height' hash setId' = .ok m →
    height = height' ∧ X.bytesToHex digest = hash

variable {X L keys}

theorem Available.mono {s s' : ι → GossipNode} (h : ∀ i, (s i).signed ⊆ (s' i).signed)
    {m : GossipMessage} (hm : Available X L keys s m) : Available X L keys s' m := by
  cases m with
  | block _ => trivial
  | attestation a =>
    intro i hval hsig
    obtain ⟨own, hown, hmsg⟩ := hm i hval hsig
    exact ⟨own, h i hown, hmsg⟩

/-- **The invariant of a node is one of the whole network.** -/
theorem nodeInvariant_local [DecidableEq ι] : (gossipNetwork X L keys).LocalInvariant
    fun i => NodeInvariant X (nodeConfig L keys i) where
  init _ := .new
  mono hsrc hn := ⟨hn.votes, hn.hashed, hn.grounded.mono fun _ ha => ha.imp_right (hsrc _)⟩
  move hmove hn := hmove.run.invariant hn
  grow := by
    intro s i n' hmove m hm
    refine Available.mono (fun j => ?_) hm
    by_cases hij : j = i
    · subst hij
      rw [Function.update_self]
      exact hmove.run.signed_subset
    · rw [Function.update_of_ne hij]
      exact List.Subset.refl _

/-! ## Agreement -/

/-- A certified block has a quorum of attesters, each with a verified attestation of the block
at its height. -/
theorem Certified.quorum {P : Attestation → Prop} {chain : List FinalizedBlock} {k : ℕ}
    {fb : FinalizedBlock} (h : Certified X L P chain k fb) :
    ∃ A, IsQuorum (stakeOf L.set) L.set.pubkeys L.finalityNum.toInt L.finalityDen.toInt A ∧
      ∀ v ∈ A, ∃ a, P a ∧ a.validator = v ∧ a.height = (k : JsNum) ∧ a.blockHash = fb.hash ∧
        verifyAttestationSig X a L.set = .ok true := by
  obtain ⟨setId, t, hf⟩ := h.finalizes
  refine ⟨t.counted.toFinset, hf.isQuorum, fun v hv => ?_⟩
  obtain ⟨a, ha, hval, hat, hsig⟩ := hf.attested (List.mem_toFinset.mp hv)
  obtain ⟨hhash, hheight, -, -⟩ := attests_iff.mp hat
  exact ⟨a, h.sourced a ha, hval, (JsNum.strictEq_iff.mp hheight).2.trans (hf.height_eq rfl),
    hhash, hsig⟩

/-- A node whose name is on an authentic attestation has attested that block itself. -/
theorem Authentic.signed (hmsg : AttestMessageInjective X) {s : ι → GossipNode} {l : ι}
    (hhash : ∀ own ∈ (s l).signed, Hashed X own) {a : Attestation} (ha : Authentic X L keys s a)
    (hval : a.validator = nodeId X L keys l) (hsig : verifyAttestationSig X a L.set = .ok true) :
    ∃ own ∈ (s l).signed, own.height = a.height ∧ own.blockHash = a.blockHash := by
  obtain ⟨own, hown, heq⟩ := ha l hval hsig
  obtain ⟨digest, hdigest⟩ := hhash own hown
  obtain ⟨setId, hid, hrest⟩ := Except.bind_eq_ok hsig
  obtain ⟨m, hm, -⟩ := Except.bind_eq_ok hrest
  have ha' : attestedMessage X L a = .ok m := Except.bind_ok hid hm
  obtain ⟨setId', hid', hm'⟩ := Except.bind_eq_ok (heq.trans ha')
  rw [hdigest] at hm'
  obtain ⟨hheight, heq⟩ := hmsg hm' hm
  exact ⟨own, hown, hheight, hdigest.trans heq⟩

/-- A node of this name has attested `hash` at height `k`. -/
def Voted (X : LedgerExternals) (L : LedgerConfig) (keys : ι → KeyPair) (s : ι → GossipNode)
    (k : JsNum) (v hash : String) : Prop :=
  ∃ l, nodeId X L keys l = v ∧ ∃ own ∈ (s l).signed, own.height = k ∧ own.blockHash = hash

section Agreement

variable [DecidableEq ι] {s : ι → GossipNode} (hkeys : Function.Injective (nodeId X L keys))
  (hmsg : AttestMessageInjective X) (hs : (gossipNetwork X L keys).Reachable s)

include hs in
theorem certified_of_reachable {i : ι} {k : ℕ} {fb : FinalizedBlock}
    (hi : (s i).chain[k]? = some fb) :
    Certified X L ((s i).Sourced (Available X L keys s)) (s i).chain k fb :=
  (nodeInvariant_local.of_reachable hs i).grounded.chained k fb hi

include hkeys hs in
/-- Nodes of different names: each votes once. -/
theorem Voted.once {k : JsNum} {v hash hash' : String} (h : Voted X L keys s k v hash)
    (h' : Voted X L keys s k v hash') : hash = hash' := by
  obtain ⟨l, hl, own, hown, hk, rfl⟩ := h
  obtain ⟨l', hl', own', hown', hk', rfl⟩ := h'
  obtain rfl : l = l' := hkeys (hl.trans hl'.symm)
  exact (nodeInvariant_local.of_reachable hs l).votes.once own hown own' hown' (hk.trans hk'.symm)

include hkeys hmsg hs in
/-- A node named on a verified attestation that another node holds has voted for it. -/
theorem voted_of_sourced {i l : ι} {a : Attestation}
    (ha : (s i).Sourced (Available X L keys s) a) (hval : a.validator = nodeId X L keys l)
    (hsig : verifyAttestationSig X a L.set = .ok true) :
    Voted X L keys s a.height a.validator a.blockHash := by
  refine ⟨l, hval.symm, ?_⟩
  rcases ha with hown | hauth
  · -- what a node signs carries its own name
    have hval' := (nodeInvariant_local.of_reachable hs i).votes.own a hown
    obtain rfl : l = i := hkeys (hval.symm.trans hval')
    exact ⟨a, hown, rfl, rfl⟩
  · exact Authentic.signed hmsg (nodeInvariant_local.of_reachable hs l).hashed hauth hval hsig

variable [Fintype ι]

include hkeys hmsg hs in
/-- The validators behind a finalized block: outside the Byzantine ones, all have voted for
it. -/
theorem voted_of_finalized {i : ι} {k : ℕ} {fb : FinalizedBlock}
    (hi : (s i).chain[k]? = some fb) :
    ∃ A, IsQuorum (stakeOf L.set) L.set.pubkeys L.finalityNum.toInt L.finalityDen.toInt A ∧
      ∀ v ∈ A, v ∉ byzantine X L keys → Voted X L keys s k v fb.hash := by
  obtain ⟨A, hA, hatt⟩ := (certified_of_reachable hs hi).quorum
  refine ⟨A, hA, fun v hv hnot => ?_⟩
  obtain ⟨a, ha, hval, hheight, hhash, hsig⟩ := hatt v hv
  obtain ⟨l, hl⟩ : ∃ l, nodeId X L keys l = v := by
    by_contra hnone
    exact hnot (Finset.mem_filter.mpr ⟨hA.subset hv, not_exists.mp hnone⟩)
  rw [← hval, ← hheight, ← hhash]
  exact voted_of_sourced hkeys hmsg hs ha (hval.trans hl.symm) hsig

include hkeys hmsg hs in
/-- Blocks that two nodes finalized at one height have one hash. -/
theorem hash_eq_of_reachable
    (hbyz : byzantineStake X L keys * L.finalityDen.toInt <
      (2 * L.finalityNum.toInt - L.finalityDen.toInt) * totalStake L.set)
    {i j : ι} {k : ℕ} {fb fb' : FinalizedBlock}
    (hi : (s i).chain[k]? = some fb) (hj : (s j).chain[k]? = some fb') : fb.hash = fb'.hash := by
  obtain ⟨setId, t, hf⟩ := (certified_of_reachable hs hi).finalizes
  obtain ⟨A, hA, hvA⟩ := voted_of_finalized hkeys hmsg hs hi
  obtain ⟨B, hB, hvB⟩ := voted_of_finalized hkeys hmsg hs hj
  have hden : 0 ≤ L.finalityDen.toInt := by
    obtain ⟨num, den, -, hd, -, -⟩ := exists_natCast_of_validThreshold hf.threshold
    rw [hd, JsNum.toInt_natCast]
    exact Int.natCast_nonneg den
  rw [← ValidatorSet.sum_stakeOf hf.wellFormed.nodup, mul_comm] at hbyz
  exact hA.agree (stakeOf_nonneg L.set) hden hB hbyz hvA hvB
    fun v _ h h' => Voted.once hkeys hs h h'

/-- Chains that agree at every common height are comparable: the shorter is a prefix. -/
theorem hashes_isPrefix {short long : List FinalizedBlock} (hlen : short.length ≤ long.length)
    (h : ∀ (k : ℕ) (fb fb' : FinalizedBlock), short[k]? = some fb → long[k]? = some fb' →
      fb.hash = fb'.hash) : short.map (·.hash) <+: long.map (·.hash) := by
  refine List.prefix_iff_getElem?.mpr fun k hk => ?_
  rw [List.length_map] at hk
  have hk' : k < long.length := hk.trans_le hlen
  rw [List.getElem?_map, List.getElem?_eq_getElem hk', List.getElem_map, Option.map_some]
  exact congrArg some
    (h k _ _ (List.getElem?_eq_getElem hk) (List.getElem?_eq_getElem hk')).symm

end Agreement

end System

/-! ## A run of two nodes -/

/-- The validator's node, and one that follows. -/
def pairKeys (follower : Bool) : KeyPair :=
  if follower then ⟨[1], [1]⟩ else ⟨[0], [0]⟩

/-- The validator proposes. -/
def pairProposed : Bool → GossipNode :=
  Function.update (fun _ => .new) false
    (proposeIfLeader checksumExternals (nodeConfig pairLedger pairKeys false) id "00" 0 .new).1

/-- The follower gets the block. -/
def pairKnown : Bool → GossipNode :=
  Function.update pairProposed true
    (onMessage checksumExternals (nodeConfig pairLedger pairKeys true) id (.block pairBlock)
      (pairProposed true)).1

/-- The follower gets the attestation. -/
def pairFinal : Bool → GossipNode :=
  Function.update pairKnown true
    (onMessage checksumExternals (nodeConfig pairLedger pairKeys true) id
      (.attestation pairAttestation) (pairKnown true)).1

theorem attestMessageInjective_checksum : AttestMessageInjective checksumExternals := by
  intro suite suite' height height' digest hash setId setId' m h h'
  have hcode := cborCode_injective (Except.ok.inj (h.trans h'.symm))
  simp only [Cbor.array.injEq, List.cons.injEq, Cbor.text.injEq, WireNumber.cbor_num,
    Cbor.num.injEq, and_true, true_and] at hcode
  exact ⟨hcode.2.1, hcode.2.2.1⟩

theorem pairFinal_reachable :
    (gossipNetwork checksumExternals pairLedger pairKeys).Reachable pairFinal := by
  have hproposed : (gossipNetwork checksumExternals pairLedger pairKeys).Step (fun _ => .new)
      pairProposed := by
    rw [pairProposed]
    exact .move false (.propose id "00" 0)
  have hknown : (gossipNetwork checksumExternals pairLedger pairKeys).Step pairProposed
      pairKnown := by
    rw [pairKnown]
    exact .move true (.deliver id trivial)
  have hfinal : (gossipNetwork checksumExternals pairLedger pairKeys).Step pairKnown pairFinal := by
    rw [pairFinal]
    refine .move true (.deliver id fun i hval _ => ?_)
    cases i with
    | false => exact ⟨pairAttestation, by decide +kernel, rfl⟩
    | true => exact absurd hval (by decide +kernel)
  exact ((Relation.ReflTransGen.single hproposed).tail hknown).tail hfinal

/-! ## The theorem -/

/-- **Agreement of honest nodes.** The nodes share the validator set, suite and threshold `L`
and have different names; the stake they do not run is less than two quorums overlap in.
Whatever the network does, the blocks two of them finalize at a height have the same hash,
and one of their chains of hashes is a prefix of the other. -/
theorem gossip_agreement {X : LedgerExternals} {L : LedgerConfig} {ι : Type}
    {keys : ι → KeyPair} [Fintype ι] [DecidableEq ι]
    (hkeys : Function.Injective (nodeId X L keys)) (hmsg : AttestMessageInjective X)
    (hbyz : byzantineStake X L keys * L.finalityDen.toInt <
      (2 * L.finalityNum.toInt - L.finalityDen.toInt) * totalStake L.set)
    {s : ι → GossipNode} (hs : (gossipNetwork X L keys).Reachable s) (i j : ι) :
    (∀ (k : ℕ) (fb fb' : FinalizedBlock), (s i).chain[k]? = some fb →
      (s j).chain[k]? = some fb' → ∃ hash, blockHash X fb.block.header = .ok hash ∧
        blockHash X fb'.block.header = .ok hash) ∧
    ((s i).chain.map (·.hash) <+: (s j).chain.map (·.hash) ∨
      (s j).chain.map (·.hash) <+: (s i).chain.map (·.hash)) := by
  constructor
  · intro k fb fb' hi hj
    obtain ⟨_, _, hf⟩ := (certified_of_reachable hs hi).finalizes
    obtain ⟨_, _, hf'⟩ := (certified_of_reachable hs hj).finalizes
    refine ⟨fb.hash, hf.hash, ?_⟩
    rw [hash_eq_of_reachable hkeys hmsg hs hbyz hi hj]
    exact hf'.hash
  · rcases le_total (s i).chain.length (s j).chain.length with hle | hle
    · exact .inl (hashes_isPrefix hle fun _ _ _ hi hj =>
        hash_eq_of_reachable hkeys hmsg hs hbyz hi hj)
    · exact .inr (hashes_isPrefix hle fun _ _ _ hj hi =>
        hash_eq_of_reachable hkeys hmsg hs hbyz hj hi)

/-- `gossip_agreement` after the run, where both nodes have finalized the block. -/
theorem gossip_agreement_pair :
    (pairFinal false).chain.length = 1 ∧ (pairFinal true).chain.length = 1 ∧
    (∀ (k : ℕ) (fb fb' : FinalizedBlock), (pairFinal false).chain[k]? = some fb →
      (pairFinal true).chain[k]? = some fb' → ∃ hash,
        blockHash checksumExternals fb.block.header = .ok hash ∧
        blockHash checksumExternals fb'.block.header = .ok hash) :=
  ⟨by decide +kernel, by decide +kernel,
    (gossip_agreement (by decide +kernel) attestMessageInjective_checksum (by decide +kernel)
      pairFinal_reachable false true).1⟩

end Nerion
