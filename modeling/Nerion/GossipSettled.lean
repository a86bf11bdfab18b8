import Nerion.GossipSteps

/-!
# Gossip nodes between two messages

The handlers leave a node in order: what the head has passed is swept out, and what is
buffered is ahead. In the middle of a handler this need not hold, since finalizing a block
moves the head; the loop of `drainBuffered` restores it, and a handler that throws has not
moved the head.

* `NodeMove.inv` — what a call of a node can be;
* `NodeRun.preserves_of_length_eq` — the rule for runs that finalize nothing;
* `NodeHistory.settled` — a node between two messages is in order (`Settled`);
* `NodeHistory.poolSound` — every attestation in the pool is one the finality check counts.
-/

namespace Nerion

/-! ## Slots of the pool -/

namespace GossipNode

/-- The attestation of a validator for a hash. -/
def slot (n : GossipNode) (hash validator : String) : Option Attestation :=
  (n.attestations.get? hash).bind (·.get? validator)

theorem slot_eq_some {n : GossipNode} {hash validator : String} {a : Attestation} :
    n.slot hash validator = some a ↔
      ∃ byV, n.attestations.get? hash = some byV ∧ byV.get? validator = some a :=
  Option.bind_eq_some_iff

theorem mem_attestationsFor {n : GossipNode} {hash : String} {a : Attestation} :
    a ∈ n.attestationsFor hash ↔ ∃ v, n.slot hash v = some a := by
  simp only [attestationsFor, slot]
  cases n.attestations.get? hash with
  | none => simp
  | some byV => exact JsMap.mem_values_iff

theorem slot_pool (n : GossipNode) (att : Attestation) (hash validator : String) :
    (n.pool att).slot hash validator =
      if hash = att.blockHash ∧ validator = att.validator then some att
      else n.slot hash validator := by
  rw [slot, slot]
  change ((n.attestations.set _ _).get? hash).bind _ = _
  rw [JsMap.get?_set]
  by_cases hh : hash = att.blockHash
  · subst hh
    rw [if_pos rfl, Option.bind_some, JsMap.get?_set]
    by_cases hv : validator = att.validator
    · rw [if_pos hv, if_pos ⟨rfl, hv⟩]
    · rw [if_neg hv, if_neg fun h => hv h.2]
      cases n.attestations.get? att.blockHash <;> rfl
  · rw [if_neg hh, if_neg fun h => hh h.1]

/-- What the sweep leaves of the pool. -/
theorem get?_livePool {n : GossipNode} {hash : String} {byV : JsMap String Attestation} :
    n.livePool.get? hash = some byV ↔ n.attestations.get? hash = some byV ∧
      (n.knownBlocks.get? hash).any n.passed = false ∧
      (byV.values.head?.any fun a => JsNum.lt a.height n.height) = false := by
  rw [livePool, JsMap.get?_filter_eq_some, JsMap.get?_filter_eq_some, Bool.not_eq_true',
    Bool.not_eq_true', and_assoc]

theorem slot_of_prune {n : GossipNode} {hash validator : String} {a : Attestation}
    (h : n.prune.slot hash validator = some a) : n.slot hash validator = some a := by
  obtain ⟨byV, hby, ha⟩ := slot_eq_some.mp h
  exact slot_eq_some.mpr ⟨byV, (get?_livePool.mp hby).1, ha⟩

end GossipNode

/-- What the pool admits: an attestation of a live height, for a free slot, from a validator
and for a pool below their caps. -/
structure Admitted (n : GossipNode) (att : Attestation) : Prop where
  /-- not below the head -/
  live : JsNum.lt att.height n.height = false
  /-- not beyond the window -/
  window : JsNum.lt (n.height + (maxFutureHeights : JsNum)) att.height = false
  /-- the slot is free -/
  free : n.slot att.blockHash att.validator = none
  /-- the validator is below its cap -/
  validator : att.blockHash ∈ n.hashesOf att.validator ∨
    (n.hashesOf att.validator).length < maxHashesPerValidator
  /-- the pool is below its cap -/
  pool : (∃ byV, n.attestations.get? att.blockHash = some byV) ∨
    n.attestations.size < maxAttestedHashes

theorem admits_iff {n : GossipNode} {att : Attestation} :
    admits n att = true ↔ Admitted n att := by
  have hfree : ((n.attestations.get? att.blockHash).any (·.has att.validator)) = false ↔
      n.slot att.blockHash att.validator = none := by
    rw [GossipNode.slot]
    cases n.attestations.get? att.blockHash with
    | none => simp
    | some byV => simp [JsMap.has]
  have hpool : (n.attestations.get? att.blockHash).isNone = false ↔
      ∃ byV, n.attestations.get? att.blockHash = some byV := by
    rw [Option.isNone_eq_false_iff, Option.isSome_iff_exists]
  simp only [admits, Bool.and_eq_true, Bool.not_eq_true', Bool.or_eq_false_iff,
    Bool.and_eq_false_iff, decide_eq_false_iff_not, not_not, not_le, hfree, hpool]
  constructor
  · rintro ⟨⟨⟨⟨hlive, hwindow⟩, hslot⟩, hval⟩, hcap⟩
    exact ⟨hlive, hwindow, hslot, hval, hcap⟩
  · rintro ⟨hlive, hwindow, hslot, hval, hcap⟩
    exact ⟨⟨⟨⟨hlive, hwindow⟩, hslot⟩, hval⟩, hcap⟩

section Runs

variable {X : LedgerExternals} {C : GossipConfig} {src : GossipMessage → Prop} {n n' : GossipNode}
  {block : Block} {att : Attestation} {entropy : Bytes → Bytes}

/-- **What is in the pool counts.** Each slot holds an attestation of its hash and
validator, under the ledger's suite, of a validator with stake, with a valid signature. -/
def GossipNode.PoolSound (X : LedgerExternals) (C : GossipConfig) (n : GossipNode) : Prop :=
  ∀ hash v a, n.slot hash v = some a → a.blockHash = hash ∧ a.validator = v ∧
    a.suite = C.ledger.suite ∧ 0 < stakeOf C.ledger.set v ∧
    verifyAttestationSig X a C.ledger.set = .ok true

theorem NodeStep.poolSound (h : NodeStep X C src n n') (hn : n.PoolSound X C) :
    n'.PoolSound X C := by
  cases h with
  | pool _ hsuite hstake hsig _ =>
    intro hash v a ha
    rw [GossipNode.slot_pool] at ha
    split at ha
    · rename_i hkey
      obtain ⟨rfl, rfl⟩ := hkey
      cases ha
      exact ⟨rfl, rfl, hsuite, hstake, hsig⟩
    · exact hn hash v a ha
  | prune => exact fun hash v a ha => hn hash v a (GossipNode.slot_of_prune ha)
  | observe _ _ =>
    rw [GossipNode.observe]
    split <;> exact hn
  | _ => exact hn

theorem NodeHistory.poolSound {guard : GossipNode → GossipMessage → Prop}
    (h : NodeHistory X C guard n) : n.PoolSound X C := by
  refine h.run.preserves (fun hstep hm => hstep.poolSound hm) ?_
  intro hash v a ha
  cases ha

/-! ## Runs that finalize nothing -/

theorem submit_length {chain chain' : List FinalizedBlock} {attestations : List Attestation}
    {fb : FinalizedBlock} (h : submit X C.ledger chain block attestations = .ok (fb, chain')) :
    chain'.length = chain.length + 1 := by
  obtain ⟨rfl, -⟩ := submit_eq_ok h
  exact List.length_append

theorem submit_length_ne {chain chain' : List FinalizedBlock} {attestations : List Attestation}
    {fb : FinalizedBlock} (h : submit X C.ledger chain block attestations = .ok (fb, chain')) :
    chain'.length ≠ chain.length := by
  rw [submit_length h]
  exact Nat.succ_ne_self _

/-- A step either finalizes a block, or leaves the chain and its record alone. -/
theorem NodeStep.chain_eq (h : NodeStep X C src n n')
    (hlen : n'.chain.length = n.chain.length) :
    n'.chain = n.chain ∧ n'.finalizedHashes = n.finalizedHashes := by
  cases h with
  | finalize _ _ hsubmit => exact absurd hlen (submit_length_ne hsubmit)
  | observe _ _ =>
    rw [GossipNode.observe]
    split <;> exact ⟨rfl, rfl⟩
  | _ => exact ⟨rfl, rfl⟩

/-- **The rule for runs that finalize nothing**: it is enough to look at the steps that
finalize nothing. -/
theorem NodeRun.preserves_of_length_eq {P : GossipNode → Prop} (h : NodeRun X C src n n')
    (hlen : n'.chain.length = n.chain.length)
    (hstep : ∀ {m m' : GossipNode}, NodeStep X C src m m' → m'.chain.length = m.chain.length →
      P m → P m') (hn : P n) : P n' := by
  induction h with
  | refl => exact hn
  | @tail m m' hrun hlast ih =>
    -- the chain is as long at the start, here and at the end
    have hle := NodeRun.length_le hrun
    have hle' := hlast.length_le
    have hmid : m.chain.length = n.chain.length := (hle'.trans_eq hlen).antisymm hle
    exact hstep hlast (hlen.trans hmid.symm) (ih hmid)

theorem NodeRun.chain_eq (h : NodeRun X C src n n') (hlen : n'.chain.length = n.chain.length) :
    n'.chain = n.chain ∧ n'.finalizedHashes = n.finalizedHashes := by
  refine h.preserves_of_length_eq
    (P := fun m => m.chain = n.chain ∧ m.finalizedHashes = n.finalizedHashes) hlen ?_ ⟨rfl, rfl⟩
  rintro m m' hstep hlen' ⟨hchain, hfin⟩
  obtain ⟨hchain', hfin'⟩ := hstep.chain_eq hlen'
  exact ⟨hchain'.trans hchain, hfin'.trans hfin⟩

/-! ## Settled nodes -/

/-- Nothing below the head is left, as each sweep makes it. -/
structure GossipNode.Swept (n : GossipNode) : Prop where
  /-- the head has passed no known block -/
  known : ∀ h b, n.knownBlocks.get? h = some b → n.passed b = false
  /-- the head has not passed the first attestation for a hash -/
  pooled : ∀ h byV, n.attestations.get? h = some byV →
    (byV.values.head?.any fun a => JsNum.lt a.height n.height) = false

/-- Nothing below the head is left, and what is buffered is ahead of it. -/
structure GossipNode.Settled (n : GossipNode) : Prop extends n.Swept where
  /-- buffered blocks are ahead -/
  pending : ∀ k bs, n.pendingBlocks.get? k = some bs → JsNum.lt n.height k = true

theorem GossipNode.Settled.new : GossipNode.new.Settled := by
  refine ⟨⟨?_, ?_⟩, ?_⟩ <;>
    · intro _ _ h
      cases h

/-- The first attestation for a hash stays the first. -/
theorem pooled_pool (hadm : Admitted n att) (hn : ∀ h byV, n.attestations.get? h = some byV →
      (byV.values.head?.any fun a => JsNum.lt a.height n.height) = false) :
    ∀ h byV, (n.pool att).attestations.get? h = some byV →
      (byV.values.head?.any fun a => JsNum.lt a.height n.height) = false := by
  intro h byV hby
  change (n.attestations.set _ _).get? h = some byV at hby
  rw [JsMap.get?_set] at hby
  split at hby
  · rename_i hkey
    subst hkey
    cases hby
    rcases hold : n.attestations.get? att.blockHash with _ | old
    · -- the hash is new: the attestation itself comes first, and it is live
      change (([att] : List Attestation).head?.any _) = false
      rw [List.head?_cons, Option.any_some, hadm.live]
    · have hfree := hadm.free
      rw [GossipNode.slot, hold, Option.bind_some] at hfree
      rw [Option.getD_some, JsMap.head?_values_set_of_none att hfree]
      have hlive := hn _ old hold
      rcases hhead : old.values.head? with _ | first
      · rw [Option.none_or, Option.any_some, hadm.live]
      · rw [hhead] at hlive
        exact hlive
  · exact hn h byV hby

theorem GossipNode.swept_prune (n : GossipNode) : n.prune.Swept := by
  refine ⟨fun h b hb => ?_, fun h byV hby => (GossipNode.get?_livePool.mp hby).2.2⟩
  have hlive := (JsMap.get?_filter_eq_some.mp hb).2
  rwa [Bool.not_eq_true'] at hlive

/-- A step that finalizes nothing keeps a node swept. -/
theorem NodeStep.swept (h : NodeStep X C src n n') (hlen : n'.chain.length = n.chain.length)
    (hn : n.Swept) : n'.Swept := by
  cases h with
  | know hcur _ _ _ =>
    refine ⟨fun h b hb => ?_, hn.pooled⟩
    change (n.knownBlocks.set _ _).get? h = some b at hb
    rw [JsMap.get?_set] at hb
    split at hb
    · cases hb
      exact hcur.live
    · exact hn.known h b hb
  | pool _ _ _ _ hadmits => exact ⟨hn.known, pooled_pool (admits_iff.mp hadmits) hn.pooled⟩
  | finalize _ _ hsubmit => exact absurd hlen (submit_length_ne hsubmit)
  | prune => exact n.swept_prune
  | observe _ _ =>
    rw [GossipNode.observe]
    split <;> exact ⟨hn.known, hn.pooled⟩
  | attest _ _ _ _ _ => exact ⟨hn.known, hn.pooled⟩
  | abstain _ _ _ => exact ⟨hn.known, hn.pooled⟩
  | buffer _ _ _ _ _ => exact ⟨hn.known, hn.pooled⟩
  | release => exact ⟨hn.known, hn.pooled⟩

/-- **A step that finalizes nothing keeps a node settled.** -/
theorem NodeStep.settled (h : NodeStep X C src n n') (hlen : n'.chain.length = n.chain.length)
    (hn : n.Settled) : n'.Settled := by
  have hheight : n'.height = n.height := congrArg Nat.cast hlen
  refine ⟨h.swept hlen hn.toSwept, fun k bs hk => ?_⟩
  rw [hheight]
  rcases h.pending_cases hk with hk | ⟨hahead, -⟩
  · exact hn.pending k bs hk
  · exact hahead

theorem NodeRun.settled (h : NodeRun X C src n n') (hlen : n'.chain.length = n.chain.length)
    (hn : n.Settled) : n'.Settled :=
  h.preserves_of_length_eq hlen (fun hstep hlen' hm => hstep.settled hlen' hm) hn

/-! ## The sweep -/

/-- A buffered height is a number. -/
def GossipNode.Numbered (n : GossipNode) : Prop :=
  ∀ k bs, n.pendingBlocks.get? k = some bs → k ≠ .nan

theorem NodeStep.numbered (h : NodeStep X C src n n') (hn : n.Numbered) : n'.Numbered := by
  intro k bs hk
  rcases h.pending_cases hk with hk | ⟨hahead, -⟩
  · exact hn k bs hk
  · rintro rfl
    cases hahead

theorem NodeRun.numbered (h : NodeRun X C src n n') (hn : n.Numbered) : n'.Numbered :=
  h.preserves (fun hstep hm => hstep.numbered hm) hn

theorem GossipNode.Numbered.new : GossipNode.new.Numbered := by
  intro k bs hk
  cases hk

/-- After the sweep only the buffered blocks of the current height are not ahead. -/
theorem settled_of_prune (hnum : n.Numbered) {pending : JsMap JsNum (List Block)}
    (hpending : ∀ k bs, pending.get? k = some bs →
      n.prune.pendingBlocks.get? k = some bs ∧ k ≠ n.height) :
    ({ n.prune with pendingBlocks := pending } : GossipNode).Settled := by
  refine ⟨⟨n.swept_prune.known, n.swept_prune.pooled⟩, fun k bs hk => ?_⟩
  obtain ⟨hprune, hne⟩ := hpending k bs hk
  obtain ⟨hk, hlive⟩ := JsMap.get?_filter_eq_some.mp hprune
  rw [Bool.not_eq_true'] at hlive
  exact JsNum.lt_of_not_lt hlive (hnum k bs hk) hne

/-! ## The attestation handler -/

/-- An attestation that passes every check enters the pool, and its block is tried. -/
theorem onAttestation_of_admitted (hsuite : att.suite = C.ledger.suite)
    (hstake : 0 < stakeOf C.ledger.set att.validator)
    (hsig : verifyAttestationSig X att C.ledger.set = .ok true) (hadm : Admitted n att) :
    onAttestation X C att n = (tryFinalize X C att.blockHash (n.pool att), none) := by
  rw [onAttestation, if_neg (not_not.mpr hsuite), if_neg (not_le.mpr hstake), hsig]
  dsimp only
  rw [admits_iff.mpr hadm, if_neg Bool.true_eq_false_eq_False]

theorem onMessage_attestation (h : onAttestation X C att n = (n', none)) :
    onMessage X C entropy (.attestation att) n = drainBuffered X C entropy n' := by
  rw [onMessage, h]
  rfl

/-- Nothing is finalized under a hash whose block is not known. -/
theorem tryFinalize_of_unknown {hash : String} (h : n.knownBlocks.get? hash = none) :
    tryFinalize X C hash n = n := by
  rw [tryFinalize, h]
  exact ite_self n

/-! ## Handlers that throw -/

theorem onAttestation_error {e : JsError} (h : (onAttestation X C att n).2 = some e) :
    (onAttestation X C att n).1 = n := by
  rw [onAttestation] at h ⊢
  split
  · rfl
  split
  · rfl
  rcases hsig : verifyAttestationSig X att C.ledger.set with _ | _ | _
  · rfl
  · rfl
  · simp only [hsig] at h
    repeat' split at h
    all_goals cases h

/-- A handler that throws has not moved the head. -/
theorem attestBlock_error {h : String} {e : JsError}
    (herr : (attestBlock X C entropy h block n).2 = some e) :
    (attestBlock X C entropy h block n).1.chain = n.chain := by
  rw [attestBlock] at herr ⊢
  rcases hat : n.attestedAt.get? block.header.height with _ | already
  · simp only [hat] at herr ⊢
    split
    · rename_i hstake
      rw [if_pos hstake] at herr
      rcases hatt : attest X C.ledger block C.key entropy with e' | att
      · rfl
      · simp only [hatt] at herr ⊢
        rcases hr : onAttestation X C att ((n.vote block.header.height h).sign att)
          with ⟨n', _ | e'⟩
        · rw [hr] at herr
          cases herr
        · -- the attestation handler threw, and left the node as it was
          have hsame := @onAttestation_error X C _ att e' (congrArg Prod.snd hr)
          rw [hr] at hsame
          have hchain := congrArg GossipNode.chain hsame
          exact hchain
    · rename_i hstake
      rw [if_neg hstake] at herr
      cases herr
  · simp only [hat] at herr
    split at herr <;> cases herr

theorem onBlock_error {flood : Bool} {e : JsError}
    (herr : (onBlock X C entropy flood block n).2 = some e) :
    (onBlock X C entropy flood block n).1.chain = n.chain := by
  rw [onBlock] at herr ⊢
  split
  · rfl
  rename_i hlive
  rw [if_neg hlive] at herr
  split
  · simp only [bufferFuture]
    repeat' split
    all_goals rfl
  rename_i hreached
  rw [if_neg hreached] at herr
  rcases hhash : blockHash X block.header with _ | h
  · rfl
  simp only [hhash] at herr ⊢
  split
  · rfl
  rename_i hnew
  rw [if_neg hnew] at herr
  split
  · rfl
  rename_i hcap
  rw [if_neg hcap] at herr
  exact attestBlock_error herr

/-- Blocks below the head are passed over. -/
theorem replay_of_passed {due : List Block} (h : ∀ b ∈ due, n.passed b = true) :
    replay X C entropy due n = (n, none) := by
  induction due with
  | nil => rfl
  | cons b bs ih =>
    have hb : onBlock X C entropy false b n = (n, none) := by
      rw [onBlock, if_pos (h b List.mem_cons_self)]
    rw [replay, hb]
    exact ih fun b' hb' => h b' (List.mem_cons_of_mem _ hb')

/-- When the blocks of one height are replayed, the first of them that finalizes makes the others
stale, and these throw nothing. -/
theorem replay_error {due : List Block} {e : JsError} (hdue : ∀ b ∈ due, b.header.height = n.height)
    (herr : (replay X C entropy due n).2 = some e) :
    (replay X C entropy due n).1.chain.length = n.chain.length := by
  induction due generalizing n with
  | nil => rfl
  | cons b bs ih =>
    rw [replay] at herr ⊢
    have hrun : NodeRun X C (fun _ => True) n (onBlock X C entropy false b n).1 :=
      onBlock_run entropy false b n
    rcases hr : onBlock X C entropy false b n with ⟨n', _ | e'⟩
    · rw [hr] at herr hrun
      rcases hrun.length_le.eq_or_lt with hlen | hlt
      · have hheight : n'.height = n.height := congrArg Nat.cast hlen.symm
        have hbs : ∀ b ∈ bs, b.header.height = n'.height := fun b hb =>
          (hdue b (List.mem_cons_of_mem _ hb)).trans hheight.symm
        exact (ih hbs herr).trans hlen.symm
      · -- the head moved, so the rest is stale and does not throw
        have hpassed : ∀ b ∈ bs, n'.passed b = true := by
          intro b hb
          rw [GossipNode.passed, hdue b (List.mem_cons_of_mem _ hb)]
          exact JsNum.lt_natCast.trans (decide_eq_true hlt)
        have hnone : (replay X C entropy bs n').2 = some e := herr
        rw [replay_of_passed hpassed] at hnone
        cases hnone
    · have hsame := @onBlock_error X C n b entropy false e' (congrArg Prod.snd hr)
      rw [hr] at hsame
      exact congrArg List.length hsame

/-! ## The loop settles the node -/

/-- **The loop of `drainBuffered` leaves a settled node**, whether it returns or throws. -/
theorem drainLoop_settled {turns : ℕ} (hbuf : n.Buffered) (hnum : n.Numbered)
    (hturns : n.pendingBlocks.size < turns) : (drainLoop X C entropy turns n).1.Settled := by
  induction turns generalizing n with
  | zero => exact absurd hturns (Nat.not_lt_zero _)
  | succ turns ih =>
    rw [drainLoop]
    rcases hdue : n.prune.pendingBlocks.get? n.height with _ | due
    · -- nothing is due: the sweep was all
      refine settled_of_prune hnum fun k bs hk => ⟨hk, ?_⟩
      rintro rfl
      cases hdue.symm.trans hk
    -- the due blocks are taken out, and the rest is ahead
    have hreleased : n.prune.release.Settled := by
      refine settled_of_prune hnum fun k bs hk => ?_
      obtain ⟨hk, hne⟩ := JsMap.get?_filter_eq_some.mp hk
      exact ⟨hk, of_decide_eq_true hne⟩
    have hheights : ∀ b ∈ due, b.header.height = n.prune.release.height := fun b hb =>
      hbuf n.height due (JsMap.get?_filter_eq_some.mp hdue).1 b hb
    have hrun : NodeRun X C (fun _ => True) n.prune.release
        (replay X C entropy due n.prune.release).1 := replay_run entropy due _
    have hkept : (replay X C entropy due n.prune.release).1.pendingBlocks =
        n.prune.release.pendingBlocks := by
      refine replay_pendingBlocks fun b hb => ?_
      rw [hheights b hb]
      exact JsNum.lt_natCast.trans (decide_eq_false (lt_irrefl _))
    have hprune : NodeRun X C (fun _ => True) n n.prune.release :=
      .tail (.single .prune) .release
    dsimp only
    rcases hr : replay X C entropy due n.prune.release with ⟨n', _ | e⟩
    · rw [hr] at hrun hkept
      rw [Handled.andThen]
      split
      · rename_i hsame
        have hlen := JsNum.natCast_injective (JsNum.strictEq_iff.mp hsame).2
        exact hrun.settled hlen hreleased
      · have hturn : NodeRun X C (fun _ => True) n n' := hprune.trans hrun
        refine ih ?_ (hturn.numbered hnum) ?_
        · exact hturn.preserves (fun hstep hm => hstep.buffered hm) hbuf
        · rw [hkept]
          refine lt_of_lt_of_le ?_ (Nat.lt_succ_iff.mp hturns)
          exact (JsMap.size_delete_lt hdue).trans_le (JsMap.size_filter_le _ _)
    · have hlen := @replay_error X C n.prune.release entropy due e hheights (congrArg Prod.snd hr)
      rw [hr] at hrun hlen
      exact hrun.settled hlen hreleased

/-- A handler that throws without moving the head, followed by the loop. -/
theorem andThen_drainBuffered_settled {r : Handled} (hrun : NodeRun X C src n r.1)
    (herr : ∀ e, r.2 = some e → r.1.chain.length = n.chain.length) (hbuf : n.Buffered)
    (hnum : n.Numbered) (hn : n.Settled) : (r.andThen (drainBuffered X C entropy)).1.Settled := by
  obtain ⟨n', _ | e⟩ := r
  · refine drainLoop_settled ?_ (hrun.numbered hnum) (Nat.lt_succ_self _)
    exact hrun.preserves (fun hstep hm => hstep.buffered hm) hbuf
  · exact hrun.settled (herr e rfl) hn

/-! ## Calls of a node -/

/-- A proposed block has the height of the chain. -/
theorem propose_height {L : LedgerConfig} {chain : List FinalizedBlock} {payloadRoot : String}
    {round timestamp : JsNum} {proposer : KeyPair}
    (h : propose X L chain payloadRoot round timestamp proposer entropy = .ok block) :
    block.header.height = ledgerHeight chain := by
  obtain ⟨leader, -, h⟩ := Except.bind_eq_ok h
  split at h
  · cases h
  obtain ⟨sig, -, h⟩ := Except.bind_eq_ok h
  cases h
  rfl

/-- **What a call of a node can be**: nothing happens, a block is handled that was handed
over or has the height of the chain, or an attestation that was handed over; after either
the buffer is drained. -/
theorem NodeMove.inv (h : NodeMove X C src n n') :
    n' = n ∨
    (∃ entropy block, (src (.block block) ∨ block.header.height = n.height) ∧
      n' = ((onBlock X C entropy true block n).andThen (drainBuffered X C entropy)).1) ∨
    (∃ entropy att, src (.attestation att) ∧
      n' = ((onAttestation X C att n).andThen (drainBuffered X C entropy)).1) := by
  cases h with
  | @deliver entropy m hm =>
    cases m with
    | block block => exact .inr (.inl ⟨entropy, block, .inl hm, rfl⟩)
    | attestation att => exact .inr (.inr ⟨entropy, att, hm, rfl⟩)
  | propose entropy payloadRoot timestamp =>
    rw [proposeIfLeader]
    rcases selectLeader X C.ledger.set (headHash n.chain) (canonicalRound n.height) with _ | leader
    · exact .inl rfl
    dsimp only
    split
    · exact .inl rfl
    rcases hpropose : Nerion.propose X C.ledger n.chain payloadRoot (canonicalRound n.height)
      timestamp C.key entropy with _ | block
    · exact .inl rfl
    refine .inr (.inl ⟨entropy, block, .inr (propose_height hpropose), ?_⟩)
    dsimp only
    rcases (onBlock X C entropy true block n).andThen (drainBuffered X C entropy) with ⟨m, _ | e⟩
    · rfl
    · rfl

theorem NodeMove.settled (h : NodeMove X C src n n') (hbuf : n.Buffered) (hnum : n.Numbered)
    (hn : n.Settled) : n'.Settled := by
  rcases h.inv with rfl | ⟨entropy, block, -, rfl⟩ | ⟨entropy, att, hatt, rfl⟩
  · exact hn
  · have hrun : NodeRun X C src n (onBlock X C entropy true block n).1 :=
      onBlock_run entropy true block n
    exact andThen_drainBuffered_settled hrun
      (fun e he => congrArg List.length (onBlock_error he)) hbuf hnum hn
  · have hrun : NodeRun X C src n (onAttestation X C att n).1 := onAttestation_run (.inr hatt)
    refine andThen_drainBuffered_settled hrun (fun e he => ?_) hbuf hnum hn
    rw [onAttestation_error he]

variable {guard : GossipNode → GossipMessage → Prop}

theorem NodeHistory.buffered (h : NodeHistory X C guard n) : n.Buffered := h.run.buffered

theorem NodeHistory.numbered (h : NodeHistory X C guard n) : n.Numbered :=
  h.run.numbered GossipNode.Numbered.new

/-- **A node between two messages is settled.** -/
theorem NodeHistory.settled (h : NodeHistory X C guard n) : n.Settled := by
  induction h with
  | refl => exact GossipNode.Settled.new
  | tail hhist hmove ih =>
    exact NodeMove.settled hmove (NodeHistory.buffered hhist) (NodeHistory.numbered hhist) ih

end Runs

end Nerion
