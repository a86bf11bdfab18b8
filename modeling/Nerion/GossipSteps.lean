import Nerion.Gossip
import Mathlib.Logic.Relation

/-!
# What a gossip node can do

Every handler is a run of a few elementary steps, each with the checks the code has made
by then (`NodeStep`). An invariant of a node is proved of these steps, not of the
handlers.

* `onMessage_run`, `proposeIfLeader_run` — both ways a node is called are such runs;
* `onMessage_held` — a node takes in no block but the ones it is handed;
* `drainLoop_stable`, `drainBuffered_eq` — the loop over the buffered blocks ends by itself:
  it never uses up the turns it is given.
-/

namespace Nerion

section Steps

variable (X : LedgerExternals) (C : GossipConfig)

/-- A block of the current height; a height that is not a number counts as current. -/
structure GossipNode.Current (n : GossipNode) (block : Block) : Prop where
  /-- not stale -/
  live : n.passed block = false
  /-- not ahead -/
  reached : JsNum.lt n.height block.header.height = false

/-- The elementary steps of a node. `src` are the messages it can be handed. -/
inductive NodeStep (src : GossipMessage → Prop) : GossipNode → GossipNode → Prop
  /-- a new block of the current height -/
  | know {n : GossipNode} {flood : Bool} {h : String} {block : Block} (hcur : n.Current block)
      (hhash : blockHash X block.header = .ok h) (hnew : n.knownBlocks.has h = false)
      (hcap : n.knownBlocks.size < maxKnownAtHeight) : NodeStep src n (n.know flood h block)
  /-- its attestation, the only one at this height -/
  | attest {n : GossipNode} {block : Block} {att : Attestation} {entropy : Bytes → Bytes}
      (hcur : n.Current block) (hknown : n.knownBlocks.get? att.blockHash = some block)
      (hnone : n.attestedAt.get? block.header.height = none)
      (hstake : 0 < stakeOf C.ledger.set (C.id X))
      (hatt : attest X C.ledger block C.key entropy = .ok att) :
      NodeStep src n ((n.vote block.header.height att.blockHash).sign att)
  /-- the signer threw: the height is used up without an attestation -/
  | abstain {n : GossipNode} {block : Block} {h : String} (hcur : n.Current block)
      (hknown : n.knownBlocks.get? h = some block)
      (hnone : n.attestedAt.get? block.header.height = none) :
      NodeStep src n (n.vote block.header.height h)
  /-- a second block at an attested height -/
  | observe {n : GossipNode} {block : Block} {already h : String}
      (hattested : n.attestedAt.get? block.header.height = some already) (hne : already ≠ h) :
      NodeStep src n (n.observe ⟨block.header.height, already, h⟩)
  /-- an attestation, the node's own or one it was handed -/
  | pool {n : GossipNode} {att : Attestation}
      (hsource : att ∈ n.signed ∨ src (.attestation att)) (hsuite : att.suite = C.ledger.suite)
      (hstake : 0 < stakeOf C.ledger.set att.validator)
      (hsig : verifyAttestationSig X att C.ledger.set = .ok true) (hadmits : admits n att = true) :
      NodeStep src n (n.pool att)
  /-- the ledger accepts a known block -/
  | finalize {n : GossipNode} {hash : String} {block : Block} {fb : FinalizedBlock}
      {chain : List FinalizedBlock} (hnew : hash ∉ n.finalizedHashes)
      (hknown : n.knownBlocks.get? hash = some block)
      (hsubmit : submit X C.ledger n.chain block (n.attestationsFor hash) = .ok (fb, chain)) :
      NodeStep src n (n.finalize hash chain)
  /-- a block of a later height -/
  | buffer {n : GossipNode} {block : Block} {h : String}
      (hahead : JsNum.lt n.height block.header.height = true)
      (hwindow : JsNum.lt (n.height + (maxFutureHeights : JsNum)) block.header.height = false)
      (hhash : blockHash X block.header = .ok h)
      (hnew : (((n.pendingBlocks.get? block.header.height).getD []).any
        fun b => hasHash X b h) = false)
      (hcap : ((n.pendingBlocks.get? block.header.height).getD []).length < maxPendingPerHeight) :
      NodeStep src n (n.buffer block)
  /-- the sweep -/
  | prune {n : GossipNode} : NodeStep src n n.prune
  /-- the buffered blocks of the current height are taken out -/
  | release {n : GossipNode} : NodeStep src n n.release

/-- Runs of elementary steps. -/
abbrev NodeRun (src : GossipMessage → Prop) : GossipNode → GossipNode → Prop :=
  Relation.ReflTransGen (NodeStep X C src)

/-- All the blocks a node has or has had for others are of `P`. -/
structure GossipNode.Holds (P : Block → Prop) (n : GossipNode) : Prop where
  /-- those of the current height -/
  known : ∀ h b, n.knownBlocks.get? h = some b → P b
  /-- those of later heights -/
  pending : ∀ k bs, n.pendingBlocks.get? k = some bs → ∀ b ∈ bs, P b
  /-- those it sent on -/
  sent : ∀ b, GossipMessage.block b ∈ n.sent → P b

/-- Runs of elementary steps that take in no block but those of `P`. -/
abbrev HeldRun (P : Block → Prop) (src : GossipMessage → Prop) : GossipNode → GossipNode → Prop :=
  Relation.ReflTransGen fun n n' => NodeStep X C src n n' ∧ (n.Holds P → n'.Holds P)

end Steps

/-! ## The blocks a node takes in -/

namespace GossipNode

variable {n : GossipNode} {block : Block} {k : JsNum}

theorem get?_buffer (n : GossipNode) (block : Block) (k : JsNum) :
    (n.buffer block).pendingBlocks.get? k =
      if k = block.header.height then some ((n.pendingBlocks.get? k).getD [] ++ [block])
      else n.pendingBlocks.get? k := by
  refine (JsMap.get?_set _ _ k _).trans ?_
  split
  · rename_i hkey
    rw [hkey]
  · rfl

/-- A buffered block was there before, or is the one that joined. -/
theorem mem_buffer {bs : List Block} (h : (n.buffer block).pendingBlocks.get? k = some bs)
    {b : Block} (hb : b ∈ bs) :
    (∃ old, n.pendingBlocks.get? k = some old ∧ b ∈ old) ∨ k = block.header.height ∧ b = block := by
  rw [get?_buffer] at h
  split at h
  · rename_i hkey
    obtain rfl := Option.some.inj h
    rcases List.mem_append.mp hb with hb | hb
    · rcases hold : n.pendingBlocks.get? k with _ | old <;> rw [hold] at hb
      · cases hb
      · exact .inl ⟨old, rfl, hb⟩
    · exact .inr ⟨hkey, List.mem_singleton.mp hb⟩
  · exact .inl ⟨bs, h, hb⟩

end GossipNode

namespace GossipNode.Holds

variable {P : Block → Prop} {n : GossipNode} (hn : n.Holds P)
include hn

theorem know {block : Block} (hP : P block) (flood : Bool) (h : String) :
    (n.know flood h block).Holds P := by
  refine ⟨fun h' b hb => ?_, hn.pending, fun b hb => ?_⟩
  · change (n.knownBlocks.set _ _).get? h' = some b at hb
    rw [JsMap.get?_set] at hb
    split at hb
    · cases hb
      exact hP
    · exact hn.known h' b hb
  · change _ ∈ (if flood then _ else _) at hb
    cases flood with
    | false => exact hn.sent b hb
    | true =>
      rcases List.mem_append.mp hb with hb | hb
      · exact hn.sent b hb
      · cases List.mem_singleton.mp hb
        exact hP

theorem buffer {block : Block} (hP : P block) : (n.buffer block).Holds P := by
  refine ⟨hn.known, fun k bs hk b hb => ?_, fun b hb => ?_⟩
  · rcases mem_buffer hk hb with ⟨old, hold, hb⟩ | ⟨-, rfl⟩
    · exact hn.pending k old hold b hb
    · exact hP
  · rcases List.mem_append.mp hb with hb | hb
    · exact hn.sent b hb
    · cases List.mem_singleton.mp hb
      exact hP

theorem pool (att : Attestation) : (n.pool att).Holds P := by
  refine ⟨hn.known, hn.pending, fun b hb => ?_⟩
  rcases List.mem_append.mp hb with hb | hb
  · exact hn.sent b hb
  · cases List.mem_singleton.mp hb

theorem observe (conflict : ObservedConflict) : (n.observe conflict).Holds P := by
  rw [GossipNode.observe]
  split
  · exact ⟨hn.known, hn.pending, hn.sent⟩
  · exact hn

theorem prune : n.prune.Holds P :=
  ⟨fun h b hb => hn.known h b (JsMap.get?_filter_eq_some.mp hb).1,
    fun k bs hk => hn.pending k bs (JsMap.get?_filter_eq_some.mp hk).1, hn.sent⟩

theorem release : n.release.Holds P :=
  ⟨hn.known, fun k bs hk => hn.pending k bs (JsMap.get?_filter_eq_some.mp hk).1, hn.sent⟩

end GossipNode.Holds

/-! ## The handlers are runs -/

section Runs

variable {X : LedgerExternals} {C : GossipConfig} {P : Block → Prop} {src : GossipMessage → Prop}

theorem HeldRun.run {n n' : GossipNode} (h : HeldRun X C P src n n') : NodeRun X C src n n' := by
  induction h with
  | refl => exact .refl
  | tail _ hlast ih => exact ih.tail hlast.1

theorem HeldRun.holds {n n' : GossipNode} (h : HeldRun X C P src n n') (hn : n.Holds P) :
    n'.Holds P := by
  induction h with
  | refl => exact hn
  | tail _ hlast ih => exact hlast.2 ih

theorem andThen_held {n : GossipNode} {r : Handled} {next : GossipNode → Handled}
    (hr : HeldRun X C P src n r.1)
    (hnext : HeldRun X C P src n r.1 → HeldRun X C P src r.1 (next r.1).1) :
    HeldRun X C P src n (r.andThen next).1 := by
  obtain ⟨n', _ | e⟩ := r
  · exact hr.trans (hnext hr)
  · exact hr

theorem tryFinalize_held (hash : String) (n : GossipNode) :
    HeldRun X C P src n (tryFinalize X C hash n) := by
  rw [tryFinalize]
  split
  · exact .refl
  rename_i hnew
  rcases hknown : n.knownBlocks.get? hash with _ | block
  · exact .refl
  dsimp only
  split
  · exact .refl
  rcases hsubmit : submit X C.ledger n.chain block (n.attestationsFor hash) with _ | ⟨fb, chain⟩
  · exact .refl
  · exact .single ⟨.finalize hnew hknown hsubmit, fun hn => ⟨hn.known, hn.pending, hn.sent⟩⟩

theorem onAttestation_held {att : Attestation} {n : GossipNode}
    (hsource : att ∈ n.signed ∨ src (.attestation att)) :
    HeldRun X C P src n (onAttestation X C att n).1 := by
  rw [onAttestation]
  split
  · exact .refl
  rename_i hsuite
  split
  · exact .refl
  rename_i hstake
  rcases hsig : verifyAttestationSig X att C.ledger.set with _ | _ | _
  · exact .refl
  · exact .refl
  dsimp only
  split
  · exact .refl
  rename_i hadmits
  have hpool : NodeStep X C src n (n.pool att) :=
    .pool hsource (not_not.mp hsuite) (not_le.mp hstake) hsig ((Bool.not_eq_false _).mp hadmits)
  exact .trans (.single ⟨hpool, fun hn => hn.pool att⟩) (tryFinalize_held _ _)

theorem bufferFuture_held {block : Block} (hP : P block) {n : GossipNode}
    (hahead : JsNum.lt n.height block.header.height = true) :
    HeldRun X C P src n (bufferFuture X block n).1 := by
  rw [bufferFuture]
  split
  · exact .refl
  rename_i hwindow
  rcases hhash : blockHash X block.header with _ | h
  · exact .refl
  dsimp only
  split
  · exact .refl
  rename_i hnew
  split
  · exact .refl
  rename_i hcap
  have hbuffer : NodeStep X C src n (n.buffer block) :=
    .buffer hahead ((Bool.not_eq_true _).mp hwindow) hhash ((Bool.not_eq_true _).mp hnew)
      (not_le.mp hcap)
  exact .single ⟨hbuffer, fun hn => hn.buffer hP⟩

variable {entropy : Bytes → Bytes}

theorem attestBlock_held {h : String} {block : Block} {n : GossipNode} (hcur : n.Current block)
    (hhash : blockHash X block.header = .ok h) (hknown : n.knownBlocks.get? h = some block) :
    HeldRun X C P src n (attestBlock X C entropy h block n).1 := by
  rw [attestBlock]
  rcases hat : n.attestedAt.get? block.header.height with _ | already
  · dsimp only
    split
    · rename_i hstake
      rcases hatt : attest X C.ledger block C.key entropy with e | att
      · exact .single ⟨.abstain hcur hknown hat, fun hn => ⟨hn.known, hn.pending, hn.sent⟩⟩
      · -- the attestation signed is one of the block's hash
        obtain ⟨hhash', -, -, -⟩ := attest_eq_ok hatt
        obtain rfl : h = att.blockHash := Except.ok.inj (hhash.symm.trans hhash')
        refine .trans (.single ⟨.attest hcur hknown hat hstake hatt,
          fun hn => ⟨hn.known, hn.pending, hn.sent⟩⟩) ?_
        refine andThen_held (onAttestation_held (.inl ?_)) fun _ => tryFinalize_held _ _
        exact List.mem_append_right _ List.mem_cons_self
    · exact tryFinalize_held h n
  · dsimp only
    split
    · rename_i hne
      exact .trans (.single ⟨.observe hat hne, fun hn => hn.observe _⟩) (tryFinalize_held h _)
    · exact tryFinalize_held h n

theorem onBlock_held (entropy : Bytes → Bytes) (flood : Bool) {block : Block} (hP : P block)
    (n : GossipNode) : HeldRun X C P src n (onBlock X C entropy flood block n).1 := by
  rw [onBlock]
  split
  · exact .refl
  rename_i hlive
  split
  · rename_i hahead
    exact bufferFuture_held hP hahead
  rename_i hreached
  rcases hhash : blockHash X block.header with _ | h
  · exact .refl
  dsimp only
  split
  · exact .refl
  rename_i hnew
  split
  · exact .refl
  rename_i hcap
  have hcur : n.Current block := ⟨(Bool.not_eq_true _).mp hlive, (Bool.not_eq_true _).mp hreached⟩
  have hknow : NodeStep X C src n (n.know flood h block) :=
    .know hcur hhash ((Bool.not_eq_true _).mp hnew) (not_le.mp hcap)
  refine .trans (.single ⟨hknow, fun hn => hn.know hP flood h⟩) ?_
  refine attestBlock_held ⟨hcur.live, hcur.reached⟩ hhash ?_
  exact (JsMap.get?_set _ _ _ _).trans (if_pos rfl)

theorem replay_held (entropy : Bytes → Bytes) {due : List Block} (hdue : ∀ b ∈ due, P b)
    (n : GossipNode) : HeldRun X C P src n (replay X C entropy due n).1 := by
  induction due generalizing n with
  | nil => exact .refl
  | cons b bs ih =>
    refine andThen_held (onBlock_held entropy false (hdue b List.mem_cons_self) n) fun _ => ?_
    exact ih (fun b' hb' => hdue b' (List.mem_cons_of_mem b hb')) _

theorem drainLoop_held (entropy : Bytes → Bytes) (turns : ℕ) {n : GossipNode} (hn : n.Holds P) :
    HeldRun X C P src n (drainLoop X C entropy turns n).1 := by
  induction turns generalizing n with
  | zero => exact .refl
  | succ turns ih =>
    rw [drainLoop]
    rcases hdue : n.prune.pendingBlocks.get? n.height with _ | due
    · exact .single ⟨.prune, fun h => h.prune⟩
    have hrelease : HeldRun X C P src n n.prune.release :=
      .tail (.single ⟨.prune, fun h => h.prune⟩) ⟨.release, fun h => h.release⟩
    refine hrelease.trans ?_
    refine andThen_held (replay_held entropy (hn.prune.pending _ due hdue) _) fun hreplay => ?_
    split
    · exact .refl
    · exact ih (HeldRun.holds (hrelease.trans hreplay) hn)

/-- **What a node does with a message** is a run of elementary steps that takes in no other
block. -/
theorem onMessage_held (entropy : Bytes → Bytes) {m : GossipMessage} (hm : src m)
    (hP : ∀ block, m = .block block → P block) {n : GossipNode} (hn : n.Holds P) :
    HeldRun X C P src n (onMessage X C entropy m n).1 := by
  refine andThen_held ?_ fun hrun => drainLoop_held entropy _ (hrun.holds hn)
  cases m with
  | block block => exact onBlock_held entropy true (hP block rfl) n
  | attestation att => exact onAttestation_held (.inr hm)

section Unrestricted

/-- Nothing is asked of the blocks. -/
theorem holds_true (n : GossipNode) : n.Holds fun _ => True :=
  ⟨fun _ _ _ => trivial, fun _ _ _ _ _ => trivial, fun _ _ => trivial⟩

theorem andThen_run {n : GossipNode} {r : Handled} {next : GossipNode → Handled}
    (hr : NodeRun X C src n r.1) (hnext : ∀ n', NodeRun X C src n' (next n').1) :
    NodeRun X C src n (r.andThen next).1 := by
  obtain ⟨n', _ | e⟩ := r
  · exact hr.trans (hnext n')
  · exact hr

theorem tryFinalize_run (hash : String) (n : GossipNode) :
    NodeRun X C src n (tryFinalize X C hash n) :=
  (@tryFinalize_held X C (fun _ => True) src hash n).run

theorem onAttestation_run {att : Attestation} {n : GossipNode}
    (hsource : att ∈ n.signed ∨ src (.attestation att)) :
    NodeRun X C src n (onAttestation X C att n).1 :=
  (@onAttestation_held X C (fun _ => True) src att n hsource).run

theorem attestBlock_run {entropy : Bytes → Bytes} {h : String} {block : Block} {n : GossipNode}
    (hcur : n.Current block) (hhash : blockHash X block.header = .ok h)
    (hknown : n.knownBlocks.get? h = some block) :
    NodeRun X C src n (attestBlock X C entropy h block n).1 :=
  (@attestBlock_held X C (fun _ => True) src entropy h block n hcur hhash hknown).run

theorem onBlock_run (entropy : Bytes → Bytes) (flood : Bool) (block : Block) (n : GossipNode) :
    NodeRun X C src n (onBlock X C entropy flood block n).1 :=
  (@onBlock_held X C (fun _ => True) src entropy flood block trivial n).run

theorem replay_run (entropy : Bytes → Bytes) (due : List Block) (n : GossipNode) :
    NodeRun X C src n (replay X C entropy due n).1 :=
  (@replay_held X C (fun _ => True) src entropy due (fun _ _ => trivial) n).run

theorem drainLoop_run (entropy : Bytes → Bytes) (turns : ℕ) (n : GossipNode) :
    NodeRun X C src n (drainLoop X C entropy turns n).1 :=
  (drainLoop_held entropy turns (holds_true n)).run

theorem onMessage_run (entropy : Bytes → Bytes) {m : GossipMessage} (hm : src m)
    (n : GossipNode) : NodeRun X C src n (onMessage X C entropy m n).1 :=
  (onMessage_held entropy hm (fun _ _ => trivial) (holds_true n)).run

end Unrestricted

/-- **What a node does when asked to propose is a run of steps**, with the block it makes. -/
theorem proposeIfLeader_held (entropy : Bytes → Bytes) (payloadRoot : String) (timestamp : JsNum)
    {n : GossipNode}
    (hP : ∀ block, propose X C.ledger n.chain payloadRoot (canonicalRound n.height) timestamp
      C.key entropy = .ok block → P block) (hn : n.Holds P) :
    HeldRun X C P src n (proposeIfLeader X C entropy payloadRoot timestamp n).1 := by
  rw [proposeIfLeader]
  rcases selectLeader X C.ledger.set (headHash n.chain) (canonicalRound n.height) with _ | leader
  · exact .refl
  dsimp only
  split
  · exact .refl
  rcases hmade : propose X C.ledger n.chain payloadRoot (canonicalRound n.height) timestamp C.key
      entropy with _ | block
  · exact .refl
  dsimp only
  have hrun : HeldRun X C P src n
      ((onBlock X C entropy true block n).andThen (drainBuffered X C entropy)).1 :=
    andThen_held (onBlock_held entropy true (hP block hmade) n)
      fun hrun => drainLoop_held entropy _ (hrun.holds hn)
  rcases hr : (onBlock X C entropy true block n).andThen (drainBuffered X C entropy) with
    ⟨n', _ | e⟩ <;> rw [hr] at hrun <;> exact hrun

theorem proposeIfLeader_run (entropy : Bytes → Bytes) (payloadRoot : String) (timestamp : JsNum)
    (n : GossipNode) :
    NodeRun X C src n (proposeIfLeader X C entropy payloadRoot timestamp n).1 :=
  (proposeIfLeader_held entropy payloadRoot timestamp (fun _ _ => trivial) (holds_true n)).run

/-! ## The buffer -/

/-- What every step preserves, every run preserves. -/
theorem NodeRun.preserves {P : GossipNode → Prop} {n n' : GossipNode} (h : NodeRun X C src n n')
    (hstep : ∀ {m m' : GossipNode}, NodeStep X C src m m' → P m → P m') (hn : P n) : P n' := by
  induction h with
  | refl => exact hn
  | tail _ hlast ih => exact hstep hlast ih

/-- A run never shortens the chain. -/
theorem NodeStep.length_le {n n' : GossipNode} (h : NodeStep X C src n n') :
    n.chain.length ≤ n'.chain.length := by
  cases h with
  | finalize _ _ hsubmit =>
    obtain ⟨rfl, -⟩ := submit_eq_ok hsubmit
    exact (List.length_append ..).symm ▸ Nat.le_add_right _ _
  | observe _ _ =>
    rw [GossipNode.observe]
    split <;> exact le_rfl
  | _ => exact le_rfl

theorem NodeRun.length_le {n n' : GossipNode} (h : NodeRun X C src n n') :
    n.chain.length ≤ n'.chain.length :=
  h.preserves (P := fun m => n.chain.length ≤ m.chain.length)
    (fun hstep hle => hle.trans hstep.length_le) le_rfl

/-- What is not ahead of a node never gets ahead of it. -/
theorem NodeRun.not_lt {n n' : GossipNode} {k : JsNum} (h : NodeRun X C src n n')
    (hk : JsNum.lt n.height k = false) : JsNum.lt n'.height k = false := by
  refine (Bool.not_eq_true _).mp fun hlt => ?_
  have hle : JsNum.le n.height n'.height = true :=
    JsNum.le_natCast.trans (decide_eq_true h.length_le)
  exact absurd (JsNum.lt_of_le_of_lt hle hlt) (ne_true_of_eq_false hk)

/-- **What a step does to the buffer**: a height in it was there before, or it is ahead of the head
and a block of it has joined. -/
theorem NodeStep.pending_cases {n n' : GossipNode} (h : NodeStep X C src n n') {k : JsNum}
    {bs : List Block} (hk : n'.pendingBlocks.get? k = some bs) :
    n.pendingBlocks.get? k = some bs ∨
      JsNum.lt n.height k = true ∧ ∃ block, k = block.header.height ∧ n' = n.buffer block := by
  cases h with
  | @buffer block _ hahead _ _ _ _ =>
    rw [GossipNode.get?_buffer] at hk
    split at hk
    · rename_i hkey
      exact .inr ⟨hkey ▸ hahead, block, hkey, rfl⟩
    · exact .inl hk
  | prune => exact .inl (JsMap.get?_filter_eq_some.mp hk).1
  | release => exact .inl (JsMap.get?_filter_eq_some.mp hk).1
  | observe _ _ =>
    rw [GossipNode.observe] at hk
    split at hk <;> exact .inl hk
  | _ => exact .inl hk

/-- Buffered blocks are filed under their height. -/
def GossipNode.Buffered (n : GossipNode) : Prop :=
  ∀ k bs, n.pendingBlocks.get? k = some bs → ∀ b ∈ bs, b.header.height = k

theorem NodeStep.buffered {n n' : GossipNode} (h : NodeStep X C src n n') (hn : n.Buffered) :
    n'.Buffered := by
  intro k bs hk b hb
  rcases h.pending_cases hk with hk | ⟨-, block, -, rfl⟩
  · exact hn k bs hk b hb
  · rcases GossipNode.mem_buffer hk hb with ⟨old, hold, hb⟩ | ⟨hkey, rfl⟩
    · exact hn k old hold b hb
    · exact hkey.symm

/-- Every node that came to be by a run has its buffer in order. -/
theorem NodeRun.buffered {n : GossipNode} (h : NodeRun X C src .new n) : n.Buffered := by
  refine h.preserves (fun hstep hm => hstep.buffered hm) ?_
  intro k bs hk
  cases hk

theorem tryFinalize_pendingBlocks (hash : String) (n : GossipNode) :
    (tryFinalize X C hash n).pendingBlocks = n.pendingBlocks := by
  rw [tryFinalize]
  repeat' split
  all_goals rfl

theorem onAttestation_pendingBlocks (att : Attestation) (n : GossipNode) :
    (onAttestation X C att n).1.pendingBlocks = n.pendingBlocks := by
  rw [onAttestation]
  repeat' split
  all_goals first | rfl | exact tryFinalize_pendingBlocks _ _

theorem andThen_pendingBlocks {r : Handled} {next : GossipNode → Handled}
    {P : JsMap JsNum (List Block)} (hr : r.1.pendingBlocks = P)
    (hnext : ((next r.1).1).pendingBlocks = r.1.pendingBlocks) :
    ((r.andThen next).1).pendingBlocks = P := by
  obtain ⟨n', _ | e⟩ := r
  · exact hnext.trans hr
  · exact hr

theorem attestBlock_pendingBlocks (entropy : Bytes → Bytes) (h : String) (block : Block)
    (n : GossipNode) : (attestBlock X C entropy h block n).1.pendingBlocks = n.pendingBlocks := by
  rw [attestBlock]
  split
  · split
    · split
      · rfl
      · exact andThen_pendingBlocks (onAttestation_pendingBlocks _ _)
          (tryFinalize_pendingBlocks _ _)
    · exact tryFinalize_pendingBlocks h n
  · split
    · refine (tryFinalize_pendingBlocks h _).trans ?_
      rw [GossipNode.observe]
      split <;> rfl
    · exact tryFinalize_pendingBlocks h n

/-- A block that is not ahead leaves the buffer alone. -/
theorem onBlock_pendingBlocks {flood : Bool} {block : Block} {n : GossipNode}
    (h : JsNum.lt n.height block.header.height = false) :
    (onBlock X C entropy flood block n).1.pendingBlocks = n.pendingBlocks := by
  rw [onBlock, h]
  split
  · rfl
  rw [if_neg Bool.false_ne_true]
  split
  · rfl
  split
  · rfl
  split
  · rfl
  exact attestBlock_pendingBlocks _ _ _ _

theorem replay_pendingBlocks {due : List Block} {n : GossipNode}
    (h : ∀ b ∈ due, JsNum.lt n.height b.header.height = false) :
    (replay X C entropy due n).1.pendingBlocks = n.pendingBlocks := by
  induction due generalizing n with
  | nil => rfl
  | cons b bs ih =>
    refine andThen_pendingBlocks (onBlock_pendingBlocks (h b List.mem_cons_self))
      (ih fun b' hb' => ?_)
    have hrun : NodeRun X C (fun _ => True) n (onBlock X C entropy false b n).1 :=
      onBlock_run entropy false b n
    exact hrun.not_lt (h b' (List.mem_cons_of_mem _ hb'))

theorem andThen_congr {r : Handled} {f g : GossipNode → Handled} (h : f r.1 = g r.1) :
    r.andThen f = r.andThen g := by
  obtain ⟨n', _ | e⟩ := r
  · exact h
  · rfl

/-- **The loop of `drainBuffered` ends by itself.** A turn that goes on has taken a height
out of the buffer and put none in, so more turns than buffered heights change nothing. -/
theorem drainLoop_stable {turns turns' : ℕ} {n : GossipNode} (hn : n.Buffered)
    (ht : n.pendingBlocks.size < turns) (ht' : n.pendingBlocks.size < turns') :
    drainLoop X C entropy turns n = drainLoop X C entropy turns' n := by
  induction turns generalizing turns' n with
  | zero => exact absurd ht (Nat.not_lt_zero _)
  | succ turns ih =>
    obtain ⟨turns', rfl⟩ := Nat.exists_eq_add_of_lt (Nat.zero_lt_of_lt ht')
    rw [Nat.zero_add] at ht' ⊢
    rw [drainLoop, drainLoop]
    rcases hdue : n.prune.pendingBlocks.get? n.height with _ | due
    · rfl
    refine andThen_congr ?_
    -- the due blocks are all of this height, so none is buffered again
    have hkept : (replay X C entropy due n.prune.release).1.pendingBlocks =
        n.prune.release.pendingBlocks := by
      refine replay_pendingBlocks fun b hb => ?_
      rw [hn n.height due (JsMap.get?_filter_eq_some.mp hdue).1 b hb]
      exact JsNum.lt_natCast.trans (decide_eq_false (lt_irrefl _))
    have hsize : (replay X C entropy due n.prune.release).1.pendingBlocks.size <
        n.pendingBlocks.size := by
      rw [hkept]
      exact (JsMap.size_delete_lt hdue).trans_le (JsMap.size_filter_le _ _)
    have hbuf : (replay X C entropy due n.prune.release).1.Buffered := by
      intro k bs hk
      rw [hkept] at hk
      exact hn k bs (JsMap.get?_filter_eq_some.mp (JsMap.get?_filter_eq_some.mp hk).1).1
    split
    · rfl
    · exact ih hbuf (hsize.trans_le (Nat.lt_succ_iff.mp ht))
        (hsize.trans_le (Nat.lt_succ_iff.mp ht'))

/-- The bound in `drainBuffered` is never what stops it. -/
theorem drainBuffered_eq {turns : ℕ} {n : GossipNode} (h : NodeRun X C src .new n)
    (ht : n.pendingBlocks.size < turns) :
    drainBuffered X C entropy n = drainLoop X C entropy turns n :=
  drainLoop_stable h.buffered (Nat.lt_succ_self _) ht

end Runs

/-! ## Moves -/

section Moves

variable (X : LedgerExternals)

/-- What happens at a node: a message comes in, or it is asked to propose. -/
inductive NodeMove (C : GossipConfig) (src : GossipMessage → Prop) :
    GossipNode → GossipNode → Prop
  /-- a delivery -/
  | deliver {n : GossipNode} (entropy : Bytes → Bytes) {m : GossipMessage} (hm : src m) :
      NodeMove C src n (onMessage X C entropy m n).1
  /-- a call of `proposeIfLeader` -/
  | propose {n : GossipNode} (entropy : Bytes → Bytes) (payloadRoot : String)
      (timestamp : JsNum) :
      NodeMove C src n (proposeIfLeader X C entropy payloadRoot timestamp n).1

/-- The states a node goes through between calls, when each message meets `guard` in the
state it is delivered in. -/
def NodeHistory (C : GossipConfig) (guard : GossipNode → GossipMessage → Prop)
    (n : GossipNode) : Prop :=
  Relation.ReflTransGen (fun m m' => NodeMove X C (guard m) m m') .new n

variable {X} {C : GossipConfig}

theorem NodeMove.run {src : GossipMessage → Prop} {n n' : GossipNode}
    (h : NodeMove X C src n n') : NodeRun X C src n n' := by
  cases h with
  | deliver entropy hm => exact onMessage_run entropy hm n
  | propose entropy payloadRoot timestamp =>
    exact proposeIfLeader_run entropy payloadRoot timestamp n

theorem NodeMove.mono {src src' : GossipMessage → Prop} {n n' : GossipNode}
    (hsrc : ∀ m, src m → src' m) (h : NodeMove X C src n n') : NodeMove X C src' n n' := by
  cases h with
  | deliver entropy hm => exact .deliver entropy (hsrc _ hm)
  | propose entropy payloadRoot timestamp => exact .propose entropy payloadRoot timestamp

namespace NodeHistory

variable {guard : GossipNode → GossipMessage → Prop} {n : GossipNode}

/-- What every move keeps holds all along a history. -/
theorem invariant {P : GossipNode → Prop} (h : NodeHistory X C guard n) (hnew : P .new)
    (hmove : ∀ {m m' : GossipNode}, NodeMove X C (guard m) m m' → P m → P m') : P n := by
  induction h with
  | refl => exact hnew
  | tail _ hlast ih => exact hmove hlast ih

/-- A history is one long run. -/
theorem run (h : NodeHistory X C guard n) : NodeRun X C (fun _ => True) .new n := by
  refine h.invariant .refl fun {m m'} hmove hrun => ?_
  have hany : NodeMove X C (fun _ => True) m m' := hmove.mono fun _ _ => trivial
  exact hrun.trans hany.run

end NodeHistory

end Moves

end Nerion
