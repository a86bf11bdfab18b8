import Nerion.GossipPrune

/-!
# The index by validator, at every call of `onAttestation`

`hashesByValidator` is there to bound how many hashes one validator can have in the pool, so the
check is worth as much as the index is exact. A node calls `onAttestation` for a message, and again
for each block it attests while it handles one, also while it replays buffered blocks; the pool and
the index change in between, and the sweep of `drainBuffered` rebuilds the index in the middle.

The calls that a handler makes are listed here with the node they are made on, next to the handler
they belong to.

* `onMessage_traced`, `proposeIfLeader_traced` — each listed call is made on a node that a run of
  elementary steps reaches, and nothing enters the pool but at one of them;
* `Mirrored.admits_iff` — on a node whose index is that of the pool, the check counts the hashes in
  the pool;
* `index_mirrors_pool` — which is so after every message and at every call.
-/

namespace Nerion

/-! ## The calls -/

/-- A call of `onAttestation`. -/
structure AttestationCall where
  /-- the attestation -/
  att : Attestation
  /-- the node, before the call -/
  node : GossipNode

/-- The calls made by what comes after a handler; after a throw there are none. -/
def Handled.thenCalls (r : Handled) (next : GossipNode → List AttestationCall) :
    List AttestationCall :=
  match r with
  | (n, none) => next n
  | (_, some _) => []

theorem Handled.thenCalls_nil (r : Handled) : (r.thenCalls fun _ => []) = [] := by
  obtain ⟨n, _ | e⟩ := r <;> rfl

section Calls

variable (X : LedgerExternals) (C : GossipConfig)

/-- The calls made by `attestBlock`: the node's own attestation. -/
def attestBlockCalls (entropy : Bytes → Bytes) (h : String) (block : Block) (n : GossipNode) :
    List AttestationCall :=
  match n.attestedAt.get? block.header.height with
  | none =>
    if 0 < stakeOf C.ledger.set (C.id X) then
      match attest X C.ledger block C.key entropy with
      | .error _ => []
      | .ok att => [⟨att, (n.vote block.header.height h).sign att⟩]
    else []
  | some _ => []

/-- The calls made by `onBlock`. -/
def onBlockCalls (entropy : Bytes → Bytes) (flood : Bool) (block : Block) (n : GossipNode) :
    List AttestationCall :=
  if n.passed block then []
  else if JsNum.lt n.height block.header.height then []
  else
    match blockHash X block.header with
    | .error _ => []
    | .ok h =>
      if n.knownBlocks.has h then []
      else if maxKnownAtHeight ≤ n.knownBlocks.size then []
      else attestBlockCalls X C entropy h block (n.know flood h block)

/-- The calls made while buffered blocks are replayed. -/
def replayCalls (entropy : Bytes → Bytes) : List Block → GossipNode → List AttestationCall
  | [], _ => []
  | b :: bs, n => onBlockCalls X C entropy false b n ++
      (onBlock X C entropy false b n).thenCalls (replayCalls entropy bs)

/-- The calls made in the turns of `drainBuffered`. -/
def drainLoopCalls (entropy : Bytes → Bytes) : ℕ → GossipNode → List AttestationCall
  | 0, _ => []
  | turns + 1, n =>
    match n.prune.pendingBlocks.get? n.height with
    | none => []
    | some due => replayCalls X C entropy due n.prune.release ++
      (replay X C entropy due n.prune.release).thenCalls fun n' =>
        if JsNum.strictEq n'.height n.height then [] else drainLoopCalls entropy turns n'

/-- The calls made by `drainBuffered`. -/
def drainBufferedCalls (entropy : Bytes → Bytes) (n : GossipNode) : List AttestationCall :=
  drainLoopCalls X C entropy (n.pendingBlocks.size + 1) n

/-- The calls made by `onMessage`. -/
def onMessageCalls (entropy : Bytes → Bytes) (m : GossipMessage) (n : GossipNode) :
    List AttestationCall :=
  match m with
  | .block block => onBlockCalls X C entropy true block n ++
      (onBlock X C entropy true block n).thenCalls (drainBufferedCalls X C entropy)
  | .attestation att => ⟨att, n⟩ ::
      (onAttestation X C att n).thenCalls (drainBufferedCalls X C entropy)

/-- The calls made by `proposeIfLeader`. -/
def proposeIfLeaderCalls (entropy : Bytes → Bytes) (payloadRoot : String) (timestamp : JsNum)
    (n : GossipNode) : List AttestationCall :=
  let round := canonicalRound n.height
  match selectLeader X C.ledger.set (headHash n.chain) round with
  | .error _ => []
  | .ok leader =>
    if leader ≠ C.id X then []
    else
      match propose X C.ledger n.chain payloadRoot round timestamp C.key entropy with
      | .error _ => []
      | .ok block => onBlockCalls X C entropy true block n ++
          (onBlock X C entropy true block n).thenCalls (drainBufferedCalls X C entropy)

end Calls

/-! ## The calls of a handler are made along its run -/

section Traced

variable (X : LedgerExternals) (C : GossipConfig)

/-- The calls of `onAttestation` on the way from one node to another. -/
structure Traced (src : GossipMessage → Prop) (n n' : GossipNode) (calls : List AttestationCall) :
    Prop where
  /-- the way is a run -/
  run : NodeRun X C src n n'
  /-- each call is made on it -/
  reached : ∀ call ∈ calls, NodeRun X C src n call.node
  /-- what is sent on was taken into the pool by one of them -/
  pooled : ∀ a, .attestation a ∈ n'.sent → .attestation a ∈ n.sent ∨
    ∃ call ∈ calls, call.att = a ∧ admits call.node a = true

variable {X C} {src : GossipMessage → Prop} {n n' n'' : GossipNode}
  {calls calls' : List AttestationCall}

theorem Traced.trans (h : Traced X C src n n' calls) (h' : Traced X C src n' n'' calls') :
    Traced X C src n n'' (calls ++ calls') := by
  refine ⟨h.run.trans h'.run, fun call hcall => ?_, fun a ha => ?_⟩
  · rcases List.mem_append.mp hcall with hcall | hcall
    · exact h.reached call hcall
    · exact h.run.trans (h'.reached call hcall)
  · rcases h'.pooled a ha with ha | ⟨call, hcall, hpool⟩
    · rcases h.pooled a ha with ha | ⟨call, hcall, hpool⟩
      · exact .inl ha
      · exact .inr ⟨call, List.mem_append_left _ hcall, hpool⟩
    · exact .inr ⟨call, List.mem_append_right _ hcall, hpool⟩

/-- Steps that send no attestation make no call. -/
theorem Traced.quiet (hrun : NodeRun X C src n n')
    (hsent : ∀ a, .attestation a ∈ n'.sent → .attestation a ∈ n.sent) :
    Traced X C src n n' [] :=
  ⟨hrun, fun _ hcall => absurd hcall List.not_mem_nil, fun a ha => .inl (hsent a ha)⟩

theorem Traced.refl (n : GossipNode) : Traced X C src n n [] := .quiet .refl fun _ ha => ha

/-- What comes after a handler. -/
theorem Traced.andThen {r : Handled} {next : GossipNode → Handled}
    {nextCalls : GossipNode → List AttestationCall} (h : Traced X C src n r.1 calls)
    (hnext : ∀ m, Traced X C src m (next m).1 (nextCalls m)) :
    Traced X C src n (r.andThen next).1 (calls ++ r.thenCalls nextCalls) := by
  obtain ⟨m, _ | e⟩ := r
  · exact h.trans (hnext m)
  · rw [Handled.thenCalls, List.append_nil]
    exact h

theorem sent_tryFinalize (hash : String) (n : GossipNode) :
    (tryFinalize X C hash n).sent = n.sent := by
  rw [tryFinalize]
  split
  · rfl
  rcases n.knownBlocks.get? hash with _ | block
  · rfl
  dsimp only
  split
  · rfl
  rcases submit X C.ledger n.chain block (n.attestationsFor hash) with _ | ⟨fb, chain⟩ <;> rfl

theorem tryFinalize_traced (hash : String) (n : GossipNode) :
    Traced X C src n (tryFinalize X C hash n) [] :=
  .quiet (tryFinalize_run hash n) fun a ha => by rwa [sent_tryFinalize] at ha

/-- The call itself: it pools what it admits. -/
theorem onAttestation_traced {att : Attestation} {n : GossipNode}
    (hsource : att ∈ n.signed ∨ src (.attestation att)) :
    Traced X C src n (onAttestation X C att n).1 [⟨att, n⟩] := by
  refine ⟨onAttestation_run hsource, fun call hcall => ?_, fun a ha => ?_⟩
  · rw [List.mem_singleton.mp hcall]
  rw [onAttestation] at ha
  split at ha
  · exact .inl ha
  split at ha
  · exact .inl ha
  rcases hsig : verifyAttestationSig X att C.ledger.set with _ | _ | _ <;> rw [hsig] at ha
  · exact .inl ha
  · exact .inl ha
  dsimp only at ha
  split at ha
  · exact .inl ha
  rename_i hadmits
  rw [sent_tryFinalize] at ha
  rcases List.mem_append.mp ha with ha | ha
  · exact .inl ha
  · obtain rfl := GossipMessage.attestation.inj (List.mem_singleton.mp ha)
    exact .inr ⟨_, List.mem_singleton_self _, rfl, (Bool.not_eq_false _).mp hadmits⟩

theorem onAttestation_finalize_traced {att : Attestation} {n : GossipNode} (hash : String)
    (hsource : att ∈ n.signed ∨ src (.attestation att)) :
    Traced X C src n
      ((onAttestation X C att n).andThen fun n' => (tryFinalize X C hash n', none)).1
      [⟨att, n⟩] := by
  have h : Traced X C src n
      ((onAttestation X C att n).andThen fun n' => (tryFinalize X C hash n', none)).1
      ([⟨att, n⟩] ++ (onAttestation X C att n).thenCalls fun _ => []) :=
    (onAttestation_traced hsource).andThen (tryFinalize_traced hash)
  rwa [Handled.thenCalls_nil] at h

theorem attestBlock_traced {entropy : Bytes → Bytes} {h : String} {block : Block} {n : GossipNode}
    (hcur : n.Current block) (hhash : blockHash X block.header = .ok h)
    (hknown : n.knownBlocks.get? h = some block) :
    Traced X C src n (attestBlock X C entropy h block n).1
      (attestBlockCalls X C entropy h block n) := by
  rw [attestBlock, attestBlockCalls]
  rcases hat : n.attestedAt.get? block.header.height with _ | already
  · dsimp only
    split
    · rename_i hstake
      rcases hatt : attest X C.ledger block C.key entropy with e | att
      · exact .quiet (.single (.abstain hcur hknown hat)) fun _ ha => ha
      · -- the attestation signed is one of the block's hash
        obtain ⟨hhash', -, -, -⟩ := attest_eq_ok hatt
        obtain rfl : h = att.blockHash := Except.ok.inj (hhash.symm.trans hhash')
        have hsign : Traced X C src n ((n.vote block.header.height att.blockHash).sign att) [] :=
          .quiet (.single (.attest hcur hknown hat hstake hatt)) fun _ ha => ha
        exact hsign.trans (onAttestation_finalize_traced att.blockHash
          (.inl (List.mem_append_right _ List.mem_cons_self)))
    · exact tryFinalize_traced h n
  · dsimp only
    split
    · rename_i hne
      refine .trans (.quiet (.single (.observe hat hne)) fun a ha => ?_) (tryFinalize_traced h _)
      rw [GossipNode.observe] at ha
      split at ha <;> exact ha
    · exact tryFinalize_traced h n

/-- A block that is sent on is no attestation. -/
theorem attestation_mem_of_append_block {a : Attestation} {block : Block}
    {sent : List GossipMessage} (h : .attestation a ∈ sent ++ [.block block]) :
    .attestation a ∈ sent := by
  rcases List.mem_append.mp h with h | h
  · exact h
  · cases List.mem_singleton.mp h

theorem bufferFuture_traced {block : Block} {n : GossipNode}
    (hahead : JsNum.lt n.height block.header.height = true) :
    Traced X C src n (bufferFuture X block n).1 [] := by
  refine .quiet (bufferFuture_held (P := fun _ => True) trivial hahead).run fun a ha => ?_
  rw [bufferFuture] at ha
  split at ha
  · exact ha
  rcases hhash : blockHash X block.header with _ | h <;> rw [hhash] at ha
  · exact ha
  dsimp only at ha
  split at ha
  · exact ha
  split at ha
  · exact ha
  · exact attestation_mem_of_append_block ha

theorem onBlock_traced (entropy : Bytes → Bytes) (flood : Bool) (block : Block) (n : GossipNode) :
    Traced X C src n (onBlock X C entropy flood block n).1
      (onBlockCalls X C entropy flood block n) := by
  rw [onBlock, onBlockCalls]
  split
  · exact .refl n
  rename_i hlive
  split
  · rename_i hahead
    exact bufferFuture_traced hahead
  rename_i hreached
  rcases hhash : blockHash X block.header with _ | h
  · exact .refl n
  dsimp only
  split
  · exact .refl n
  rename_i hnew
  split
  · exact .refl n
  rename_i hcap
  have hcur : n.Current block := ⟨(Bool.not_eq_true _).mp hlive, (Bool.not_eq_true _).mp hreached⟩
  have hknow : Traced X C src n (n.know flood h block) [] := by
    refine .quiet (.single (.know hcur hhash ((Bool.not_eq_true _).mp hnew) (not_le.mp hcap)))
      fun a ha => ?_
    cases flood with
    | false => exact ha
    | true => exact attestation_mem_of_append_block ha
  refine hknow.trans (attestBlock_traced ⟨hcur.live, hcur.reached⟩ hhash ?_)
  exact (JsMap.get?_set _ _ _ _).trans (if_pos rfl)

theorem replay_traced (entropy : Bytes → Bytes) (due : List Block) (n : GossipNode) :
    Traced X C src n (replay X C entropy due n).1 (replayCalls X C entropy due n) := by
  induction due generalizing n with
  | nil => exact .refl n
  | cons b bs ih => exact (onBlock_traced entropy false b n).andThen ih

theorem drainLoop_traced (entropy : Bytes → Bytes) (turns : ℕ) (n : GossipNode) :
    Traced X C src n (drainLoop X C entropy turns n).1 (drainLoopCalls X C entropy turns n) := by
  induction turns generalizing n with
  | zero => exact .refl n
  | succ turns ih =>
    rw [drainLoop, drainLoopCalls]
    have hprune : Traced X C src n n.prune [] := .quiet (.single .prune) fun _ ha => ha
    rcases n.prune.pendingBlocks.get? n.height with _ | due
    · exact hprune
    have hrelease : Traced X C src n n.prune.release [] :=
      hprune.trans (.quiet (.single .release) fun _ ha => ha)
    refine hrelease.trans ((replay_traced entropy due _).andThen fun m => ?_)
    split
    · exact .refl m
    · exact ih m

theorem drainBuffered_traced (entropy : Bytes → Bytes) (n : GossipNode) :
    Traced X C src n (drainBuffered X C entropy n).1 (drainBufferedCalls X C entropy n) :=
  drainLoop_traced entropy _ n

/-- **The calls of `onMessage`.** -/
theorem onMessage_traced (entropy : Bytes → Bytes) {m : GossipMessage} (hm : src m)
    (n : GossipNode) :
    Traced X C src n (onMessage X C entropy m n).1 (onMessageCalls X C entropy m n) := by
  cases m with
  | block block =>
    exact (onBlock_traced entropy true block n).andThen (drainBuffered_traced entropy)
  | attestation att =>
    exact (onAttestation_traced (.inr hm)).andThen (drainBuffered_traced entropy)

/-- **The calls of `proposeIfLeader`.** -/
theorem proposeIfLeader_traced (entropy : Bytes → Bytes) (payloadRoot : String) (timestamp : JsNum)
    (n : GossipNode) :
    Traced X C src n (proposeIfLeader X C entropy payloadRoot timestamp n).1
      (proposeIfLeaderCalls X C entropy payloadRoot timestamp n) := by
  rw [proposeIfLeader, proposeIfLeaderCalls]
  rcases selectLeader X C.ledger.set (headHash n.chain) (canonicalRound n.height) with _ | leader
  · exact .refl n
  dsimp only
  split
  · exact .refl n
  rcases propose X C.ledger n.chain payloadRoot (canonicalRound n.height) timestamp C.key
      entropy with _ | block
  · exact .refl n
  dsimp only
  have hboth : Traced X C src n
      ((onBlock X C entropy true block n).andThen (drainBuffered X C entropy)).1
      (onBlockCalls X C entropy true block n ++
        (onBlock X C entropy true block n).thenCalls (drainBufferedCalls X C entropy)) :=
    (onBlock_traced entropy true block n).andThen (drainBuffered_traced entropy)
  rcases hr : (onBlock X C entropy true block n).andThen (drainBuffered X C entropy) with
    ⟨n', _ | e⟩ <;> rw [hr] at hboth <;> exact hboth

end Traced

/-! ## The index is that of the pool -/

/-- What the pool alone says about an attestation: it is of a live height, for a free slot, from a
validator with room among the hashes in the pool, and there is room for its hash. -/
structure GossipNode.AdmitsByPool (n : GossipNode) (att : Attestation) : Prop where
  /-- not below the head -/
  live : JsNum.lt att.height n.height = false
  /-- not beyond the window -/
  window : JsNum.lt (n.height + (maxFutureHeights : JsNum)) att.height = false
  /-- the slot is free -/
  free : n.slot att.blockHash att.validator = none
  /-- the validator has fewer hashes in the pool than the cap -/
  validator : (n.pooledHashes att.validator).length < maxHashesPerValidator
  /-- the pool is below its cap -/
  pool : (∃ byV, n.attestations.get? att.blockHash = some byV) ∨
    n.attestations.size < maxAttestedHashes

/-- **The cap counts what is in the pool**, on a node whose index is that of the pool. -/
theorem GossipNode.Mirrored.admits_iff {n : GossipNode} (hmir : n.Mirrored) (att : Attestation) :
    admits n att = true ↔ n.AdmitsByPool att := by
  rw [Nerion.admits_iff]
  constructor
  · intro h
    -- the slot is free, so the hash is not on the validator's list
    have hnew : att.blockHash ∉ n.hashesOf att.validator := by
      intro hmem
      obtain ⟨a, ha⟩ := (hmir.mem _ _).mp hmem
      rw [h.free] at ha
      cases ha
    have hroom := h.validator.resolve_left hnew
    exact ⟨h.live, h.window, h.free, (pooledHashes_length hmir _).trans_lt hroom, h.pool⟩
  · intro h
    have hroom := (pooledHashes_length hmir _).symm.trans_lt h.validator
    exact ⟨h.live, h.window, h.free, .inr hroom, h.pool⟩

/-- **The index mirrors the pool.** After every message and every proposal, whatever was sent, the
index lists for each validator exactly the hashes for which it has an attestation in the pool. It
does so at each call of `onAttestation` made in the middle of a message or a proposal as well, so
that the cap on a validator's hashes is checked against the pool as it is. -/
theorem index_mirrors_pool {X : LedgerExternals} {C : GossipConfig}
    {guard : GossipNode → GossipMessage → Prop} {n : GossipNode} (hn : NodeHistory X C guard n) :
    n.Mirrored ∧
    (∀ entropy m, ∀ call ∈ onMessageCalls X C entropy m n, call.node.Mirrored ∧
      (admits call.node call.att = true ↔ call.node.AdmitsByPool call.att)) ∧
    ∀ entropy payloadRoot timestamp,
      ∀ call ∈ proposeIfLeaderCalls X C entropy payloadRoot timestamp n, call.node.Mirrored ∧
        (admits call.node call.att = true ↔ call.node.AdmitsByPool call.att) := by
  have hmirrored : ∀ {m}, NodeRun X C (fun _ => True) n m → m.Mirrored := fun hrun =>
    (NodeRun.bounded (hn.run.trans hrun)).1
  have hcall : ∀ {calls n'}, Traced X C (fun _ => True) n n' calls → ∀ call ∈ calls,
      call.node.Mirrored ∧ (admits call.node call.att = true ↔
        call.node.AdmitsByPool call.att) := by
    intro calls n' htraced call hmem
    have hmir := hmirrored (htraced.reached call hmem)
    exact ⟨hmir, hmir.admits_iff call.att⟩
  exact ⟨hmirrored .refl, fun entropy m => hcall (onMessage_traced entropy trivial n),
    fun entropy payloadRoot timestamp =>
      hcall (proposeIfLeader_traced entropy payloadRoot timestamp n)⟩

/-- An attestation of the sole validator for a block nobody has, three heights ahead. -/
def orphanAttestation : Attestation where
  blockHash := "ff"
  height := 3
  validator := "00"
  suite := "PS-5"
  sig := hexToBytesLocal "00" ++ valueOr [] (attestMessage symbolicExternals "PS-5" 3 "ff"
    (symbolicSetId pairLedger.set))

/-- The listener gets it. -/
def orphanPooled : GossipNode :=
  (onMessage symbolicExternals listener id (.attestation orphanAttestation) .new).1

/-- `index_mirrors_pool` for a listener that is handed an attestation twice. -/
theorem index_mirrors_pool_orphan :
    orphanPooled.Mirrored ∧ ∃ call ∈ onMessageCalls symbolicExternals listener id
      (.attestation orphanAttestation) orphanPooled, call.node.Mirrored := by
  have hhistory : NodeHistory symbolicExternals listener (fun _ _ => True) orphanPooled := by
    rw [orphanPooled]
    exact .single (.deliver id trivial)
  obtain ⟨hmir, hcalls, -⟩ := index_mirrors_pool hhistory
  have hfirst : (⟨orphanAttestation, orphanPooled⟩ : AttestationCall) ∈
      onMessageCalls symbolicExternals listener id (.attestation orphanAttestation)
        orphanPooled := List.mem_cons_self
  exact ⟨hmir, _, hfirst, (hcalls id _ _ hfirst).1⟩

end Nerion
