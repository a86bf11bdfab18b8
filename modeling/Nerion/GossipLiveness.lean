import Nerion.GossipPool

/-!
# Liveness of a gossip node

A node finalizes a block of its height as soon as it has the block and enough attestations
of it: between two messages there is no known block left that the ledger would accept with
the attestations pooled for it (`Tried`). So whether a delivery can be censored comes down
to whether the block and the attestations get into the node's maps, which have caps and
keep what came first.

* `NodeHistory.tried` — a node between two messages has tried everything it knows;
* `censorship_free` — a block and the attestations that finalize it, delivered in any order
  and in any company, move the head, if each finds room when it comes;
* `corrupted_copy_censors` — a copy of the block with another signature takes its place.
-/

namespace Nerion

section Tried

variable {X : LedgerExternals} {C : GossipConfig} {src : GossipMessage → Prop} {n n' : GossipNode}
  {hash : String} {att : Attestation} {entropy : Bytes → Bytes}

/-- The node's key signs, if the node is one that attests. -/
def SignsWith (X : LedgerExternals) (C : GossipConfig) : Prop :=
  0 < stakeOf C.ledger.set (C.id X) → ∀ signer, X.signerFor C.ledger.suite = .ok signer →
    ∀ msg entropy, ∃ sig, signer.sign msg C.key.secretKey entropy = .ok sig

/-- Trying a hash again would change nothing: it is final, or its block is not known, not of
the current height, or not accepted by the ledger with the attestations at hand. -/
def Stuck (X : LedgerExternals) (C : GossipConfig) (n : GossipNode) (hash : String) : Prop :=
  hash ∈ n.finalizedHashes ∨ ∀ block, n.knownBlocks.get? hash = some block →
    JsNum.strictEq block.header.height n.height = true →
    ∀ r, submit X C.ledger n.chain block (n.attestationsFor hash) ≠ .ok r

/-- Everything has been tried. -/
def Tried (X : LedgerExternals) (C : GossipConfig) (n : GossipNode) : Prop :=
  ∀ hash, Stuck X C n hash

/-- No known block is ahead. -/
def GossipNode.Reached (n : GossipNode) : Prop :=
  ∀ h b, n.knownBlocks.get? h = some b → JsNum.lt n.height b.header.height = false

theorem NodeStep.reached (h : NodeStep X C src n n') (hn : n.Reached) : n'.Reached := by
  cases h with
  | know hcur _ _ _ =>
    intro h b hb
    change (n.knownBlocks.set _ _).get? h = some b at hb
    rw [JsMap.get?_set] at hb
    split at hb
    · cases hb
      exact hcur.reached
    · exact hn h b hb
  | finalize hnew hknown hsubmit =>
    have hstep : NodeRun X C src n _ := .single (.finalize hnew hknown hsubmit)
    exact fun h b hb => hstep.not_lt (hn h b hb)
  | prune => exact fun h b hb => hn h b (JsMap.get?_filter_eq_some.mp hb).1
  | observe _ _ =>
    rw [GossipNode.observe]
    split <;> exact hn
  | attest _ _ _ _ _ => exact hn
  | abstain _ _ _ => exact hn
  | pool _ _ _ _ _ => exact hn
  | buffer _ _ _ _ _ => exact hn
  | release => exact hn

theorem NodeRun.reached (h : NodeRun X C src n n') (hn : n.Reached) : n'.Reached :=
  h.preserves (fun hstep hm => hstep.reached hm) hn

/-- Whether a hash is stuck depends on a few fields. -/
theorem Stuck.congr (h : Stuck X C n hash) (hchain : n'.chain = n.chain)
    (hfin : n'.finalizedHashes = n.finalizedHashes)
    (hknown : n'.knownBlocks.get? hash = n.knownBlocks.get? hash)
    (hatts : n'.attestationsFor hash = n.attestationsFor hash) : Stuck X C n' hash := by
  rw [Stuck, hfin, hknown, hatts, hchain, GossipNode.height, hchain]
  exact h

/-- **Trying one hash settles it.** If it was the only one left, everything has been tried:
either the ledger does not accept the block, or the head moves past every known block. -/
theorem tryFinalize_tried (hreached : n.Reached)
    (hothers : ∀ hash', hash' ≠ hash → Stuck X C n hash') : Tried X C (tryFinalize X C hash n) := by
  have hall : Stuck X C n hash → Tried X C n := by
    intro hself hash'
    by_cases heq : hash' = hash
    · exact heq ▸ hself
    · exact hothers hash' heq
  rw [tryFinalize]
  split
  · rename_i hmem
    exact hall (.inl hmem)
  rcases hknown : n.knownBlocks.get? hash with _ | block
  · refine hall (.inr fun block hblock => ?_)
    rw [hknown] at hblock
    cases hblock
  dsimp only
  split
  · rename_i hheight
    refine hall (.inr fun block' hblock hheight' => ?_)
    obtain rfl : block = block' := Option.some.inj (hknown.symm.trans hblock)
    rw [hheight] at hheight'
    cases hheight'
  rcases hsubmit : submit X C.ledger n.chain block (n.attestationsFor hash) with e | ⟨fb, chain⟩
  · refine hall (.inr fun block' hblock _ r hr => ?_)
    obtain rfl : block = block' := Option.some.inj (hknown.symm.trans hblock)
    rw [hsubmit] at hr
    cases hr
  · -- the head has moved by one, and no known block is that high
    intro hash'
    refine .inr fun block' hblock hheight => ?_
    have hlen := submit_length hsubmit
    have hnot := hreached hash' block' hblock
    have hnext : block'.header.height = ((n.chain.length + 1 : ℕ) : JsNum) := by
      rw [← hlen]
      exact (JsNum.strictEq_iff.mp hheight).2
    rw [hnext, GossipNode.height, ledgerHeight, JsNum.lt_natCast, decide_eq_false_iff_not] at hnot
    exact absurd (Nat.lt_succ_self _) hnot

/-! ## The handlers leave nothing untried -/

theorem attestationsFor_pool_of_ne (h : hash ≠ att.blockHash) :
    (n.pool att).attestationsFor hash = n.attestationsFor hash := by
  have hget : (n.pool att).attestations.get? hash = n.attestations.get? hash :=
    (JsMap.get?_set _ _ _ _).trans (if_neg h)
  rw [GossipNode.attestationsFor, GossipNode.attestationsFor, hget]

theorem onAttestation_others (hreached : n.Reached)
    (hothers : ∀ hash', hash' ≠ att.blockHash → Stuck X C n hash') :
    ∀ hash', hash' ≠ att.blockHash → Stuck X C (onAttestation X C att n).1 hash' := by
  rw [onAttestation]
  split
  · exact hothers
  split
  · exact hothers
  split
  · exact hothers
  · exact hothers
  split
  · exact hothers
  · intro hash' _
    refine tryFinalize_tried (n := n.pool att) hreached (fun hash'' hne => ?_) hash'
    exact (hothers hash'' hne).congr rfl rfl rfl (attestationsFor_pool_of_ne hne)

theorem onAttestation_tried (hreached : n.Reached) (hn : Tried X C n) :
    Tried X C (onAttestation X C att n).1 := by
  rw [onAttestation]
  split
  · exact hn
  split
  · exact hn
  split
  · exact hn
  · exact hn
  split
  · exact hn
  · refine tryFinalize_tried (n := n.pool att) hreached fun hash' hne => ?_
    exact (hn hash').congr rfl rfl rfl (attestationsFor_pool_of_ne hne)

/-- A signer that threw on a block has nothing to sign with: the ledger does not accept the
block either, since an attestation of it would have to verify. -/
theorem stuck_of_attest_error (hsign : SignsWith X C) (hstake : 0 < stakeOf C.ledger.set (C.id X))
    {block : Block} {e : JsError} (hhash : blockHash X block.header = .ok hash)
    (hknown : n.knownBlocks.get? hash = some block)
    (herr : attest X C.ledger block C.key entropy = .error e) : Stuck X C n hash := by
  refine .inr fun block' hblock _ r hr => ?_
  obtain rfl : block = block' := Option.some.inj (hknown.symm.trans hblock)
  obtain ⟨-, -, -, setId, t, hf⟩ := submit_eq_ok (show submit X C.ledger n.chain block
    (n.attestationsFor hash) = .ok (r.1, r.2) from hr)
  obtain ⟨a, -, hat, hsig⟩ := hf.exists_attested
  obtain ⟨hahash, hheight, -, hsuite⟩ := attests_iff.mp hat
  have hsuite := hsuite _ rfl
  -- the attestation that verifies shows that the suite signs and the message encodes
  obtain ⟨id', hid, hsig⟩ := Except.bind_eq_ok hsig
  obtain ⟨msg, hmsg, hsig⟩ := Except.bind_eq_ok hsig
  obtain ⟨signer, hsigner⟩ : ∃ signer, X.signerFor C.ledger.suite = .ok signer := by
    have hverify := Except.ok.inj hsig
    rw [safeVerify, hsuite] at hverify
    rcases hs : X.signerFor C.ledger.suite with e' | signer
    · rw [hs] at hverify
      cases hverify
    · exact ⟨signer, rfl⟩
  rw [hsuite, (JsNum.strictEq_iff.mp hheight).2, hahash,
    Except.ok.inj (hf.hash.symm.trans hhash)] at hmsg
  obtain ⟨sig, hsig'⟩ := hsign hstake signer hsigner msg (entropy msg)
  have hok : attest X C.ledger block C.key entropy =
      .ok ⟨hash, block.header.height, X.bytesToHex C.key.publicKey, C.ledger.suite, sig⟩ :=
    Except.bind_ok hhash (Except.bind_ok hsigner (Except.bind_ok hid (Except.bind_ok hmsg
      (Except.bind_ok hsig' rfl))))
  rw [hok] at herr
  cases herr

/-- What a node has just signed it can check. -/
theorem verifyAttestationSig_of_attest {block : Block}
    (h : attest X C.ledger block C.key entropy = .ok att) :
    ∃ valid, verifyAttestationSig X att C.ledger.set = .ok valid := by
  obtain ⟨hash', -, h⟩ := Except.bind_eq_ok h
  obtain ⟨signer, -, h⟩ := Except.bind_eq_ok h
  obtain ⟨setId, hid, h⟩ := Except.bind_eq_ok h
  obtain ⟨msg, hmsg, h⟩ := Except.bind_eq_ok h
  obtain ⟨sig, -, h⟩ := Except.bind_eq_ok h
  cases h
  exact ⟨_, Except.bind_ok hid (Except.bind_ok hmsg rfl)⟩

theorem attestBlock_tried (hsign : SignsWith X C) {block : Block}
    (hhash : blockHash X block.header = .ok hash) (hknown : n.knownBlocks.get? hash = some block)
    (hreached : n.Reached) (hothers : ∀ hash', hash' ≠ hash → Stuck X C n hash') :
    Tried X C (attestBlock X C entropy hash block n).1 := by
  rw [attestBlock]
  rcases hat : n.attestedAt.get? block.header.height with _ | already
  · dsimp only
    split
    · rename_i hstake
      rcases hatt : attest X C.ledger block C.key entropy with e | att
      · -- the signer threw before anything was tried
        intro hash'
        by_cases heq : hash' = hash
        · subst heq
          exact stuck_of_attest_error hsign hstake hhash hknown hatt
        · exact (hothers hash' heq).congr rfl rfl rfl rfl
      · obtain ⟨hhash', -, -, -⟩ := attest_eq_ok hatt
        obtain rfl : hash = att.blockHash := Except.ok.inj (hhash.symm.trans hhash')
        have hsigned : ∀ hash', hash' ≠ att.blockHash →
            Stuck X C ((n.vote block.header.height att.blockHash).sign att) hash' :=
          fun hash' hne => (hothers hash' hne).congr rfl rfl rfl rfl
        have hrun : NodeRun X C (fun _ => True)
            ((n.vote block.header.height att.blockHash).sign att)
            (onAttestation X C att ((n.vote block.header.height att.blockHash).sign att)).1 :=
          onAttestation_run (.inr trivial)
        have hsame : ((n.vote block.header.height att.blockHash).sign att).Reached := hreached
        have hrest := onAttestation_others hsame hsigned
        have hreached' := hrun.reached hsame
        rcases hr : onAttestation X C att ((n.vote block.header.height att.blockHash).sign att)
          with ⟨m, _ | e⟩
        · rw [hr] at hrest hreached'
          dsimp only
          rw [hr]
          exact tryFinalize_tried hreached' hrest
        · -- what the node has just signed does not make its own handler throw
          obtain ⟨valid, hvalid⟩ := verifyAttestationSig_of_attest hatt
          have hnone : (onAttestation X C att
              ((n.vote block.header.height att.blockHash).sign att)).2 = none := by
            rw [onAttestation, hvalid]
            cases valid <;> dsimp only <;> repeat' split
            all_goals rfl
          rw [hr] at hnone
          cases hnone
    · exact tryFinalize_tried hreached hothers
  · dsimp only
    split
    · refine tryFinalize_tried ?_ fun hash' hne => ?_
      · rw [GossipNode.observe]
        split <;> exact hreached
      · rw [GossipNode.observe]
        split
        · exact (hothers hash' hne).congr rfl rfl rfl rfl
        · exact hothers hash' hne
    · exact tryFinalize_tried hreached hothers

theorem onBlock_tried (hsign : SignsWith X C) (entropy : Bytes → Bytes) (flood : Bool)
    (block : Block) (hreached : n.Reached) (hn : Tried X C n) :
    Tried X C (onBlock X C entropy flood block n).1 := by
  rw [onBlock]
  split
  · exact hn
  rename_i hlive
  split
  · simp only [bufferFuture]
    repeat' split
    all_goals exact hn
  rename_i hahead
  rcases hhash : blockHash X block.header with e | h
  · exact hn
  dsimp only
  split
  · exact hn
  rename_i hnew
  split
  · exact hn
  rename_i hcap
  have hcur : n.Current block := ⟨(Bool.not_eq_true _).mp hlive, (Bool.not_eq_true _).mp hahead⟩
  have hstep : NodeStep X C (fun _ => True) n (n.know flood h block) :=
    .know hcur hhash ((Bool.not_eq_true _).mp hnew) (not_le.mp hcap)
  refine attestBlock_tried hsign hhash ?_ (hstep.reached hreached) fun hash' hne => ?_
  · exact (JsMap.get?_set _ _ _ _).trans (if_pos rfl)
  · exact (hn hash').congr rfl rfl ((JsMap.get?_set _ _ _ _).trans (if_neg hne)) rfl

theorem replay_tried (hsign : SignsWith X C) (entropy : Bytes → Bytes) (due : List Block)
    (hreached : n.Reached) (hn : Tried X C n) : Tried X C (replay X C entropy due n).1 := by
  induction due generalizing n with
  | nil => exact hn
  | cons b bs ih =>
    have hrun : NodeRun X C (fun _ => True) n (onBlock X C entropy false b n).1 :=
      onBlock_run entropy false b n
    have hb := onBlock_tried hsign entropy false b hreached hn
    have hreached' := hrun.reached hreached
    rw [replay]
    rcases hr : onBlock X C entropy false b n with ⟨m, _ | e⟩
    · rw [hr] at hb hreached'
      exact ih hreached' hb
    · rw [hr] at hb
      exact hb

/-- The sweep leaves nothing to try: a hash keeps its attestations or loses them all, and
without attestations nothing is final. -/
theorem prune_tried (hn : Tried X C n) : Tried X C n.prune := by
  intro hash
  rcases hn hash with hmem | hstuck
  · exact .inl hmem
  refine .inr fun block hblock hheight r hr => ?_
  have hknown := (JsMap.get?_filter_eq_some.mp hblock).1
  rcases hlive : n.livePool.get? hash with _ | byV
  · have hnil : n.prune.attestationsFor hash = [] := by
      have hpruned : n.prune.attestations.get? hash = none := hlive
      rw [GossipNode.attestationsFor, hpruned]
    rw [hnil] at hr
    obtain ⟨-, -, -, setId, t, hf⟩ := submit_eq_ok (show submit X C.ledger n.chain block [] =
      .ok (r.1, r.2) from hr)
    obtain ⟨a, ha, -⟩ := hf.exists_attested
    exact List.not_mem_nil ha
  · have hsame : n.prune.attestationsFor hash = n.attestationsFor hash := by
      have hold := (GossipNode.get?_livePool.mp hlive).1
      have hpruned : n.prune.attestations.get? hash = some byV := hlive
      rw [GossipNode.attestationsFor, GossipNode.attestationsFor, hpruned, hold]
    rw [hsame] at hr
    exact hstuck block hknown hheight r hr

theorem drainLoop_tried (hsign : SignsWith X C) (entropy : Bytes → Bytes) {turns : ℕ}
    (hreached : n.Reached) (hn : Tried X C n) : Tried X C (drainLoop X C entropy turns n).1 := by
  induction turns generalizing n with
  | zero => exact hn
  | succ turns ih =>
    have hpruned := prune_tried hn
    rw [drainLoop]
    rcases n.prune.pendingBlocks.get? n.height with _ | due
    · exact hpruned
    have hreleased : Tried X C n.prune.release :=
      fun hash => (hpruned hash).congr rfl rfl rfl rfl
    have hrun : NodeRun X C (fun _ => True) n n.prune.release := .tail (.single .prune) .release
    have hrun' : NodeRun X C (fun _ => True) n.prune.release
        (replay X C entropy due n.prune.release).1 := replay_run entropy due _
    have hreplayed := replay_tried hsign entropy due (hrun.reached hreached) hreleased
    have hreached' := hrun'.reached (hrun.reached hreached)
    dsimp only
    rcases hr : replay X C entropy due n.prune.release with ⟨m, _ | e⟩
    · rw [hr] at hreplayed hreached'
      rw [Handled.andThen]
      split
      · exact hreplayed
      · exact ih hreached' hreplayed
    · rw [hr] at hreplayed
      exact hreplayed

theorem NodeMove.tried (hsign : SignsWith X C) (h : NodeMove X C src n n')
    (hreached : n.Reached) (hn : Tried X C n) : Tried X C n' := by
  have hdrain : ∀ {r : Handled} {entropy : Bytes → Bytes}, NodeRun X C src n r.1 →
      Tried X C r.1 → Tried X C (r.andThen (drainBuffered X C entropy)).1 := by
    rintro ⟨m, _ | e⟩ entropy hrun hm
    · exact drainLoop_tried hsign entropy (hrun.reached hreached) hm
    · exact hm
  rcases h.inv with rfl | ⟨entropy, block, -, rfl⟩ | ⟨entropy, att, hatt, rfl⟩
  · exact hn
  · exact hdrain (onBlock_run entropy true block n)
      (onBlock_tried hsign entropy true block hreached hn)
  · exact hdrain (onAttestation_run (.inr hatt)) (onAttestation_tried hreached hn)

/-- **A node between two messages has tried everything it knows.** -/
theorem NodeHistory.tried {guard : GossipNode → GossipMessage → Prop} (hsign : SignsWith X C)
    (h : NodeHistory X C guard n) : n.Reached ∧ Tried X C n := by
  refine h.invariant (P := fun m => m.Reached ∧ Tried X C m) ⟨?_, ?_⟩ ?_
  · intro h b hb
    cases hb
  · intro hash
    refine .inr fun block hblock => ?_
    cases hblock
  · rintro m m' hmove ⟨hreached, htried⟩
    exact ⟨hmove.run.reached hreached, hmove.tried hsign hreached htried⟩

end Tried

/-! ## What stays while the head does not move -/

section Quiet

variable {X : LedgerExternals} {C : GossipConfig} {src : GossipMessage → Prop} {n n' : GossipNode}
  {hash : String} {ms : List ((Bytes → Bytes) × GossipMessage)}

theorem NodeStep.knows (h : NodeStep X C src n n') (hset : n.Settled) {block : Block}
    (hknown : n.knownBlocks.get? hash = some block) : n'.knownBlocks.get? hash = some block := by
  cases h with
  | know _ _ hnew _ =>
    refine (JsMap.get?_set _ _ _ _).trans ?_
    rw [if_neg]
    · exact hknown
    · rintro rfl
      rw [JsMap.has, hknown] at hnew
      cases hnew
  | prune =>
    refine JsMap.get?_filter_eq_some.mpr ⟨hknown, ?_⟩
    rw [hset.known hash block hknown]
    rfl
  | observe _ _ =>
    rw [GossipNode.observe]
    split <;> exact hknown
  | _ => exact hknown

theorem NodeStep.holds (h : NodeStep X C src n n') (hset : n.Settled) {v : String}
    {a : Attestation} (hslot : n.slot hash v = some a) : n'.slot hash v = some a := by
  cases h with
  | pool _ _ _ _ hadmits =>
    rw [GossipNode.slot_pool, if_neg]
    · exact hslot
    · rintro ⟨rfl, rfl⟩
      have hfree := (admits_iff.mp hadmits).free
      rw [hslot] at hfree
      cases hfree
  | prune =>
    obtain ⟨byV, hby, ha⟩ := GossipNode.slot_eq_some.mp hslot
    refine GossipNode.slot_eq_some.mpr ⟨byV, GossipNode.get?_livePool.mpr
      ⟨hby, ?_, hset.pooled hash byV hby⟩, ha⟩
    rcases hb : n.knownBlocks.get? hash with _ | b
    · rfl
    · exact hset.known hash b hb
  | observe _ _ =>
    rw [GossipNode.observe]
    split <;> exact hslot
  | _ => exact hslot

/-- **While the head does not move, a settled node forgets no block and no attestation.** -/
theorem NodeRun.quiet (h : NodeRun X C src n n') (hlen : n'.chain.length = n.chain.length)
    (hset : n.Settled) :
    (∀ hash block, n.knownBlocks.get? hash = some block →
      n'.knownBlocks.get? hash = some block) ∧
    ∀ hash v a, n.slot hash v = some a → n'.slot hash v = some a := by
  have hall := h.preserves_of_length_eq (P := fun m => m.Settled ∧
    (∀ hash block, n.knownBlocks.get? hash = some block →
      m.knownBlocks.get? hash = some block) ∧
    ∀ hash v a, n.slot hash v = some a → m.slot hash v = some a) hlen ?_
    ⟨hset, fun _ _ hk => hk, fun _ _ _ hs => hs⟩
  · exact hall.2
  · rintro m m' hstep hlen' ⟨hm, hknown, hslot⟩
    exact ⟨hstep.settled hlen' hm, fun hash block hk => hstep.knows hm (hknown hash block hk),
      fun hash v a hs => hstep.holds hm (hslot hash v a hs)⟩

/-! ## Deliveries -/

/-- Messages are delivered one after the other, each with the randomness drawn then. -/
def deliverAll (X : LedgerExternals) (C : GossipConfig) :
    List ((Bytes → Bytes) × GossipMessage) → GossipNode → GossipNode
  | [], n => n
  | (entropy, m) :: ms, n => deliverAll X C ms (onMessage X C entropy m n).1

theorem deliverAll_append (ms ms' : List ((Bytes → Bytes) × GossipMessage)) (n : GossipNode) :
    deliverAll X C (ms ++ ms') n = deliverAll X C ms' (deliverAll X C ms n) := by
  induction ms generalizing n with
  | nil => rfl
  | cons m ms ih => exact ih _

theorem deliverAll_history (ms : List ((Bytes → Bytes) × GossipMessage))
    (hn : NodeHistory X C (fun _ _ => True) n) :
    NodeHistory X C (fun _ _ => True) (deliverAll X C ms n) := by
  induction ms generalizing n with
  | nil => exact hn
  | cons m ms ih => exact ih (hn.tail (.deliver m.1 trivial))

theorem deliverAll_run (ms : List ((Bytes → Bytes) × GossipMessage)) (n : GossipNode) :
    NodeRun X C (fun _ => True) n (deliverAll X C ms n) := by
  induction ms generalizing n with
  | nil => exact .refl
  | cons m ms ih => exact .trans (onMessage_run m.1 trivial n) (ih _)

/-- A block finds room: the node knows it, or knows no block of its hash and is below the
cap of known blocks. -/
def BlockRoom (block : Block) (h : String) (n : GossipNode) : Prop :=
  n.knownBlocks.get? h = some block ∨
    (n.knownBlocks.get? h = none ∧ n.knownBlocks.size < maxKnownAtHeight)

/-- An attestation finds room: the pool admits it, or its slot holds one of its height. -/
def AttestationRoom (a : Attestation) (n : GossipNode) : Prop :=
  admits n a = true ∨ ∃ a', n.slot a.blockHash a.validator = some a' ∧ a'.height = a.height

/-- A message is among those delivered, and finds room when it comes, unless the head has
moved by then. -/
def DeliveredWith (X : LedgerExternals) (C : GossipConfig)
    (ms : List ((Bytes → Bytes) × GossipMessage)) (n : GossipNode) (m : GossipMessage)
    (room : GossipNode → Prop) : Prop :=
  ∃ before entropy after, ms = before ++ (entropy, m) :: after ∧
    (n.chain.length < (deliverAll X C before n).chain.length ∨ room (deliverAll X C before n))

/-- A block of the current height that finds room is known afterwards. -/
theorem onMessage_block_knows {entropy : Bytes → Bytes} {block : Block} (hset : n.Settled)
    (hhash : blockHash X block.header = .ok hash) (hheight : block.header.height = n.height)
    (hroom : BlockRoom block hash n)
    (hlen : (onMessage X C entropy (.block block) n).1.chain.length = n.chain.length) :
    (onMessage X C entropy (.block block) n).1.knownBlocks.get? hash = some block := by
  rcases hroom with hknown | ⟨hnone, hcap⟩
  · have hrun : NodeRun X C (fun _ => True) n (onMessage X C entropy (.block block) n).1 :=
      onMessage_run entropy trivial n
    exact (hrun.quiet hlen hset).1 hash block hknown
  have hself : JsNum.lt n.height block.header.height = false := by
    rw [hheight]
    exact JsNum.lt_natCast.trans (decide_eq_false (lt_irrefl _))
  have hlive : n.passed block = false := by
    rw [GossipNode.passed, hheight]
    exact JsNum.lt_natCast.trans (decide_eq_false (lt_irrefl _))
  have hhas : n.knownBlocks.has hash = false := by
    rw [JsMap.has, hnone]
    rfl
  have hstep : NodeStep X C (fun _ => True) n (n.know true hash block) :=
    .know ⟨hlive, hself⟩ hhash hhas hcap
  have hknown : (n.know true hash block).knownBlocks.get? hash = some block :=
    (JsMap.get?_set _ _ _ _).trans (if_pos rfl)
  have hblock : onBlock X C entropy true block n =
      attestBlock X C entropy hash block (n.know true hash block) := by
    rw [onBlock, hlive, hself, if_neg Bool.false_ne_true, if_neg Bool.false_ne_true, hhash]
    dsimp only
    rw [hhas, if_neg Bool.false_ne_true, if_neg (not_le.mpr hcap)]
  have hrun : NodeRun X C (fun _ => True) (n.know true hash block)
      (onMessage X C entropy (.block block) n).1 := by
    rw [onMessage, hblock]
    exact andThen_run (attestBlock_run ⟨hlive, hself⟩ hhash hknown)
      fun m => drainLoop_run entropy _ m
  exact (hrun.quiet hlen (hstep.settled rfl hset)).1 hash block hknown

/-- A valid attestation that finds room has its slot filled afterwards, at its height. -/
theorem onMessage_attestation_holds {entropy : Bytes → Bytes} {a : Attestation}
    (hset : n.Settled) (hsuite : a.suite = C.ledger.suite)
    (hstake : 0 < stakeOf C.ledger.set a.validator)
    (hsig : verifyAttestationSig X a C.ledger.set = .ok true) (hroom : AttestationRoom a n)
    (hlen : (onMessage X C entropy (.attestation a) n).1.chain.length = n.chain.length) :
    ∃ a', (onMessage X C entropy (.attestation a) n).1.slot a.blockHash a.validator = some a' ∧
      a'.height = a.height := by
  rcases hroom with hadmits | ⟨a', hslot, hheight⟩
  · have hstep : NodeStep X C (fun _ => True) n (n.pool a) :=
      .pool (.inr trivial) hsuite hstake hsig hadmits
    have hrun : NodeRun X C (fun _ => True) (n.pool a)
        (onMessage X C entropy (.attestation a) n).1 := by
      rw [onMessage_attestation
        (onAttestation_of_admitted hsuite hstake hsig (admits_iff.mp hadmits))]
      exact (tryFinalize_run _ _).trans (drainLoop_run entropy _ _)
    refine ⟨a, (hrun.quiet hlen (hstep.settled rfl hset)).2 _ _ _ ?_, rfl⟩
    rw [GossipNode.slot_pool, if_pos ⟨rfl, rfl⟩]
  · have hrun : NodeRun X C (fun _ => True) n (onMessage X C entropy (.attestation a) n).1 :=
      onMessage_run entropy trivial n
    exact ⟨a', (hrun.quiet hlen hset).2 _ _ _ hslot, hheight⟩

/-- Where a message that was delivered left the node, when the head does not move at all. -/
theorem DeliveredWith.split {m : GossipMessage} {room : GossipNode → Prop}
    (h : DeliveredWith X C ms n m room) (hn : NodeHistory X C (fun _ _ => True) n)
    (hlen : (deliverAll X C ms n).chain.length = n.chain.length) :
    ∃ s entropy after, NodeHistory X C (fun _ _ => True) s ∧ s.chain.length = n.chain.length ∧
      room s ∧ (onMessage X C entropy m s).1.chain.length = s.chain.length ∧
      deliverAll X C ms n = deliverAll X C after (onMessage X C entropy m s).1 := by
  obtain ⟨before, entropy, after, rfl, hroom⟩ := h
  have hend : deliverAll X C (before ++ (entropy, m) :: after) n =
      deliverAll X C after (onMessage X C entropy m (deliverAll X C before n)).1 :=
    deliverAll_append _ _ _
  rw [hend] at hlen
  -- the chain is as long all along
  have hbefore : NodeRun X C (fun _ => True) n (deliverAll X C before n) := deliverAll_run before n
  have hmessage : NodeRun X C (fun _ => True) (deliverAll X C before n)
      (onMessage X C entropy m (deliverAll X C before n)).1 := onMessage_run entropy trivial _
  have hafter : NodeRun X C (fun _ => True) (onMessage X C entropy m (deliverAll X C before n)).1
      (deliverAll X C after (onMessage X C entropy m (deliverAll X C before n)).1) :=
    deliverAll_run after _
  have hle := hbefore.length_le
  have hle' := hmessage.length_le
  have hle'' := hafter.length_le.trans_eq hlen
  have hs : (deliverAll X C before n).chain.length = n.chain.length :=
    (hle'.trans hle'').antisymm hle
  have hs' : (onMessage X C entropy m (deliverAll X C before n)).1.chain.length =
      (deliverAll X C before n).chain.length := (hle''.trans hle).antisymm hle'
  exact ⟨_, entropy, after, deliverAll_history before hn, hs, hroom.resolve_left hs.not_gt, hs',
    hend⟩

theorem DeliveredWith.knows {block : Block}
    (h : DeliveredWith X C ms n (.block block) (BlockRoom block hash))
    (hn : NodeHistory X C (fun _ _ => True) n)
    (hlen : (deliverAll X C ms n).chain.length = n.chain.length)
    (hhash : blockHash X block.header = .ok hash) (hheight : block.header.height = n.height) :
    (deliverAll X C ms n).knownBlocks.get? hash = some block := by
  obtain ⟨s, entropy, after, hs, hslen, hroom, hmlen, hend⟩ := h.split hn hlen
  have hsheight : s.height = n.height := congrArg Nat.cast hslen
  have hknown := onMessage_block_knows hs.settled hhash (hheight.trans hsheight.symm) hroom hmlen
  have hset : (onMessage X C entropy (.block block) s).1.Settled :=
    NodeHistory.settled (hs.tail (.deliver entropy trivial))
  have hafter : NodeRun X C (fun _ => True) (onMessage X C entropy (.block block) s).1
      (deliverAll X C ms n) := hend ▸ deliverAll_run after _
  exact (hafter.quiet (hlen.trans (hmlen.trans hslen).symm) hset).1 hash block hknown

theorem DeliveredWith.holds {a : Attestation}
    (h : DeliveredWith X C ms n (.attestation a) (AttestationRoom a))
    (hn : NodeHistory X C (fun _ _ => True) n)
    (hlen : (deliverAll X C ms n).chain.length = n.chain.length) (hsuite : a.suite = C.ledger.suite)
    (hstake : 0 < stakeOf C.ledger.set a.validator)
    (hsig : verifyAttestationSig X a C.ledger.set = .ok true) :
    ∃ a', (deliverAll X C ms n).slot a.blockHash a.validator = some a' ∧
      a'.height = a.height := by
  obtain ⟨s, entropy, after, hs, hslen, hroom, hmlen, hend⟩ := h.split hn hlen
  obtain ⟨a', hslot, hheight⟩ :=
    onMessage_attestation_holds hs.settled hsuite hstake hsig hroom hmlen
  have hset : (onMessage X C entropy (.attestation a) s).1.Settled :=
    NodeHistory.settled (hs.tail (.deliver entropy trivial))
  have hafter : NodeRun X C (fun _ => True) (onMessage X C entropy (.attestation a) s).1
      (deliverAll X C ms n) := hend ▸ deliverAll_run after _
  exact ⟨a', (hafter.quiet (hlen.trans (hmlen.trans hslen).symm) hset).2 _ _ _ hslot, hheight⟩

end Quiet

/-! ## The theorem -/

/-- **No censorship where there is room.** An honest node at some height, with a signer that
works, is handed messages in any order. Among them are a block of its height on its head and
attestations with which the block finalizes. If the block and each of these attestations
find room when they come, the node leaves the height. -/
theorem censorship_free {X : LedgerExternals} {C : GossipConfig} {n : GossipNode}
    (hsign : SignsWith X C) (hn : NodeHistory X C (fun _ _ => True) n) {block : Block}
    {h : String} {atts : List Attestation} {v : LightClientVerdict}
    (hhash : blockHash X block.header = .ok h)
    (hv : verifyFinalized X block atts C.ledger.set (headHash n.chain) C.ledger.finalityNum
      C.ledger.finalityDen ⟨some n.height, some C.ledger.suite⟩ = .ok v)
    (hfin : v.finalized = true) (hnew : h ∉ n.finalizedHashes)
    (ms : List ((Bytes → Bytes) × GossipMessage))
    (hblock : DeliveredWith X C ms n (.block block) (BlockRoom block h))
    (hatts : ∀ a ∈ atts, attests block h ⟨some n.height, some C.ledger.suite⟩ a = true →
      0 < stakeOf C.ledger.set a.validator → verifyAttestationSig X a C.ledger.set = .ok true →
      DeliveredWith X C ms n (.attestation a) (AttestationRoom a)) :
    JsNum.lt n.height (deliverAll X C ms n).height = true := by
  have hrun : NodeRun X C (fun _ => True) n (deliverAll X C ms n) := deliverAll_run ms n
  rcases hrun.length_le.eq_or_lt with hlen | hlt
  · exfalso
    have hend := deliverAll_history (X := X) (C := C) ms hn
    obtain ⟨hchain, hfinal⟩ := hrun.chain_eq hlen.symm
    obtain ⟨h', setId, t, hf⟩ := verifyFinalized_finalized_iff.mp ⟨v, hv, hfin⟩
    obtain rfl : h' = h := Except.ok.inj (hf.hash.symm.trans hhash)
    have hheight : block.header.height = n.height := hf.height_eq rfl
    -- the block and the attestations are there at the end
    have hknown := hblock.knows hn hlen.symm hhash hheight
    obtain ⟨t', hf'⟩ := finalizes_of_pool hend.poolSound rfl hf fun a ha hat hstake hsig => by
      obtain ⟨ha', -, -, hsuite⟩ := attests_iff.mp hat
      have hheld := (hatts a ha hat hstake hsig).holds hn hlen.symm (hsuite _ rfl) hstake hsig
      rwa [ha'] at hheld
    -- but then the ledger would have accepted the block
    have hsubmit : ∃ r, submit X C.ledger (deliverAll X C ms n).chain block
        ((deliverAll X C ms n).attestationsFor h') = .ok r := by
      rw [hchain]
      exact submit_of_finalizes hf'
    obtain ⟨r, hr⟩ := hsubmit
    rcases (hend.tried hsign).2 h' with hmem | hstuck
    · exact hnew (hfinal ▸ hmem)
    · refine hstuck block hknown (JsNum.strictEq_iff.mpr ⟨?_, ?_⟩) r hr
      · exact hf.height_ne_nan
      · rw [hheight, GossipNode.height, GossipNode.height, hchain]
  · exact JsNum.lt_natCast.trans (decide_eq_true hlt)

/-! ## A delivery with room and one without -/

/-- The block and the attestation that finalizes it. -/
def plainDelivery : List ((Bytes → Bytes) × GossipMessage) :=
  [(id, .block pairBlock), (id, .attestation (mixedAttestation 0 "00" "b6" 0))]

/-- A follower at height 1: it has had both. -/
def movedFollower : GossipNode := deliverAll checksumExternals follower plainDelivery .new

/-- The block of the next height. -/
def nextBlock : Block :=
  { pairBlock with
    header := ⟨1, "b6", 0, "00", "00", 0, none⟩
    proposerSig := [0] ++ valueOr [] (blockSignMessage checksumExternals "PS-5" "4f") }

/-- The attestation that finalizes it, and the block after it. -/
def nextDelivery : List ((Bytes → Bytes) × GossipMessage) :=
  [(id, .attestation (mixedAttestation 0 "00" "4f" 1)), (id, .block nextBlock)]

/-- `censorship_free` on a follower at height 1 that hears of the attestation and then of the
block. -/
theorem censorship_free_follower :
    movedFollower.height = 1 ∧ JsNum.lt movedFollower.height
      (deliverAll checksumExternals follower nextDelivery movedFollower).height = true := by
  have hsign : SignsWith checksumExternals follower := by
    intro hstake
    exact absurd hstake (by decide +kernel)
  have hhistory : NodeHistory checksumExternals follower (fun _ _ => True) movedFollower :=
    deliverAll_history plainDelivery .refl
  have hblock : DeliveredWith checksumExternals follower nextDelivery movedFollower
      (.block nextBlock) (BlockRoom nextBlock "4f") :=
    ⟨[(id, .attestation (mixedAttestation 0 "00" "4f" 1))], id, [], rfl,
      .inr (.inr (by decide +kernel))⟩
  have hatt : DeliveredWith checksumExternals follower nextDelivery movedFollower
      (.attestation (mixedAttestation 0 "00" "4f" 1))
      (AttestationRoom (mixedAttestation 0 "00" "4f" 1)) :=
    ⟨[], id, [(id, .block nextBlock)], rfl, .inr (.inl (by decide +kernel))⟩
  have hhash : blockHash checksumExternals nextBlock.header = .ok "4f" := by decide +kernel
  have hmoved : movedFollower.height = 1 ∧ "4f" ∉ movedFollower.finalizedHashes ∧
      verifyFinalized checksumExternals nextBlock [mixedAttestation 0 "00" "4f" 1]
        follower.ledger.set (headHash movedFollower.chain) follower.ledger.finalityNum
        follower.ledger.finalityDen ⟨some movedFollower.height, some follower.ledger.suite⟩ =
          .ok ⟨true, true, 6, 8, []⟩ := by
    decide +kernel
  obtain ⟨hheight, hnew, hv⟩ := hmoved
  refine ⟨hheight, censorship_free hsign hhistory hhash hv rfl hnew nextDelivery hblock ?_⟩
  intro a ha _ _ _
  rw [List.mem_singleton.mp ha]
  exact hatt

/-- The block with its proposer's signature taken off. Its hash is the same. -/
def corruptedCopy : Block := { pairBlock with proposerSig := [] }

/-- **A corrupted copy censors the block**: the block finalizes with the attestation, but a
follower that hears of a copy without signature first stays where it is. -/
theorem corrupted_copy_censors :
    blockHash checksumExternals pairBlock.header = .ok "b6" ∧
    verifyFinalized checksumExternals pairBlock [mixedAttestation 0 "00" "b6" 0]
      mixedLedger.set (headHash GossipNode.new.chain) 2 3 ⟨some 0, some "PS-5"⟩ =
        .ok ⟨true, true, 6, 8, []⟩ ∧
    stakeOf mixedLedger.set (follower.id checksumExternals) = 0 ∧
    (deliverAll checksumExternals follower ((id, .block corruptedCopy) :: plainDelivery)
      .new).height = 0 := by
  decide +kernel

end Nerion
