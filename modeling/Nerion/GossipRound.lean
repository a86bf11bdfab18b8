import Nerion.GossipIndex
import Nerion.GossipLiveness
import Nerion.GossipPool
import Nerion.GossipQuiescence
import Nerion.HonestLedger

/-!
# A node in a round with one block

While the messages about are one block of the current height and attestations of it, a node is
in one of a few states: it has not seen the block, it knows it, or it has finalized it.

* `InRound` — what a node can be like in such a round, against the chain it started with;
  `NodeStep.inRound` keeps it, and says that all a node sends is of the round;
* `onMessage_block_fresh` — a node that sees the block for the first time floods it, with its own
  attestation if it has stake;
* `onMessage_attestation_round` — an attestation that is delivered is held, or the node has
  moved on;
* `onMessage_round` — what any message of the round does; none of them throws.
-/

namespace Nerion

section Round

variable (X : LedgerExternals) (L : LedgerConfig) (V : String → Prop) (block : Block) (h : String)

/-- An attestation of the block that counts. -/
structure RoundAttestation (a : Attestation) : Prop where
  /-- it is of the block -/
  hash : a.blockHash = h
  /-- it is for the height of the block -/
  height : a.height = block.header.height
  /-- its suite is the ledger's -/
  suite : a.suite = L.suite
  /-- its validator has stake -/
  stake : 0 < stakeOf L.set a.validator
  /-- the signature verifies -/
  verified : verifyAttestationSig X a L.set = .ok true

/-- The messages of the round, when the validators of `V` have attested. -/
inductive RoundMessage : GossipMessage → Prop
  | block : RoundMessage (.block block)
  | attestation {a : Attestation} (ha : RoundAttestation X L block h a) (hv : V a.validator) :
      RoundMessage (.attestation a)

/-- The block of the round, and those of earlier ones. -/
def RoundBlock (b : Block) : Prop :=
  b = block ∨ JsNum.lt b.header.height block.header.height = true

/-- A node in the round; `start` is what it had finalized before. -/
structure InRound (start : List FinalizedBlock) (n : GossipNode) : Prop where
  /-- it has finalized the block, or nothing -/
  chain : n.chain = start ∨ ∃ fb, fb.block = block ∧ fb.hash = h ∧ n.chain = start ++ [fb]
  /-- it knows no other block -/
  known : ∀ h' b, n.knownBlocks.get? h' = some b → h' = h ∧ b = block
  /-- the pool is for the block -/
  pooled : ∀ hash byV, n.attestations.get? hash = some byV → hash = h ∧ byV.values ≠ [] ∧
    ∀ a ∈ byV.values, a.height = block.header.height ∧ V a.validator
  /-- nothing is buffered -/
  pending : ∀ k, n.pendingBlocks.get? k = none
  /-- no later height is attested -/
  attested : ∀ k h', n.attestedAt.get? k = some h' → JsNum.le k block.header.height = true
  /-- this one only once the block is known -/
  voted : n.chain = start → n.attestedAt.get? block.header.height ≠ none →
    n.knownBlocks.get? h = some block
  /-- what it has signed is old or of the block -/
  signed : ∀ a ∈ n.signed, JsNum.lt a.height block.header.height = true ∨
    a.height = block.header.height ∧ a.blockHash = h ∧ V a.validator
  /-- its record of final hashes is that of its chain -/
  final : ∀ x ∈ n.finalizedHashes, ∃ fb ∈ n.chain, fb.hash = x

variable {X L V block h} {C : GossipConfig} {src : GossipMessage → Prop}
  {start : List FinalizedBlock} {n n' : GossipNode}

theorem RoundMessage.mono {V' : String → Prop} (hV : ∀ v, V v → V' v) {m : GossipMessage}
    (hm : RoundMessage X L V block h m) : RoundMessage X L V' block h m := by
  cases hm with
  | block => exact .block
  | attestation ha hv => exact .attestation ha (hV _ hv)

theorem InRound.mono {V' : String → Prop} (hV : ∀ v, V v → V' v)
    (hn : InRound V block h start n) : InRound V' block h start n :=
  ⟨hn.chain, hn.known,
    fun hash byV hby => ⟨(hn.pooled hash byV hby).1, (hn.pooled hash byV hby).2.1,
      fun a ha => ((hn.pooled hash byV hby).2.2 a ha).imp_right (hV _)⟩,
    hn.pending, hn.attested, hn.voted,
    fun a ha => (hn.signed a ha).imp_right fun hs => ⟨hs.1, hs.2.1, hV _ hs.2.2⟩, hn.final⟩

/-! ## What a step does in a round -/

section Steps

variable (hheight : block.header.height = ledgerHeight start)
  (hhash : blockHash X block.header = .ok h)

include hheight in
theorem InRound.le_height (hn : InRound V block h start n) :
    JsNum.le block.header.height n.height = true := by
  rw [hheight, GossipNode.height]
  refine JsNum.le_natCast.trans (decide_eq_true ?_)
  rcases hn.chain with heq | ⟨fb, -, -, heq⟩
  · rw [heq]
  · rw [heq, List.length_append]
    exact Nat.le_add_right _ _

include hheight in
/-- The head has not passed the block before it is final. -/
theorem InRound.live (hchain : n.chain = start) : n.passed block = false := by
  rw [GossipNode.passed, hheight, GossipNode.height, hchain]
  exact JsNum.lt_natCast.trans (decide_eq_false (lt_irrefl _))

include hheight in
/-- A block of the round that is not below the head is the one of the round. -/
theorem InRound.eq_of_live (hn : InRound V block h start n) {b : Block} (hb : RoundBlock block b)
    (hlive : n.passed b = false) : b = block := by
  refine hb.resolve_right fun hlt => ?_
  rw [GossipNode.passed, JsNum.lt_of_lt_of_le hlt (hn.le_height hheight)] at hlive
  cases hlive

include hheight hhash in
theorem InRound.know (hn : InRound V block h start n) (flood : Bool) {h' : String} {b : Block}
    (hb : RoundBlock block b) (hcur : n.Current b) (hhash' : blockHash X b.header = .ok h') :
    b = block ∧ InRound V block h start (n.know flood h' b) := by
  obtain rfl := hn.eq_of_live hheight hb hcur.live
  obtain rfl : h' = h := Except.ok.inj (hhash'.symm.trans hhash)
  refine ⟨rfl, hn.chain, fun h₁ b₁ h₁b₁ => ?_, hn.pooled, hn.pending, hn.attested, fun _ _ => ?_,
    hn.signed, hn.final⟩
  · change (n.knownBlocks.set _ _).get? h₁ = some b₁ at h₁b₁
    rw [JsMap.get?_set] at h₁b₁
    split at h₁b₁
    · rename_i hkey
      exact ⟨hkey, (Option.some.inj h₁b₁).symm⟩
    · exact hn.known h₁ b₁ h₁b₁
  · exact (JsMap.get?_set _ _ _ _).trans (if_pos rfl)

include hheight in
theorem InRound.vote (hn : InRound V block h start n) {h' : String}
    (hknown : n.knownBlocks.get? h = some block) :
    InRound V block h start (n.vote block.header.height h') := by
  refine ⟨hn.chain, hn.known, hn.pooled, hn.pending, fun k h₁ hk => ?_, fun _ _ => hknown,
    hn.signed, hn.final⟩
  change (n.attestedAt.set _ _).get? k = some h₁ at hk
  rw [JsMap.get?_set] at hk
  split at hk
  · rename_i hkey
    rw [hkey, hheight]
    exact JsNum.le_natCast.trans (decide_eq_true le_rfl)
  · exact hn.attested k h₁ hk

theorem InRound.sign (hn : InRound V block h start n) {att : Attestation}
    (hatt : att.height = block.header.height ∧ att.blockHash = h ∧ V att.validator) :
    InRound V block h start (n.sign att) := by
  refine ⟨hn.chain, hn.known, hn.pooled, hn.pending, hn.attested, hn.voted, fun a ha => ?_,
    hn.final⟩
  rcases List.mem_append.mp ha with ha | ha
  · exact hn.signed a ha
  · rw [List.mem_singleton.mp ha]
    exact .inr hatt

theorem InRound.observe (hn : InRound V block h start n) (conflict : ObservedConflict) :
    InRound V block h start (n.observe conflict) := by
  rw [GossipNode.observe]
  split
  · exact ⟨hn.chain, hn.known, hn.pooled, hn.pending, hn.attested, hn.voted, hn.signed, hn.final⟩
  · exact hn

theorem InRound.pool (hn : InRound V block h start n) {att : Attestation}
    (hatt : att.height = block.header.height ∧ att.blockHash = h ∧ V att.validator) :
    InRound V block h start (n.pool att) := by
  refine ⟨hn.chain, hn.known, fun hash byV hby => ?_, hn.pending, hn.attested, hn.voted, hn.signed,
    hn.final⟩
  change (n.attestations.set _ _).get? hash = some byV at hby
  rw [JsMap.get?_set] at hby
  split at hby
  · rename_i hkey
    obtain rfl := Option.some.inj hby
    refine ⟨hkey.trans hatt.2.1, ?_, fun a ha => ?_⟩
    · refine List.ne_nil_of_mem (a := att) (JsMap.mem_values_iff.mpr ⟨att.validator, ?_⟩)
      exact (JsMap.get?_set _ _ _ _).trans (if_pos rfl)
    · -- it is the new one, or was there before
      obtain ⟨v, hv⟩ := JsMap.mem_values_iff.mp ha
      rw [JsMap.get?_set] at hv
      split at hv
      · rw [← Option.some.inj hv]
        exact ⟨hatt.1, hatt.2.2⟩
      · rcases hold : n.attestations.get? att.blockHash with _ | old
        · rw [hold] at hv
          cases hv
        · rw [hold] at hv
          exact (hn.pooled _ old hold).2.2 a (JsMap.mem_values_iff.mpr ⟨v, hv⟩)
  · exact hn.pooled hash byV hby

include hheight hhash in
theorem InRound.finalize (hn : InRound V block h start n) {hash : String} {b : Block}
    {fb : FinalizedBlock} {chain : List FinalizedBlock}
    (hknown : n.knownBlocks.get? hash = some b)
    (hsubmit : submit X C.ledger n.chain b (n.attestationsFor hash) = .ok (fb, chain)) :
    InRound V block h start (n.finalize hash chain) := by
  obtain ⟨rfl, rfl⟩ := hn.known hash b hknown
  obtain ⟨rfl, hfb, -, setId, t, hf⟩ := submit_eq_ok hsubmit
  have hfbhash : fb.hash = hash := Except.ok.inj (hf.hash.symm.trans hhash)
  have hlen : n.chain.length = start.length :=
    JsNum.natCast_injective ((hf.height_eq rfl).symm.trans hheight)
  -- the block was not final before
  have hchain : n.chain = start := by
    refine hn.chain.resolve_right ?_
    rintro ⟨fb', -, -, heq⟩
    rw [heq, List.length_append] at hlen
    exact absurd hlen (Nat.succ_ne_self _)
  refine ⟨.inr ⟨fb, hfb, hfbhash, by rw [← hchain]; rfl⟩, hn.known, hn.pooled, hn.pending,
    hn.attested, fun heq => ?_, hn.signed, fun x hx => ?_⟩
  · have hlen' : (n.chain ++ [fb]).length = start.length := congrArg List.length heq
    rw [List.length_append, hlen] at hlen'
    exact absurd hlen' (Nat.succ_ne_self _)
  · rcases List.mem_append.mp hx with hx | hx
    · obtain ⟨fb', hfb', hx⟩ := hn.final x hx
      exact ⟨fb', List.mem_append_left _ hfb', hx⟩
    · exact ⟨fb, List.mem_append_right _ List.mem_cons_self,
        hfbhash.trans (List.mem_singleton.mp hx).symm⟩

include hheight in
theorem InRound.prune (hn : InRound V block h start n) : InRound V block h start n.prune := by
  refine ⟨hn.chain, fun h' b hb => hn.known h' b (JsMap.get?_filter_eq_some.mp hb).1,
    fun hash byV hby => hn.pooled hash byV (GossipNode.get?_livePool.mp hby).1, fun k => ?_,
    fun k h' hk => hn.attested k h' (JsMap.get?_filter_eq_some.mp hk).1, fun hchain hvote => ?_,
    hn.signed, hn.final⟩
  · refine Option.eq_none_iff_forall_ne_some.mpr fun bs hbs => ?_
    have hold := (JsMap.get?_filter_eq_some.mp hbs).1
    rw [hn.pending k] at hold
    cases hold
  · obtain ⟨h', hh'⟩ := Option.ne_none_iff_exists'.mp hvote
    have hold := (JsMap.get?_filter_eq_some.mp hh').1
    refine JsMap.get?_filter_eq_some.mpr ⟨hn.voted hchain (by rw [hold]; nofun), ?_⟩
    have hlive : n.passed block = false := InRound.live hheight hchain
    rw [hlive]
    rfl

theorem InRound.release (hn : InRound V block h start n) : InRound V block h start n.release := by
  refine ⟨hn.chain, hn.known, hn.pooled, fun k => ?_, hn.attested, hn.voted, hn.signed, hn.final⟩
  refine Option.eq_none_iff_forall_ne_some.mpr fun bs hbs => ?_
  have hold := (JsMap.get?_filter_eq_some.mp hbs).1
  rw [hn.pending k] at hold
  cases hold

include hheight hhash in
/-- **A step of a node in the round**, with messages of the round at hand, leaves it in the round,
and what it sends is of the round. -/
theorem NodeStep.inRound (hledger : C.ledger = L) (hown : V (C.id X))
    (hsrc : ∀ m, src m → RoundMessage X L V block h m)
    (hstep : NodeStep X C src n n') (hheld : n'.Holds (RoundBlock block))
    (hn : InRound V block h start n) :
    InRound V block h start n' ∧ ∃ new, n'.sent = n.sent ++ new ∧
      ∀ m ∈ new, RoundMessage X L V block h m := by
  have hquiet : ∀ {m : GossipNode}, m.sent = n.sent → ∃ new, m.sent = n.sent ++ new ∧
      ∀ m ∈ new, RoundMessage X L V block h m := fun heq =>
    ⟨[], heq.trans (List.append_nil _).symm, fun _ hm => absurd hm List.not_mem_nil⟩
  cases hstep with
  | @know flood h' b hcur hhash' _ _ =>
    have hb : RoundBlock block b := hheld.known h' b ((JsMap.get?_set _ _ _ _).trans (if_pos rfl))
    obtain ⟨rfl, hn'⟩ := hn.know hheight hhash flood hb hcur hhash'
    refine ⟨hn', ?_⟩
    cases flood with
    | false => exact hquiet rfl
    | true =>
      refine ⟨[.block b], rfl, fun m hm => ?_⟩
      rw [List.mem_singleton.mp hm]
      exact .block
  | @attest b att _ _ hknown _ _ hatt =>
    obtain ⟨hah, rfl⟩ := hn.known _ b hknown
    obtain ⟨-, haheight, haval, -⟩ := attest_eq_ok hatt
    exact ⟨(hn.vote hheight (hah ▸ hknown)).sign ⟨haheight, hah, haval ▸ hown⟩, hquiet rfl⟩
  | @abstain b h' _ hknown _ =>
    obtain ⟨rfl, rfl⟩ := hn.known h' b hknown
    exact ⟨hn.vote hheight hknown, hquiet rfl⟩
  | observe _ _ =>
    refine ⟨hn.observe _, hquiet ?_⟩
    rw [GossipNode.observe]
    split <;> rfl
  | @pool att hsource hsuite hstake hsig hadmits =>
    -- what is below the head is not admitted
    have hlive := (admits_iff.mp hadmits).live
    have hatt : att.height = block.header.height ∧ att.blockHash = h ∧ V att.validator := by
      rcases hsource with hown | hgiven
      · refine (hn.signed att hown).resolve_left fun hlt => ?_
        rw [JsNum.lt_of_lt_of_le hlt (hn.le_height hheight)] at hlive
        cases hlive
      · cases hsrc _ hgiven with
        | attestation ha hv => exact ⟨ha.height, ha.hash, hv⟩
    refine ⟨hn.pool hatt, [.attestation att], rfl, fun m hm => ?_⟩
    rw [List.mem_singleton.mp hm]
    rw [hledger] at hsuite hstake hsig
    exact .attestation ⟨hatt.2.1, hatt.1, hsuite, hstake, hsig⟩ hatt.2.2
  | finalize _ hknown hsubmit => exact ⟨hn.finalize hheight hhash hknown hsubmit, hquiet rfl⟩
  | @buffer b _ hahead _ _ _ _ =>
    -- nothing of the round is ahead
    exfalso
    have hb : RoundBlock block b := by
      refine hheld.pending b.header.height _
        ((GossipNode.get?_buffer n b _).trans (if_pos rfl)) b ?_
      exact List.mem_append_right _ List.mem_cons_self
    have hle : JsNum.le b.header.height n.height = true := by
      rcases hb with rfl | hlt
      · exact hn.le_height hheight
      · exact JsNum.le_of_lt (JsNum.lt_of_lt_of_le hlt (hn.le_height hheight))
    exact JsNum.lt_asymm (JsNum.lt_of_le_of_lt hle hahead)
      (JsNum.lt_of_le_of_lt hle hahead)
  | prune => exact ⟨hn.prune hheight, hquiet rfl⟩
  | release => exact ⟨hn.release, hquiet rfl⟩

include hheight hhash in
/-- **A run keeps a node in the round.** -/
theorem HeldRun.inRound (hledger : C.ledger = L) (hown : V (C.id X))
    (hsrc : ∀ m, src m → RoundMessage X L V block h m)
    (hrun : HeldRun X C (RoundBlock block) src n n') (hheld : n.Holds (RoundBlock block))
    (hn : InRound V block h start n) :
    n'.Holds (RoundBlock block) ∧ InRound V block h start n' ∧ ∃ new, n'.sent = n.sent ++ new ∧
      ∀ m ∈ new, RoundMessage X L V block h m := by
  induction hrun with
  | refl =>
    exact ⟨hheld, hn, [], (List.append_nil _).symm, fun _ hm => absurd hm List.not_mem_nil⟩
  | tail _ hlast ih =>
    obtain ⟨hheld', hn', new, hsent, hnew⟩ := ih
    have hheld'' := hlast.2 hheld'
    obtain ⟨hn'', last, hsent', hlast'⟩ :=
      hlast.1.inRound hheight hhash hledger hown hsrc hheld'' hn'
    refine ⟨hheld'', hn'', new ++ last, ?_, fun m hm => ?_⟩
    · rw [hsent', hsent, List.append_assoc]
    · exact (List.mem_append.mp hm).elim (hnew m) (hlast' m)

end Steps

/-! ## What a message does in a round -/

/-- With nothing buffered, draining is one sweep. -/
theorem drainBuffered_of_empty (entropy : Bytes → Bytes)
    (hempty : ∀ k, n.pendingBlocks.get? k = none) :
    drainBuffered X C entropy n = (n.prune, none) := by
  have hnone : n.prune.pendingBlocks.get? n.height = none := by
    refine Option.eq_none_iff_forall_ne_some.mpr fun bs hbs => ?_
    have hold := (JsMap.get?_filter_eq_some.mp hbs).1
    rw [hempty] at hold
    cases hold
  rw [drainBuffered, drainLoop, hnone]

/-- The node of a validator or a follower that runs the code with a key that works. -/
structure HonestPeer (X : LedgerExternals) (L : LedgerConfig) (scheme : SignatureScheme)
    (C : GossipConfig) : Prop where
  /-- the ledger all share -/
  ledger : C.ledger = L
  /-- the key verifies what it signs -/
  genuine : C.key.Genuine scheme
  /-- the key signs -/
  signs : ∀ msg entropy, ∃ sig, scheme.sign msg C.key.secretKey entropy = .ok sig

theorem HonestPeer.signsWith {scheme : SignatureScheme}
    (hscheme : X.signerFor L.suite = .ok scheme) (hC : HonestPeer X L scheme C) :
    SignsWith X C := by
  intro _ signer hsigner msg entropy
  rw [hC.ledger] at hsigner
  cases hscheme.symm.trans hsigner
  exact hC.signs msg entropy

/-- The setting of a round: the block has a hash and its attestations have a message. -/
structure RoundSetting (X : LedgerExternals) (L : LedgerConfig) (scheme : SignatureScheme)
    (block : Block) (h : String) (length : ℕ) : Prop where
  /-- names are read back as keys -/
  hex : HexFaithful X.toExternals
  /-- the suite has a signer -/
  scheme : X.signerFor L.suite = .ok scheme
  /-- the block is for the next height -/
  height : block.header.height = (length : JsNum)
  /-- the window above the height is in range -/
  range : length + maxFutureHeights ≤ 2 ^ 53
  /-- the hash of the block -/
  hash : blockHash X block.header = .ok h
  /-- what is signed to attest it -/
  message : ∃ setId msg, consensusSetId X L.set = .ok setId ∧
    attestMessage X L.suite block.header.height h setId = .ok msg

section Messages

variable {scheme : SignatureScheme} (hR : RoundSetting X L scheme block h start.length)
  (hC : HonestPeer X L scheme C)

include hR hC in
/-- A peer with stake attests the block. -/
theorem HonestPeer.attests (entropy : Bytes → Bytes) (hstake : 0 < stakeOf L.set (C.id X)) :
    ∃ att, attest X C.ledger block C.key entropy = .ok att ∧ att.validator = C.id X ∧
      RoundAttestation X L block h att := by
  obtain rfl := hC.ledger
  obtain ⟨setId, msg, hid, hmsg⟩ := hR.message
  obtain ⟨sig, hsig⟩ := hC.signs msg (entropy msg)
  have hatt : attest X C.ledger block C.key entropy =
      .ok ⟨h, block.header.height, C.id X, C.ledger.suite, sig⟩ :=
    Except.bind_ok hR.hash (Except.bind_ok hR.scheme (Except.bind_ok hid (Except.bind_ok hmsg
      (Except.bind_ok hsig rfl))))
  refine ⟨_, hatt, rfl, rfl, rfl, rfl, hstake, ?_⟩
  exact attest_verifies hR.hex hR.scheme hC.genuine hatt

/-- A list without repetitions of one element. -/
theorem length_le_one {l : List String} {y : String} (hnodup : l.Nodup) (hall : ∀ x ∈ l, x = y) :
    l.length ≤ 1 :=
  (hnodup.subperm fun x hx => List.mem_singleton.mpr (hall x hx) : l.Subperm [y]).length_le

include hR in
/-- An attestation of the round whose slot is free is admitted. -/
theorem InRound.admitted (hn : InRound V block h start n) (hmir : n.Mirrored)
    (hchain : n.chain = start) {a : Attestation} (ha : RoundAttestation X L block h a)
    (hfree : n.slot h a.validator = none) : Admitted n a := by
  have hheight : n.height = (start.length : JsNum) := by rw [GossipNode.height, hchain]; rfl
  refine ⟨?_, ?_, ha.hash ▸ hfree, .inr ?_, .inr ?_⟩
  · rw [ha.height, hR.height, hheight]
    exact JsNum.lt_natCast.trans (decide_eq_false (lt_irrefl _))
  · rw [ha.height, hR.height, hheight, JsNum.add_natCast hR.range]
    exact JsNum.lt_natCast.trans (decide_eq_false (Nat.le_add_right _ _).not_gt)
  · have hhashes : ∀ x ∈ n.hashesOf a.validator, x = h := by
      intro x hx
      obtain ⟨a', ha'⟩ := (hmir.mem _ _).mp hx
      obtain ⟨byV, hby, -⟩ := GossipNode.slot_eq_some.mp ha'
      exact (hn.pooled x byV hby).1
    exact (length_le_one (hmir.nodup a.validator) hhashes).trans_lt (by decide)
  · have hhashes : ∀ x ∈ n.attestations.keys, x = h := by
      intro x hx
      obtain ⟨byV, hby⟩ := Option.isSome_iff_exists.mp (JsMap.mem_keys_iff.mp hx)
      exact (hn.pooled x byV hby).1
    have hkeys := length_le_one n.attestations.nodup hhashes
    rw [List.length_map] at hkeys
    exact hkeys.trans_lt (by decide)

/-- A node in a round has room for a block. -/
theorem InRound.size_knownBlocks (hn : InRound V block h start n) :
    n.knownBlocks.size < maxKnownAtHeight := by
  have hkeys : ∀ x ∈ n.knownBlocks.keys, x = h := by
    intro x hx
    obtain ⟨b, hb⟩ := Option.isSome_iff_exists.mp (JsMap.mem_keys_iff.mp hx)
    exact (hn.known x b hb).1
  have hle := length_le_one n.knownBlocks.nodup hkeys
  rw [List.length_map] at hle
  exact hle.trans_lt (by decide)

/-- A node that has moved on has a longer chain. -/
theorem InRound.eq_or_lt (hn : InRound V block h start n) :
    n.chain = start ∨ start.length < n.chain.length := by
  rcases hn.chain with heq | ⟨fb, -, -, heq⟩
  · exact .inl heq
  · refine .inr ?_
    rw [heq, List.length_append]
    exact Nat.lt_succ_self _

variable (entropy : Bytes → Bytes)

include hR hC in
/-- **An attestation of the round is held, or the node has moved on.** -/
theorem onMessage_attestation_round (hist : NodeHistory X C (fun _ _ => True) n)
    (hn : InRound V block h start n) {a : Attestation} (ha : RoundAttestation X L block h a) :
    start.length < (onMessage X C entropy (.attestation a) n).1.chain.length ∨
      ∃ a', (onMessage X C entropy (.attestation a) n).1.slot h a.validator = some a' := by
  obtain rfl := hC.ledger
  have hrun : NodeRun X C (fun _ => True) n (onMessage X C entropy (.attestation a) n).1 :=
    onMessage_run entropy trivial n
  have hle := hrun.length_le
  rcases hn.eq_or_lt with hchain | hlt
  · rcases hle.eq_or_lt with hlen | hlt
    · right
      have hroom : AttestationRoom a n := by
        rcases hslot : n.slot h a.validator with _ | a'
        · exact .inl (admits_iff.mpr (hn.admitted hR hist.run.bounded.1 hchain ha hslot))
        · obtain ⟨byV, hby, hv⟩ := GossipNode.slot_eq_some.mp hslot
          refine .inr ⟨a', ha.hash.symm ▸ hslot, ?_⟩
          rw [ha.height]
          exact ((hn.pooled h byV hby).2.2 a' (JsMap.mem_values_iff.mpr ⟨_, hv⟩)).1
      obtain ⟨a', hslot, -⟩ := onMessage_attestation_holds hist.settled ha.suite ha.stake
        ha.verified hroom hlen.symm
      exact ⟨a', ha.hash ▸ hslot⟩
    · exact .inl (hchain ▸ hlt)
  · exact .inl (hlt.trans_le hle)

include hC in
/-- An attestation of the round makes nothing throw, and before the block is known it is pooled
or passed over. -/
theorem onMessage_attestation_quiet (hn : InRound V block h start n) {a : Attestation}
    (ha : RoundAttestation X L block h a) :
    (onMessage X C entropy (.attestation a) n).2 = none ∧
      (n.knownBlocks.get? h = none →
        (onMessage X C entropy (.attestation a) n).1 = n.prune ∨
        (onMessage X C entropy (.attestation a) n).1 = (n.pool a).prune) := by
  obtain rfl := hC.ledger
  by_cases hadmits : admits n a = true
  · have hhandled := onAttestation_of_admitted ha.suite ha.stake ha.verified
      (admits_iff.mp hadmits)
    have hempty : ∀ k, (tryFinalize X C a.blockHash (n.pool a)).pendingBlocks.get? k = none := by
      intro k
      rw [tryFinalize_pendingBlocks]
      exact hn.pending k
    rw [onMessage_attestation hhandled, drainBuffered_of_empty entropy hempty]
    refine ⟨rfl, fun hunknown => .inr ?_⟩
    have hsame : tryFinalize X C a.blockHash (n.pool a) = n.pool a :=
      tryFinalize_of_unknown (ha.hash.symm ▸ hunknown)
    rw [hsame]
  · have hhandled : onAttestation X C a n = (n, none) := by
      rw [onAttestation, if_neg (not_not.mpr ha.suite), if_neg (not_le.mpr ha.stake), ha.verified]
      dsimp only
      rw [if_pos ((Bool.not_eq_true _).mp hadmits)]
    rw [onMessage_attestation hhandled, drainBuffered_of_empty entropy hn.pending]
    exact ⟨rfl, fun _ => .inl rfl⟩

include hR hC in
/-- **The first time a node sees the block**: it floods the block, and its own attestation if it has
stake, which its pool holds unless the node has moved on. -/
theorem onMessage_block_fresh (hist : NodeHistory X C (fun _ _ => True) n)
    (hn : InRound V block h start n) (hchain : n.chain = start)
    (hunknown : n.knownBlocks.get? h = none) (hsilent : ¬ V (C.id X)) :
    (onMessage X C entropy (.block block) n).2 = none ∧
    ∃ new, (onMessage X C entropy (.block block) n).1.sent = n.sent ++ new ∧
      GossipMessage.block block ∈ new ∧ (0 < stakeOf L.set (C.id X) → ∃ a,
        GossipMessage.attestation a ∈ new ∧ RoundAttestation X L block h a ∧
        a.validator = C.id X ∧
        (start.length < (onMessage X C entropy (.block block) n).1.chain.length ∨
          (onMessage X C entropy (.block block) n).1.slot h (C.id X) = some a)) := by
  obtain rfl := hC.ledger
  have hlive : n.passed block = false := InRound.live hR.height hchain
  have hreached : JsNum.lt n.height block.header.height = false := by
    rw [hR.height, GossipNode.height, hchain]
    exact JsNum.lt_natCast.trans (decide_eq_false (lt_irrefl _))
  have hhas : n.knownBlocks.has h = false := by
    rw [JsMap.has, hunknown]
    rfl
  have hcap := hn.size_knownBlocks
  have hattested : n.attestedAt.get? block.header.height = none := by
    by_contra hvote
    have hknown := hn.voted hchain hvote
    rw [hunknown] at hknown
    cases hknown
  have hblock : onBlock X C entropy true block n =
      attestBlock X C entropy h block (n.know true h block) := by
    rw [onBlock, hlive, hreached, if_neg Bool.false_ne_true, if_neg Bool.false_ne_true, hR.hash]
    dsimp only
    rw [hhas, if_neg Bool.false_ne_true, if_neg (not_le.mpr hcap)]
  have hattested' : (n.know true h block).attestedAt.get? block.header.height = none := hattested
  -- what is left to do once the block is handled
  have hrest : ∀ m : GossipNode, attestBlock X C entropy h block (n.know true h block) = (m, none) →
      (∀ k, m.pendingBlocks.get? k = none) →
      onMessage X C entropy (.block block) n = (m.prune, none) := by
    intro m hm hempty
    rw [onMessage, hblock, hm]
    exact drainBuffered_of_empty entropy hempty
  by_cases hstake : 0 < stakeOf C.ledger.set (C.id X)
  · obtain ⟨att, hatt, hval, hround⟩ := hC.attests hR entropy hstake
    have hfree : n.slot h att.validator = none := by
      refine Option.eq_none_iff_forall_ne_some.mpr fun a ha => hsilent ?_
      obtain ⟨byV, hby, hv⟩ := GossipNode.slot_eq_some.mp ha
      have hspoken := ((hn.pooled h byV hby).2.2 a (JsMap.mem_values_iff.mpr ⟨_, hv⟩)).2
      rwa [(hist.poolSound h _ a ha).2.1, hval] at hspoken
    have hadm := hn.admitted hR hist.run.bounded.1 hchain hround hfree
    obtain rfl := hround.hash
    let m := ((n.know true att.blockHash block).vote block.header.height att.blockHash).sign att
    have hadm' : Admitted m att := ⟨hadm.live, hadm.window, hadm.free, hadm.validator, hadm.pool⟩
    have hhandled : attestBlock X C entropy att.blockHash block (n.know true att.blockHash block) =
        (tryFinalize X C att.blockHash (tryFinalize X C att.blockHash (m.pool att)), none) := by
      rw [attestBlock, hattested']
      dsimp only
      rw [if_pos hstake, hatt]
      dsimp only
      rw [onAttestation_of_admitted hround.suite hround.stake hround.verified hadm']
      rfl
    have hempty : ∀ k, (tryFinalize X C att.blockHash
        (tryFinalize X C att.blockHash (m.pool att))).pendingBlocks.get? k = none := by
      intro k
      rw [tryFinalize_pendingBlocks, tryFinalize_pendingBlocks]
      exact hn.pending k
    rw [hrest _ hhandled hempty]
    refine ⟨rfl, [.block block, .attestation att], ?_, List.mem_cons_self, fun _ =>
      ⟨att, List.mem_cons_of_mem _ List.mem_cons_self, hround, hval, ?_⟩⟩
    · change (tryFinalize X C att.blockHash
        (tryFinalize X C att.blockHash (m.pool att))).sent = _
      rw [sent_tryFinalize, sent_tryFinalize]
      exact List.append_assoc n.sent [.block block] [.attestation att]
    · -- the slot is kept, unless the chain got longer
      have hknow : NodeStep X C (fun _ => True) n (n.know true att.blockHash block) :=
        .know ⟨hlive, hreached⟩ hR.hash hhas hcap
      have hsign : NodeStep X C (fun _ => True) (n.know true att.blockHash block) m :=
        .attest ⟨hlive, hreached⟩ ((JsMap.get?_set _ _ _ _).trans (if_pos rfl)) hattested' hstake
          hatt
      have hpool : NodeStep X C (fun _ => True) m (m.pool att) :=
        .pool (.inr trivial) hround.suite hround.stake hround.verified (admits_iff.mpr hadm')
      have hsettled := hpool.settled rfl (hsign.settled rfl (hknow.settled rfl hist.settled))
      have hrun : NodeRun X C (fun _ => True) (m.pool att) (tryFinalize X C att.blockHash
          (tryFinalize X C att.blockHash (m.pool att))).prune :=
        ((tryFinalize_run _ _).trans (tryFinalize_run _ _)).tail .prune
      have hlen : (m.pool att).chain.length = start.length := congrArg List.length hchain
      rcases hrun.length_le.eq_or_lt with heq | hlt
      · refine .inr ((hrun.quiet heq.symm hsettled).2 _ _ _ ?_)
        rw [GossipNode.slot_pool, if_pos ⟨rfl, hval.symm⟩]
      · exact .inl (hlen ▸ hlt)
  · have hhandled : attestBlock X C entropy h block (n.know true h block) =
        (tryFinalize X C h (n.know true h block), none) := by
      rw [attestBlock, hattested']
      dsimp only
      rw [if_neg hstake]
    have hempty : ∀ k, (tryFinalize X C h (n.know true h block)).pendingBlocks.get? k = none := by
      intro k
      rw [tryFinalize_pendingBlocks]
      exact hn.pending k
    rw [hrest _ hhandled hempty]
    refine ⟨rfl, [.block block], ?_, List.mem_cons_self, fun hpos => absurd hpos hstake⟩
    change (tryFinalize X C h (n.know true h block)).sent = _
    rw [sent_tryFinalize]
    rfl

/-- The block has got to the node: it knows it, or has moved on. -/
def Seen (length : ℕ) (block : Block) (h : String) (n : GossipNode) : Prop :=
  length < n.chain.length ∨ n.knownBlocks.get? h = some block

/-- A block that was seen stays seen. -/
theorem NodeRun.seen (hrun : NodeRun X C src n n') (hset : n.Settled) {length : ℕ}
    (hle : length ≤ n.chain.length) (hseen : Seen length block h n) : Seen length block h n' := by
  rcases hseen with hlt | hknown
  · exact .inl (hlt.trans_le hrun.length_le)
  · rcases hrun.length_le.eq_or_lt with hlen | hlt
    · exact .inr ((hrun.quiet hlen.symm hset).1 h block hknown)
    · exact .inl (hle.trans_lt hlt)

theorem InRound.length_le (hn : InRound V block h start n) : start.length ≤ n.chain.length := by
  rcases hn.eq_or_lt with heq | hlt
  · exact heq ▸ le_rfl
  · exact hlt.le

/-- Before that it is where it started, and does not know the hash. -/
theorem InRound.unseen (hn : InRound V block h start n)
    (hunseen : ¬ Seen start.length block h n) :
    n.chain = start ∧ n.knownBlocks.get? h = none := by
  refine ⟨hn.eq_or_lt.resolve_right fun hlt => hunseen (.inl hlt), ?_⟩
  refine Option.eq_none_iff_forall_ne_some.mpr fun b hb => hunseen (.inr ?_)
  rw [hb, (hn.known h b hb).2]

include hR in
/-- **The block gets to a node it is delivered to.** -/
theorem onMessage_block_seen (hist : NodeHistory X C (fun _ _ => True) n)
    (hn : InRound V block h start n) :
    Seen start.length block h (onMessage X C entropy (.block block) n).1 := by
  have hrun : NodeRun X C (fun _ => True) n (onMessage X C entropy (.block block) n).1 :=
    onMessage_run entropy trivial n
  by_cases hseen : Seen start.length block h n
  · exact hrun.seen hist.settled hn.length_le hseen
  · obtain ⟨hchain, hunknown⟩ := hn.unseen hseen
    rcases hrun.length_le.eq_or_lt with hlen | hlt
    · have hheight : block.header.height = n.height := by
        rw [hR.height, GossipNode.height, hchain]
        rfl
      exact .inr (onMessage_block_knows hist.settled hR.hash hheight
        (.inr ⟨hunknown, hn.size_knownBlocks⟩) hlen.symm)
    · exact .inl (hchain ▸ hlt)

include hR in
/-- When it comes again nothing is thrown. -/
theorem onMessage_block_again (hn : InRound V block h start n)
    (hseen : Seen start.length block h n) :
    (onMessage X C entropy (.block block) n).2 = none := by
  have hblock : onBlock X C entropy true block n = (n, none) := by
    by_cases hpassed : n.passed block = true
    · rw [onBlock, if_pos hpassed]
    · have hchain : n.chain = start := by
        refine hn.eq_or_lt.resolve_right fun hlt => hpassed ?_
        rw [GossipNode.passed, hR.height]
        exact JsNum.lt_natCast.trans (decide_eq_true hlt)
      have hknown : n.knownBlocks.get? h = some block :=
        hseen.resolve_left fun hlt => absurd (hchain ▸ hlt) (lt_irrefl _)
      have hreached : JsNum.lt n.height block.header.height = false := by
        rw [hR.height, GossipNode.height, hchain]
        exact JsNum.lt_natCast.trans (decide_eq_false (lt_irrefl _))
      have hhas : n.knownBlocks.has h = true := by
        rw [JsMap.has, hknown]
        rfl
      rw [onBlock, if_neg hpassed, hreached, if_neg Bool.false_ne_true, hR.hash]
      dsimp only
      rw [hhas, if_pos rfl]
  rw [onMessage, hblock]
  exact congrArg Prod.snd (drainBuffered_of_empty entropy hn.pending)

/-- What a message of the round does to a node; `V'` are the validators that have attested
then. -/
structure RoundMove (X : LedgerExternals) (L : LedgerConfig) (V' : String → Prop) (block : Block)
    (h : String) (length : ℕ) (own : String) (msg : GossipMessage) (n n' : GossipNode) : Prop where
  /-- blocks are those of the round -/
  held : n'.Holds (RoundBlock block)
  /-- its chain gets no shorter -/
  longer : n.chain.length ≤ n'.chain.length
  /-- what is seen stays seen -/
  seen : Seen length block h n → Seen length block h n'
  /-- what is pooled stays pooled, until the node has moved on -/
  kept : ∀ v a, n.slot h v = some a → length < n'.chain.length ∨ n'.slot h v = some a
  /-- what it sends is of the round, and starts with its own attestation -/
  sent : ∃ new, n'.sent = n.sent ++ new ∧ (∀ m ∈ new, RoundMessage X L V' block h m) ∧
    (¬ Seen length block h n → Seen length block h n' →
      GossipMessage.block block ∈ new ∧ (0 < stakeOf L.set own → ∃ a,
        GossipMessage.attestation a ∈ new ∧ RoundAttestation X L block h a ∧ a.validator = own ∧
        (length < n'.chain.length ∨ n'.slot h own = some a)))
  /-- the block is seen -/
  block : msg = .block block → Seen length block h n'
  /-- an attestation is held -/
  attestation : ∀ a, msg = .attestation a →
    length < n'.chain.length ∨ ∃ a', n'.slot h a.validator = some a'

include hR hC in
/-- **A message of the round at a node in the round**: nothing is thrown, and the node stays in
the round. -/
theorem onMessage_round {V' : String → Prop} {length : ℕ} (hlen : start.length = length)
    (hist : NodeHistory X C (fun _ _ => True) n)
    (hheld : n.Holds (RoundBlock block)) (hn : InRound V block h start n)
    (hspoken : V (C.id X) → Seen length block h n) {msg : GossipMessage}
    (hmsg : RoundMessage X L V block h msg) (hV : ∀ v, V v → V' v)
    (hown : Seen length block h (onMessage X C entropy msg n).1 → V' (C.id X)) :
    (onMessage X C entropy msg n).2 = none ∧
    InRound V' block h start (onMessage X C entropy msg n).1 ∧
    RoundMove X L V' block h length (C.id X) msg n (onMessage X C entropy msg n).1 := by
  subst hlen
  have hrun : NodeRun X C (fun _ => True) n (onMessage X C entropy msg n).1 :=
    onMessage_run entropy trivial n
  have hseen : Seen start.length block h n → Seen start.length block h
      (onMessage X C entropy msg n).1 := hrun.seen hist.settled hn.length_le
  have hkept : ∀ v a, n.slot h v = some a →
      start.length < (onMessage X C entropy msg n).1.chain.length ∨
        (onMessage X C entropy msg n).1.slot h v = some a := by
    intro v a ha
    rcases hrun.length_le.eq_or_lt with hlen | hlt
    · exact .inr ((hrun.quiet hlen.symm hist.settled).2 _ _ _ ha)
    · exact .inl (hn.length_le.trans_lt hlt)
  -- once the block is seen the node may attest, and every step is one of the round
  have hsteps : Seen start.length block h (onMessage X C entropy msg n).1 →
      (onMessage X C entropy msg n).1.Holds (RoundBlock block) ∧
      InRound V' block h start (onMessage X C entropy msg n).1 ∧
      ∃ new, (onMessage X C entropy msg n).1.sent = n.sent ++ new ∧
        ∀ m ∈ new, RoundMessage X L V' block h m := by
    intro hs
    have hheldrun : HeldRun X C (RoundBlock block) (RoundMessage X L V' block h) n
        (onMessage X C entropy msg n).1 := by
      refine onMessage_held entropy (hmsg.mono hV) (fun b hb => ?_) hheld
      cases hmsg with
      | block => exact .inl (GossipMessage.block.inj hb).symm
      | attestation _ _ => cases hb
    exact hheldrun.inRound hR.height hR.hash hC.ledger (hown hs) (fun _ hm => hm) hheld
      (hn.mono hV)
  cases hmsg with
  | block =>
    have hafter := onMessage_block_seen hR entropy hist hn
    obtain ⟨hheld', hn', new, hsent, hnew⟩ := hsteps hafter
    by_cases hs : Seen start.length block h n
    · exact ⟨onMessage_block_again hR entropy hn hs, hn', hheld', hrun.length_le, hseen, hkept,
        ⟨new, hsent, hnew, fun hns => absurd hs hns⟩, fun _ => hafter, nofun⟩
    · obtain ⟨hchain, hunknown⟩ := hn.unseen hs
      obtain ⟨hthrow, new', hsent', hflood⟩ := onMessage_block_fresh hR hC entropy hist hn
        hchain hunknown (mt hspoken hs)
      obtain rfl : new = new' := List.append_cancel_left (hsent.symm.trans hsent')
      exact ⟨hthrow, hn', hheld', hrun.length_le, hseen, hkept,
        ⟨new, hsent, hnew, fun _ _ => hflood⟩, fun _ => hafter, nofun⟩
  | @attestation a ha hv =>
    obtain ⟨hthrow, hform⟩ := onMessage_attestation_quiet hC entropy hn ha
    have hpooled := onMessage_attestation_round hR hC entropy hist hn ha
    by_cases hs : Seen start.length block h n
    · obtain ⟨hheld', hn', new, hsent, hnew⟩ := hsteps (hseen hs)
      refine ⟨hthrow, hn', hheld', hrun.length_le, hseen, hkept,
        ⟨new, hsent, hnew, fun hns => absurd hs hns⟩, nofun, fun a' heq => ?_⟩
      cases heq
      exact hpooled
    · -- the attestation is ahead of the block: it is pooled at most
      obtain ⟨hchain, hunknown⟩ := hn.unseen hs
      have hquiet : ∀ m : GossipNode, m.chain = n.chain → m.knownBlocks = n.knownBlocks →
          m.Holds (RoundBlock block) → InRound V block h start m → (∃ new, m.sent = n.sent ++ new ∧
            ∀ x ∈ new, RoundMessage X L V block h x) →
          (onMessage X C entropy (.attestation a) n).1 = m.prune →
          InRound V' block h start (onMessage X C entropy (.attestation a) n).1 ∧
          RoundMove X L V' block h start.length (C.id X) (.attestation a) n
            (onMessage X C entropy (.attestation a) n).1 := by
        intro m hmchain hmknown hmheld hm ⟨new, hsent, hnew⟩ heq
        have hunseen : ¬ Seen start.length block h m.prune := by
          rintro (hlt | hknown)
          · rw [GossipNode.prune, hmchain, hchain] at hlt
            exact lt_irrefl _ hlt
          · have hold := (JsMap.get?_filter_eq_some.mp hknown).1
            rw [hmknown, hunknown] at hold
            cases hold
        refine ⟨heq ▸ (hm.prune hR.height).mono hV, heq ▸ hmheld.prune, hrun.length_le, hseen,
          hkept, ⟨new, heq ▸ hsent, fun x hx => (hnew x hx).mono hV,
            fun _ hs' => absurd (heq ▸ hs') hunseen⟩, nofun, fun a' ha' => ?_⟩
        cases ha'
        exact hpooled
      refine ⟨hthrow, (hform hunknown).elim (hquiet n rfl rfl hheld hn ?_)
        (hquiet (n.pool a) rfl rfl (hheld.pool a) (hn.pool ⟨ha.height, ha.hash, hv⟩) ?_)⟩
      · exact ⟨[], (List.append_nil _).symm, fun x hx => absurd hx List.not_mem_nil⟩
      · refine ⟨[.attestation a], rfl, fun x hx => ?_⟩
        rw [List.mem_singleton.mp hx]
        exact .attestation ha hv

end Messages

end Round

end Nerion
