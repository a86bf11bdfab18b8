import Nerion.GossipBus

/-!
# The bus comes to rest

A delivery can make a node send, and a sweep can make it forget, so that it sends the same
attestation again. Yet a run of the bus ends. No block is made on the way, so the blocks in
play are those that were there at the start; each time a node sweeps something out its head
has moved, past one of them; and at one height the caps leave it only so much to send. A node's
*credit* adds this up: what it may still send before the next sweep, and twice the most it may
ever send between two sweeps for each block its head has not passed.

* `NodeStep.credit_le` — what a step sends is paid from the credit;
* `GossipBus.deliver_measure` — a delivery takes more from queue and credits than it adds;
* `gossip_quiesces` — after a number of deliveries known from the start, the queue is empty, or
  a handler has thrown.
-/

namespace Nerion

/-- Fewer entries meet a stronger condition that one of them fails. -/
theorem countP_lt_countP {α : Type} {p q : α → Bool} {l : List α} {a : α}
    (h : ∀ x ∈ l, p x = true → q x = true) (ha : a ∈ l) (hp : p a = false) (hq : q a = true) :
    l.countP p < l.countP q := by
  have hsame : l.countP p = (l.filter q).countP p := by
    rw [List.countP_filter]
    refine List.countP_congr fun x hx => ?_
    rw [Bool.and_eq_true]
    exact ⟨fun hpx => ⟨hpx, h x hx hpx⟩, And.left⟩
  rw [hsame, List.countP_eq_length_filter (p := q)]
  exact List.countP_lt_length_iff.mpr ⟨a, List.mem_filter.mpr ⟨ha, hq⟩, hp⟩

/-! ## Credit -/

section Credit

variable (X : LedgerExternals) (C : GossipConfig) (blocks : List Block)

/-- The block is buffered, or another one of its height and hash. -/
def GossipNode.heldBack (n : GossipNode) (block : Block) : Bool :=
  match blockHash X block.header with
  | .ok h => ((n.pendingBlocks.get? block.header.height).getD []).any fun b => hasHash X b h
  | .error _ => false

/-- The blocks the head has not passed. -/
def GossipNode.liveCount (n : GossipNode) : ℕ := blocks.countP fun b => !n.passed b

/-- The blocks that may still be buffered. -/
def GossipNode.bufferRoom (n : GossipNode) : ℕ :=
  blocks.countP fun b => JsNum.lt n.height b.header.height && !n.heldBack X b

/-- The attestations that may still be pooled. -/
def GossipNode.poolRoom (n : GossipNode) : ℕ :=
  ∑ v ∈ C.ledger.set.pubkeys, (maxHashesPerValidator - (n.hashesOf v).length)

/-- What may still be sent before something is swept out. -/
def GossipNode.room (n : GossipNode) : ℕ :=
  maxKnownAtHeight - n.knownBlocks.size + n.bufferRoom X blocks + n.poolRoom C

/-- The most that may be sent between two sweeps. -/
def budget : ℕ :=
  maxKnownAtHeight + blocks.length + C.ledger.set.pubkeys.card * maxHashesPerValidator

open Classical in
/-- What a node may still send. -/
noncomputable def GossipNode.credit (n : GossipNode) : ℕ :=
  2 * budget C blocks * n.liveCount blocks + (if n.Swept then 0 else budget C blocks) +
    n.room X C blocks

variable {X C blocks} {src : GossipMessage → Prop} {n n' : GossipNode} {chain : List FinalizedBlock}
  {fb : FinalizedBlock} {block : Block} {hash : String}

theorem room_le_budget (n : GossipNode) : n.room X C blocks ≤ budget C blocks := by
  have hbuffer : n.bufferRoom X blocks ≤ blocks.length := List.countP_le_length
  have hpool : n.poolRoom C ≤ C.ledger.set.pubkeys.card * maxHashesPerValidator := by
    refine (Finset.sum_le_sum fun v _ => Nat.sub_le _ _).trans_eq ?_
    exact Finset.sum_const_nat fun _ _ => rfl
  rw [GossipNode.room, budget]
  omega

/-- The room in the buffer does not grow when the head moves on and nothing ahead is lost. -/
theorem bufferRoom_le (h : ∀ b ∈ blocks, JsNum.lt n'.height b.header.height = true →
    JsNum.lt n.height b.header.height = true ∧ (n.heldBack X b = true → n'.heldBack X b = true)) :
    n'.bufferRoom X blocks ≤ n.bufferRoom X blocks := by
  refine List.countP_mono_left fun b hb hfree => ?_
  obtain ⟨hahead, hnot⟩ := Bool.and_eq_true_iff.mp hfree
  obtain ⟨hahead', hheld⟩ := h b hb hahead
  refine Bool.and_eq_true_iff.mpr ⟨hahead', ?_⟩
  rw [Bool.not_eq_true'] at hnot ⊢
  exact (Bool.not_eq_true _).mp fun hb => absurd (hheld hb) (ne_true_of_eq_false hnot)

/-- **The rule for steps at one height**: it is enough to look at the room. -/
theorem credit_le_of_room (hchain : n'.chain = n.chain) (hswept : n.Swept → n'.Swept)
    (hroom : n'.sent.length + n'.room X C blocks ≤ n.sent.length + n.room X C blocks) :
    n'.sent.length + n'.credit X C blocks ≤ n.sent.length + n.credit X C blocks := by
  have hlive : n'.liveCount blocks = n.liveCount blocks := by
    simp only [GossipNode.liveCount, GossipNode.passed, GossipNode.height, hchain]
  rw [GossipNode.credit, GossipNode.credit, hlive]
  by_cases hn : n.Swept
  · rw [if_pos hn, if_pos (hswept hn)]
    omega
  · rw [if_neg hn]
    split <;> omega

/-- A finalized block is of the current height, and the next height follows. -/
theorem heights_of_submit
    (hsubmit : submit X C.ledger n.chain block (n.attestationsFor hash) = .ok (fb, chain)) :
    block.header.height = n.height ∧ JsNum.lt n.height (n.finalize hash chain).height = true := by
  have hlen := submit_length hsubmit
  obtain ⟨-, -, -, setId, t, hf⟩ := submit_eq_ok hsubmit
  refine ⟨hf.height_eq rfl, JsNum.lt_natCast.trans (decide_eq_true ?_)⟩
  change n.chain.length < chain.length
  omega

/-- A finalized block is one less that the head has not passed. -/
theorem liveCount_finalize (hmem : block ∈ blocks)
    (hsubmit : submit X C.ledger n.chain block (n.attestationsFor hash) = .ok (fb, chain)) :
    (n.finalize hash chain).liveCount blocks < n.liveCount blocks := by
  obtain ⟨hheight, hlt⟩ := heights_of_submit hsubmit
  refine countP_lt_countP (fun b _ hlive => ?_) hmem ?_ ?_
  · rw [Bool.not_eq_true'] at hlive ⊢
    refine (Bool.not_eq_true _).mp fun hpassed => absurd ?_ (ne_true_of_eq_false hlive)
    exact JsNum.lt_of_lt_of_le hpassed (JsNum.le_of_lt hlt)
  · rw [GossipNode.passed, hheight, hlt, Bool.not_true]
  · have hself : n.passed block = false := by
      rw [GossipNode.passed, hheight]
      exact JsNum.lt_natCast.trans (decide_eq_false (lt_irrefl _))
    rw [hself, Bool.not_false]

theorem bufferRoom_finalize
    (hsubmit : submit X C.ledger n.chain block (n.attestationsFor hash) = .ok (fb, chain)) :
    (n.finalize hash chain).bufferRoom X blocks ≤ n.bufferRoom X blocks := by
  refine bufferRoom_le fun b _ hahead => ⟨?_, fun hheld => hheld⟩
  exact JsNum.lt_of_le_of_lt (JsNum.le_of_lt (heights_of_submit hsubmit).2) hahead

/-- A buffered block is one less that may be. -/
theorem bufferRoom_buffer {h : String} (hmem : block ∈ blocks)
    (hahead : JsNum.lt n.height block.header.height = true)
    (hhash : blockHash X block.header = .ok h)
    (hnew : (((n.pendingBlocks.get? block.header.height).getD []).any
      fun b => hasHash X b h) = false) :
    (n.buffer block).bufferRoom X blocks < n.bufferRoom X blocks := by
  have hget : ∀ k, ((n.buffer block).pendingBlocks.get? k).getD [] =
      (n.pendingBlocks.get? k).getD [] ++ (if k = block.header.height then [block] else []) := by
    intro k
    rw [GossipNode.get?_buffer]
    split
    · rw [Option.getD_some]
    · rw [List.append_nil]
  refine countP_lt_countP (fun b _ hfree => ?_) hmem ?_ ?_
  · obtain ⟨hahead', hnot⟩ := Bool.and_eq_true_iff.mp hfree
    refine Bool.and_eq_true_iff.mpr ⟨hahead', ?_⟩
    rw [Bool.not_eq_true'] at hnot ⊢
    rw [GossipNode.heldBack] at hnot ⊢
    cases hb : blockHash X b.header with
    | error e => rfl
    | ok hb' =>
      rw [hb] at hnot
      dsimp only at hnot ⊢
      rw [hget, List.any_append, Bool.or_eq_false_iff] at hnot
      exact hnot.1
  · have hself : hasHash X block h = true := by
      rw [hasHash, hhash]
      exact decide_eq_true rfl
    rw [GossipNode.heldBack, hhash]
    dsimp only
    rw [hget, if_pos rfl, List.any_append, List.any_cons, hself, Bool.true_or, Bool.or_true,
      Bool.not_true, Bool.and_false]
  · rw [hahead, GossipNode.heldBack, hhash]
    dsimp only
    rw [hnew]
    rfl

/-- A pooled attestation is one less that may be. -/
theorem poolRoom_pool {att : Attestation} (hstake : 0 < stakeOf C.ledger.set att.validator)
    (hadm : Admitted n att) (hmir : n.Mirrored) :
    (n.pool att).poolRoom C < n.poolRoom C := by
  -- the slot is free, so the hash is new on the validator's list
  have hnew : att.blockHash ∉ n.hashesOf att.validator := by
    rw [hmir.mem, hadm.free]
    rintro ⟨a, ha⟩
    cases ha
  have hroom := hadm.validator.resolve_left hnew
  have hlen : ((n.pool att).hashesOf att.validator).length =
      (n.hashesOf att.validator).length + 1 := by
    rw [hashesOf_pool, if_pos rfl, if_neg hnew, List.length_append]
    rfl
  refine Finset.sum_lt_sum (fun v _ => ?_) ⟨att.validator, ?_, ?_⟩
  · by_cases hv : v = att.validator
    · subst hv
      omega
    · rw [hashesOf_pool, if_neg hv]
  · exact List.mem_toFinset.mpr (mem_of_stakeOf_pos hstake)
  · omega

/-- Blocks ahead stay buffered when the buffer is kept at their heights. -/
theorem bufferRoom_le_of_get? (hchain : n'.chain = n.chain)
    (hget : ∀ k, JsNum.lt n.height k = true → n'.pendingBlocks.get? k = n.pendingBlocks.get? k) :
    n'.bufferRoom X blocks ≤ n.bufferRoom X blocks := by
  refine bufferRoom_le fun b _ hahead => ?_
  rw [GossipNode.height, hchain] at hahead
  refine ⟨hahead, fun hheld => ?_⟩
  rwa [GossipNode.heldBack, hget _ hahead]

theorem bufferRoom_prune (n : GossipNode) :
    n.prune.bufferRoom X blocks ≤ n.bufferRoom X blocks := by
  refine bufferRoom_le_of_get? rfl fun k hahead => Option.ext fun bs => ?_
  refine JsMap.get?_filter_eq_some.trans ⟨And.left, fun h => ⟨h, ?_⟩⟩
  rw [(Bool.not_eq_true _).mp (JsNum.lt_asymm hahead), Bool.not_false]

theorem bufferRoom_release (n : GossipNode) :
    n.release.bufferRoom X blocks ≤ n.bufferRoom X blocks := by
  refine bufferRoom_le_of_get? rfl fun k hahead => Option.ext fun bs => ?_
  refine JsMap.get?_filter_eq_some.trans ⟨And.left, fun h => ⟨h, decide_eq_true ?_⟩⟩
  rintro rfl
  exact JsNum.lt_asymm hahead hahead

/-- A sweep that sweeps nothing out leaves the room as it is. -/
theorem room_prune (hn : n.Swept) (hmir : n.Mirrored) :
    n.prune.room X C blocks ≤ n.room X C blocks := by
  have hknown : n.prune.knownBlocks = n.knownBlocks := by
    change n.knownBlocks.filter (fun _ b => !n.passed b) = n.knownBlocks
    refine JsMap.filter_eq_self fun h b hb => ?_
    rw [hn.known h b hb, Bool.not_false]
  have hlength : ∀ v, (n.prune.hashesOf v).length = (n.hashesOf v).length := by
    intro v
    have hmir' : n.prune.Mirrored :=
      NodeStep.mirrored (NodeStep.prune : NodeStep X C (fun _ => True) n n.prune) hmir
    refine ((List.perm_ext_iff_of_nodup (hmir'.nodup v) (hmir.nodup v)).mpr fun h => ?_).length_eq
    rw [hmir'.mem, hmir.mem]
    refine exists_congr fun a => ⟨GossipNode.slot_of_prune, fun ha => ?_⟩
    obtain ⟨byV, hby, ha⟩ := GossipNode.slot_eq_some.mp ha
    refine GossipNode.slot_eq_some.mpr ⟨byV, GossipNode.get?_livePool.mpr ⟨hby, ?_, ?_⟩, ha⟩
    · rw [Option.any_eq_false]
      exact fun b hb => hn.known h b hb
    · exact hn.pooled h byV hby
  have hpool : n.prune.poolRoom C = n.poolRoom C :=
    Finset.sum_congr rfl fun v _ => by rw [hlength v]
  have hbuffer : n.prune.bufferRoom X blocks ≤ n.bufferRoom X blocks := bufferRoom_prune n
  rw [GossipNode.room, GossipNode.room, hknown, hpool]
  omega

/-- A finalized block pays for the next sweep: one block less is worth two budgets. -/
theorem credit_finalize (hmem : block ∈ blocks)
    (hsubmit : submit X C.ledger n.chain block (n.attestationsFor hash) = .ok (fb, chain)) :
    (n.finalize hash chain).credit X C blocks ≤ n.credit X C blocks := by
  have hpaid := Nat.mul_le_mul_left (2 * budget C blocks)
    (Nat.succ_le_of_lt (liveCount_finalize hmem hsubmit))
  rw [Nat.mul_succ] at hpaid
  have hroom : (n.finalize hash chain).room X C blocks ≤ n.room X C blocks :=
    Nat.add_le_add_right (Nat.add_le_add_left (bufferRoom_finalize hsubmit) _) _
  rw [GossipNode.credit, GossipNode.credit]
  split <;> split <;> omega

/-- What is swept out makes room, for which the budget was kept. -/
theorem credit_prune (hmir : n.Mirrored) : n.prune.credit X C blocks ≤ n.credit X C blocks := by
  have hlive : n.prune.liveCount blocks = n.liveCount blocks := rfl
  rw [GossipNode.credit, GossipNode.credit, if_pos n.swept_prune, hlive]
  by_cases hswept : n.Swept
  · have hroom : n.prune.room X C blocks ≤ n.room X C blocks := room_prune hswept hmir
    rw [if_pos hswept]
    omega
  · have hbudget : n.prune.room X C blocks ≤ budget C blocks := room_le_budget n.prune
    rw [if_neg hswept]
    omega

/-- **What a step sends is paid from the credit.** -/
theorem NodeStep.credit_le (h : NodeStep X C src n n') (hmir : n.Mirrored)
    (hn : n.Holds (· ∈ blocks)) (hn' : n'.Holds (· ∈ blocks)) :
    n'.sent.length + n'.credit X C blocks ≤ n.sent.length + n.credit X C blocks := by
  have hkept : n'.chain.length = n.chain.length → n.Swept → n'.Swept := h.swept
  -- one case for each part of the room that shrinks, and two where the head or the sweep moves
  cases h with
  | @know flood h block _ _ hnew hcap =>
    have hnone : n.knownBlocks.get? h = none := by
      rwa [JsMap.has, Option.isSome_eq_false_iff, Option.isNone_iff_eq_none] at hnew
    have hsize : (n.know flood h block).knownBlocks.size = n.knownBlocks.size + 1 :=
      JsMap.size_set_of_none _ hnone
    have hsent : (n.know flood h block).sent.length ≤ n.sent.length + 1 := by
      cases flood with
      | false => exact Nat.le_succ _
      | true => exact (List.length_append ..).le
    refine credit_le_of_room rfl (hkept rfl) ?_
    rw [GossipNode.room, GossipNode.room, hsize]
    have hsame : (n.know flood h block).bufferRoom X blocks = n.bufferRoom X blocks := rfl
    have hsame' : (n.know flood h block).poolRoom C = n.poolRoom C := rfl
    omega
  | attest _ _ _ _ _ => exact credit_le_of_room rfl (hkept rfl) le_rfl
  | abstain _ _ _ => exact credit_le_of_room rfl (hkept rfl) le_rfl
  | @observe block already h _ _ =>
    rw [GossipNode.observe] at hkept ⊢
    split
    · rename_i hlt
      rw [if_pos hlt] at hkept
      exact credit_le_of_room rfl (hkept rfl) le_rfl
    · exact le_rfl
  | @pool att _ _ hstake _ hadmits =>
    have hpool := poolRoom_pool hstake (admits_iff.mp hadmits) hmir
    have hsent : (n.pool att).sent.length = n.sent.length + 1 := List.length_append
    refine credit_le_of_room rfl (hkept rfl) ?_
    rw [hsent, Nat.add_assoc, Nat.add_comm 1]
    exact Nat.add_le_add_left (Nat.add_lt_add_left hpool _) _
  | @finalize hash block fb chain _ hknown hsubmit =>
    exact Nat.add_le_add_left (credit_finalize (hn.known hash block hknown) hsubmit) _
  | @buffer block h hahead _ hhash hnew _ =>
    have hmem : block ∈ blocks := hn'.sent block (List.mem_append_right _ List.mem_cons_self)
    have hbuffer := bufferRoom_buffer hmem hahead hhash hnew
    have hsent : (n.buffer block).sent.length = n.sent.length + 1 := List.length_append
    refine credit_le_of_room rfl (hkept rfl) ?_
    rw [hsent, Nat.add_assoc, Nat.add_comm 1]
    exact Nat.add_le_add_left (Nat.add_lt_add_right (Nat.add_lt_add_left hbuffer _) _) _
  | prune => exact Nat.add_le_add_left (credit_prune hmir) _
  | release =>
    refine credit_le_of_room rfl (hkept rfl) (Nat.add_le_add_left ?_ _)
    exact Nat.add_le_add_right (Nat.add_le_add_left (bufferRoom_release n) _) _

/-- **What a run sends is paid from the credit.** -/
theorem HeldRun.credit_le (h : HeldRun X C (· ∈ blocks) src n n') (hmir : n.Mirrored)
    (hn : n.Holds (· ∈ blocks)) : n'.Mirrored ∧ ∃ new, n'.sent = n.sent ++ new ∧
      new.length + n'.credit X C blocks ≤ n.credit X C blocks := by
  induction h with
  | refl => exact ⟨hmir, [], (List.append_nil _).symm, (Nat.zero_add _).le⟩
  | @tail m m' hrun hlast ih =>
    obtain ⟨hmir', new, hsent, hpaid⟩ := ih
    obtain ⟨new', hsent', -⟩ := hlast.1.sent
    have hstep := hlast.1.credit_le hmir' (HeldRun.holds hrun hn) (hlast.2 (HeldRun.holds hrun hn))
    rw [hsent', List.length_append] at hstep
    refine ⟨hlast.1.mirrored hmir', new ++ new', ?_, ?_⟩
    · rw [hsent', hsent, List.append_assoc]
    · rw [List.length_append]
      omega

end Credit

/-! ## Deliveries -/

namespace GossipBus

section Measure

variable (X : LedgerExternals) (blocks : List Block)

/-- The blocks in play are among the given ones, and the nodes are in order. -/
structure Confined (bus : GossipBus) : Prop where
  /-- what the nodes have -/
  holds : ∀ id peer, bus.handlers.get? id = some peer → peer.node.Holds (· ∈ blocks)
  /-- the indexes of the nodes -/
  mirrored : ∀ id peer, bus.handlers.get? id = some peer → peer.node.Mirrored
  /-- what is queued -/
  queued : ∀ id block, (id, GossipMessage.block block) ∈ bus.queue → block ∈ blocks

/-- What the nodes may still send. -/
noncomputable def credits (bus : GossipBus) : ℕ :=
  (bus.handlers.values.map fun peer => peer.node.credit X peer.config blocks).sum

/-- The deliveries that may still come: each message sent is queued at most once for each
node. -/
noncomputable def measure (bus : GossipBus) : ℕ :=
  bus.queue.length + bus.handlers.size * bus.credits X blocks

variable {X blocks} {bus : GossipBus}

theorem foldl_broadcast (sender : String) (sent : List GossipMessage) (bus : GossipBus) :
    (sent.foldl (broadcast sender) bus).handlers = bus.handlers ∧
    (sent.foldl (broadcast sender) bus).queue =
      bus.queue ++ sent.flatMap fun msg => (bus.receivers sender).map fun id => (id, msg) := by
  induction sent generalizing bus with
  | nil => exact ⟨rfl, (List.append_nil _).symm⟩
  | cons msg sent ih =>
    obtain ⟨hhandlers, hqueue⟩ := ih (broadcast sender bus msg)
    refine ⟨hhandlers, hqueue.trans ?_⟩
    rw [List.flatMap_cons, ← List.append_assoc]
    rfl

/-- Each message is queued at most once for each node. -/
theorem length_foldl_broadcast (sender : String) (sent : List GossipMessage) (bus : GossipBus) :
    (sent.foldl (broadcast sender) bus).queue.length ≤
      bus.queue.length + bus.handlers.size * sent.length := by
  induction sent generalizing bus with
  | nil => exact Nat.le_add_right _ _
  | cons msg sent ih =>
    have hreceivers : (bus.receivers sender).length ≤ bus.handlers.size := by
      refine (List.length_filter_le _ _).trans_eq ?_
      rw [JsMap.keys, List.length_map, JsMap.size]
    have hone : (broadcast sender bus msg).queue.length =
        bus.queue.length + (bus.receivers sender).length := by
      rw [broadcast, List.length_append, List.length_map]
    have hrest := ih (broadcast sender bus msg)
    have hsame : (broadcast sender bus msg).handlers = bus.handlers := rfl
    rw [hone, hsame] at hrest
    rw [List.foldl_cons, List.length_cons, Nat.mul_succ]
    omega

/-- What a handler does is confined to the blocks in play and paid from its credit. -/
theorem onMessage_paid {receiver : String} {peer : GossipPeer} {msg : GossipMessage}
    (entropy : Bytes → Bytes) (hbus : bus.Confined blocks)
    (hpeer : bus.handlers.get? receiver = some peer) (hmsg : (receiver, msg) ∈ bus.queue) :
    (onMessage X peer.config entropy msg peer.node).1.Holds (· ∈ blocks) ∧
    (onMessage X peer.config entropy msg peer.node).1.Mirrored ∧
    ∃ new, (onMessage X peer.config entropy msg peer.node).1.sent = peer.node.sent ++ new ∧
      new.length + (onMessage X peer.config entropy msg peer.node).1.credit X peer.config blocks ≤
        peer.node.credit X peer.config blocks := by
  have hholds := hbus.holds receiver peer hpeer
  have hrun : HeldRun X peer.config (· ∈ blocks) (fun _ => True) peer.node
      (onMessage X peer.config entropy msg peer.node).1 := by
    refine onMessage_held entropy trivial (fun block hblock => ?_) hholds
    exact hbus.queued receiver block (hblock ▸ hmsg)
  exact ⟨hrun.holds hholds, hrun.credit_le (hbus.mirrored receiver peer hpeer) hholds⟩

section Sending

variable {receiver sender : String} {peer : GossipPeer} {node : GossipNode}
  {queue : List (String × GossipMessage)} {new : List GossipMessage}

/-- A node that keeps to the blocks in play keeps the bus to them, with what it sends. -/
theorem Confined.send (hbus : bus.Confined blocks)
    (hrest : ∀ id block, (id, GossipMessage.block block) ∈ queue → block ∈ blocks)
    (hholds : node.Holds (· ∈ blocks)) (hmir : node.Mirrored)
    (hnew : ∀ block, GossipMessage.block block ∈ new → block ∈ blocks) :
    (new.foldl (broadcast sender) { bus with
      queue := queue
      handlers := bus.handlers.set receiver { peer with node := node } }).Confined blocks := by
  obtain ⟨hhandlers, hqueued⟩ := foldl_broadcast sender new
    { bus with queue := queue, handlers := bus.handlers.set receiver { peer with node := node } }
  have hget : ∀ id p, (bus.handlers.set receiver { peer with node := node }).get? id = some p →
      p.node = node ∨ bus.handlers.get? id = some p := by
    intro id p hp
    rw [JsMap.get?_set] at hp
    split at hp
    · cases hp
      exact .inl rfl
    · exact .inr hp
  refine ⟨fun id p hp => ?_, fun id p hp => ?_, fun id block hmem => ?_⟩
  · rw [hhandlers] at hp
    rcases hget id p hp with heq | hold
    · exact heq ▸ hholds
    · exact hbus.holds id p hold
  · rw [hhandlers] at hp
    rcases hget id p hp with heq | hold
    · exact heq ▸ hmir
    · exact hbus.mirrored id p hold
  · rw [hqueued] at hmem
    rcases List.mem_append.mp hmem with hold | hsent
    · exact hrest id block hold
    · obtain ⟨msg, hmsg, hmem'⟩ := List.mem_flatMap.mp hsent
      obtain ⟨id', -, heq⟩ := List.mem_map.mp hmem'
      obtain ⟨-, rfl⟩ := Prod.mk.inj heq
      exact hnew block hmsg

/-- What a node sends from its credit does not add to the measure. -/
theorem measure_send (hpeer : bus.handlers.get? receiver = some peer)
    (hpaid : new.length + node.credit X peer.config blocks ≤
      peer.node.credit X peer.config blocks) :
    (new.foldl (broadcast sender) { bus with
      queue := queue
      handlers := bus.handlers.set receiver { peer with node := node } }).measure X blocks ≤
      queue.length + bus.handlers.size * bus.credits X blocks := by
  obtain ⟨hhandlers, -⟩ := foldl_broadcast sender new
    { bus with queue := queue, handlers := bus.handlers.set receiver { peer with node := node } }
  have hcopies := length_foldl_broadcast sender new
    { bus with queue := queue, handlers := bus.handlers.set receiver { peer with node := node } }
  generalize new.foldl (broadcast sender) _ = bus' at hhandlers hcopies
  dsimp only at hhandlers hcopies
  have hsize : bus'.handlers.size = bus.handlers.size := by
    rw [hhandlers, JsMap.size_set_of_some _ hpeer]
  have hcredits : new.length + bus'.credits X blocks ≤ bus.credits X blocks := by
    have hsum := JsMap.sum_values_set_of_some
      (fun p : GossipPeer => p.node.credit X p.config blocks) { peer with node := node } hpeer
    rw [credits, credits, hhandlers]
    dsimp only at hsum
    omega
  rw [← hhandlers, hsize] at hcopies
  have hpaid' := Nat.mul_le_mul_left bus.handlers.size hcredits
  rw [Nat.mul_add] at hpaid'
  rw [measure, hsize]
  omega

end Sending

/-- **A delivery takes more from the queue and the credits than it adds.** -/
theorem deliver_measure {receiver : String} {msg : GossipMessage}
    {queue : List (String × GossipMessage)} (entropy : Bytes → Bytes)
    (hqueue : bus.queue = (receiver, msg) :: queue) (hbus : bus.Confined blocks) :
    (deliver X entropy receiver msg { bus with queue := queue }).1.Confined blocks ∧
    (deliver X entropy receiver msg { bus with queue := queue }).1.measure X blocks <
      bus.measure X blocks := by
  have hless : queue.length + bus.handlers.size * bus.credits X blocks < bus.measure X blocks := by
    rw [measure, hqueue, List.length_cons]
    omega
  have hrest : ∀ id block, (id, GossipMessage.block block) ∈ queue → block ∈ blocks :=
    fun id block hmem => hbus.queued id block (hqueue ▸ List.mem_cons_of_mem _ hmem)
  rw [deliver]
  rcases hpeer : bus.handlers.get? receiver with _ | peer
  · -- nobody listens
    exact ⟨⟨hbus.holds, hbus.mirrored, hrest⟩, hless⟩
  · obtain ⟨hholds, hmir, new, hsent, hpaid⟩ := onMessage_paid (X := X) entropy hbus hpeer
      (hqueue ▸ List.mem_cons_self)
    dsimp only
    rw [hsent, List.drop_left]
    refine ⟨hbus.send hrest hholds hmir fun block hblock => ?_,
      (measure_send hpeer hpaid).trans_lt hless⟩
    exact hholds.sent block (hsent ▸ List.mem_append_right _ hblock)

/-- **Deliveries run out**: with a cap above the measure the queue is emptied, or a handler
throws. -/
theorem runFrom_quiesces (entropy : ℕ → Bytes → Bytes) {cap n : ℕ} (hbus : bus.Confined blocks)
    (hcap : bus.measure X blocks ≤ cap) :
    (∃ k ≤ bus.measure X blocks, (runFrom X entropy cap n bus).2 = .quiescent (n + k) ∧
      (runFrom X entropy cap n bus).1.queue = []) ∨
    ∃ e, (runFrom X entropy cap n bus).2 = .threw e := by
  induction cap generalizing bus n with
  | zero =>
    -- a measure of nothing leaves an empty queue
    have hempty : bus.queue = [] := by
      rw [← List.length_eq_zero_iff]
      rw [measure] at hcap
      omega
    rw [runFrom, hempty]
    exact .inl ⟨0, Nat.zero_le _, rfl, hempty⟩
  | succ cap ih =>
    rw [runFrom]
    rcases hqueue : bus.queue with _ | ⟨⟨receiver, msg⟩, queue⟩
    · exact .inl ⟨0, Nat.zero_le _, rfl, hqueue⟩
    obtain ⟨hconfined, hless⟩ := deliver_measure (X := X) (entropy n) hqueue hbus
    dsimp only
    rcases hdeliver : deliver X (entropy n) receiver msg { bus with queue := queue }
      with ⟨bus', _ | e⟩
    · rw [hdeliver] at hconfined hless
      have hnext : ({ bus' with delivered := bus'.delivered + 1 } : GossipBus).Confined blocks :=
        ⟨hconfined.holds, hconfined.mirrored, hconfined.queued⟩
      have hsame : ({ bus' with delivered := bus'.delivered + 1 } : GossipBus).measure X blocks =
          bus'.measure X blocks := rfl
      dsimp only at hless
      rcases ih (n := n + 1) hnext (by omega) with ⟨k, hk, hend, hnil⟩ | hthrew
      · refine .inl ⟨k + 1, by omega, ?_, hnil⟩
        rw [hend, Nat.add_right_comm, Nat.add_assoc]
      · exact .inr hthrew
    · exact .inr ⟨e, rfl⟩

end Measure

/-- The blocks of a list of messages. -/
def messageBlocks (messages : List GossipMessage) : List Block :=
  messages.filterMap fun
    | .block block => some block
    | .attestation _ => none

/-- The blocks in play. -/
def blocks (bus : GossipBus) : List Block :=
  messageBlocks (bus.queue.map Prod.snd) ++ bus.handlers.values.flatMap fun peer =>
    peer.node.knownBlocks.values ++ peer.node.pendingBlocks.values.flatten ++
      messageBlocks peer.node.sent

theorem mem_messageBlocks {messages : List GossipMessage} {block : Block} :
    block ∈ messageBlocks messages ↔ GossipMessage.block block ∈ messages := by
  rw [messageBlocks, List.mem_filterMap]
  constructor
  · rintro ⟨m, hm, heq⟩
    cases m with
    | block b =>
      cases heq
      exact hm
    | attestation a => cases heq
  · exact fun hm => ⟨_, hm, rfl⟩

theorem confined_blocks {X : LedgerExternals} {bus : GossipBus}
    (hpeers : ∀ id peer, bus.handlers.get? id = some peer →
      NodeHistory X peer.config (fun _ _ => True) peer.node) : bus.Confined bus.blocks := by
  have hnode : ∀ id peer block, bus.handlers.get? id = some peer →
      block ∈ peer.node.knownBlocks.values ++ peer.node.pendingBlocks.values.flatten ++
        messageBlocks peer.node.sent → block ∈ bus.blocks := by
    intro id peer block hpeer hblock
    refine List.mem_append_right _ (List.mem_flatMap.mpr ⟨peer, ?_, hblock⟩)
    exact JsMap.mem_values_iff.mpr ⟨id, hpeer⟩
  refine ⟨fun id peer hpeer => ⟨?_, ?_, ?_⟩, fun id peer hpeer => ?_, fun id block hmem => ?_⟩
  · intro h b hb
    refine hnode id peer b hpeer (List.mem_append_left _ (List.mem_append_left _ ?_))
    exact JsMap.mem_values_iff.mpr ⟨h, hb⟩
  · intro k bs hk b hb
    refine hnode id peer b hpeer (List.mem_append_left _ (List.mem_append_right _ ?_))
    exact List.mem_flatten.mpr ⟨bs, JsMap.mem_values_iff.mpr ⟨k, hk⟩, hb⟩
  · intro b hb
    exact hnode id peer b hpeer (List.mem_append_right _ (mem_messageBlocks.mpr hb))
  · exact (NodeRun.bounded (hpeers id peer hpeer).run).1
  · refine List.mem_append_left _ (mem_messageBlocks.mpr ?_)
    exact List.mem_map.mpr ⟨_, hmem, rfl⟩

end GossipBus

/-- **Gossip comes to rest.** Take any bus whose registered nodes are in states they can get
to, with any messages in the queue and any relation of who reaches whom. There is a number of
deliveries, whatever randomness the nodes draw, after which `run` has returned with an empty
queue unless a handler threw; a cap at or above that number is never hit. -/
theorem gossip_quiesces {X : LedgerExternals} {bus : GossipBus}
    (hpeers : ∀ id peer, bus.handlers.get? id = some peer →
      NodeHistory X peer.config (fun _ _ => True) peer.node) :
    ∃ most, ∀ (entropy : ℕ → Bytes → Bytes) (maxDeliveries : ℕ), most ≤ maxDeliveries →
      (∃ k ≤ most, (bus.run X entropy maxDeliveries).2.result = .ok k ∧
        (bus.run X entropy maxDeliveries).1.queue = []) ∨
      ∃ e, (bus.run X entropy maxDeliveries).2 = .threw e := by
  refine ⟨bus.measure X bus.blocks, fun entropy maxDeliveries hcap => ?_⟩
  have hquiet := GossipBus.runFrom_quiesces entropy (n := 0) (GossipBus.confined_blocks hpeers) hcap
  rcases hquiet with ⟨k, hk, hend, hnil⟩ | hthrew
  · refine .inl ⟨k, hk, ?_, hnil⟩
    rw [GossipBus.run, hend, Nat.zero_add]
    rfl
  · exact .inr hthrew

/-- Two nodes that follow the three validators, and somebody outside who sends them a block and
an attestation of it. -/
def followersBus : GossipBus :=
  let bus := (GossipBus.new.register checksumExternals ⟨follower, .new⟩).register checksumExternals
    ⟨⟨⟨[8], [8]⟩, mixedLedger⟩, .new⟩
  (bus.broadcast "00" (.block pairBlock)).broadcast "00"
    (.attestation (mixedAttestation 0 "00" "b6" 0))

/-- `gossip_quiesces` for them: eight deliveries. -/
theorem gossip_quiesces_followers :
    (followersBus.run checksumExternals (fun _ => id) 100).2.result = .ok 8 ∧
    ∃ most, ∀ (entropy : ℕ → Bytes → Bytes) (maxDeliveries : ℕ), most ≤ maxDeliveries →
      (∃ k ≤ most, (followersBus.run checksumExternals entropy maxDeliveries).2.result = .ok k ∧
        (followersBus.run checksumExternals entropy maxDeliveries).1.queue = []) ∨
      ∃ e, (followersBus.run checksumExternals entropy maxDeliveries).2 = .threw e := by
  refine ⟨by decide +kernel, gossip_quiesces fun id peer hpeer => ?_⟩
  have hnew : ∀ p ∈ followersBus.handlers.values, p.node = .new := by
    intro p hp
    rcases hp with _ | ⟨_, _ | ⟨_, hp⟩⟩
    · rfl
    · rfl
    · cases hp
  rw [hnew peer (JsMap.mem_values_iff.mpr ⟨id, hpeer⟩)]
  exact .refl

end Nerion
