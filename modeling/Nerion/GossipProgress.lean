import Nerion.GossipRound

/-!
# The honest network makes progress (`ledger/src/gossip.ts`)

Nodes that run the code, all connected, start out with nothing; whenever the bus is at rest one of
them is asked to propose and, when it returns a block, the bus runs.

* `RoundBus` — the bus in the middle of a round: who has seen the block, who has attested, and what
  is on its way. `deliver_round` keeps it, and no handler throws;
* `RoundBus.final` — when nothing is on its way any more, everybody has finalized the block, if the
  stake that is online carries the threshold;
* `AtRest` — the bus between two rounds; `AtRest.round` goes from one rest to the next;
* `honest_network_progress` — so round after round every node appends the block proposed.
-/

namespace Nerion

section Progress

variable (X : LedgerExternals) (L : LedgerConfig) (scheme : SignatureScheme)

/-- The stake of the registered validators carries the threshold. -/
def Online (bus : GossipBus) : Prop :=
  L.finalityNum.toInt * totalStake L.set ≤
    (∑ v ∈ L.set.pubkeys.filter (bus.handlers.has · = true), stakeOf L.set v) *
      L.finalityDen.toInt

/-- The validator is registered and has seen the block. -/
def Spoken (length : ℕ) (block : Block) (h : String) (bus : GossipBus) (v : String) : Prop :=
  ∃ peer, bus.handlers.get? v = some peer ∧ Seen length block h peer.node

/-- The block and the hash of an entry of a chain. -/
def FinalizedBlock.logged (fb : FinalizedBlock) : Block × String := (fb.block, fb.hash)

/-- The bus in a round; `log` is what everybody had finalized before. -/
structure RoundBus (block : Block) (h : String) (log : List (Block × String)) (bus : GossipBus) :
    Prop where
  /-- everybody reaches everybody -/
  connected : ∀ a b, bus.reachable a b = true
  /-- enough stake is online -/
  online : Online L bus
  /-- nodes are honest, and registered under their ids -/
  honest : ∀ id peer, bus.handlers.get? id = some peer →
    peer.config.id X = id ∧ HonestPeer X L scheme peer.config
  /-- in states they get to -/
  history : ∀ id peer, bus.handlers.get? id = some peer →
    NodeHistory X peer.config (fun _ _ => True) peer.node
  /-- the nodes hold no other blocks -/
  held : ∀ id peer, bus.handlers.get? id = some peer → peer.node.Holds (RoundBlock block)
  /-- the nodes are in the round -/
  round : ∀ id peer, bus.handlers.get? id = some peer → ∃ start,
    start.map FinalizedBlock.logged = log ∧
    InRound (Spoken log.length block h bus) block h start peer.node
  /-- what is on its way is of the round -/
  queued : ∀ id m, (id, m) ∈ bus.queue → RoundMessage X L (Spoken log.length block h bus) block h m
  /-- once somebody has seen the block, it has got to everybody or is on its way -/
  spread : ∀ v, Spoken log.length block h bus v → ∀ id peer, bus.handlers.get? id = some peer →
    Seen log.length block h peer.node ∨ (id, .block block) ∈ bus.queue
  /-- the attestation of everybody who has seen it is on its way or there -/
  voted : ∀ v, Spoken log.length block h bus v → 0 < stakeOf L.set v →
    ∀ id peer, bus.handlers.get? id = some peer →
      log.length < peer.node.chain.length ∨ (∃ a, peer.node.slot h v = some a) ∨
        ∃ a, (id, .attestation a) ∈ bus.queue ∧ a.validator = v

variable {X L scheme} {block : Block} {h : String} {log : List (Block × String)} {length : ℕ}
  {bus : GossipBus}

/-! ## A delivery -/

theorem reachable_foldl_broadcast (sender : String) (sent : List GossipMessage) (bus : GossipBus) :
    (sent.foldl (GossipBus.broadcast sender) bus).reachable = bus.reachable := by
  induction sent generalizing bus with
  | nil => rfl
  | cons msg sent ih => exact ih _

/-- What is on its way after a broadcast. -/
theorem mem_queue_foldl_broadcast {sender : String} {sent : List GossipMessage} {id : String}
    {m : GossipMessage} (hconnected : ∀ a b, bus.reachable a b = true) :
    (id, m) ∈ (sent.foldl (GossipBus.broadcast sender) bus).queue ↔
      (id, m) ∈ bus.queue ∨ m ∈ sent ∧ id ≠ sender ∧ (bus.handlers.get? id).isSome = true := by
  rw [(GossipBus.foldl_broadcast sender sent bus).2, List.mem_append, List.mem_flatMap]
  refine or_congr_right ⟨?_, ?_⟩
  · rintro ⟨msg, hmsg, hmem⟩
    obtain ⟨id', hid', heq⟩ := List.mem_map.mp hmem
    cases heq
    obtain ⟨hkey, hcond⟩ := List.mem_filter.mp hid'
    refine ⟨hmsg, fun heq => ?_, JsMap.mem_keys_iff.mp hkey⟩
    rw [decide_eq_true heq] at hcond
    cases hcond
  · rintro ⟨hmsg, hne, hsome⟩
    refine ⟨m, hmsg, List.mem_map.mpr ⟨id, List.mem_filter.mpr ⟨JsMap.mem_keys_iff.mpr hsome, ?_⟩,
      rfl⟩⟩
    rw [decide_eq_false hne, hconnected]
    rfl

/-- A round goes on when messages nobody listens to are dropped. -/
theorem RoundBus.drop {receiver : String} {msg : GossipMessage}
    {queue : List (String × GossipMessage)}
    (hbus : RoundBus X L scheme block h log bus)
    (hqueue : bus.queue = (receiver, msg) :: queue)
    (hnobody : bus.handlers.get? receiver = none) :
    RoundBus X L scheme block h log { bus with queue := queue } := by
  have hrest : ∀ id peer m, bus.handlers.get? id = some peer → (id, m) ∈ bus.queue →
      (id, m) ∈ queue := by
    intro id peer m hpeer hmem
    rw [hqueue] at hmem
    refine (List.mem_cons.mp hmem).resolve_left fun heq => ?_
    cases heq
    rw [hnobody] at hpeer
    cases hpeer
  refine ⟨hbus.connected, hbus.online, hbus.honest, hbus.history, hbus.held, hbus.round,
    fun id m hmem => hbus.queued id m (hqueue ▸ List.mem_cons_of_mem _ hmem),
    fun v hv id peer hpeer => (hbus.spread v hv id peer hpeer).imp_right (hrest id peer _ hpeer),
    fun v hv hstake id peer hpeer => (hbus.voted v hv hstake id peer hpeer).imp_right ?_⟩
  exact Or.imp_right fun ⟨a, ha, hval⟩ => ⟨a, hrest id peer _ hpeer ha, hval⟩

section Delivery

variable {receiver : String} {msg : GossipMessage} {queue : List (String × GossipMessage)}
  {peer : GossipPeer} {n' : GossipNode} {bus' : GossipBus}

section Handlers

variable (hpeer : bus.handlers.get? receiver = some peer)
  (hhandlers : bus'.handlers = bus.handlers.set receiver { peer with node := n' })

include hhandlers in
/-- Who is registered after a handler has run. -/
theorem get?_handlers {id : String} {p : GossipPeer} (hp : bus'.handlers.get? id = some p) :
    id = receiver ∧ p = { peer with node := n' } ∨
      id ≠ receiver ∧ bus.handlers.get? id = some p := by
  rw [hhandlers, JsMap.get?_set] at hp
  split at hp
  · rename_i hid
    exact .inl ⟨hid, (Option.some.inj hp).symm⟩
  · rename_i hid
    exact .inr ⟨hid, hp⟩

include hhandlers in
/-- What holds of the receiver and of everybody else holds of all. -/
theorem forall_handlers {P : String → GossipPeer → Prop}
    (hreceiver : P receiver { peer with node := n' })
    (hothers : ∀ id p, id ≠ receiver → bus.handlers.get? id = some p → P id p) (id : String)
    (p : GossipPeer) (hp : bus'.handlers.get? id = some p) : P id p := by
  rcases get?_handlers hhandlers hp with ⟨rfl, rfl⟩ | ⟨hne, hold⟩
  · exact hreceiver
  · exact hothers id p hne hold

include hpeer hhandlers in
theorem has_handlers (id : String) : bus'.handlers.has id = bus.handlers.has id := by
  rw [JsMap.has, JsMap.has, hhandlers, JsMap.get?_set]
  split
  · rename_i hid
    rw [hid, hpeer]
    rfl
  · rfl

include hpeer hhandlers in
theorem Online.of_handlers (honline : Online L bus) : Online L bus' := by
  rw [Online, Finset.filter_congr fun v _ => by rw [has_handlers hpeer hhandlers v]]
  exact honline

include hpeer hhandlers in
/-- Nobody takes back what they said. -/
theorem Spoken.of_handlers (hseen : Seen length block h peer.node → Seen length block h n')
    {v : String} (hv : Spoken length block h bus v) : Spoken length block h bus' v := by
  obtain ⟨q, hq, hs⟩ := hv
  rw [Spoken, hhandlers, JsMap.get?_set]
  split
  · rename_i hv
    rw [hv, hpeer] at hq
    cases hq
    exact ⟨_, rfl, hseen hs⟩
  · exact ⟨q, hq, hs⟩

include hpeer hhandlers in
/-- **A round goes on** when a node has handled a message and what it sent is on its way. -/
theorem RoundBus.move (hbus : RoundBus X L scheme block h log bus)
    (hqueue : bus.queue = (receiver, msg) :: queue) (hreach : bus'.reachable = bus.reachable)
    (hhist : NodeHistory X peer.config (fun _ _ => True) n')
    {new : List GossipMessage} (hsent : n'.sent = peer.node.sent ++ new)
    (hqueue' : ∀ id m, (id, m) ∈ bus'.queue ↔
      (id, m) ∈ queue ∨ m ∈ new ∧ id ≠ receiver ∧ (bus.handlers.get? id).isSome = true)
    {start : List FinalizedBlock} (hstart : start.map FinalizedBlock.logged = log)
    (hround : InRound (Spoken log.length block h bus') block h start n')
    (hmove : RoundMove X L (Spoken log.length block h bus') block h log.length receiver msg
      peer.node n') : RoundBus X L scheme block h log bus' := by
  have hV : ∀ v, Spoken log.length block h bus v →
      Spoken log.length block h bus' v :=
    fun v => Spoken.of_handlers hpeer hhandlers hmove.seen
  obtain ⟨new', hsent', hnew, hfresh⟩ := hmove.sent
  obtain rfl : new = new' := List.append_cancel_left (hsent.symm.trans hsent')
  -- what was on its way to somebody is still, or has just been handled
  have hrest : ∀ id m, (id, m) ∈ bus.queue → (id = receiver ∧ m = msg) ∨ (id, m) ∈ bus'.queue := by
    intro id m hmem
    rw [hqueue] at hmem
    rcases List.mem_cons.mp hmem with heq | hmem
    · exact .inl (Prod.mk.inj heq)
    · exact .inr ((hqueue' id m).mpr (.inl hmem))
  have hflood : ∀ id p m, m ∈ new → id ≠ receiver → bus.handlers.get? id = some p →
      (id, m) ∈ bus'.queue := by
    intro id p m hm hne hp
    refine (hqueue' id m).mpr (.inr ⟨hm, hne, ?_⟩)
    rw [hp]
    rfl
  -- somebody who has spoken had done so, or is the receiver who sees the block for the first time
  have hspoken : ∀ v, Spoken log.length block h bus' v →
      Spoken log.length block h bus v ∨ v = receiver ∧
        ¬ Seen log.length block h peer.node ∧
        Seen log.length block h n' := by
    rintro v ⟨q, hq, hs⟩
    rcases get?_handlers hhandlers hq with ⟨rfl, rfl⟩ | ⟨hne, hold⟩
    · by_cases hsp : Seen log.length block h peer.node
      · exact .inl ⟨peer, hpeer, hsp⟩
      · exact .inr ⟨rfl, hsp, hs⟩
    · exact .inl ⟨q, hold, hs⟩
  refine ⟨fun a b => hreach ▸ hbus.connected a b, hbus.online.of_handlers hpeer hhandlers,
    forall_handlers hhandlers (hbus.honest receiver peer hpeer) fun id p _ => hbus.honest id p,
    forall_handlers hhandlers hhist fun id p _ => hbus.history id p,
    forall_handlers hhandlers hmove.held fun id p _ => hbus.held id p,
    forall_handlers hhandlers ⟨start, hstart, hround⟩ fun id p _ hp => ?_, fun id m hmem => ?_,
    fun v hv => ?_, fun v hv hstake => ?_⟩
  · obtain ⟨start', hstart', hround'⟩ := hbus.round id p hp
    exact ⟨start', hstart', hround'.mono hV⟩
  · rcases (hqueue' id m).mp hmem with hold | ⟨hm, -⟩
    · exact (hbus.queued id m (hqueue ▸ List.mem_cons_of_mem _ hold)).mono hV
    · exact hnew m hm
  · rcases hspoken v hv with hold | ⟨rfl, hunseen, hseen⟩
    · refine forall_handlers hhandlers ?_ fun id p hne hp => ?_
      · rcases hbus.spread v hold receiver peer hpeer with hs | hmem
        · exact .inl (hmove.seen hs)
        · rcases hrest receiver _ hmem with ⟨-, heq⟩ | hmem
          · exact .inl (hmove.block heq.symm)
          · exact .inr hmem
      · exact (hbus.spread v hold id p hp).imp_right fun hmem =>
          (hrest id _ hmem).resolve_left fun heq => hne heq.1
    · exact forall_handlers hhandlers (.inl hseen) fun id p hne hp =>
        .inr (hflood id p _ (hfresh hunseen hseen).1 hne hp)
  · rcases hspoken v hv with hold | ⟨rfl, hunseen, hseen⟩
    · refine forall_handlers hhandlers ?_ fun id p hne hp => ?_
      · rcases hbus.voted v hold hstake receiver peer hpeer with hlt | ⟨a, ha⟩ | ⟨a, hmem, hval⟩
        · exact .inl (hlt.trans_le hmove.longer)
        · exact (hmove.kept v a ha).imp_right fun hslot => .inl ⟨a, hslot⟩
        · rcases hrest receiver _ hmem with ⟨-, heq⟩ | hmem
          · exact (hmove.attestation a heq.symm).imp_right fun hslot => .inl (hval ▸ hslot)
          · exact .inr (.inr ⟨a, hmem, hval⟩)
      · exact (hbus.voted v hold hstake id p hp).imp_right <| Or.imp_right fun ⟨a, hmem, hval⟩ =>
          ⟨a, (hrest id _ hmem).resolve_left fun heq => hne heq.1, hval⟩
    · obtain ⟨a, hmem, -, hval, hheld⟩ := (hfresh hunseen hseen).2 hstake
      exact forall_handlers hhandlers (hheld.imp_right fun hslot => .inl ⟨a, hslot⟩)
        fun id p hne hp => .inr (.inr ⟨a, hflood id p _ hmem hne hp, hval⟩)

end Handlers

/-- **A delivery in a round**: no handler throws, the round goes on, and nobody takes back what
they said. -/
theorem deliver_round (entropy : Bytes → Bytes)
    (hsetting : RoundSetting X L scheme block h log.length)
    (hbus : RoundBus X L scheme block h log bus)
    (hqueue : bus.queue = (receiver, msg) :: queue) :
    (GossipBus.deliver X entropy receiver msg { bus with queue := queue }).2 = none ∧
    RoundBus X L scheme block h log
      (GossipBus.deliver X entropy receiver msg { bus with queue := queue }).1 ∧
    (∀ v, Spoken log.length block h bus v → Spoken log.length block h
      (GossipBus.deliver X entropy receiver msg { bus with queue := queue }).1 v) ∧
    (msg = .block block → bus.handlers.has receiver = true → Spoken log.length block h
      (GossipBus.deliver X entropy receiver msg { bus with queue := queue }).1 receiver) := by
  rw [GossipBus.deliver]
  rcases hpeer : bus.handlers.get? receiver with _ | peer
  · refine ⟨rfl, hbus.drop hqueue hpeer, fun v hv => hv, fun _ hhas => ?_⟩
    rw [JsMap.has, hpeer] at hhas
    cases hhas
  · obtain ⟨hid, hC⟩ := hbus.honest receiver peer hpeer
    obtain ⟨start, hstart, hround⟩ := hbus.round receiver peer hpeer
    have hlen : start.length = log.length := by rw [← hstart, List.length_map]
    have hhist := hbus.history receiver peer hpeer
    let n' := (onMessage X peer.config entropy msg peer.node).1
    let bus' := (n'.sent.drop peer.node.sent.length).foldl
      (GossipBus.broadcast (peer.config.id X)) { bus with
        queue := queue
        handlers := bus.handlers.set receiver { peer with node := n' } }
    have hhandlers : bus'.handlers = bus.handlers.set receiver { peer with node := n' } :=
      (GossipBus.foldl_broadcast _ _ _).1
    have hrun : NodeRun X peer.config (fun _ => True) peer.node n' :=
      onMessage_run entropy trivial _
    have hV : ∀ v, Spoken log.length block h bus v →
        Spoken log.length block h bus' v := fun v =>
      Spoken.of_handlers hpeer hhandlers (hrun.seen hhist.settled (hlen ▸ hround.length_le))
    have hreceiver : Seen log.length block h n' →
        Spoken log.length block h bus' receiver := by
      intro hseen
      refine ⟨{ peer with node := n' }, ?_, hseen⟩
      rw [hhandlers, JsMap.get?_set, if_pos rfl]
    have hmsg := hbus.queued receiver msg (hqueue ▸ List.mem_cons_self)
    have hspoken : Spoken log.length block h bus (peer.config.id X) →
        Seen log.length block h peer.node := by
      rw [hid]
      rintro ⟨q, hq, hs⟩
      rw [hpeer] at hq
      cases hq
      exact hs
    obtain ⟨hthrow, hround', hmove⟩ := onMessage_round (hlen.symm ▸ hsetting) hC entropy hlen hhist
      (hbus.held receiver peer hpeer) hround hspoken hmsg hV (hid.symm ▸ hreceiver)
    rw [hid] at hmove
    obtain ⟨new, hsent, -⟩ := hmove.sent
    refine ⟨hthrow, hbus.move hpeer hhandlers hqueue (reachable_foldl_broadcast _ _ _)
      (hhist.tail (.deliver entropy trivial)) hsent (fun id m => ?_) hstart
      hround' hmove, hV,
      fun hblock _ => hreceiver (hmove.block hblock)⟩
    have hdrop : n'.sent.drop peer.node.sent.length = new := by
      rw [hsent, List.drop_left]
    change (id, m) ∈ GossipBus.queue ((n'.sent.drop peer.node.sent.length).foldl _ _) ↔ _
    rw [hdrop, hid]
    refine Iff.trans (mem_queue_foldl_broadcast ?_) (or_congr_right (and_congr_right fun _ =>
      and_congr_right fun hne => ?_))
    · exact hbus.connected
    · dsimp only
      rw [JsMap.get?_set, if_neg hne]

end Delivery

/-- When `run` returns, nothing is on its way. -/
theorem queue_of_quiescent {entropy : ℕ → Bytes → Bytes} {cap n k : ℕ}
    (hstop : (GossipBus.runFrom X entropy cap n bus).2 = .quiescent k) :
    (GossipBus.runFrom X entropy cap n bus).1.queue = [] := by
  induction cap generalizing bus n with
  | zero =>
    rw [GossipBus.runFrom] at hstop ⊢
    split at hstop
    · assumption
    · cases hstop
  | succ cap ih =>
    rw [GossipBus.runFrom] at hstop ⊢
    split at hstop
    · assumption
    · split at hstop
      · cases hstop
      · exact ih hstop

/-- **The bus stays in the round until it stops.** -/
theorem runFrom_round (entropy : ℕ → Bytes → Bytes) (cap n : ℕ)
    (hsetting : RoundSetting X L scheme block h log.length)
    (hbus : RoundBus X L scheme block h log bus)
    (hbegun : ∃ v, Spoken log.length block h bus v) :
    (∀ e, (GossipBus.runFrom X entropy cap n bus).2 ≠ .threw e) ∧
    RoundBus X L scheme block h log (GossipBus.runFrom X entropy cap n bus).1 ∧
    ∃ v, Spoken log.length block h (GossipBus.runFrom X entropy cap n bus).1 v := by
  induction cap generalizing bus n with
  | zero =>
    rw [GossipBus.runFrom]
    split <;> exact ⟨fun _ he => BusOutcome.noConfusion he, hbus, hbegun⟩
  | succ cap ih =>
    rw [GossipBus.runFrom]
    rcases hqueue : bus.queue with _ | ⟨⟨receiver, msg⟩, queue⟩
    · exact ⟨fun _ he => BusOutcome.noConfusion he, hbus, hbegun⟩
    obtain ⟨hthrow, hbus', hspoken, -⟩ := deliver_round (entropy n) hsetting hbus hqueue
    dsimp only
    rcases hdeliver : GossipBus.deliver X (entropy n) receiver msg { bus with queue := queue }
      with ⟨bus', e⟩
    rw [hdeliver] at hthrow hbus' hspoken
    dsimp only at hthrow hbus' hspoken
    subst hthrow
    refine ih (n + 1) ⟨hbus'.connected, hbus'.online, hbus'.honest, hbus'.history, hbus'.held,
      hbus'.round, hbus'.queued, hbus'.spread, hbus'.voted⟩ ?_
    obtain ⟨v, hv⟩ := hbegun
    exact ⟨v, hspoken v hv⟩

/-! ## Between two rounds -/

/-- A node between two rounds has nothing to work on. -/
structure Idle (n : GossipNode) : Prop where
  /-- it knows no block -/
  known : ∀ h, n.knownBlocks.get? h = none
  /-- its pool is empty -/
  pooled : ∀ h, n.attestations.get? h = none
  /-- nothing is buffered -/
  pending : ∀ k, n.pendingBlocks.get? k = none
  /-- it has attested below its head -/
  attested : ∀ k h, n.attestedAt.get? k = some h → JsNum.lt k n.height = true
  /-- it has signed below its head -/
  signed : ∀ a ∈ n.signed, JsNum.lt a.height n.height = true
  /-- it has sent blocks below its head -/
  sent : ∀ b, GossipMessage.block b ∈ n.sent → JsNum.lt b.header.height n.height = true
  /-- its record of final hashes is that of its chain -/
  final : ∀ x ∈ n.finalizedHashes, ∃ fb ∈ n.chain, fb.hash = x

theorem Idle.new : Idle .new := by
  refine ⟨fun _ => rfl, fun _ => rfl, fun _ => rfl, nofun, ?_, ?_, ?_⟩ <;>
    · intro _ hmem
      cases hmem

section Node

variable {n : GossipNode} {V : String → Prop}

/-- An idle node is ready for a round. -/
theorem Idle.holds (hn : Idle n) (hheight : block.header.height = n.height) :
    n.Holds (RoundBlock block) := by
  refine ⟨fun h' b hb => ?_, fun k bs hk => ?_, fun b hb => .inr (hheight ▸ hn.sent b hb)⟩
  · rw [hn.known] at hb
    cases hb
  · rw [hn.pending] at hk
    cases hk

theorem Idle.inRound (hn : Idle n) (hheight : block.header.height = n.height) :
    InRound V block h n.chain n := by
  refine ⟨.inl rfl, fun h' b hb => ?_, fun hash byV hby => ?_, hn.pending, fun k h' hk => ?_,
    fun _ hvote => ?_, fun a ha => .inl (hheight ▸ hn.signed a ha), hn.final⟩
  · rw [hn.known] at hb
    cases hb
  · rw [hn.pooled] at hby
    cases hby
  · exact hheight ▸ JsNum.le_of_lt (hn.attested k h' hk)
  · obtain ⟨h', hget⟩ := Option.ne_none_iff_exists'.mp hvote
    have hlt := hn.attested _ h' hget
    rw [hheight] at hlt
    exact absurd hlt (Bool.eq_false_iff.mp (JsNum.lt_natCast.trans
      (decide_eq_false (lt_irrefl _))))

/-- A node that has moved on is. -/
theorem InRound.idle {start : List FinalizedBlock} {fb : FinalizedBlock}
    (hn : InRound V block h start n) (hheld : n.Holds (RoundBlock block)) (hset : n.Settled)
    (hheight : block.header.height = (start.length : JsNum)) (hchain : n.chain = start ++ [fb]) :
    Idle n := by
  have hpassed : JsNum.lt block.header.height n.height = true := by
    rw [hheight, GossipNode.height, hchain, ledgerHeight, List.length_append]
    exact JsNum.lt_natCast.trans (decide_eq_true (Nat.lt_succ_self _))
  have hbelow : ∀ {k : JsNum}, JsNum.le k block.header.height = true →
      JsNum.lt k n.height = true := fun hle => JsNum.lt_of_le_of_lt hle hpassed
  have hbelow' : ∀ {k : JsNum}, JsNum.lt k block.header.height = true ∨
      k = block.header.height → JsNum.lt k n.height = true := by
    rintro k (hlt | rfl)
    · exact hbelow (JsNum.le_of_lt hlt)
    · exact hpassed
  refine ⟨fun h' => ?_, fun hash => ?_, hn.pending, fun k h' hk => hbelow (hn.attested k h' hk),
    fun a ha => hbelow' ((hn.signed a ha).imp_right (·.1)), fun b hb => hbelow' ?_, hn.final⟩
  · refine Option.eq_none_iff_forall_ne_some.mpr fun b hb => ?_
    have hlive := hset.known h' b hb
    rw [(hn.known h' b hb).2, GossipNode.passed, hpassed] at hlive
    cases hlive
  · refine Option.eq_none_iff_forall_ne_some.mpr fun byV hby => ?_
    obtain ⟨-, hne, hall⟩ := hn.pooled hash byV hby
    obtain ⟨a, ha⟩ := Option.isSome_iff_exists.mp (List.isSome_head?.mpr hne)
    have hlive := hset.pooled hash byV hby
    rw [ha, Option.any_some, (hall a (List.mem_of_head? ha)).1, hpassed] at hlive
    cases hlive
  · rcases hheld.sent b hb with rfl | hlt
    · exact .inr rfl
    · exact .inl hlt

end Node

/-! ## The end of a round -/

section Final

variable {id : String} {peer : GossipPeer}

/-- When nothing is on its way, a node that has not moved on has the attestations of all the stake
that is online. -/
theorem RoundBus.stake_le (hbus : RoundBus X L scheme block h log bus)
    (hempty : bus.queue = []) (hbegun : ∃ v, Spoken log.length block h bus v)
    (hpeer : bus.handlers.get? id = some peer) (hchain : peer.node.chain.length = log.length) :
    ∑ v ∈ L.set.pubkeys.filter (bus.handlers.has · = true), stakeOf L.set v ≤
      ∑ v ∈ L.set.pubkeys.filter (· ∈ (peer.node.attestationsFor h).map (·.validator)),
        stakeOf L.set v := by
  obtain ⟨first, hfirst⟩ := hbegun
  have hsound := (hbus.history id peer hpeer).poolSound
  have hslot : ∀ v, bus.handlers.has v = true → 0 < stakeOf L.set v →
      v ∈ (peer.node.attestationsFor h).map (·.validator) := by
    intro v hhas hstake
    obtain ⟨q, hq⟩ := Option.isSome_iff_exists.mp hhas
    have hseen : Seen log.length block h q.node := by
      refine (hbus.spread first hfirst v q hq).resolve_right fun hmem => ?_
      rw [hempty] at hmem
      cases hmem
    rcases hbus.voted v ⟨q, hq, hseen⟩ hstake id peer hpeer with hlt | ⟨a, ha⟩ | ⟨a, hmem, -⟩
    · exact absurd hlt hchain.not_gt
    · exact List.mem_map.mpr ⟨a, GossipNode.mem_attestationsFor.mpr ⟨v, ha⟩,
        (hsound h v a ha).2.1⟩
    · rw [hempty] at hmem
      cases hmem
  rw [Finset.sum_filter, Finset.sum_filter]
  refine Finset.sum_le_sum fun v _ => ?_
  rcases (stakeOf_nonneg L.set v).eq_or_lt with h0 | hpos
  · rw [← h0, ite_self, ite_self]
  · split
    · rename_i hhas
      rw [if_pos (hslot v hhas hpos)]
    · split
      · exact hpos.le
      · exact le_rfl

/-- **When nothing is on its way, everybody has finalized the block.** -/
theorem RoundBus.final (hsetting : RoundSetting X L scheme block h log.length)
    (hset : L.set.WellFormed) (hstake : 0 < totalStake L.set)
    (hthreshold : validThreshold L.finalityNum L.finalityDen = true)
    (hbus : RoundBus X L scheme block h log bus) (hempty : bus.queue = [])
    (hbegun : ∃ v, Spoken log.length block h bus v) (hpeer : bus.handlers.get? id = some peer)
    (hproposed : ∀ chain, chain.map FinalizedBlock.logged = log → Proposed X L chain block h)
    (hfresh : ∀ e ∈ log, e.2 ≠ h) :
    peer.node.chain.map FinalizedBlock.logged = log ++ [(block, h)] ∧ Idle peer.node := by
  obtain ⟨start, hstart, hround⟩ := hbus.round id peer hpeer
  have hlen : start.length = log.length := by rw [← hstart, List.length_map]
  rcases hround.chain with hchain | ⟨fb, hblock, hhash, hchain⟩
  case inr =>
    refine ⟨?_, hround.idle (hbus.held id peer hpeer) (hbus.history id peer hpeer).settled
      (hlen.symm ▸ hsetting.height) hchain⟩
    rw [hchain, List.map_append, hstart, ← hblock, ← hhash]
    rfl
  exfalso
  obtain ⟨-, hC⟩ := hbus.honest id peer hpeer
  have hhist := hbus.history id peer hpeer
  have hledger := hC.ledger
  -- the block is known and all of its attestations are there
  have hknown : peer.node.knownBlocks.get? h = some block := by
    obtain ⟨first, hfirst⟩ := hbegun
    rcases hbus.spread first hfirst id peer hpeer with (hlt | hknown) | hmem
    · rw [hchain, hlen] at hlt
      exact absurd hlt (lt_irrefl _)
    · exact hknown
    · rw [hempty] at hmem
      cases hmem
  have hatts : ∀ a ∈ peer.node.attestationsFor h, a.blockHash = h ∧
      a.height = block.header.height ∧ a.suite = L.suite ∧
      verifyAttestationSig X a L.set = .ok true := by
    intro a ha
    obtain ⟨v, hv⟩ := GossipNode.mem_attestationsFor.mp ha
    obtain ⟨byV, hby, hget⟩ := GossipNode.slot_eq_some.mp hv
    obtain ⟨hhash, -, hsuite, -, hsig⟩ := hhist.poolSound h v a hv
    rw [hledger] at hsuite hsig
    exact ⟨hhash, ((hround.pooled h byV hby).2.2 a (JsMap.mem_values_iff.mpr ⟨_, hget⟩)).1, hsuite,
      hsig⟩
  have hbound : (peer.node.attestationsFor h).length ≤ maxAttestations L.set := by
    rw [← hledger]
    exact attestationsFor_length_le hhist.poolSound
  obtain ⟨n, d, -, hd, -⟩ := exists_natCast_of_validThreshold hthreshold
  have hden : 0 ≤ L.finalityDen.toInt := by
    rw [hd, JsNum.toInt_natCast]
    exact Int.natCast_nonneg d
  have hmet := hbus.online.trans
    (mul_le_mul_of_nonneg_right (hbus.stake_le hempty hbegun hpeer (hchain ▸ hlen)) hden)
  obtain ⟨setId, -, hid, -⟩ := hsetting.message
  obtain ⟨t, hf⟩ := (hproposed start hstart).finalizes hset hstake hthreshold hid hbound hatts hmet
  obtain ⟨r, hr⟩ := submit_of_finalizes hf
  -- but then the ledger would have accepted the block
  rcases (hhist.tried (hC.signsWith hsetting.scheme)).2 h with hmem | hstuck
  · obtain ⟨fb, hfb, hhash⟩ := hround.final h hmem
    refine hfresh fb.logged ?_ hhash
    rw [← hstart, ← hchain]
    exact List.mem_map_of_mem hfb
  · refine hstuck block hknown (JsNum.strictEq_iff.mpr ⟨?_, ?_⟩) r (hledger ▸ hchain ▸ hr)
    · exact hf.height_ne_nan
    · rw [(hproposed start hstart).height, GossipNode.height, hchain]

end Final

variable (X L scheme) in
/-- The bus between two rounds, after the blocks of `log` with their hashes. -/
structure AtRest (log : List (Block × String)) (bus : GossipBus) : Prop where
  /-- everybody reaches everybody -/
  connected : ∀ a b, bus.reachable a b = true
  /-- enough stake is online -/
  online : Online L bus
  /-- nodes are honest, and registered under their ids -/
  honest : ∀ id peer, bus.handlers.get? id = some peer →
    peer.config.id X = id ∧ HonestPeer X L scheme peer.config
  /-- in states they get to -/
  history : ∀ id peer, bus.handlers.get? id = some peer →
    NodeHistory X peer.config (fun _ _ => True) peer.node
  /-- with nothing to work on -/
  idle : ∀ id peer, bus.handlers.get? id = some peer → Idle peer.node
  /-- everybody has finalized the blocks -/
  chain : ∀ id peer, bus.handlers.get? id = some peer →
    peer.node.chain.map FinalizedBlock.logged = log
  /-- nothing is on its way -/
  queue : bus.queue = []
  /-- the hashes are those of the blocks -/
  hashes : ∀ e ∈ log, blockHash X e.1.header = .ok e.2

/-- The head is known from the hashes. -/
theorem headHash_eq {chain : List FinalizedBlock} (hlog : chain.map FinalizedBlock.logged = log) :
    headHash chain = (log.getLast?.map (·.2)).getD genesisPrev := by
  rw [headHash, ← hlog, List.getLast?_map]
  rcases chain.getLast? with _ | fb <;> rfl

/-- What is proposed on one node's chain is on every node's. -/
theorem Proposed.congr {chain chain' : List FinalizedBlock}
    (hproposed : Proposed X L chain block h) (hlog : chain.map FinalizedBlock.logged = log)
    (hlog' : chain'.map FinalizedBlock.logged = log) : Proposed X L chain' block h := by
  have hhead : headHash chain' = headHash chain := by rw [headHash_eq hlog, headHash_eq hlog']
  have hheight : ledgerHeight chain' = ledgerHeight chain := by
    have hlen := congrArg List.length (hlog'.trans hlog.symm)
    rw [List.length_map, List.length_map] at hlen
    rw [ledgerHeight, ledgerHeight, hlen]
  obtain ⟨hhash, hsuite, hheight', hheader, hleader, hproposer⟩ := hproposed
  rw [← hhead, ← hheight] at hheader
  rw [← hheight] at hheight'
  rw [← hhead] at hleader
  exact ⟨hhash, hsuite, hheight', hheader, hleader, hproposer⟩

section Rounds

variable (hrest : AtRest X L scheme log bus)

include hrest in
theorem AtRest.length_chain {id : String} {peer : GossipPeer}
    (hpeer : bus.handlers.get? id = some peer) : peer.node.chain.length = log.length := by
  rw [← hrest.chain id peer hpeer, List.length_map]

include hrest in
/-- **A round begins** with the block handed to its proposer. -/
theorem AtRest.begin (hheight : block.header.height = (log.length : JsNum)) (proposer : String) :
    RoundBus X L scheme block h log { bus with queue := [(proposer, .block block)] } := by
  have hsilent : ∀ v, ¬ Spoken log.length block h
      { bus with queue := [(proposer, .block block)] } v := by
    rintro v ⟨peer, hpeer, hlt | hknown⟩
    · rw [hrest.length_chain hpeer] at hlt
      exact lt_irrefl _ hlt
    · rw [(hrest.idle v peer hpeer).known] at hknown
      cases hknown
  have hready : ∀ id peer, bus.handlers.get? id = some peer →
      block.header.height = peer.node.height := by
    intro id peer hpeer
    rw [hheight, GossipNode.height, ledgerHeight, hrest.length_chain hpeer]
  refine ⟨hrest.connected, hrest.online, hrest.honest, hrest.history, fun id peer hpeer => ?_,
    fun id peer hpeer => ⟨peer.node.chain, hrest.chain id peer hpeer, ?_⟩, fun id m hmem => ?_,
    fun v hv => absurd hv (hsilent v), fun v hv => absurd hv (hsilent v)⟩
  · exact (hrest.idle id peer hpeer).holds (hready id peer hpeer)
  · exact (hrest.idle id peer hpeer).inRound (hready id peer hpeer)
  · cases List.mem_singleton.mp hmem
    exact .block

variable (X L scheme) in
/-- What the nodes of a network share. -/
structure HonestNetwork : Prop where
  /-- names are read back as keys -/
  hex : HexFaithful X.toExternals
  /-- the suite has a signer -/
  scheme : X.signerFor L.suite = .ok scheme
  /-- the set is well formed -/
  set : L.set.WellFormed
  stake : 0 < totalStake L.set
  /-- the set does not elect leaders by VRF -/
  sortition : vrfSet L.set = false
  /-- the threshold is one -/
  threshold : validThreshold L.finalityNum L.finalityDen = true
  /-- attestations have a message -/
  message : ∃ setId, consensusSetId X L.set = .ok setId ∧
    ∀ (height : ℕ) h, ∃ msg, attestMessage X L.suite (height : JsNum) h setId = .ok msg

variable {entropy : Bytes → Bytes} {timestamp : JsNum} {proposer payloadRoot : String}

/-- What a node has done when `proposeIfLeader` returns a block. -/
theorem proposeIfLeader_eq_ok {C : GossipConfig} {payloadRoot : String} {n n' : GossipNode}
    (hp : proposeIfLeader X C entropy payloadRoot timestamp n = (n', .ok (some block))) :
    propose X C.ledger n.chain payloadRoot (canonicalRound (ledgerHeight n.chain)) timestamp C.key
      entropy = .ok block ∧ n' = (onMessage X C entropy (.block block) n).1 := by
  rw [proposeIfLeader] at hp
  split at hp
  · cases hp
  split at hp
  · cases hp
  split at hp
  · cases hp
  rename_i b hb
  split at hp
  · rename_i hhandled
    cases hp
    exact ⟨hb, (congrArg Prod.fst hhandled).symm⟩
  · cases hp

/-- A proposal is the delivery of the block to its proposer. -/
theorem propose_eq_deliver {bus' : GossipBus}
    (hp : bus.propose X entropy proposer payloadRoot timestamp = (bus', .ok (some block))) :
    ∃ peer, bus.handlers.get? proposer = some peer ∧
      propose X peer.config.ledger peer.node.chain payloadRoot
        (canonicalRound (ledgerHeight peer.node.chain)) timestamp peer.config.key entropy =
          .ok block ∧
      bus' = (bus.deliver X entropy proposer (.block block)).1 := by
  rw [GossipBus.propose] at hp
  rcases hpeer : bus.handlers.get? proposer with _ | peer
  · rw [hpeer] at hp
    cases hp
  · rw [hpeer] at hp
    dsimp only at hp
    rcases hproposed : proposeIfLeader X peer.config entropy payloadRoot timestamp peer.node
      with ⟨n', r⟩
    rw [hproposed] at hp
    cases hp
    obtain ⟨hblock, rfl⟩ := proposeIfLeader_eq_ok hproposed
    refine ⟨peer, rfl, hblock, ?_⟩
    rw [GossipBus.deliver, hpeer]

/-- What a round needs of the block. -/
theorem AtRest.setting {peer : GossipPeer} (hnet : HonestNetwork X L scheme)
    (hrest : AtRest X L scheme log bus) (hpeer : bus.handlers.get? proposer = some peer)
    (hblock : propose X L peer.node.chain payloadRoot
      (canonicalRound (ledgerHeight peer.node.chain)) timestamp peer.config.key entropy = .ok block)
    (hrange : log.length + maxFutureHeights ≤ 2 ^ 53) :
    ∃ h, Proposed X L peer.node.chain block h ∧ RoundSetting X L scheme block h log.length := by
  obtain ⟨-, hC⟩ := hrest.honest proposer peer hpeer
  obtain ⟨h, hproposed⟩ := propose_proposed hnet.hex hnet.scheme hC.genuine hnet.stake
    hnet.sortition hblock
  have hheight : block.header.height = (log.length : JsNum) := by
    rw [hproposed.height, ledgerHeight, hrest.length_chain hpeer]
  obtain ⟨setId, hid, hmessage⟩ := hnet.message
  obtain ⟨msg, hmsg⟩ := hmessage log.length h
  exact ⟨h, hproposed, hnet.hex, hnet.scheme, hheight, hrange, hproposed.hash, setId, msg, hid,
    hheight ▸ hmsg⟩

include hrest in
/-- The first delivery of a round, to the proposer. -/
theorem AtRest.deliver_block (hsetting : RoundSetting X L scheme block h log.length)
    (entropy : Bytes → Bytes) (proposer : String) :
    (bus.deliver X entropy proposer (.block block)).2 = none ∧
    RoundBus X L scheme block h log (bus.deliver X entropy proposer (.block block)).1 ∧
    (bus.handlers.has proposer = true →
      Spoken log.length block h (bus.deliver X entropy proposer (.block block)).1 proposer) := by
  obtain ⟨hthrow, hround, -, hbegun⟩ := deliver_round entropy hsetting
    (hrest.begin hsetting.height proposer) rfl
  have hsame : ({ bus with queue := [] } : GossipBus) = bus := by
    rw [← hrest.queue]
  rw [hsame] at hthrow hround hbegun
  exact ⟨hthrow, hround, hbegun rfl⟩

/-- **A leader whose ledger makes a block gets it out**: `proposeIfLeader` returns it. -/
theorem AtRest.propose {peer : GossipPeer} (hnet : HonestNetwork X L scheme)
    (hrest : AtRest X L scheme log bus) (hpeer : bus.handlers.get? proposer = some peer)
    (hblock : propose X L peer.node.chain payloadRoot
      (canonicalRound (ledgerHeight peer.node.chain)) timestamp peer.config.key entropy = .ok block)
    (hrange : log.length + maxFutureHeights ≤ 2 ^ 53) :
    ∃ bus', bus.propose X entropy proposer payloadRoot timestamp = (bus', .ok (some block)) := by
  obtain ⟨h, -, hsetting⟩ := hrest.setting hnet hpeer hblock hrange
  obtain ⟨hthrow, -⟩ := hrest.deliver_block hsetting entropy proposer
  obtain ⟨-, hC⟩ := hrest.honest proposer peer hpeer
  rw [GossipBus.deliver, hpeer] at hthrow
  -- the ledger has checked that it is the leader
  obtain ⟨leader, hleader, hrest'⟩ := Except.bind_eq_ok hblock
  have hown : leader = peer.config.id X := by
    by_contra hne
    rw [GossipConfig.id] at hne
    rw [if_pos hne] at hrest'
    cases hrest'
  have hproposed : (proposeIfLeader X peer.config entropy payloadRoot timestamp peer.node).2 =
      .ok (some block) := by
    rw [← hC.ledger] at hleader hblock
    have hmessage : (onBlock X peer.config entropy true block peer.node).andThen
        (drainBuffered X peer.config entropy) =
        ((onMessage X peer.config entropy (.block block) peer.node).1, none) :=
      Prod.ext rfl hthrow
    rw [proposeIfLeader]
    dsimp only [GossipNode.height]
    rw [hleader]
    dsimp only
    rw [if_neg (not_not.mpr hown), hblock]
    dsimp only
    rw [hmessage]
  rw [GossipBus.propose, hpeer]
  exact ⟨_, Prod.ext rfl hproposed⟩

/-- **One round**: a proposal is final everywhere when the bus stops, and it does stop. -/
theorem AtRest.round {bus' : GossipBus} (hnet : HonestNetwork X L scheme)
    (hrest : AtRest X L scheme log bus)
    (hp : bus.propose X entropy proposer payloadRoot timestamp = (bus', .ok (some block)))
    (hfresh : ∀ e ∈ log, blockHash X e.1.header ≠ blockHash X block.header)
    (hrange : log.length + maxFutureHeights ≤ 2 ^ 53) :
    (∃ most, ∀ (draws : ℕ → Bytes → Bytes) (cap : ℕ), most ≤ cap →
      ∃ k ≤ most, (bus'.run X draws cap).2 = .quiescent k) ∧
    ∀ (draws : ℕ → Bytes → Bytes) (cap k : ℕ), (bus'.run X draws cap).2 = .quiescent k →
      ∃ h, AtRest X L scheme (log ++ [(block, h)]) (bus'.run X draws cap).1 := by
  obtain ⟨peer, hpeer, hblock, rfl⟩ := propose_eq_deliver hp
  obtain ⟨-, hC⟩ := hrest.honest proposer peer hpeer
  rw [hC.ledger] at hblock
  obtain ⟨h, hproposed, hsetting⟩ := hrest.setting hnet hpeer hblock hrange
  have hlog := hrest.chain proposer peer hpeer
  have hnew : ∀ e ∈ log, e.2 ≠ h := by
    rintro e he rfl
    exact hfresh e he ((hrest.hashes e he).trans hproposed.hash.symm)
  -- the proposer has seen the block, so the round has begun
  obtain ⟨-, hround, hbegun⟩ := hrest.deliver_block hsetting entropy proposer
  have hhas : bus.handlers.has proposer = true := by
    rw [JsMap.has, hpeer]
    rfl
  have hspoken := hbegun hhas
  constructor
  · refine ⟨GossipBus.measure X (bus.deliver X entropy proposer (.block block)).1.blocks
      (bus.deliver X entropy proposer (.block block)).1, fun draws cap hcap => ?_⟩
    obtain ⟨hquiet, -⟩ := runFrom_round draws cap 0 hsetting hround ⟨_, hspoken⟩
    rcases GossipBus.runFrom_quiesces draws (GossipBus.confined_blocks hround.history) hcap
      with ⟨k, hk, hend, -⟩ | ⟨e, he⟩
    · exact ⟨k, hk, hend.trans (congrArg _ (Nat.zero_add k))⟩
    · exact absurd he (hquiet e)
  · intro draws cap k hstop
    obtain ⟨-, hend, hbegun'⟩ := runFrom_round draws cap 0 hsetting hround ⟨_, hspoken⟩
    have hempty := queue_of_quiescent hstop
    have hfinal : ∀ id p, (GossipBus.runFrom X draws cap 0
        (bus.deliver X entropy proposer (.block block)).1).1.handlers.get? id = some p →
        p.node.chain.map FinalizedBlock.logged = log ++ [(block, h)] ∧ Idle p.node :=
      fun id p hp => hend.final hsetting hnet.set hnet.stake hnet.threshold hempty hbegun' hp
        (fun chain hchain => hproposed.congr hlog hchain) hnew
    refine ⟨h, hend.connected, hend.online, hend.honest, hend.history,
      fun id p hp => (hfinal id p hp).2, fun id p hp => (hfinal id p hp).1, hempty, fun e he => ?_⟩
    rcases List.mem_append.mp he with he | he
    · exact hrest.hashes e he
    · rw [List.mem_singleton.mp he]
      exact hproposed.hash

end Rounds

variable (X L scheme) in
/-- **Runs of the honest network.** Nodes of honest validators and followers that are all connected
start out new; whenever the bus is at rest some node is asked to propose and, when it returns a
block, the bus runs. -/
inductive HonestRun : GossipBus → List Block → Prop
  /-- the nodes have just been registered -/
  | start {bus : GossipBus} (hconnected : ∀ a b, bus.reachable a b = true)
      (honline : Online L bus) (hqueue : bus.queue = [])
      (hpeers : ∀ id peer, bus.handlers.get? id = some peer → peer.config.id X = id ∧
        HonestPeer X L scheme peer.config ∧ peer.node = .new) : HonestRun bus []
  /-- a node proposes a block of a new hash, and `run` returns -/
  | round {bus bus' : GossipBus} {blocks : List Block} {entropy : Bytes → Bytes}
      {proposer payloadRoot : String} {timestamp : JsNum} {block : Block}
      {draws : ℕ → Bytes → Bytes} {cap k : ℕ} (hrun : HonestRun bus blocks)
      (hpropose : bus.propose X entropy proposer payloadRoot timestamp = (bus', .ok (some block)))
      (hfresh : ∀ b ∈ blocks, blockHash X b.header ≠ blockHash X block.header)
      (hrange : blocks.length + maxFutureHeights ≤ 2 ^ 53)
      (hstop : (bus'.run X draws cap).2 = .quiescent k) :
      HonestRun (bus'.run X draws cap).1 (blocks ++ [block])

/-- Between two rounds such a bus is at rest. -/
theorem HonestRun.atRest {blocks : List Block} (hnet : HonestNetwork X L scheme)
    (hrun : HonestRun X L scheme bus blocks) :
    ∃ log, log.map Prod.fst = blocks ∧ AtRest X L scheme log bus := by
  induction hrun with
  | start hconnected honline hqueue hpeers =>
    refine ⟨[], rfl, hconnected, honline,
      fun id peer hpeer => ⟨(hpeers id peer hpeer).1, (hpeers id peer hpeer).2.1⟩,
      fun id peer hpeer => ?_, fun id peer hpeer => ?_, fun id peer hpeer => ?_, hqueue,
      fun e he => absurd he List.not_mem_nil⟩
    · rw [(hpeers id peer hpeer).2.2]
      exact .refl
    · rw [(hpeers id peer hpeer).2.2]
      exact .new
    · rw [(hpeers id peer hpeer).2.2]
      rfl
  | @round bus bus' blocks entropy proposer payloadRoot timestamp block draws cap k _ hpropose
      hfresh hrange hstop ih =>
    obtain ⟨log, rfl, hrest⟩ := ih
    rw [List.length_map] at hrange
    obtain ⟨h, hrest'⟩ := (hrest.round hnet hpropose
      (fun e he => hfresh e.1 (List.mem_map_of_mem he)) hrange).2 draws cap k hstop
    exact ⟨log ++ [(block, h)], List.map_append, hrest'⟩

end Progress

/-- **The honest network makes progress.** Validators and followers that run the code on one
ledger, with stake online that carries the threshold, are all connected; round after round one of
them proposes. Whatever the proposals and the randomness of signatures were, between two rounds
nothing is on its way and every node has finalized the blocks proposed, in order. When the ledger of
a node makes a block then, `proposeIfLeader` returns it. And whenever a node returns another block,
of a new hash, no handler throws, there is a number of deliveries after which `run` returns, and
then every node has appended the block. -/
theorem honest_network_progress {X : LedgerExternals} {L : LedgerConfig} {scheme : SignatureScheme}
    {bus : GossipBus} {blocks : List Block} (hnet : HonestNetwork X L scheme)
    (hrun : HonestRun X L scheme bus blocks) :
    bus.queue = [] ∧
    (∀ id peer, bus.handlers.get? id = some peer → peer.node.chain.map (·.block) = blocks) ∧
    (∀ (entropy : Bytes → Bytes) (proposer payloadRoot : String) (timestamp : JsNum)
      (peer : GossipPeer) (block : Block), bus.handlers.get? proposer = some peer →
      propose X L peer.node.chain payloadRoot (canonicalRound (ledgerHeight peer.node.chain))
        timestamp peer.config.key entropy = .ok block →
      blocks.length + maxFutureHeights ≤ 2 ^ 53 →
      ∃ bus', bus.propose X entropy proposer payloadRoot timestamp = (bus', .ok (some block))) ∧
    ∀ (entropy : Bytes → Bytes) (proposer payloadRoot : String) (timestamp : JsNum)
      (bus' : GossipBus) (block : Block),
      bus.propose X entropy proposer payloadRoot timestamp = (bus', .ok (some block)) →
      (∀ b ∈ blocks, blockHash X b.header ≠ blockHash X block.header) →
      blocks.length + maxFutureHeights ≤ 2 ^ 53 →
      ∃ most, ∀ (draws : ℕ → Bytes → Bytes) (cap : ℕ), most ≤ cap →
        ∃ k ≤ most, (bus'.run X draws cap).2 = .quiescent k ∧
          ∀ id peer, (bus'.run X draws cap).1.handlers.get? id = some peer →
            peer.node.chain.map (·.block) = blocks ++ [block] := by
  have hchains : ∀ {bus : GossipBus} {log : List (Block × String)}, AtRest X L scheme log bus →
      ∀ id peer, bus.handlers.get? id = some peer →
        peer.node.chain.map (·.block) = log.map Prod.fst := by
    intro bus log hrest id peer hpeer
    rw [← hrest.chain id peer hpeer, List.map_map]
    rfl
  obtain ⟨log, rfl, hrest⟩ := hrun.atRest hnet
  rw [List.length_map]
  refine ⟨hrest.queue, hchains hrest, fun entropy proposer payloadRoot timestamp peer block hpeer
    hblock hrange => hrest.propose hnet hpeer hblock hrange,
    fun entropy proposer payloadRoot timestamp bus' block hpropose hfresh hrange => ?_⟩
  obtain ⟨⟨most, hmost⟩, hend⟩ := hrest.round hnet hpropose
    (fun e he => hfresh e.1 (List.mem_map_of_mem he)) hrange
  refine ⟨most, fun draws cap hcap => ?_⟩
  obtain ⟨k, hk, hstop⟩ := hmost draws cap hcap
  obtain ⟨h, hrest'⟩ := hend draws cap k hstop
  refine ⟨k, hk, hstop, fun id peer hpeer => ?_⟩
  rw [hchains hrest' id peer hpeer, List.map_append]
  rfl

/-! ## A validator and a follower -/

/-- A node of the ledger with one validator; the validator's key is zero. -/
def pairConfig (key : UInt8) : GossipConfig := ⟨⟨[key], [key]⟩, pairLedger⟩

/-- The validator and a follower, just registered. -/
def pairBus : GossipBus :=
  (GossipBus.new.register checksumExternals ⟨pairConfig 0, .new⟩).register checksumExternals
    ⟨pairConfig 1, .new⟩

theorem honestNetwork_pair : HonestNetwork checksumExternals pairLedger symbolicSigner where
  hex := hexFaithful_checksum
  scheme := Externals.signerFor_of_active _ (by decide)
  set := ValidatorSet.isWellFormedStakeSet_iff.mp (by decide)
  stake := by decide
  sortition := by decide
  threshold := by decide +kernel
  message := ⟨_, rfl, fun _ _ => ⟨_, rfl⟩⟩

theorem honestPeer_pair (key : UInt8) :
    HonestPeer checksumExternals pairLedger symbolicSigner (pairConfig key) :=
  ⟨rfl, genuine_symbolic [key], fun _ _ => ⟨_, rfl⟩⟩

theorem honestRun_pairBus : HonestRun checksumExternals pairLedger symbolicSigner pairBus [] := by
  have honline : Online pairLedger pairBus := by
    rw [Online]
    decide +kernel
  refine .start (fun _ _ => rfl) honline rfl fun id peer hpeer => ?_
  rw [pairBus, GossipBus.register, GossipBus.register, JsMap.get?_set] at hpeer
  split at hpeer
  · rename_i hid
    cases hpeer
    exact ⟨hid.symm, honestPeer_pair 1, rfl⟩
  · rw [JsMap.get?_set] at hpeer
    split at hpeer
    · rename_i hid
      cases hpeer
      exact ⟨hid.symm, honestPeer_pair 0, rfl⟩
    · cases hpeer

/-- `honest_network_progress` for them: the validator gets its block out, and the follower has it
when the bus stops. -/
theorem honest_network_progress_pair : ∃ bus,
    HonestRun checksumExternals pairLedger symbolicSigner bus [pairBlock] ∧ bus.queue = [] ∧
    ∀ id peer, bus.handlers.get? id = some peer →
      peer.node.chain.map (·.block) = [pairBlock] := by
  have hvalidator : pairBus.handlers.get? "00" = some ⟨pairConfig 0, .new⟩ := rfl
  obtain ⟨-, -, hleader, hround⟩ := honest_network_progress honestNetwork_pair honestRun_pairBus
  obtain ⟨bus', hpropose⟩ := hleader id "00" "00" 0 _ pairBlock hvalidator propose_pairBlock
    (by decide +kernel)
  have hfresh : ∀ b ∈ ([] : List Block), blockHash checksumExternals b.header ≠
      blockHash checksumExternals pairBlock.header := fun b hb => absurd hb List.not_mem_nil
  obtain ⟨most, hmost⟩ := hround id "00" "00" 0 bus' pairBlock hpropose hfresh (by decide +kernel)
  obtain ⟨k, -, hstop, -⟩ := hmost (fun _ => id) most le_rfl
  have hrun := HonestRun.round honestRun_pairBus hpropose hfresh (by decide +kernel) hstop
  obtain ⟨hempty, hchains, -⟩ := honest_network_progress honestNetwork_pair hrun
  exact ⟨_, hrun, hempty, hchains⟩

end Nerion
