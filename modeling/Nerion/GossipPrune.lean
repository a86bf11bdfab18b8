import Nerion.GossipBounds

/-!
# What the sweep of a gossip node takes away

The sweep drops a hash from the pool when the head has passed its block, or when the *first*
attestation stored for it is below the head. An attestation at or above the head stays if
all attestations for its hash carry one height, the block's own.

* `HeightsAgree` — messages in which attestations name the height of their block;
* `NodeTurn` — a call of a node, with the messages it is about: those delivered and the blocks
  the node makes;
* `prune_keeps_live` — when these agree, no call loses an attestation that is still live;
* `live_attestation_lost` — an attestation that names a wrong height takes the others for
  its hash with it.
-/

namespace Nerion

section Keeping

variable {X : LedgerExternals} {C : GossipConfig} {src : GossipMessage → Prop}
  {n n' : GossipNode}

/-- Blocks and attestations of `src` have the height that `heightOf` gives their hash. -/
structure FollowsHeights (X : LedgerExternals) (src : GossipMessage → Prop)
    (heightOf : String → JsNum) : Prop where
  /-- the blocks with the hash -/
  block : ∀ b h, src (.block b) → blockHash X b.header = .ok h → b.header.height = heightOf h
  attestation : ∀ a, src (.attestation a) → a.height = heightOf a.blockHash

/-- Attestations name the height of their block: among these messages a hash has one height. -/
def HeightsAgree (X : LedgerExternals) (src : GossipMessage → Prop) : Prop :=
  ∃ heightOf, FollowsHeights X src heightOf

/-- A call of a node, whose messages are among `src`: the one delivered, or the block that the
node makes and hands itself. -/
inductive NodeTurn (X : LedgerExternals) (C : GossipConfig) (src : GossipMessage → Prop) :
    GossipNode → GossipNode → Prop
  /-- a delivery -/
  | deliver {n : GossipNode} (entropy : Bytes → Bytes) {m : GossipMessage} (hm : src m) :
      NodeTurn X C src n (onMessage X C entropy m n).1
  /-- a call of `proposeIfLeader` -/
  | propose {n : GossipNode} (entropy : Bytes → Bytes) (payloadRoot : String) (timestamp : JsNum)
      (hmade : ∀ block, propose X C.ledger n.chain payloadRoot (canonicalRound n.height) timestamp
        C.key entropy = .ok block → src (.block block)) :
      NodeTurn X C src n (proposeIfLeader X C entropy payloadRoot timestamp n).1

/-- The states a node goes through in such calls. -/
def NodeTurns (X : LedgerExternals) (C : GossipConfig) (src : GossipMessage → Prop) :
    GossipNode → Prop :=
  Relation.ReflTransGen (NodeTurn X C src) .new

/-- A call is a run in which the node takes in no block but those of `src`. -/
theorem NodeTurn.held (h : NodeTurn X C src n n') (hn : n.Holds fun b => src (.block b)) :
    HeldRun X C (fun b => src (.block b)) src n n' := by
  cases h with
  | deliver entropy hm => exact onMessage_held entropy hm (fun block hblock => hblock ▸ hm) hn
  | propose entropy payloadRoot timestamp hmade =>
    exact proposeIfLeader_held entropy payloadRoot timestamp hmade hn

theorem NodeTurn.move (h : NodeTurn X C src n n') : NodeMove X C src n n' := by
  cases h with
  | deliver entropy hm => exact .deliver entropy hm
  | propose entropy payloadRoot timestamp _ => exact .propose entropy payloadRoot timestamp

/-- Everything a node holds for a hash has the height of the hash. -/
structure GossipNode.Uniform (heightOf : String → JsNum) (n : GossipNode) : Prop where
  /-- the blocks it knows -/
  known : ∀ h b, n.knownBlocks.get? h = some b → b.header.height = heightOf h
  /-- the attestations it has signed -/
  signed : ∀ a ∈ n.signed, a.height = heightOf a.blockHash
  /-- the attestations in its pool -/
  pooled : ∀ h v a, n.slot h v = some a → a.height = heightOf h

variable {heightOf : String → JsNum}

theorem NodeStep.uniform (h : NodeStep X C src n n') (hsrc : FollowsHeights X src heightOf)
    (hheld : n'.Holds fun b => src (.block b)) (hn : n.Uniform heightOf) :
    n'.Uniform heightOf := by
  cases h with
  | know _ hhash _ _ =>
    refine ⟨fun h b hb => ?_, hn.signed, hn.pooled⟩
    have hsource := hheld.known h b hb
    change (n.knownBlocks.set _ _).get? h = some b at hb
    rw [JsMap.get?_set] at hb
    split at hb
    · rename_i hkey
      cases hb
      exact hsrc.block _ _ hsource (hkey ▸ hhash)
    · exact hn.known h b hb
  | attest _ hknown _ _ hatt =>
    obtain ⟨-, hheight, -, -⟩ := attest_eq_ok hatt
    refine ⟨hn.known, fun a ha => ?_, hn.pooled⟩
    rcases List.mem_append.mp ha with ha | ha
    · exact hn.signed a ha
    · rw [List.mem_singleton.mp ha, hheight]
      exact hn.known _ _ hknown
  | @pool att hsource _ _ _ _ =>
    refine ⟨hn.known, hn.signed, fun h v a ha => ?_⟩
    rw [GossipNode.slot_pool] at ha
    split at ha
    · rename_i hkey
      cases ha
      rw [hkey.1]
      exact hsource.elim (hn.signed att) (hsrc.attestation att)
    · exact hn.pooled h v a ha
  | prune =>
    refine ⟨fun h b hb => hn.known h b (JsMap.get?_filter_eq_some.mp hb).1, hn.signed, ?_⟩
    exact fun h v a ha => hn.pooled h v a (GossipNode.slot_of_prune ha)
  | observe _ _ =>
    rw [GossipNode.observe]
    split <;> exact ⟨hn.known, hn.signed, hn.pooled⟩
  | _ => exact ⟨hn.known, hn.signed, hn.pooled⟩

theorem GossipNode.Uniform.new : GossipNode.new.Uniform heightOf := by
  refine ⟨fun h b hb => ?_, fun a ha => absurd ha List.not_mem_nil, fun h v a ha => ?_⟩
  · cases hb
  · cases ha

/-- **A step loses no live attestation.** -/
theorem NodeStep.keeps (h : NodeStep X C src n n') (hn : n.Uniform heightOf) {a : Attestation}
    (ha : n.slot a.blockHash a.validator = some a) (hlive : JsNum.le n.height a.height = true) :
    n'.slot a.blockHash a.validator = some a := by
  cases h with
  | pool _ _ _ _ hadmits =>
    rw [GossipNode.slot_pool, if_neg]
    · exact ha
    · -- the slot of an admitted attestation was free
      rintro ⟨hhash, hval⟩
      have hfree := (admits_iff.mp hadmits).free
      rw [← hhash, ← hval, ha] at hfree
      cases hfree
  | prune =>
    obtain ⟨byV, hby, hget⟩ := GossipNode.slot_eq_some.mp ha
    have hnot : JsNum.lt (heightOf a.blockHash) n.height = false := by
      rw [← hn.pooled _ _ a ha]
      exact JsNum.not_lt_of_le hlive
    refine GossipNode.slot_eq_some.mpr ⟨byV, GossipNode.get?_livePool.mpr ⟨hby, ?_, ?_⟩, hget⟩
    · -- the block of the hash is not below the head
      rcases hb : n.knownBlocks.get? a.blockHash with _ | b
      · rfl
      · rw [Option.any_some, GossipNode.passed, hn.known _ b hb]
        exact hnot
    · -- nor is the first attestation for it
      rcases hfirst : byV.values.head? with _ | first
      · rfl
      · obtain ⟨v, hv⟩ := JsMap.mem_values_iff.mp (List.mem_of_mem_head? hfirst)
        rw [Option.any_some, hn.pooled _ v first (GossipNode.slot_eq_some.mpr ⟨byV, hby, hv⟩)]
        exact hnot
  | observe _ _ =>
    rw [GossipNode.observe]
    split <;> exact ha
  | _ => exact ha

/-- What a step puts on the bus: an attestation only when it enters the pool. -/
theorem NodeStep.sent (h : NodeStep X C src n n') : ∃ new, n'.sent = n.sent ++ new ∧
    ∀ a, GossipMessage.attestation a ∈ new → n'.slot a.blockHash a.validator = some a := by
  cases h with
  | @know flood h block _ _ _ _ =>
    cases flood with
    | false => exact ⟨[], (List.append_nil _).symm, fun a ha => absurd ha List.not_mem_nil⟩
    | true =>
      refine ⟨[.block block], rfl, fun a ha => ?_⟩
      cases List.mem_singleton.mp ha
  | @buffer block _ _ _ _ _ _ =>
    refine ⟨[.block block], rfl, fun a ha => ?_⟩
    cases List.mem_singleton.mp ha
  | @pool att _ _ _ _ _ =>
    refine ⟨[.attestation att], rfl, fun a ha => ?_⟩
    cases List.mem_singleton.mp ha
    rw [GossipNode.slot_pool, if_pos ⟨rfl, rfl⟩]
  | observe _ _ =>
    rw [GossipNode.observe]
    split <;> exact ⟨[], (List.append_nil _).symm, fun a ha => absurd ha List.not_mem_nil⟩
  | _ => exact ⟨[], (List.append_nil _).symm, fun a ha => absurd ha List.not_mem_nil⟩

/-- An attestation entered the pool, and with it the bus, between two states of a node. -/
def AcceptedSince (n n' : GossipNode) (a : Attestation) : Prop :=
  ∃ rest, n'.sent = n.sent ++ rest ∧ GossipMessage.attestation a ∈ rest

/-- **A run loses no live attestation**, neither one that was in the pool nor one that
entered it on the way. -/
theorem HeldRun.keeps (h : HeldRun X C (fun b => src (.block b)) src n n')
    (hsrc : FollowsHeights X src heightOf) (hheld : n.Holds fun b => src (.block b))
    (hn : n.Uniform heightOf) :
    n'.Uniform heightOf ∧ ∃ rest, n'.sent = n.sent ++ rest ∧
      ∀ a, (n.slot a.blockHash a.validator = some a ∨ GossipMessage.attestation a ∈ rest) →
        JsNum.le n'.height a.height = true → n'.slot a.blockHash a.validator = some a := by
  induction h with
  | refl =>
    refine ⟨hn, [], (List.append_nil _).symm, fun a ha _ => ?_⟩
    exact ha.resolve_right List.not_mem_nil
  | @tail m m' hrun hlast ih =>
    obtain ⟨hm, rest, hsent, hkept⟩ := ih
    obtain ⟨hstep, hholds⟩ := hlast
    obtain ⟨new, hsent', hnew⟩ := hstep.sent
    refine ⟨hstep.uniform hsrc (hholds (HeldRun.holds hrun hheld)) hm, rest ++ new, ?_,
      fun a ha hlive => ?_⟩
    · rw [hsent', hsent, List.append_assoc]
    -- live at the end is live before the last step
    have hlive' : JsNum.le m.height a.height = true :=
      JsNum.le_trans (JsNum.le_natCast.trans (decide_eq_true hstep.length_le)) hlive
    rcases ha with hold | hmem
    · exact hstep.keeps hm (hkept a (.inl hold) hlive') hlive'
    · rcases List.mem_append.mp hmem with hmem | hmem
      · exact hstep.keeps hm (hkept a (.inr hmem) hlive') hlive'
      · exact hnew a hmem

/-- Along a history the node holds blocks of `src` only, of the height of their hash. -/
theorem NodeTurns.uniform (h : NodeTurns X C src n) (hsrc : FollowsHeights X src heightOf) :
    (n.Holds fun b => src (.block b)) ∧ n.Uniform heightOf := by
  induction h with
  | refl =>
    refine ⟨⟨fun h b hb => ?_, fun k bs hk => ?_, fun b hb => absurd hb List.not_mem_nil⟩, .new⟩
    · cases hb
    · cases hk
  | tail _ hturn ih =>
    have hrun := hturn.held ih.1
    exact ⟨hrun.holds ih.1, (hrun.keeps hsrc ih.1 ih.2).1⟩

/-- Turns are a history of moves. -/
theorem NodeTurns.history (h : NodeTurns X C src n) : NodeHistory X C (fun _ => src) n := by
  induction h with
  | refl => exact .refl
  | tail _ hturn ih => exact ih.tail hturn.move

end Keeping

/-! ## Three validators and a node that follows them -/

/-- Three validators, the first with enough stake to finalize alone. -/
def mixedLedger : LedgerConfig :=
  ⟨⟨[⟨"00", 6, none⟩, ⟨"01", 1, none⟩, ⟨"02", 1, none⟩], none⟩, "PS-5", 2, 3⟩

/-- A node that follows them. -/
def follower : GossipConfig := ⟨⟨[9], [9]⟩, mixedLedger⟩

/-- What a validator signs, here with the set's id spelled out. -/
def mixedAttestation (key : UInt8) (validator hash : String) (height : JsNum) : Attestation where
  blockHash := hash
  height := height
  validator := validator
  suite := "PS-5"
  sig := [key] ++ valueOr [] (attestMessage checksumExternals "PS-5" height hash "92")

/-! ## The theorem -/

/-- **A call of a node loses no live attestation**, when attestations name the height of
their block: what was in the pool or entered it during the call, at or above the height the
node ends with, is in the pool afterwards. The condition is on the messages of the run. -/
theorem prune_keeps_live {X : LedgerExternals} {C : GossipConfig} {src : GossipMessage → Prop}
    {n n' : GossipNode} (hsrc : HeightsAgree X src) (hn : NodeTurns X C src n)
    (hturn : NodeTurn X C src n n') (a : Attestation)
    (ha : a ∈ n.attestationsFor a.blockHash ∨ AcceptedSince n n' a)
    (hlive : JsNum.le n'.height a.height = true) : a ∈ n'.attestationsFor a.blockHash := by
  obtain ⟨heightOf, hheights⟩ := hsrc
  obtain ⟨hheld, huniform⟩ := hn.uniform hheights
  obtain ⟨-, rest, hsent, hkept⟩ := (hturn.held hheld).keeps hheights hheld huniform
  refine GossipNode.mem_attestationsFor.mpr ⟨a.validator, hkept a ?_ hlive⟩
  rcases ha with ha | ⟨rest', hsent', hmem⟩
  · obtain ⟨v, hv⟩ := GossipNode.mem_attestationsFor.mp ha
    obtain ⟨-, rfl, -⟩ := hn.history.poolSound _ v a hv
    exact .inl hv
  · obtain rfl : rest = rest' := List.append_cancel_left (hsent.symm.trans hsent')
    exact .inr hmem

/-- The messages of a follower whose head moves: an attestation for a block nobody has, three
heights ahead, a block of its own height and the attestation that finalizes it. -/
def movingMessages : List GossipMessage :=
  [.attestation (mixedAttestation 2 "02" "ff" 3), .block pairBlock,
    .attestation (mixedAttestation 0 "00" "b6" 0)]

/-- The follower before the last of them. -/
def movingBefore : GossipNode :=
  (onMessage checksumExternals follower id (.block pairBlock)
    (onMessage checksumExternals follower id (.attestation (mixedAttestation 2 "02" "ff" 3))
      .new).1).1

/-- The follower after it. -/
def movingAfter : GossipNode :=
  (onMessage checksumExternals follower id (.attestation (mixedAttestation 0 "00" "b6" 0))
    movingBefore).1

theorem heightsAgree_moving : HeightsAgree checksumExternals (· ∈ movingMessages) := by
  refine ⟨fun h => if h = "ff" then 3 else 0, fun b h hb hh => ?_, fun a ha => ?_⟩
  · obtain rfl : b = pairBlock := by simpa [movingMessages] using hb
    have hhash : blockHash checksumExternals pairBlock.header = .ok "b6" := by decide +kernel
    obtain rfl := Except.ok.inj (hhash.symm.trans hh)
    decide
  · obtain rfl | rfl : a = mixedAttestation 2 "02" "ff" 3 ∨ a = mixedAttestation 0 "00" "b6" 0 := by
      simpa [movingMessages] using ha
    · rfl
    · rfl

/-- `prune_keeps_live` where the head moves from 0 to 1: the attestation for height 3 stays. -/
theorem prune_keeps_live_moving :
    movingBefore.height = 0 ∧ movingAfter.height = 1 ∧
      mixedAttestation 2 "02" "ff" 3 ∈ movingAfter.attestationsFor "ff" := by
  have hbefore : NodeTurns checksumExternals follower (· ∈ movingMessages) movingBefore := by
    rw [movingBefore]
    exact (Relation.ReflTransGen.single (.deliver id (by simp [movingMessages]))).tail
      (.deliver id (by simp [movingMessages]))
  have hturn : NodeTurn checksumExternals follower (· ∈ movingMessages) movingBefore
      movingAfter := by
    rw [movingAfter]
    exact .deliver id (by simp [movingMessages])
  have hrun : movingBefore.height = 0 ∧ movingAfter.height = 1 ∧
      JsNum.le movingAfter.height 3 = true ∧
      mixedAttestation 2 "02" "ff" 3 ∈ movingBefore.attestationsFor "ff" := by
    decide +kernel
  obtain ⟨hzero, hone, hlive, hpooled⟩ := hrun
  exact ⟨hzero, hone, prune_keeps_live heightsAgree_moving hbefore hturn
    (mixedAttestation 2 "02" "ff" 3) (.inl hpooled) hlive⟩

/-! ## A wrong height -/

/-- A follower is sent two attestations for one unknown block, the first for a height the
second contradicts, and then the block of its own height. -/
def mixedBefore : GossipNode :=
  (onMessage checksumExternals follower id (.block pairBlock)
    (onMessage checksumExternals follower id (.attestation (mixedAttestation 2 "02" "ff" 1))
      (onMessage checksumExternals follower id (.attestation (mixedAttestation 1 "01" "ff" 0))
        .new).1).1).1

/-- The block of its own height finalizes. -/
def mixedAfter : GossipNode :=
  (onMessage checksumExternals follower id (.attestation (mixedAttestation 0 "00" "b6" 0))
    mixedBefore).1

theorem mixedBefore_history :
    NodeHistory checksumExternals follower (fun _ _ => True) mixedBefore := by
  rw [mixedBefore]
  exact ((Relation.ReflTransGen.single (.deliver id trivial)).tail (.deliver id trivial)).tail
    (.deliver id trivial)

theorem mixedAfter_move :
    NodeMove checksumExternals follower (fun _ => True) mixedBefore mixedAfter := by
  rw [mixedAfter]
  exact .deliver id trivial

/-- **A live attestation is lost**: it is for height 1, the node is at height 1, no block
with its hash is known, and the sweep has dropped it. -/
theorem live_attestation_lost :
    NodeHistory checksumExternals follower (fun _ _ => True) mixedBefore ∧
    NodeMove checksumExternals follower (fun _ => True) mixedBefore mixedAfter ∧
    mixedAttestation 2 "02" "ff" 1 ∈ mixedBefore.attestationsFor "ff" ∧
    mixedAfter.height = 1 ∧ JsNum.le mixedAfter.height (mixedAttestation 2 "02" "ff" 1).height ∧
    (mixedBefore.knownBlocks.get? "ff").isNone ∧ (mixedAfter.knownBlocks.get? "ff").isNone ∧
    mixedAttestation 2 "02" "ff" 1 ∉ mixedAfter.attestationsFor "ff" :=
  ⟨mixedBefore_history, mixedAfter_move, by decide +kernel⟩

end Nerion
