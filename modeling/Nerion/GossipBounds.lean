import Nerion.GossipSettled
import Nerion.Symbolic

/-!
# The memory of a gossip node

Whatever a node is sent, the blocks it knows, the hashes in its pool, those of each
validator there and its record of conflicts stay below their caps. The buffer of later
blocks has a cap for each height, and a window of heights; since a height can be any number,
that bounds it only when the heights in the window are whole.

* `NodeStep.mirrored` — the index of hashes by validator is that of the pool;
* `NodeStep.bounded` — the four caps that hold without a condition;
* `gossip_memory_bounds` — all of them;
* `flooded_buffer` — blocks with fractional heights fill the buffer beyond its cap.
-/

namespace Nerion

/-! ## The index by validator -/

section Index

/-- Adding a hash to a set kept as a list. -/
theorem mem_insertHash {h h' : String} {hs : List String} :
    h' ∈ (if h ∈ hs then hs else hs ++ [h]) ↔ h' = h ∨ h' ∈ hs := by
  split
  · rename_i hmem
    exact ⟨.inr, fun hor => hor.elim (fun heq => heq ▸ hmem) id⟩
  · rw [List.mem_append, List.mem_singleton, or_comm]

theorem nodup_insertHash {h : String} {hs : List String} (hnodup : hs.Nodup) :
    (if h ∈ hs then hs else hs ++ [h]).Nodup := by
  split
  · exact hnodup
  · rename_i hnot
    rw [List.nodup_append_comm]
    exact List.nodup_cons.mpr ⟨hnot, hnodup⟩

/-- The inner loop of the rebuild: a hash is filed under some validators. -/
def fileHash (h : String) (vs : List String) (index : JsMap String (List String)) :
    JsMap String (List String) :=
  vs.foldl (fun index v =>
    let hs := (index.get? v).getD []
    index.set v (if h ∈ hs then hs else hs ++ [h])) index

/-- The rebuild, for some entries of the pool and on top of an index that is there. -/
def fileAll (es : List (String × JsMap String Attestation))
    (index : JsMap String (List String)) : JsMap String (List String) :=
  es.foldl (fun index e => fileHash e.1 e.2.keys index) index

theorem indexOf_eq (pool : JsMap String (JsMap String Attestation)) :
    GossipNode.indexOf pool = fileAll pool.entries .empty := rfl

theorem getD_fileHash (h : String) (vs : List String) (index : JsMap String (List String))
    (v : String) :
    ((fileHash h vs index).get? v).getD [] =
      if v ∈ vs then
        (if h ∈ (index.get? v).getD [] then (index.get? v).getD []
          else (index.get? v).getD [] ++ [h])
      else (index.get? v).getD [] := by
  induction vs generalizing index with
  | nil => rfl
  | cons u us ih =>
    rw [fileHash, List.foldl_cons, ← fileHash, ih]
    dsimp only
    rw [JsMap.get?_set]
    by_cases huv : v = u
    · -- filed once, it is not filed again
      subst huv
      have hmem : h ∈ (if h ∈ (index.get? v).getD [] then (index.get? v).getD []
          else (index.get? v).getD [] ++ [h]) := mem_insertHash.mpr (.inl rfl)
      rw [if_pos rfl, Option.getD_some, if_pos hmem, ite_self, if_pos List.mem_cons_self]
    · rw [if_neg huv]
      simp [huv]

theorem mem_fileAll (es : List (String × JsMap String Attestation))
    (index : JsMap String (List String)) (v h : String) :
    h ∈ ((fileAll es index).get? v).getD [] ↔
      h ∈ (index.get? v).getD [] ∨ ∃ byV, (h, byV) ∈ es ∧ v ∈ byV.keys := by
  induction es generalizing index with
  | nil => simp [fileAll]
  | cons e es ih =>
    obtain ⟨h0, byV0⟩ := e
    rw [fileAll, List.foldl_cons, ← fileAll, ih, getD_fileHash]
    by_cases hv : v ∈ byV0.keys
    · rw [if_pos hv, mem_insertHash]
      constructor
      · rintro ((rfl | hold) | ⟨byV, hmem, hkey⟩)
        · exact .inr ⟨byV0, List.mem_cons_self, hv⟩
        · exact .inl hold
        · exact .inr ⟨byV, List.mem_cons_of_mem _ hmem, hkey⟩
      · rintro (hold | ⟨byV, hmem, hkey⟩)
        · exact .inl (.inr hold)
        · rcases List.mem_cons.mp hmem with heq | hmem
          · cases heq
            exact .inl (.inl rfl)
          · exact .inr ⟨byV, hmem, hkey⟩
    · rw [if_neg hv]
      refine or_congr_right (exists_congr fun byV => ?_)
      rw [List.mem_cons, Prod.mk.injEq, or_and_right]
      refine ⟨.inr, fun hor => hor.resolve_left ?_⟩
      rintro ⟨⟨-, rfl⟩, hkey⟩
      exact hv hkey

theorem nodup_fileAll (es : List (String × JsMap String Attestation))
    (index : JsMap String (List String)) (v : String)
    (hnodup : ((index.get? v).getD []).Nodup) : (((fileAll es index).get? v).getD []).Nodup := by
  induction es generalizing index with
  | nil => exact hnodup
  | cons e es ih =>
    rw [fileAll, List.foldl_cons, ← fileAll]
    refine ih _ ?_
    rw [getD_fileHash]
    split
    · exact nodup_insertHash hnodup
    · exact hnodup

/-- **The rebuilt index lists, for each validator, the hashes it has in the pool.** -/
theorem mem_indexOf {pool : JsMap String (JsMap String Attestation)} {v h : String} :
    h ∈ ((GossipNode.indexOf pool).get? v).getD [] ↔
      ∃ byV, pool.get? h = some byV ∧ ∃ a, byV.get? v = some a := by
  rw [indexOf_eq, mem_fileAll]
  simp only [JsMap.get?_empty, Option.getD_none, List.not_mem_nil, false_or,
    JsMap.mem_entries_iff, JsMap.mem_keys_iff, Option.isSome_iff_exists]

theorem nodup_indexOf (pool : JsMap String (JsMap String Attestation)) (v : String) :
    (((GossipNode.indexOf pool).get? v).getD []).Nodup :=
  nodup_fileAll _ _ v List.nodup_nil

end Index

/-! ## The caps -/

/-- The hashes a validator has in the pool. -/
def GossipNode.pooledHashes (n : GossipNode) (v : String) : List String :=
  (n.attestations.entries.filter fun e => e.2.has v).map Prod.fst

section Caps

variable {X : LedgerExternals} {C : GossipConfig} {src : GossipMessage → Prop}
  {n n' : GossipNode}

/-- The index holds, for each validator and once each, the hashes it has in the pool. -/
structure GossipNode.Mirrored (n : GossipNode) : Prop where
  /-- each once -/
  nodup : ∀ v, (n.hashesOf v).Nodup
  /-- the hashes of a validator are those in the pool -/
  mem : ∀ v h, h ∈ n.hashesOf v ↔ ∃ a, n.slot h v = some a

theorem hashesOf_pool (n : GossipNode) (att : Attestation) (v : String) :
    (n.pool att).hashesOf v =
      if v = att.validator then
        (if att.blockHash ∈ n.hashesOf v then n.hashesOf v else n.hashesOf v ++ [att.blockHash])
      else n.hashesOf v := by
  rw [GossipNode.hashesOf, GossipNode.pool]
  dsimp only
  by_cases hv : v = att.validator
  · subst hv
    rw [if_pos rfl]
    split
    · rfl
    · rw [JsMap.get?_set, if_pos rfl, Option.getD_some]
  · rw [if_neg hv]
    split
    · rfl
    · rw [JsMap.get?_set, if_neg hv]
      rfl

/-- **Every step keeps the index in line with the pool.** -/
theorem NodeStep.mirrored (h : NodeStep X C src n n') (hn : n.Mirrored) : n'.Mirrored := by
  cases h with
  | @pool att _ _ _ _ _ =>
    refine ⟨fun v => ?_, fun v h => ?_⟩
    · rw [hashesOf_pool]
      split
      · exact nodup_insertHash (hn.nodup v)
      · exact hn.nodup v
    · rw [hashesOf_pool, GossipNode.slot_pool]
      by_cases hv : v = att.validator
      · rw [if_pos hv, mem_insertHash, hn.mem]
        by_cases hh : h = att.blockHash
        · simp [hh, hv]
        · simp [hh]
      · rw [if_neg hv, if_neg fun hkey => hv hkey.2, hn.mem]
  | prune =>
    refine ⟨fun v => nodup_indexOf _ v, fun v h => ?_⟩
    refine mem_indexOf.trans ?_
    constructor
    · rintro ⟨byV, hby, a, ha⟩
      exact ⟨a, GossipNode.slot_eq_some.mpr ⟨byV, hby, ha⟩⟩
    · rintro ⟨a, ha⟩
      obtain ⟨byV, hby, ha⟩ := GossipNode.slot_eq_some.mp ha
      exact ⟨byV, hby, a, ha⟩
  | observe _ _ =>
    rw [GossipNode.observe]
    split <;> exact ⟨hn.nodup, hn.mem⟩
  | _ => exact ⟨hn.nodup, hn.mem⟩

/-- The four caps that hold whatever comes in. -/
structure GossipNode.Bounded (n : GossipNode) : Prop where
  /-- blocks of the current height -/
  known : n.knownBlockCount ≤ maxKnownAtHeight
  /-- hashes in the pool -/
  pool : n.attestations.size ≤ maxAttestedHashes
  /-- hashes of one validator -/
  validator : ∀ v, (n.hashesOf v).length ≤ maxHashesPerValidator
  /-- conflicts on record -/
  conflicts : n.observedConflicts.length ≤ maxObservedConflicts

theorem size_pool_le {att : Attestation} (hadm : Admitted n att)
    (hn : n.attestations.size ≤ maxAttestedHashes) :
    (n.pool att).attestations.size ≤ maxAttestedHashes := by
  rcases hold : n.attestations.get? att.blockHash with _ | byV
  · -- a new hash is only taken below the cap
    have hlt : n.attestations.size < maxAttestedHashes := by
      refine hadm.pool.resolve_left ?_
      rintro ⟨byV, hby⟩
      rw [hold] at hby
      cases hby
    exact (JsMap.size_set_of_none _ hold).le.trans hlt
  · exact (JsMap.size_set_of_some _ hold).le.trans hn

/-- **Every step keeps the four caps.** -/
theorem NodeStep.bounded (h : NodeStep X C src n n') (hmir : n.Mirrored) (hn : n.Bounded) :
    n'.Bounded := by
  cases h with
  | @know _ h _ _ _ hnew hcap =>
    have hnone : n.knownBlocks.get? h = none := by
      rwa [JsMap.has, Option.isSome_eq_false_iff, Option.isNone_iff_eq_none] at hnew
    exact ⟨(JsMap.size_set_of_none _ hnone).le.trans hcap, hn.pool, hn.validator, hn.conflicts⟩
  | @pool att _ _ _ _ hadmits =>
    have hadm := admits_iff.mp hadmits
    refine ⟨hn.known, size_pool_le hadm hn.pool, fun v => ?_, hn.conflicts⟩
    rw [hashesOf_pool]
    split
    · rename_i hv
      split
      · exact hn.validator v
      · rename_i hnot
        rw [List.length_append]
        subst hv
        exact hadm.validator.resolve_left hnot
    · exact hn.validator v
  | @observe block already h _ _ =>
    rw [GossipNode.observe]
    split
    · rename_i hlt
      refine ⟨hn.known, hn.pool, hn.validator, ?_⟩
      rw [List.length_append]
      exact hlt
    · exact hn
  | prune =>
    refine ⟨(JsMap.size_filter_le _ _).trans hn.known, ?_, fun v => ?_, hn.conflicts⟩
    · exact ((JsMap.size_filter_le _ _).trans (JsMap.size_filter_le _ _)).trans hn.pool
    · -- the rebuilt list is part of the old one
      refine le_trans (List.subperm_of_subset (nodup_indexOf _ v) fun h hmem => ?_).length_le
        (hn.validator v)
      obtain ⟨byV, hby, a, ha⟩ := mem_indexOf.mp hmem
      refine (hmir.mem v h).mpr ⟨a, GossipNode.slot_eq_some.mpr ⟨byV, ?_, ha⟩⟩
      exact (GossipNode.get?_livePool.mp hby).1
  | attest _ _ _ _ _ => exact ⟨hn.known, hn.pool, hn.validator, hn.conflicts⟩
  | abstain _ _ _ => exact ⟨hn.known, hn.pool, hn.validator, hn.conflicts⟩
  | finalize _ _ _ => exact ⟨hn.known, hn.pool, hn.validator, hn.conflicts⟩
  | buffer _ _ _ _ _ => exact ⟨hn.known, hn.pool, hn.validator, hn.conflicts⟩
  | release => exact ⟨hn.known, hn.pool, hn.validator, hn.conflicts⟩

theorem GossipNode.Mirrored.new : GossipNode.new.Mirrored := by
  refine ⟨fun _ => List.nodup_nil, fun v h => ⟨fun hmem => absurd hmem List.not_mem_nil, ?_⟩⟩
  rintro ⟨a, ha⟩
  cases ha

theorem GossipNode.Bounded.new : GossipNode.new.Bounded :=
  ⟨Nat.zero_le _, Nat.zero_le _, fun _ => Nat.zero_le _, Nat.zero_le _⟩

theorem NodeRun.bounded (h : NodeRun X C src .new n) : n.Mirrored ∧ n.Bounded :=
  h.preserves (P := fun m => m.Mirrored ∧ m.Bounded)
    (fun hstep hm => ⟨hstep.mirrored hm.1, hstep.bounded hm.1 hm.2⟩)
    ⟨GossipNode.Mirrored.new, GossipNode.Bounded.new⟩

/-- The hashes a validator has in the pool are as many as those on its list. -/
theorem pooledHashes_length (hmir : n.Mirrored) (v : String) :
    (n.pooledHashes v).length = (n.hashesOf v).length := by
  have hnodup : (n.pooledHashes v).Nodup :=
    n.attestations.nodup.sublist (List.filter_sublist.map _)
  refine ((List.perm_ext_iff_of_nodup hnodup (hmir.nodup v)).mpr fun h => ?_).length_eq
  rw [hmir.mem, GossipNode.pooledHashes]
  simp only [List.mem_map, List.mem_filter, Prod.exists, JsMap.mem_entries_iff, JsMap.has,
    Option.isSome_iff_exists, GossipNode.slot_eq_some]
  constructor
  · rintro ⟨h', byV, ⟨hby, a, ha⟩, rfl⟩
    exact ⟨a, byV, hby, ha⟩
  · rintro ⟨a, byV, hby, ha⟩
    exact ⟨h, byV, ⟨hby, a, ha⟩, rfl⟩

end Caps

/-! ## The buffer -/

section Buffer

variable {X : LedgerExternals} {C : GossipConfig} {n n' : GossipNode}

variable {entropy : Bytes → Bytes}

/-- Draining only takes blocks out of the buffer. -/
theorem drainLoop_pending {turns : ℕ} {k : JsNum} {bs : List Block} (hbuf : n.Buffered)
    (h : (drainLoop X C entropy turns n).1.pendingBlocks.get? k = some bs) :
    n.pendingBlocks.get? k = some bs := by
  induction turns generalizing n with
  | zero => exact h
  | succ turns ih =>
    rw [drainLoop] at h
    rcases hdue : n.prune.pendingBlocks.get? n.height with _ | due
    · rw [hdue] at h
      exact (JsMap.get?_filter_eq_some.mp h).1
    have hkept : (replay X C entropy due n.prune.release).1.pendingBlocks =
        n.prune.release.pendingBlocks := by
      refine replay_pendingBlocks fun b hb => ?_
      rw [hbuf n.height due (JsMap.get?_filter_eq_some.mp hdue).1 b hb]
      exact JsNum.lt_natCast.trans (decide_eq_false (lt_irrefl _))
    have hback : ∀ {bs'}, n.prune.release.pendingBlocks.get? k = some bs' →
        n.pendingBlocks.get? k = some bs' := fun hk =>
      (JsMap.get?_filter_eq_some.mp (JsMap.get?_filter_eq_some.mp hk).1).1
    simp only [hdue] at h
    rcases hr : replay X C entropy due n.prune.release with ⟨m, _ | e⟩
    · rw [hr] at h hkept
      rw [Handled.andThen] at h
      split at h
      · exact hback (hkept ▸ h)
      · refine hback (hkept ▸ ih (fun k' bs' hk' => ?_) h)
        rw [hkept] at hk'
        exact hbuf k' bs' (JsMap.get?_filter_eq_some.mp (JsMap.get?_filter_eq_some.mp hk').1).1
    · rw [hr] at h hkept
      exact hback (hkept ▸ h)

/-- What one block can do to the buffer: nothing, or it joins the blocks of its height, in
the window and below the cap. -/
theorem onBlock_pending (entropy : Bytes → Bytes) (flood : Bool) (block : Block)
    (n : GossipNode) :
    (onBlock X C entropy flood block n).1.pendingBlocks = n.pendingBlocks ∨
    (JsNum.lt n.height block.header.height = true ∧
      JsNum.lt (n.height + (maxFutureHeights : JsNum)) block.header.height = false ∧
      ((n.pendingBlocks.get? block.header.height).getD []).length < maxPendingPerHeight ∧
      (onBlock X C entropy flood block n).1 = n.buffer block) := by
  rcases hahead : JsNum.lt n.height block.header.height with _ | _
  · exact .inl (onBlock_pendingBlocks hahead)
  rw [onBlock]
  split
  · exact .inl rfl
  simp only [bufferFuture]
  split
  · exact .inl rfl
  rename_i hwindow
  split
  · exact .inl rfl
  split
  · exact .inl rfl
  split
  · exact .inl rfl
  · rename_i hcap
    exact .inr ⟨trivial, (Bool.not_eq_true _).mp hwindow, not_le.mp hcap, rfl⟩

/-- Buffered heights are whole numbers in the window, with at most the cap at each. -/
def GossipNode.Windowed (n : GossipNode) : Prop :=
  ∀ k bs, n.pendingBlocks.get? k = some bs → bs.length ≤ maxPendingPerHeight ∧
    ∃ j : ℕ, k = j ∧ j ≤ n.chain.length + maxFutureHeights

/-- A block in the window of a node has a whole height. -/
def WholeInWindow (n : GossipNode) : GossipMessage → Prop
  | .block block => JsNum.lt n.height block.header.height = true →
      JsNum.lt (n.height + (maxFutureHeights : JsNum)) block.header.height = false →
      block.header.height.isSafeInteger = true
  | .attestation _ => True

theorem Windowed.buffer {block : Block} (hn : n.Windowed)
    (hahead : JsNum.lt n.height block.header.height = true)
    (hwindow : JsNum.lt (n.height + (maxFutureHeights : JsNum)) block.header.height = false)
    (hcap : ((n.pendingBlocks.get? block.header.height).getD []).length < maxPendingPerHeight)
    (hsafe : block.header.height.isSafeInteger = true) : (n.buffer block).Windowed := by
  intro k bs hk
  rw [GossipNode.get?_buffer] at hk
  split at hk
  · rename_i hkey
    cases hk
    refine ⟨?_, ?_⟩
    · rw [hkey, List.length_append]
      exact hcap
    · obtain ⟨j, hj, -, hle⟩ := JsNum.exists_natCast_of_window hsafe hahead hwindow
      exact ⟨j, hkey.trans hj, hle⟩
  · exact hn k bs hk

theorem NodeMove.windowed (h : NodeMove X C (WholeInWindow n) n n') (hbuf : n.Buffered)
    (hn : n.Windowed) : n'.Windowed := by
  -- a handler followed by the loop: the loop takes out, and the chain only grows
  have hdrain : ∀ {r : Handled} {entropy : Bytes → Bytes}, NodeRun X C (WholeInWindow n) n r.1 →
      r.1.Windowed → (r.andThen (drainBuffered X C entropy)).1.Windowed := by
    rintro ⟨m, _ | e⟩ entropy hrun hm
    · intro k bs hk
      have hmbuf : m.Buffered := hrun.preserves (fun hstep hm' => hstep.buffered hm') hbuf
      obtain ⟨hlen, j, hj, hle⟩ := hm k bs (drainLoop_pending hmbuf hk)
      have hgrow : NodeRun X C (fun _ => True) m (drainBuffered X C entropy m).1 :=
        drainLoop_run entropy _ m
      exact ⟨hlen, j, hj, hle.trans (Nat.add_le_add_right hgrow.length_le _)⟩
    · exact hm
  have hsame : ∀ {m : GossipNode}, NodeRun X C (WholeInWindow n) n m →
      m.pendingBlocks = n.pendingBlocks → m.Windowed := by
    intro m hrun hpending k bs hk
    rw [hpending] at hk
    obtain ⟨hlen, j, hj, hle⟩ := hn k bs hk
    exact ⟨hlen, j, hj, hle.trans (Nat.add_le_add_right hrun.length_le _)⟩
  rcases h.inv with rfl | ⟨entropy, block, hsrc, rfl⟩ | ⟨entropy, att, hatt, rfl⟩
  · exact hn
  · have hrun : NodeRun X C (WholeInWindow n) n (onBlock X C entropy true block n).1 :=
      onBlock_run entropy true block n
    refine hdrain hrun ?_
    rcases onBlock_pending entropy true block n with hpending | ⟨hahead, hwindow, hcap, heq⟩
    · exact hsame hrun hpending
    · rw [heq]
      rcases hsrc with hsrc | hown
      · exact Windowed.buffer hn hahead hwindow hcap (hsrc hahead hwindow)
      · -- the node's own blocks are not ahead of it
        rw [hown] at hahead
        exact absurd (hahead.symm.trans (JsNum.lt_natCast.trans
          (decide_eq_false (lt_irrefl _)))) Bool.true_eq_false_eq_False
  · have hrun : NodeRun X C (WholeInWindow n) n (onAttestation X C att n).1 :=
      onAttestation_run (.inr hatt)
    exact hdrain hrun (hsame hrun (onAttestation_pendingBlocks att n))

theorem NodeHistory.windowed (h : NodeHistory X C WholeInWindow n) : n.Windowed := by
  induction h with
  | refl =>
    intro k bs hk
    cases hk
  | tail hhist hmove ih => exact NodeMove.windowed hmove (NodeHistory.buffered hhist) ih

/-- The lists of a map, each below a cap. -/
theorem foldl_length_le {c : ℕ} (lists : List (List Block)) (h : ∀ bs ∈ lists, bs.length ≤ c)
    (start : ℕ) : lists.foldl (fun count list => count + list.length) start ≤
      start + c * lists.length := by
  induction lists generalizing start with
  | nil => exact Nat.le_add_right _ _
  | cons bs lists ih =>
    rw [List.foldl_cons, List.length_cons, Nat.mul_succ]
    refine (ih (fun bs' hbs' => h bs' (List.mem_cons_of_mem _ hbs')) _).trans ?_
    have hbs := h bs List.mem_cons_self
    omega

/-- At most as many heights as the window has. -/
theorem size_pendingBlocks_le (hset : n.Settled) (hwin : n.Windowed) :
    n.pendingBlocks.size ≤ maxFutureHeights := by
  have hsub : n.pendingBlocks.keys ⊆
      (List.range' (n.chain.length + 1) maxFutureHeights).map Nat.cast := by
    intro k hk
    obtain ⟨bs, hbs⟩ := Option.isSome_iff_exists.mp (JsMap.mem_keys_iff.mp hk)
    obtain ⟨-, j, rfl, hle⟩ := hwin k bs hbs
    have hahead := hset.pending _ bs hbs
    rw [GossipNode.height, ledgerHeight, JsNum.lt_natCast, decide_eq_true_iff] at hahead
    refine List.mem_map.mpr ⟨j, List.mem_range'_1.mpr ⟨hahead, ?_⟩, rfl⟩
    omega
  have hle := (List.subperm_of_subset n.pendingBlocks.nodup hsub).length_le
  rwa [List.length_map, List.length_map, List.length_range'] at hle

theorem pendingBlockCount_le (hset : n.Settled) (hwin : n.Windowed) :
    n.pendingBlockCount ≤ maxFutureHeights * maxPendingPerHeight := by
  have hlists : ∀ bs ∈ n.pendingBlocks.values, bs.length ≤ maxPendingPerHeight := by
    intro bs hbs
    obtain ⟨k, hk⟩ := JsMap.mem_values_iff.mp hbs
    exact (hwin k bs hk).1
  refine (foldl_length_le _ hlists 0).trans ?_
  rw [Nat.zero_add, JsMap.values, List.length_map, Nat.mul_comm]
  exact Nat.mul_le_mul_right _ (size_pendingBlocks_le hset hwin)

/-- A settled node has nothing to replay. -/
theorem drainBuffered_of_settled (hn : n.Settled) :
    drainBuffered X C entropy n = (n.prune, none) := by
  have hnone : n.prune.pendingBlocks.get? n.height = none := by
    refine Option.eq_none_iff_forall_not_mem.mpr fun bs hbs => ?_
    have hlt := hn.pending n.height bs (JsMap.get?_filter_eq_some.mp hbs).1
    rw [GossipNode.height, ledgerHeight, JsNum.lt_natCast, decide_eq_true_iff] at hlt
    exact lt_irrefl _ hlt
  rw [drainBuffered, drainLoop, hnone]

theorem prune_pendingBlocks_of_settled (hn : n.Settled) :
    n.prune.pendingBlocks = n.pendingBlocks := by
  change n.pendingBlocks.filter (fun k _ => !JsNum.lt k n.height) = n.pendingBlocks
  refine JsMap.filter_eq_self fun k bs hk => ?_
  rw [Bool.not_eq_true']
  refine (Bool.not_eq_true _).mp fun hlt => ?_
  exact JsNum.lt_asymm hlt (hn.pending k bs hk)

/-- **What a block of a later height does to a settled node**, the first one of its height:
it is buffered. -/
theorem onMessage_future {block : Block} {h : String} (hn : n.Settled)
    (hahead : JsNum.lt n.height block.header.height = true)
    (hwindow : JsNum.lt (n.height + (maxFutureHeights : JsNum)) block.header.height = false)
    (hhash : blockHash X block.header = .ok h)
    (hnone : n.pendingBlocks.get? block.header.height = none) :
    (onMessage X C entropy (.block block) n).1.chain = n.chain ∧
      (onMessage X C entropy (.block block) n).1.pendingBlocks =
        n.pendingBlocks.set block.header.height [block] := by
  have hcap : ((n.pendingBlocks.get? block.header.height).getD []).length <
      maxPendingPerHeight := by
    rw [hnone]
    decide
  have hstep : NodeStep X C (fun _ => True) n (n.buffer block) :=
    .buffer hahead hwindow hhash (by rw [hnone]; rfl) hcap
  have hlive : n.passed block = false :=
    (Bool.not_eq_true _).mp fun hlt => JsNum.lt_asymm hlt hahead
  have hblock : onBlock X C entropy true block n = (n.buffer block, none) := by
    rw [onBlock, if_neg (ne_true_of_eq_false hlive), if_pos hahead, bufferFuture,
      if_neg (ne_true_of_eq_false hwindow), hhash]
    dsimp only
    rw [if_neg (by rw [hnone]; exact Bool.false_ne_true), if_neg (not_le.mpr hcap)]
  have hset : (n.buffer block).Settled := hstep.settled rfl hn
  have hdone : onMessage X C entropy (.block block) n = ((n.buffer block).prune, none) := by
    rw [onMessage, hblock]
    exact drainBuffered_of_settled hset
  rw [hdone]
  refine ⟨rfl, ?_⟩
  rw [prune_pendingBlocks_of_settled hset, GossipNode.buffer, hnone]
  rfl

end Buffer

/-! ## The bounds -/

/-- **The memory of a gossip node.** Whatever messages come in, the blocks known at the
current height, the hashes in the pool, those of each validator and the conflicts on record
stay below their caps. The buffer does when the blocks that come in have whole heights in
the window. -/
theorem gossip_memory_bounds (X : LedgerExternals) (C : GossipConfig) (n : GossipNode) :
    (∀ guard, NodeHistory X C guard n →
      n.knownBlockCount ≤ 64 ∧ n.attestations.size ≤ 4096 ∧
      (∀ v, (n.pooledHashes v).length ≤ 128) ∧ n.observedConflicts.length ≤ 4096) ∧
    (NodeHistory X C WholeInWindow n → n.pendingBlockCount ≤ 64 * 64) := by
  constructor
  · intro guard h
    obtain ⟨hmir, hbound⟩ := h.run.bounded
    exact ⟨hbound.known, hbound.pool,
      fun v => (pooledHashes_length hmir v).trans_le (hbound.validator v), hbound.conflicts⟩
  · intro h
    exact pendingBlockCount_le h.settled h.windowed

/-- A node that only listens. -/
def listener : GossipConfig := ⟨⟨[1], [1]⟩, pairLedger⟩

/-- A block at some height, signed by nobody. -/
def strayBlock (height : JsNum) : Block :=
  ⟨⟨height, genesisPrev, 0, "00", "00", 0, none⟩, [], "PS-5", none, none⟩

/-- The listener is sent one block for each height of a list. -/
def strayRun : List JsNum → GossipNode
  | [] => .new
  | k :: ks => (onMessage symbolicExternals listener id (.block (strayBlock k)) (strayRun ks)).1

theorem strayRun_history {guard : GossipNode → GossipMessage → Prop} (ks : List JsNum)
    (h : ∀ k ∈ ks, ∀ n, guard n (.block (strayBlock k))) :
    NodeHistory symbolicExternals listener guard (strayRun ks) := by
  induction ks with
  | nil => exact .refl
  | cons k ks ih =>
    exact (ih fun k' hk' => h k' (List.mem_cons_of_mem _ hk')).tail
      (.deliver id (h k List.mem_cons_self _))

/-- Each new height in the window of a new node takes its own place in the buffer. -/
theorem strayRun_pending {ks : List JsNum} (hnodup : ks.Nodup)
    (hahead : ∀ k ∈ ks, JsNum.lt 0 k = true)
    (hwindow : ∀ k ∈ ks, JsNum.lt (0 + (maxFutureHeights : JsNum)) k = false) :
    (strayRun ks).chain = [] ∧
      (strayRun ks).pendingBlocks.entries = (ks.map fun k => (k, [strayBlock k])).reverse := by
  induction ks with
  | nil => exact ⟨rfl, rfl⟩
  | cons k ks ih =>
    obtain ⟨hnew, hnodup⟩ := List.nodup_cons.mp hnodup
    obtain ⟨hchain, hentries⟩ := ih hnodup (fun k' hk' => hahead k' (List.mem_cons_of_mem _ hk'))
      fun k' hk' => hwindow k' (List.mem_cons_of_mem _ hk')
    have hheight : (strayRun ks).height = 0 := congrArg ledgerHeight hchain
    have hnone : (strayRun ks).pendingBlocks.get? k = none := by
      refine Option.eq_none_iff_forall_not_mem.mpr fun bs hbs => hnew ?_
      have hmem := JsMap.mem_entries_iff.mpr hbs
      rw [hentries, List.mem_reverse] at hmem
      obtain ⟨k', hk', heq⟩ := List.mem_map.mp hmem
      cases heq
      exact hk'
    have hhist : NodeHistory symbolicExternals listener (fun _ _ => True) (strayRun ks) :=
      strayRun_history ks fun _ _ _ => trivial
    obtain ⟨hchain', hpending⟩ := @onMessage_future symbolicExternals listener (strayRun ks) id
      (strayBlock k) _ hhist.settled (by rw [hheight]; exact hahead k List.mem_cons_self)
      (by rw [hheight]; exact hwindow k List.mem_cons_self) (blockHash_symbolic _) hnone
    refine ⟨hchain'.trans hchain, ?_⟩
    rw [strayRun, hpending, List.map_cons, List.reverse_cons, ← hentries]
    exact JsMap.entries_set_of_none _ hnone

theorem strayRun_pendingBlockCount {ks : List JsNum} (hnodup : ks.Nodup)
    (hahead : ∀ k ∈ ks, JsNum.lt 0 k = true)
    (hwindow : ∀ k ∈ ks, JsNum.lt (0 + (maxFutureHeights : JsNum)) k = false) :
    (strayRun ks).pendingBlockCount = ks.length := by
  have hone : ∀ (xs : List JsNum) (start : ℕ),
      (xs.map fun k => [strayBlock k]).foldl (fun count list => count + list.length) start =
        start + xs.length := by
    intro xs
    induction xs with
    | nil => exact fun start => rfl
    | cons x xs ih =>
      intro start
      rw [List.map_cons, List.foldl_cons, ih, List.length_singleton, List.length_cons]
      omega
  rw [GossipNode.pendingBlockCount, JsMap.values, (strayRun_pending hnodup hahead hwindow).2,
    List.map_reverse, List.map_map, ← List.map_reverse]
  exact (hone ks.reverse 0).trans (by rw [Nat.zero_add, List.length_reverse])

/-- `gossip_memory_bounds` for a listener that was sent blocks of the next two heights. -/
theorem gossip_memory_bounds_two :
    (strayRun [2, 1]).pendingBlockCount = 2 ∧ (strayRun [2, 1]).pendingBlockCount ≤ 64 * 64 := by
  refine ⟨strayRun_pendingBlockCount (by decide +kernel) (by decide +kernel) (by decide +kernel),
    (gossip_memory_bounds symbolicExternals listener _).2 (strayRun_history _ ?_)⟩
  intro k hk n _ _
  have hwhole : ∀ k ∈ ([2, 1] : List JsNum), k.isSafeInteger = true := by decide +kernel
  exact hwhole k hk

/-- The heights of the flood: multiples of a small fraction. -/
def floodHeight (i : ℕ) : JsNum := .fin ((i + 1 : ℕ) / 8192)

/-- **The buffer outgrows its cap**: a listener is sent 4097 unsigned blocks with different
heights, all above zero and below one. -/
theorem flooded_buffer :
    NodeHistory symbolicExternals listener (fun _ _ => True)
        (strayRun ((List.range 4097).map floodHeight)) ∧
      64 * 64 < (strayRun ((List.range 4097).map floodHeight)).pendingBlockCount := by
  refine ⟨strayRun_history _ fun _ _ _ => trivial, ?_⟩
  have hinj : Function.Injective floodHeight := by
    intro i j hij
    have hq : ((i + 1 : ℕ) : ℚ) / 8192 = ((j + 1 : ℕ) : ℚ) / 8192 := JsNum.fin.inj hij
    have hcast : ((i + 1 : ℕ) : ℚ) = ((j + 1 : ℕ) : ℚ) := by linarith
    exact Nat.succ.inj (Nat.cast_injective hcast)
  have hwindow : (0 : JsNum) + (maxFutureHeights : JsNum) = ((64 : ℕ) : JsNum) :=
    JsNum.add_natCast (a := 0) (by decide)
  rw [strayRun_pendingBlockCount (List.nodup_range.map hinj)]
  · rw [List.length_map, List.length_range]
    decide
  · intro k hk
    obtain ⟨i, -, rfl⟩ := List.mem_map.mp hk
    refine JsNum.lt_fin.mpr ?_
    positivity
  · intro k hk
    obtain ⟨i, hi, rfl⟩ := List.mem_map.mp hk
    rw [hwindow]
    refine (Bool.not_eq_true _).mp fun hlt => ?_
    have hq : ((64 : ℕ) : ℚ) < ((i + 1 : ℕ) : ℚ) / 8192 := JsNum.lt_fin.mp hlt
    have hi' : ((i + 1 : ℕ) : ℚ) ≤ ((4097 : ℕ) : ℚ) := Nat.cast_le.mpr (List.mem_range.mp hi)
    push_cast at hq hi'
    linarith

end Nerion
