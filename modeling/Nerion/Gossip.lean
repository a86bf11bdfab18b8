import Nerion.Chain

/-!
# Gossip nodes (`ledger/src/gossip.ts`)

A node keeps its own ledger and a few maps around it: the blocks of its current height,
the pool of attestations, what it attested itself, and the blocks of later heights. The
handlers are state transformers that also return the error they end with: a throw ends
the handler and leaves the fields as they are at that point.

What goes to the bus is appended to `sent`; `signed` records the attestations the node has
signed. Neither is read by the code.

* `onBlock`, `onAttestation`, `tryFinalize`, `drainBuffered` — the handlers;
* `proposeIfLeader`, `onMessage` — the two ways a node is called.
-/

namespace Nerion

inductive GossipMessage where
  | block (block : Block)
  | attestation (attestation : Attestation)

/-- An entry of `observedConflicts`. -/
structure ObservedConflict where
  height : JsNum
  /-- the block attested there -/
  a : String
  /-- the other block -/
  b : String

/-- The read-only fields of a `GossipNode`. -/
structure GossipConfig where
  /-- the node's key -/
  key : KeyPair
  /-- its ledger's fields -/
  ledger : LedgerConfig

/-- The other fields of a `GossipNode`. -/
structure GossipNode where
  /-- the ledger's chain -/
  chain : List FinalizedBlock
  /-- blocks at the current height, by hash -/
  knownBlocks : JsMap String Block
  /-- attestations, by block hash and validator -/
  attestations : JsMap String (JsMap String Attestation)
  /-- distinct hashes pooled, by validator -/
  hashesByValidator : JsMap String (List String)
  /-- the hash attested at a height -/
  attestedAt : JsMap JsNum String
  /-- hashes of finalized blocks -/
  finalizedHashes : List String
  /-- blocks of later heights -/
  pendingBlocks : JsMap JsNum (List Block)
  /-- conflicts seen -/
  observedConflicts : List ObservedConflict
  /-- messages handed to the bus, oldest first -/
  sent : List GossipMessage
  /-- attestations signed with the node's key, oldest first -/
  signed : List Attestation

/-- A new node. -/
def GossipNode.new : GossipNode where
  chain := []
  knownBlocks := .empty
  attestations := .empty
  hashesByValidator := .empty
  attestedAt := .empty
  finalizedHashes := []
  pendingBlocks := .empty
  observedConflicts := []
  sent := []
  signed := []

/-- `MAX_FUTURE_HEIGHTS`. -/
def maxFutureHeights : ℕ := 64

/-- `MAX_PENDING_PER_HEIGHT`. -/
def maxPendingPerHeight : ℕ := 64

/-- `MAX_KNOWN_AT_HEIGHT`. -/
def maxKnownAtHeight : ℕ := maxPendingPerHeight

/-- `MAX_OBSERVED_CONFLICTS`. -/
def maxObservedConflicts : ℕ := maxFutureHeights * maxPendingPerHeight

/-- `MAX_ATTESTED_HASHES`. -/
def maxAttestedHashes : ℕ := maxFutureHeights * maxPendingPerHeight

/-- `MAX_HASHES_PER_VALIDATOR`. -/
def maxHashesPerValidator : ℕ := maxFutureHeights * 2

/-- What a handler leaves: the node, and the error it threw. -/
abbrev Handled : Type := GossipNode × Option JsError

/-- Sequencing: what comes after a throw does not run. -/
def Handled.andThen (r : Handled) (next : GossipNode → Handled) : Handled :=
  match r with
  | (n, none) => next n
  | (n, some e) => (n, some e)

namespace GossipNode

def height (n : GossipNode) : JsNum := ledgerHeight n.chain

def attestationsFor (n : GossipNode) (hash : String) : List Attestation :=
  match n.attestations.get? hash with
  | some byValidator => byValidator.values
  | none => []

def pendingBlockCount (n : GossipNode) : ℕ :=
  n.pendingBlocks.values.foldl (fun count list => count + list.length) 0

def knownBlockCount (n : GossipNode) : ℕ := n.knownBlocks.size

/-! ## The mutations -/

/-- `knownBlocks.set(h, block)`, and the flood. -/
def know (n : GossipNode) (flood : Bool) (h : String) (block : Block) : GossipNode :=
  { n with
    knownBlocks := n.knownBlocks.set h block
    sent := if flood then n.sent ++ [.block block] else n.sent }

/-- `attestedAt.set(height, h)`. -/
def vote (n : GossipNode) (height : JsNum) (h : String) : GossipNode :=
  { n with attestedAt := n.attestedAt.set height h }

/-- The node's own attestation leaves the signer. -/
def sign (n : GossipNode) (att : Attestation) : GossipNode :=
  { n with signed := n.signed ++ [att] }

/-- `observedConflicts.push`, up to the cap. -/
def observe (n : GossipNode) (conflict : ObservedConflict) : GossipNode :=
  if n.observedConflicts.length < maxObservedConflicts then
    { n with observedConflicts := n.observedConflicts ++ [conflict] }
  else n

/-- The hashes a validator has in the pool. -/
def hashesOf (n : GossipNode) (validator : String) : List String :=
  (n.hashesByValidator.get? validator).getD []

/-- An attestation enters the pool, the index and the bus. -/
def pool (n : GossipNode) (att : Attestation) : GossipNode :=
  { n with
    attestations := n.attestations.set att.blockHash
      (((n.attestations.get? att.blockHash).getD .empty).set att.validator att)
    hashesByValidator :=
      if att.blockHash ∈ n.hashesOf att.validator then n.hashesByValidator
      else n.hashesByValidator.set att.validator (n.hashesOf att.validator ++ [att.blockHash])
    sent := n.sent ++ [.attestation att] }

/-- The ledger appends a block. -/
def finalize (n : GossipNode) (hash : String) (chain : List FinalizedBlock) : GossipNode :=
  { n with chain := chain, finalizedHashes := n.finalizedHashes ++ [hash] }

/-- A block of a later height is held, and flooded. -/
def buffer (n : GossipNode) (block : Block) : GossipNode :=
  { n with
    pendingBlocks := n.pendingBlocks.set block.header.height
      ((n.pendingBlocks.get? block.header.height).getD [] ++ [block])
    sent := n.sent ++ [.block block] }

/-- Whether the head has passed a block. -/
def passed (n : GossipNode) (block : Block) : Bool := JsNum.lt block.header.height n.height

/-- `hashesByValidator` from the pool. -/
def indexOf (attestations : JsMap String (JsMap String Attestation)) :
    JsMap String (List String) :=
  attestations.entries.foldl
    (fun index e => e.2.keys.foldl
      (fun index v =>
        let hs := (index.get? v).getD []
        index.set v (if e.1 ∈ hs then hs else hs ++ [e.1]))
      index)
    .empty

/-- The attestations left after the sweep: neither for a known block the head has passed,
nor with a first entry below the head. -/
def livePool (n : GossipNode) : JsMap String (JsMap String Attestation) :=
  (n.attestations.filter fun h _ => !(n.knownBlocks.get? h).any n.passed).filter
    fun _ byValidator => !byValidator.values.head?.any fun a => JsNum.lt a.height n.height

/-- The sweep at the start of each turn of `drainBuffered`. -/
def prune (n : GossipNode) : GossipNode :=
  { n with
    attestedAt := n.attestedAt.filter fun k _ => !JsNum.lt k n.height
    knownBlocks := n.knownBlocks.filter fun _ b => !n.passed b
    attestations := n.livePool
    hashesByValidator := indexOf n.livePool
    pendingBlocks := n.pendingBlocks.filter fun k _ => !JsNum.lt k n.height }

/-- `pendingBlocks.delete(height)`. -/
def release (n : GossipNode) : GossipNode :=
  { n with pendingBlocks := n.pendingBlocks.delete n.height }

end GossipNode

/-! ## The handlers -/

section Handlers

variable (X : LedgerExternals) (C : GossipConfig)

def GossipConfig.id : String := X.bytesToHex C.key.publicKey

/-- `tryFinalize`: whatever `submit` throws is caught. -/
def tryFinalize (hash : String) (n : GossipNode) : GossipNode :=
  if hash ∈ n.finalizedHashes then n
  else
    match n.knownBlocks.get? hash with
    | none => n
    | some block =>
      if JsNum.strictEq block.header.height n.height = false then n
      else
        match submit X C.ledger n.chain block (n.attestationsFor hash) with
        | .ok (_, chain) => n.finalize hash chain
        | .error _ => n

/-- Whether the pool takes an attestation: it is in the window of live heights, it is new,
and neither its validator nor the pool is at its cap. -/
def admits (n : GossipNode) (att : Attestation) : Bool :=
  !(JsNum.lt att.height n.height || JsNum.lt (n.height + (maxFutureHeights : JsNum)) att.height) &&
    !(n.attestations.get? att.blockHash).any (·.has att.validator) &&
    !(decide (att.blockHash ∉ n.hashesOf att.validator) &&
      decide (maxHashesPerValidator ≤ (n.hashesOf att.validator).length)) &&
    !((n.attestations.get? att.blockHash).isNone &&
      decide (maxAttestedHashes ≤ n.attestations.size))

def onAttestation (att : Attestation) (n : GossipNode) : Handled :=
  if att.suite ≠ C.ledger.suite then (n, none)
  else if stakeOf C.ledger.set att.validator ≤ 0 then (n, none)
  else
    match verifyAttestationSig X att C.ledger.set with
    | .error e => (n, some e)
    | .ok false => (n, none)
    | .ok true =>
      if admits n att = false then (n, none)
      else (tryFinalize X C att.blockHash (n.pool att), none)

/-- Whether a buffered block has a hash; it was hashed when it was buffered. -/
def hasHash (block : Block) (h : String) : Bool :=
  match blockHash X block.header with
  | .ok h' => decide (h' = h)
  | .error _ => false

def bufferFuture (block : Block) (n : GossipNode) : Handled :=
  if JsNum.lt (n.height + (maxFutureHeights : JsNum)) block.header.height then (n, none)
  else
    match blockHash X block.header with
    | .error e => (n, some e)
    | .ok h =>
      let list := (n.pendingBlocks.get? block.header.height).getD []
      if (list.any fun b => hasHash X b h) = true then (n, none)
      else if maxPendingPerHeight ≤ list.length then (n, none)
      else (n.buffer block, none)

/-- The end of `onBlock`: attest the block unless another one was attested at its height. -/
def attestBlock (entropy : Bytes → Bytes) (h : String) (block : Block) (n : GossipNode) :
    Handled :=
  match n.attestedAt.get? block.header.height with
  | none =>
    if 0 < stakeOf C.ledger.set (C.id X) then
      match attest X C.ledger block C.key entropy with
      | .error e => (n.vote block.header.height h, some e)
      | .ok att =>
        (onAttestation X C att ((n.vote block.header.height h).sign att)).andThen fun n' =>
          (tryFinalize X C h n', none)
    else (tryFinalize X C h n, none)
  | some already =>
    if already ≠ h then
      (tryFinalize X C h (n.observe ⟨block.header.height, already, h⟩), none)
    else (tryFinalize X C h n, none)

def onBlock (entropy : Bytes → Bytes) (flood : Bool) (block : Block) (n : GossipNode) : Handled :=
  if n.passed block then (n, none)
  else if JsNum.lt n.height block.header.height then bufferFuture X block n
  else
    match blockHash X block.header with
    | .error e => (n, some e)
    | .ok h =>
      if n.knownBlocks.has h then (n, none)
      else if maxKnownAtHeight ≤ n.knownBlocks.size then (n, none)
      else attestBlock X C entropy h block (n.know flood h block)

/-- `for (const b of due) this.onBlock(b, false)`. -/
def replay (entropy : Bytes → Bytes) : List Block → GossipNode → Handled
  | [], n => (n, none)
  | b :: bs, n => (onBlock X C entropy false b n).andThen (replay entropy bs)

/-- The loop of `drainBuffered`, for at most the given number of turns. -/
def drainLoop (entropy : Bytes → Bytes) : ℕ → GossipNode → Handled
  | 0, n => (n, none)
  | turns + 1, n =>
    match n.prune.pendingBlocks.get? n.height with
    | none => (n.prune, none)
    | some due =>
      (replay X C entropy due n.prune.release).andThen fun n' =>
        if JsNum.strictEq n'.height n.height then (n', none) else drainLoop entropy turns n'

/-- `drainBuffered`. Each turn but the last takes a height out of the buffer, so there are
at most as many turns as buffered heights, and one more. -/
def drainBuffered (entropy : Bytes → Bytes) (n : GossipNode) : Handled :=
  drainLoop X C entropy (n.pendingBlocks.size + 1) n

def onMessage (entropy : Bytes → Bytes) (m : GossipMessage) (n : GossipNode) : Handled :=
  Handled.andThen
    (match m with
      | .block block => onBlock X C entropy true block n
      | .attestation att => onAttestation X C att n)
    (drainBuffered X C entropy)

/-- `proposeIfLeader`: the node, and what the call returns or throws. -/
def proposeIfLeader (entropy : Bytes → Bytes) (payloadRoot : String) (timestamp : JsNum)
    (n : GossipNode) : GossipNode × Except JsError (Option Block) :=
  let round := canonicalRound n.height
  match selectLeader X C.ledger.set (headHash n.chain) round with
  | .error e => (n, .error e)
  | .ok leader =>
    if leader ≠ C.id X then (n, .ok none)
    else
      match propose X C.ledger n.chain payloadRoot round timestamp C.key entropy with
      | .error e => (n, .error e)
      | .ok block =>
        match (onBlock X C entropy true block n).andThen (drainBuffered X C entropy) with
        | (n', none) => (n', .ok (some block))
        | (n', some e) => (n', .error e)

end Handlers

end Nerion
