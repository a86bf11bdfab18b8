import Nerion.GossipPrune

/-!
# The gossip bus (`ledger/src/gossip.ts`)

The bus keeps a queue of messages and the handlers of the nodes that registered. A handler
closes over its node, so here the bus holds the nodes; what a node hands to `broadcast` while
it handles a message is what it appends to `sent`. A node draws the randomness of its
signatures anew in each call, so a delivery comes with its own.

* `deliver` — one message to its handler, and what the handler broadcasts;
* `propose` — a node is asked to propose, and broadcasts;
* `run` — deliveries until the queue is empty or the cap is hit, or until a handler throws.
-/

namespace Nerion

/-- A registered node, with its read-only fields. -/
structure GossipPeer where
  /-- the read-only fields -/
  config : GossipConfig
  /-- the others -/
  node : GossipNode

structure GossipBus where
  /-- the registered nodes, by id -/
  handlers : JsMap String GossipPeer
  /-- messages to deliver, with their receivers, oldest first -/
  queue : List (String × GossipMessage)
  /-- whether messages from one id get to another, as `setReachability` sets it -/
  reachable : String → String → Bool
  /-- messages delivered -/
  delivered : ℕ

/-- How `run` ends. -/
inductive BusOutcome where
  /-- the queue is empty, after so many deliveries -/
  | quiescent (n : ℕ)
  /-- a handler threw -/
  | threw (e : JsError)
  /-- the delivery cap was hit -/
  | capped
  deriving DecidableEq

/-- What `run` returns or throws. -/
def BusOutcome.result : BusOutcome → Except JsError ℕ
  | quiescent n => .ok n
  | threw e => .error e
  | capped => .error (error "gossip did not converge (delivery cap hit)")

namespace GossipBus

/-- A new bus: everybody reaches everybody. -/
def new : GossipBus := ⟨.empty, [], fun _ _ => true, 0⟩

/-- Whom a message from `sender` is queued for. -/
def receivers (bus : GossipBus) (sender : String) : List String :=
  bus.handlers.keys.filter fun id => !(decide (id = sender) || !bus.reachable sender id)

def broadcast (sender : String) (bus : GossipBus) (msg : GossipMessage) : GossipBus :=
  { bus with queue := bus.queue ++ (bus.receivers sender).map fun id => (id, msg) }

variable (X : LedgerExternals)

/-- `register`, as the constructor of a node calls it. -/
def register (peer : GossipPeer) (bus : GossipBus) : GossipBus :=
  { bus with handlers := bus.handlers.set (peer.config.id X) peer }

/-- `this.handlers.get(to)?.(msg)`: the bus afterwards, and what the handler threw. -/
def deliver (entropy : Bytes → Bytes) (receiver : String) (msg : GossipMessage)
    (bus : GossipBus) : GossipBus × Option JsError :=
  match bus.handlers.get? receiver with
  | none => (bus, none)
  | some peer =>
    let handled := onMessage X peer.config entropy msg peer.node
    let sent := handled.1.sent.drop peer.node.sent.length
    (sent.foldl (broadcast (peer.config.id X))
      { bus with handlers := bus.handlers.set receiver { peer with node := handled.1 } }, handled.2)

/-- `node.proposeIfLeader(..)` on a registered node: the bus with what the node broadcasts, and what
the call returns or throws. -/
def propose (entropy : Bytes → Bytes) (proposer payloadRoot : String) (timestamp : JsNum)
    (bus : GossipBus) : GossipBus × Except JsError (Option Block) :=
  match bus.handlers.get? proposer with
  | none => (bus, .ok none)
  | some peer =>
    let proposed := proposeIfLeader X peer.config entropy payloadRoot timestamp peer.node
    let sent := proposed.1.sent.drop peer.node.sent.length
    (sent.foldl (broadcast (peer.config.id X)) { bus with
      handlers := bus.handlers.set proposer { peer with node := proposed.1 } }, proposed.2)

/-- The loop of `run`, for at most the given number of further deliveries; `n` counts them. -/
def runFrom (entropy : ℕ → Bytes → Bytes) : ℕ → ℕ → GossipBus → GossipBus × BusOutcome
  | 0, n, bus =>
    match bus.queue with
    | [] => (bus, .quiescent n)
    | _ :: _ => (bus, .capped)
  | cap + 1, n, bus =>
    match bus.queue with
    | [] => (bus, .quiescent n)
    | (receiver, msg) :: queue =>
      match deliver X (entropy n) receiver msg { bus with queue := queue } with
      | (bus', some e) => (bus', .threw e)
      | (bus', none) => runFrom entropy cap (n + 1) { bus' with delivered := bus'.delivered + 1 }

def run (entropy : ℕ → Bytes → Bytes) (maxDeliveries : ℕ) (bus : GossipBus) :
    GossipBus × BusOutcome :=
  runFrom X entropy maxDeliveries 0 bus

end GossipBus

end Nerion
