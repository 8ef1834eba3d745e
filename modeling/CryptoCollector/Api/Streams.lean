import CryptoCollector.Db.BatchedUpserts
import CryptoCollector.Foundations.Broadcast
import CryptoCollector.Foundations.Runs

/-!
# Live streams

A write that commits its rows with `pg_notify` appends to a feed the database keeps in commit
order. On every replica a relay listens to the feed and sends each notification to a broadcast
channel, from which the WebSocket clients of that replica are served. A relay that lost its
session hears nothing until it listens again, a channel without receivers keeps nothing, and
a client that falls behind the channel loses the oldest messages. A notification stands for
its payload, the JSON text of what was written.
-/

namespace CryptoCollector.Api
open Foundations Models Db

/-- The capacity of `coin_quote_tx` and `coin_candle_tx`. -/
def broadcastCapacity : ℕ := 256

/-- A store whose writes are notified: the store after a committed write, and what the same
transaction notified. -/
structure NotifyingStore (S W M : Type*) where
  init : S
  commit : S → W → Option (S × List M)

/-- `run_listener`: whether its session is up, how many notifications went by, how many of
them while no session was up, and whether it saw the shutdown. -/
structure Relay where
  listening : Bool
  position : ℕ
  missed : ℕ
  stopped : Bool
  deriving DecidableEq, Repr

/-- `handle_stream`: its receiver and the texts it sent, with what the receiver was told it
lost, and where channel and relay stood when it subscribed. -/
structure StreamClient (M : Type*) where
  next : ℕ
  delivered : List M
  lagged : ℕ
  isOpen : Bool
  sentBefore : ℕ
  positionBefore : ℕ
  missedBefore : ℕ
  deriving DecidableEq, Repr

/-- A replica: its relay, the messages its channel was sent, oldest first, and its clients. -/
structure StreamReplica (M : Type*) where
  relay : Relay
  sent : List M
  clients : List (StreamClient M)
  deriving DecidableEq, Repr

def StreamReplica.new {M : Type*} : StreamReplica M := ⟨⟨false, 0, 0, false⟩, [], []⟩

/-- What happens on a replica; clients are numbered in the order they subscribed. -/
inductive ReplicaAction where
  | listen
  | connectionLost
  | relay
  | stopRelay
  | subscribe
  | forward (client : ℕ) (sendOk : Bool)
  | hangUp (client : ℕ)
  deriving DecidableEq, Repr

section Replica

variable {M : Type*}

/-- `tx.send`, which keeps nothing when nobody receives. -/
def broadcastSend (rep : StreamReplica M) (payload : M) : List M :=
  if rep.clients.any StreamClient.isOpen then rep.sent ++ [payload] else rep.sent

/-- The arm of `rx.recv()`. -/
def StreamClient.forward (capacity : ℕ) (sent : List M) (sendOk : Bool) (client : StreamClient M) :
    Option (StreamClient M) :=
  match receive capacity sent client.next with
  | (.message payload, next) =>
    if sendOk then some { client with next := next, delivered := client.delivered ++ [payload] }
    else some { client with isOpen := false }
  | (.lagged n, next) => some { client with next := next, lagged := client.lagged + n }
  | (.empty, _) => none

/-- A step of an open client. -/
def StreamReplica.onClient (rep : StreamReplica M) (i : ℕ)
    (f : StreamClient M → Option (StreamClient M)) : Option (StreamReplica M) :=
  rep.clients[i]?.bind fun client =>
    if client.isOpen then
      (f client).map fun client' => { rep with clients := rep.clients.set i client' }
    else none

/-- One step of a replica; `none` when it is not enabled. -/
def StreamReplica.step (feed : List M) (rep : StreamReplica M) :
    ReplicaAction → Option (StreamReplica M)
  | .listen =>
    if rep.relay.listening ∨ rep.relay.stopped then none
    else some { rep with relay := { rep.relay with
      listening := true
      position := feed.length
      missed := rep.relay.missed + (feed.length - rep.relay.position) } }
  | .connectionLost =>
    if rep.relay.listening then some { rep with relay := { rep.relay with listening := false } }
    else none
  | .relay =>
    if rep.relay.listening then
      feed[rep.relay.position]?.map fun payload =>
        { rep with
          relay := { rep.relay with position := rep.relay.position + 1 }
          sent := broadcastSend rep payload }
    else
      none
  | .stopRelay => some { rep with relay := { rep.relay with listening := false, stopped := true } }
  | .subscribe =>
    some { rep with clients := rep.clients ++
      [⟨rep.sent.length, [], 0, true, rep.sent.length, rep.relay.position, rep.relay.missed⟩] }
  | .forward i sendOk => rep.onClient i (StreamClient.forward broadcastCapacity rep.sent sendOk)
  | .hangUp i => rep.onClient i fun client => some { client with isOpen := false }

end Replica

/-- The store, its feed in commit order, and the replicas. -/
structure StreamSystem (ι S M : Type*) where
  store : S
  feed : List M
  replicas : ι → StreamReplica M

/-- A write commits, or a replica goes on. -/
inductive StreamAction (ι W : Type*) where
  | write (w : W)
  | on (r : ι) (a : ReplicaAction)
  deriving DecidableEq, Repr

variable {ι S W M : Type*} [DecidableEq ι]

def StreamSystem.start (N : NotifyingStore S W M) : StreamSystem ι S M :=
  ⟨N.init, [], fun _ => .new⟩

def StreamSystem.step (N : NotifyingStore S W M) (s : StreamSystem ι S M) :
    StreamAction ι W → Option (StreamSystem ι S M)
  | .write w => (N.commit s.store w).map fun (store, payloads) =>
      { s with store := store, feed := s.feed ++ payloads }
  | .on r a => ((s.replicas r).step s.feed a).map fun rep =>
      { s with replicas := Function.update s.replicas r rep }

end CryptoCollector.Api
