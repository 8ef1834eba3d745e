import CryptoCollector.Api.CoinRegistry

/-!
# The statements of the coin endpoints

Requests, refreshes and workers share the database, each on a connection of its own, and
their statements interleave, and a connection may break at any of them. A registration is a
transaction of several statements: what it has inserted is seen by no one before its commit,
but makes others wait who would insert the same.
-/

namespace CryptoCollector.Api
open Models Foundations Collectors

/-- What a connection is in the middle of. A registration has the row it inserted, the
kinds still to enqueue, and its items so far with their ids. -/
inductive SessionPhase where
  | registering (req : RegisterCoinRequest) (coin : TrackedCoin) (kinds : List String)
      (queued : List (String × ℤ))
  | reselecting (req : RegisterCoinRequest)
  | unpaused (coinId : String)
  | refreshing (items : List QueueColumns)
  deriving DecidableEq, Repr

def SessionPhase.coin : SessionPhase → Option String
  | .registering req _ _ _ => some req.coinId
  | .reselecting _ | .unpaused _ | .refreshing _ => none

def SessionPhase.items : SessionPhase → List QueueColumns
  | .registering req _ _ queued => queued.map fun item => coinItem req.coinId item.1
  | .reselecting _ | .unpaused _ | .refreshing _ => []

def SessionPhase.ids : SessionPhase → List ℤ
  | .registering _ _ _ queued => queued.map Prod.snd
  | .reselecting _ | .unpaused _ | .refreshing _ => []

def SessionPhase.request : SessionPhase → Option CoinRequest
  | .registering req _ _ _ | .reselecting req => some (.register req)
  | .unpaused coinId => some (.delete coinId)
  | .refreshing _ => none

/-- The committed tables, the next id of the queue's sequence, and the connections in the
middle of something. -/
structure RegistrySystem (C W : Type*) where
  committed : Registry W
  nextId : ℤ
  sessions : KeyedTable (Prod.fst : C × SessionPhase → C)

/-- A statement, or its failure: of the first one of a request, or of a later one with the
connection. -/
inductive StatementAction (C W : Type*) where
  | begin (c : C) (request : CoinRequest) (now : ℤ) (reply : Reply)
  | next (c : C) (now : ℤ) (reply : Reply)
  | fail (request : CoinRequest) (reply : Reply)
  | lose (c : C) (reply : Reply)
  | refresh (c : C) (overlayCoin : String)
  | skip (c : C)
  | rollup (self : W) (now : ℤ)
  | collect (coinId : String) (now : ℤ)
  | lease (a : LeaseAction W QueueColumns)
  deriving DecidableEq, Repr

namespace RegistrySystem

variable {C W : Type*} [DecidableEq C]

def empty : RegistrySystem C W := ⟨.empty, 1, .empty⟩

def phase (s : RegistrySystem C W) (c : C) : Option SessionPhase :=
  (s.sessions.lookup c).map Prod.snd

/-- Some connection has inserted the coin and not committed. -/
def holdsCoin (s : RegistrySystem C W) (coinId : String) : Prop :=
  ∃ session ∈ s.sessions.rows, session.2.coin = some coinId

instance (s : RegistrySystem C W) (coinId : String) : Decidable (s.holdsCoin coinId) :=
  inferInstanceAs (Decidable (∃ session ∈ s.sessions.rows, _))

/-- A connection other than `c` has inserted the item and not committed. -/
def holdsItem (s : RegistrySystem C W) (c : Option C) (item : QueueColumns) : Prop :=
  ∃ session ∈ s.sessions.rows, some session.1 ≠ c ∧ item ∈ session.2.items

instance (s : RegistrySystem C W) (c : Option C) (item : QueueColumns) :
    Decidable (s.holdsItem c item) :=
  inferInstanceAs (Decidable (∃ session ∈ s.sessions.rows, _))

def goOn (s : RegistrySystem C W) (c : C) (p : SessionPhase) : RegistrySystem C W :=
  { s with sessions := s.sessions.upsert (fun _ => true) (c, p) }

def close (s : RegistrySystem C W) (c : C) : RegistrySystem C W :=
  { s with sessions := s.sessions.erase fun session => session.1 = c }

/-- `nextval`. -/
def bump (s : RegistrySystem C W) : RegistrySystem C W := { s with nextId := s.nextId + 1 }

def recommit (s : RegistrySystem C W) (r : Registry W) : RegistrySystem C W :=
  { s with committed := r }

/-- The rows a registration commits, newest first. -/
def queuedRows (coin : TrackedCoin) (queued : List (String × ℤ)) : List (QueueRow W) :=
  (queued.map fun item => newRow item.2 coin.registeredAt (coinItem coin.coinId item.1)).reverse

def commitCoin (r : Registry W) (req : RegisterCoinRequest) (coin : TrackedCoin)
    (queued : List (String × ℤ)) (reply : Reply) : Registry W :=
  r.insertedBy req coin { r.queue with table := queuedRows coin queued ++ r.queue.table } reply

/-- The answer of a registration that met a conflict. -/
def answerExisting (r : Registry W) (req : RegisterCoinRequest) (reply : Reply) : Registry W :=
  match r.coins.lookup req.coinId with
  | none => r.answer reply (.register req) (.failed .internal)
  | some coin => r.answer reply (.register req) (.ok (CoinDto.ofTrackedCoin coin))

/-- The connection breaks, or its handler is dropped: what is uncommitted is gone, and a
request is answered 500. -/
def breakOff (s : RegistrySystem C W) (c : C) (reply : Reply) (p : SessionPhase) :
    RegistrySystem C W :=
  match p.request with
  | none => s.close c
  | some request =>
    (s.close c).recommit (s.committed.answer reply request (.failed .internal))

/-- The items of `enqueue_periodic_refresh`. -/
def refreshItems (coins : TrackedCoinTable) (overlayCoin : String) : List QueueColumns :=
  ((coins.rows.filter fun coin => coin.status = "active").flatMap fun coin =>
    refreshKinds.map (coinItem coin.coinId)) ++ [coinItem overlayCoin overlayKind]

variable [DecidableEq W]

/-- `ENQUEUE_QUEUE_SQL` outside a transaction. It waits for an uncommitted insert of the
same item. -/
def enqueueCommitted (s : RegistrySystem C W) (item : QueueColumns) (now : ℤ) :
    Option (RegistrySystem C W) :=
  if s.holdsItem none item then
    none
  else
    (enqueueQueue s.committed.queue item s.nextId now).map fun queue =>
      s.bump.recommit { s.committed with queue := queue }

/-- A live row of the item, committed or of the transaction itself. -/
def absorbs (s : RegistrySystem C W) (queued : List (String × ℤ)) (coinId kind : String) : Prop :=
  (∃ row ∈ s.committed.queue.table, row.status.live ∧ row.payload = coinItem coinId kind) ∨
    kind ∈ queued.map Prod.fst

instance (s : RegistrySystem C W) (queued : List (String × ℤ)) (coinId kind : String) :
    Decidable (s.absorbs queued coinId kind) :=
  inferInstanceAs (Decidable ((∃ row ∈ s.committed.queue.table, _) ∨ _))

variable (bounds : PollBounds) (column : IntervalColumn)

/-- The first statement of a request. An insert waits for an uncommitted one of the same
coin. -/
def beginRequest (s : RegistrySystem C W) (c : C) (now : ℤ) (reply : Reply) :
    CoinRequest → Option (RegistrySystem C W)
  | .register req =>
    match admitCoin bounds column req with
    | .error e =>
      some (s.recommit (s.committed.answer reply.unbroken (.register req) (.failed e)))
    | .ok interval =>
      if s.holdsCoin req.coinId then none
      else if s.committed.tracks req.coinId then some (s.goOn c (.reselecting req))
      else some (s.goOn c (.registering req (registeredCoin req interval now) initialKinds []))
  | .update coinId req =>
    (registryStep bounds column s.committed (.update coinId req reply)).map s.recommit
  | .get coinId => (registryStep bounds column s.committed (.get coinId reply)).map s.recommit
  | .delete coinId =>
    match registryStep bounds column s.committed (.pause coinId reply) with
    | some r => some (s.recommit r)
    | none => some (s.goOn c (.unpaused coinId))

/-- The next statement of a connection. -/
def nextStatement (s : RegistrySystem C W) (c : C) (now : ℤ) (reply : Reply) :
    SessionPhase → Option (RegistrySystem C W)
  | .registering req coin [] queued =>
    some ((s.close c).recommit (commitCoin s.committed req coin queued reply))
  | .registering req coin (kind :: kinds) queued =>
    if s.holdsItem (some c) (coinItem req.coinId kind) then none
    else if s.absorbs queued req.coinId kind then
      some (s.bump.goOn c (.registering req coin kinds queued))
    else some (s.bump.goOn c (.registering req coin kinds (queued ++ [(kind, s.nextId)])))
  | .reselecting req => some ((s.close c).recommit (answerExisting s.committed req reply))
  | .unpaused coinId =>
    some ((s.close c).recommit (s.committed.answer reply (.delete coinId)
      (answerUnpaused s.committed.coins coinId)))
  | .refreshing [] => some (s.close c)
  | .refreshing (item :: items) => (s.enqueueCommitted item now).map fun t =>
      t.goOn c (.refreshing items)

/-- The rollup of the candles item a queue worker has. -/
def rollupItem (s : RegistrySystem C W) (self : W) : Option QueueColumns :=
  (s.committed.queue.holding self).bind fun claim =>
    (s.committed.queue.table.find? fun row => row.id = claim.id).bind fun row =>
      if row.payload.targetKind = "coin" ∧ row.payload.kind = "candles" then
        some (coinItem row.payload.targetId "rollup")
      else
        none

/-- One statement; `none` when it cannot run now. -/
def step (s : RegistrySystem C W) : StatementAction C W → Option (RegistrySystem C W)
  | .begin c request now reply =>
    if s.phase c = none then s.beginRequest bounds column c now reply request else none
  | .next c now reply => (s.phase c).bind (s.nextStatement c now reply)
  | .fail request reply =>
    (registryStep bounds column s.committed (.fail request reply)).map s.recommit
  | .lose c reply => (s.phase c).map (s.breakOff c reply)
  | .refresh c overlayCoin =>
    if s.phase c = none then
      some (s.goOn c (.refreshing (refreshItems s.committed.coins overlayCoin)))
    else
      none
  | .skip c =>
    match s.phase c with
    | some (.refreshing (_ :: items)) => some (s.goOn c (.refreshing items))
    | _ => none
  | .rollup self now => (s.rollupItem self).bind fun item => s.enqueueCommitted item now
  | .collect coinId now =>
    (registryStep bounds column s.committed (.collect coinId now)).map s.recommit
  | .lease a => (registryStep bounds column s.committed (.lease a)).map s.recommit

end RegistrySystem
end CryptoCollector.Api
