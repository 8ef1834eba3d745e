import CryptoCollector.Providers.ChainWorld

/-!
# Paced requests

Every request of a provider goes through `paced`: take a slot of the provider's
pacer row, then call. The statements of one replica are interleaved with those
of the others; what happened at the rows before each of its statements, the
clocks it reads and the error the database may answer with are a `Turn`. Slots,
requests, pokes at the registry and whatever went wrong are on record, newest
first. A replica's own throttle and the wait for the slot only take time and are
left out.
-/

namespace CryptoCollector.Providers
open Pacer

/-- Around one statement: the statements of other replicas before it, the clock of
the database and of the replica, and the error the database answers with. -/
structure Turn where
  others : List (String × PacerStatement)
  now : ℤ
  replicaNow : ℤ
  fault : Option String
  deriving DecidableEq, Repr

/-- What a replica meets outside itself, and its configuration: `pacer_cooldown_ms`
of each provider and whether a registry is wired. -/
structure Net where
  turns : ℕ → Turn
  cooldownMs : String → UInt64
  registered : Bool

/-- No other replica, no fault, a registry wired. -/
def Net.calm : Net := ⟨fun _ => ⟨[], 0, 0, none⟩, fun _ => 60000, true⟩

/-- The three places a slot is acquired at. -/
inductive AcquirePoint where
  | worker
  | pace
  | paced
  deriving DecidableEq, Repr

/-- What stood in the way of a piece of work. -/
inductive Obstacle where
  | slot (e : AcquireSlotError)
  | provider (e : ProviderError)
  | own (message : String)
  deriving DecidableEq, Repr

/-- What happened, for the record. A slot is recorded with the credits it cost. -/
inductive EgressEvent where
  | slot (point : AcquirePoint) (provider : String) (credits : ℤ)
  | request (provider : String)
  | poke (evidence : HealthPoke)
  | enqueued (targetKind targetId kind : String)
  | met (obstacle : Obstacle)
  deriving DecidableEq, Repr

/-- The pacer rows by provider, the number of turns taken, and the record. -/
structure Fleet where
  rows : String → Option PacerRow
  turn : ℕ
  log : List EgressEvent

def Fleet.start (rows : String → Option PacerRow) : Fleet := ⟨rows, 0, []⟩

/-- The rows the migrations seed, at the instant they run and with the start of
its month. -/
def seededRows (now monthStart : ℤ) (provider : String) : Option PacerRow :=
  match provider with
  | "coingecko" => some ⟨now, 2000, none, monthStart, 0, some 10000⟩
  | "binance" => some ⟨now, 100, none, monthStart, 0, none⟩
  | "coinbase" => some ⟨now, 500, none, monthStart, 0, none⟩
  | "kraken" => some ⟨now, 500, none, monthStart, 0, none⟩
  | "bitstamp" => some ⟨now, 500, none, monthStart, 0, none⟩
  | _ => none

def setPacerRow (row : PacerRow) : PacerStatement → PacerRow
  | .reset now => resetCreditWindowIfNeeded row now
  | .reserve now => (reserveSlot row now).getD row
  | .signal _ replicaNow cooldownMs => signalCooldown row replicaNow cooldownMs

/-- Another replica's statement; without a row it does nothing. -/
def otherReplica (rows : String → Option PacerRow) (statement : String × PacerStatement) :
    String → Option PacerRow :=
  Function.update rows statement.1 ((rows statement.1).map (setPacerRow · statement.2))

namespace Fleet

/-- The next turn: the others go first. -/
def await (net : Net) (s : Fleet) : Fleet :=
  { s with
    rows := (net.turns s.turn).others.foldl otherReplica s.rows
    turn := s.turn + 1 }

def record (event : EgressEvent) (s : Fleet) : Fleet := { s with log := event :: s.log }

def updateRow (provider : String) (f : PacerRow → PacerRow) (s : Fleet) : Fleet :=
  { s with rows := Function.update s.rows provider ((s.rows provider).map f) }

@[simp] theorem await_log (net : Net) (s : Fleet) : (s.await net).log = s.log := rfl

@[simp] theorem record_log (event : EgressEvent) (s : Fleet) :
    (s.record event).log = event :: s.log := rfl

@[simp] theorem updateRow_log (provider : String) (f : PacerRow → PacerRow) (s : Fleet) :
    (s.updateRow provider f).log = s.log := rfl

end Fleet

def refuseSlot (e : AcquireSlotError) (s : Fleet) : Except AcquireSlotError Unit × Fleet :=
  (.error e, s.record (.met (.slot e)))

/-- The columns the diagnostic re-read of `acquire_slot` selects. -/
def diagnosed (row : PacerRow) : Option ℤ × Option ℤ × ℤ :=
  (row.cooldownUntil, row.creditLimit, row.creditsUsed)

/-- `acquire_slot`: the window reset, the reservation, and for a refused one the
re-read that says why. -/
def acquireSlot (net : Net) (point : AcquirePoint) (provider : String) (s : Fleet) :
    Except AcquireSlotError Unit × Fleet :=
  let reset := net.turns s.turn
  let s := s.await net
  match reset.fault with
  | some e => refuseSlot (.db e) s
  | none =>
    let s := s.updateRow provider (resetCreditWindowIfNeeded · reset.now)
    let reserve := net.turns s.turn
    let s := s.await net
    match reserve.fault with
    | some e => refuseSlot (.db e) s
    | none =>
      let before := s.rows provider
      match before.bind (reserveSlot · reserve.now) with
      | some row =>
        let credits := row.creditsUsed - (before.map PacerRow.creditsUsed).getD 0
        (.ok (), (s.updateRow provider fun _ => row).record (.slot point provider credits))
      | none =>
        let reread := net.turns s.turn
        let s := s.await net
        match reread.fault with
        | some e => refuseSlot (.db e) s
        | none =>
          refuseSlot (classifyBlocked provider ((s.rows provider).map diagnosed)
            reread.replicaNow) s

/-- `signal_cooldown`, as `paced` calls it: an error is dropped. -/
def signal (net : Net) (provider : String) (s : Fleet) : Fleet :=
  let turn := net.turns s.turn
  let s := s.await net
  match turn.fault with
  | some _ => s
  | none => s.updateRow provider (signalCooldown · turn.replicaNow (net.cooldownMs provider))

variable {T : Type*}

/-- `paced`: a slot, then the call; what the call answers depends on when it is made. -/
def paced (net : Net) (provider : String) (call : ℕ → Except ProviderError T) (s : Fleet) :
    Except ProviderError T × Fleet :=
  match acquireSlot net .paced provider s with
  | (.error e, s) => (.error (.pacer e), s)
  | (.ok (), s) =>
    match call s.turn, s.record (.request provider) with
    | .ok answer, s => (.ok answer, s)
    | .error .rateLimited, s =>
      (.error .rateLimited, signal net provider (s.record (.met (.provider .rateLimited))))
    | .error e, s => (.error e, s.record (.met (.provider e)))

/-- An endpoint of an adapter: what it checks before it asks anyone, and what its
call answers once the response is decoded. -/
structure Endpoint (T : Type*) where
  precheck : Except ProviderError Unit
  call : ℕ → Except ProviderError T

def Endpoint.fetch (net : Net) (provider : String) (endpoint : Endpoint T) (s : Fleet) :
    Except ProviderError T × Fleet :=
  match endpoint.precheck with
  | .error e => (.error e, s.record (.met (.provider e)))
  | .ok () => paced net provider endpoint.call s

def pokeRegistry (net : Net) (evidence : HealthPoke) (s : Fleet) : Fleet :=
  if net.registered then s.record (.poke evidence) else s

/-- A statement sets the row as a step of the pacer does. -/
theorem setPacerRow_of_step {s t : PacerState} {statement : PacerStatement}
    (h : step s statement = some t) : t.row = setPacerRow s.row statement := by
  cases statement with
  | reset now =>
    simp only [step] at h
    split_ifs at h <;> obtain rfl := Option.some.inj h <;> rfl
  | reserve now =>
    simp only [step] at h
    split_ifs at h
    cases hrow : reserveSlot s.row now with
    | none =>
      simp only [hrow] at h
      obtain rfl := Option.some.inj h
      simp [setPacerRow, hrow]
    | some row =>
      simp only [hrow] at h
      obtain rfl := Option.some.inj h
      simp [setPacerRow, hrow]
  | signal now replicaNow cooldownMs =>
    simp only [step] at h
    split_ifs at h
    obtain rfl := Option.some.inj h
    rfl

theorem refuseSlot_eq (e : AcquireSlotError) (s : Fleet) :
    ∃ e' t, refuseSlot e s = (.error e', t) ∧ t.log = .met (.slot e') :: s.log :=
  ⟨e, s.record (.met (.slot e)), rfl, rfl⟩

theorem acquireSlot_cases (net : Net) (point : AcquirePoint) (provider : String) (s : Fleet) :
    (∃ t, acquireSlot net point provider s = (.ok (), t) ∧
        t.log = .slot point provider 1 :: s.log) ∨
      ∃ e t, acquireSlot net point provider s = (.error e, t) ∧
        t.log = .met (.slot e) :: s.log := by
  simp only [acquireSlot]
  split
  · exact Or.inr (refuseSlot_eq _ _)
  · split
    · exact Or.inr (refuseSlot_eq _ _)
    · split
      · rename_i row hrow
        obtain ⟨before, hbefore, hreserve⟩ := Option.bind_eq_some_iff.mp hrow
        obtain ⟨-, rfl⟩ := reserveSlot_eq_some hreserve
        refine Or.inl ⟨_, rfl, ?_⟩
        simp [hbefore]
      · split <;> exact Or.inr (refuseSlot_eq _ _)

@[simp] theorem signal_log (net : Net) (provider : String) (s : Fleet) :
    (signal net provider s).log = s.log := by
  simp only [signal]
  split <;> rfl

/-- Everything one use of an endpoint can do. -/
inductive EndpointUse (net : Net) (provider : String) (endpoint : Endpoint T) (s : Fleet) :
    Except ProviderError T → Fleet → Prop where
  | unasked (e : ProviderError) (hcheck : endpoint.precheck = .error e) :
      EndpointUse net provider endpoint s (.error e) (s.record (.met (.provider e)))
  | refused (e : AcquireSlotError) (t : Fleet)
      (hslot : acquireSlot net .paced provider s = (.error e, t))
      (hlog : t.log = .met (.slot e) :: s.log) :
      EndpointUse net provider endpoint s (.error (.pacer e)) t
  | served (answer : T) (t : Fleet) (hslot : acquireSlot net .paced provider s = (.ok (), t))
      (hlog : t.log = .slot .paced provider 1 :: s.log)
      (hcall : endpoint.call t.turn = .ok answer) :
      EndpointUse net provider endpoint s (.ok answer) (t.record (.request provider))
  | failed (e : ProviderError) (t : Fleet)
      (hlog : t.log = .met (.provider e) :: .request provider :: .slot .paced provider 1 :: s.log) :
      EndpointUse net provider endpoint s (.error e) t

theorem Endpoint.fetch_use (net : Net) (provider : String) (endpoint : Endpoint T) (s : Fleet) :
    EndpointUse net provider endpoint s (endpoint.fetch net provider s).1
      (endpoint.fetch net provider s).2 := by
  unfold Endpoint.fetch
  cases hcheck : endpoint.precheck with
  | error e => exact .unasked e hcheck
  | ok checked =>
    cases checked
    simp only [paced]
    rcases acquireSlot_cases net .paced provider s with ⟨t, hslot, hlog⟩ | ⟨e, t, hslot, hlog⟩
    · simp only [hslot]
      cases hcall : endpoint.call t.turn with
      | ok answer => exact .served answer t hslot hlog hcall
      | error e => cases e <;> exact .failed _ _ (by simp [hlog])
    · simp only [hslot]
      exact .refused e t hslot hlog

end CryptoCollector.Providers
