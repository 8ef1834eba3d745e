import CryptoCollector.Foundations.Runs
import CryptoCollector.Foundations.Tables
import CryptoCollector.Providers.Chain
import Mathlib.Order.WithBot

/-!
# The live poller

Every replica polls the tracked coins for spot quotes. A cycle claims a batch of
due coins in one statement, by a marker that expires on its own, and then ends
each claim with one statement that depends on how the poll went. None of these
names the replica that holds the claim, and the API writes the same columns.
-/

namespace CryptoCollector.Collectors
open Foundations Providers DateTime

inductive CoinStatus where
  | active
  | paused
  | error
  deriving DecidableEq, Repr

/-- The columns of `tracked_coins` the poller reads or writes. Intervals are in
seconds. -/
structure TrackedCoin where
  coinId : String
  symbol : String
  status : CoinStatus
  livePollInterval : Option ℤ
  lastPolledAt : Option ℤ
  lastCollectedAt : Option ℤ
  livePollClaimedUntil : Option ℤ
  deriving DecidableEq, Repr

/-- The arguments of a claim, with the instant it runs at and the rows that are
locked by others. -/
structure ClaimDueCoins where
  now : ℤ
  globalIntervalSecs : ℤ
  claimTtlSecs : ℤ
  batchLimit : ℕ
  locked : List String
  deriving DecidableEq, Repr

namespace TrackedCoin

/-- `last_polled_at IS NULL OR last_polled_at + cadence <= now()`. -/
def due (globalIntervalSecs now : ℤ) (coin : TrackedCoin) : Prop :=
  ∀ polled ∈ coin.lastPolledAt,
    polled + seconds (coin.livePollInterval.getD globalIntervalSecs) ≤ now

/-- `live_poll_claimed_until IS NULL OR live_poll_claimed_until <= now()`. -/
def notInFlight (now : ℤ) (coin : TrackedCoin) : Prop :=
  ∀ expiry ∈ coin.livePollClaimedUntil, expiry ≤ now

/-- The `WHERE` of `LIVE_COIN_CLAIM_SQL`. -/
def claimable (claim : ClaimDueCoins) (coin : TrackedCoin) : Prop :=
  coin.status = .active ∧ coin.due claim.globalIntervalSecs claim.now ∧
    coin.notInFlight claim.now

instance (claim : ClaimDueCoins) (coin : TrackedCoin) : Decidable (coin.claimable claim) :=
  inferInstanceAs (Decidable (_ ∧ (∀ polled ∈ coin.lastPolledAt, _) ∧
    ∀ expiry ∈ coin.livePollClaimedUntil, _))

/-- The place of a coin in `ORDER BY last_polled_at ASC NULLS FIRST`. -/
def rank (coin : TrackedCoin) : WithBot ℤ := coin.lastPolledAt

/-- The `SET` of `LIVE_COIN_CLAIM_SQL`. -/
def claimFor (claim : ClaimDueCoins) (coin : TrackedCoin) : TrackedCoin :=
  { coin with livePollClaimedUntil := some (claim.now + seconds claim.claimTtlSecs) }

end TrackedCoin

/-- The rows a claim may pick: `FOR UPDATE SKIP LOCKED`. -/
def claimableBy (claim : ClaimDueCoins) (coin : TrackedCoin) : Prop :=
  coin.claimable claim ∧ coin.coinId ∉ claim.locked

instance (claim : ClaimDueCoins) (coin : TrackedCoin) : Decidable (claimableBy claim coin) :=
  inferInstanceAs (Decidable (_ ∧ _))

/-- The coins a claim may return: at most `LIMIT` many, and one is left out only
for coins that are not behind it. Ties are broken in any way. -/
def ClaimBatch (coins : List TrackedCoin) (claim : ClaimDueCoins) (batch : List String) : Prop :=
  batch.Nodup ∧ batch.length ≤ claim.batchLimit ∧
    (∀ id ∈ batch, ∃ coin ∈ coins, coin.coinId = id ∧ claimableBy claim coin) ∧
    ∀ coin ∈ coins, claimableBy claim coin → coin.coinId ∉ batch →
      batch.length = claim.batchLimit ∧
        ∀ picked ∈ coins, picked.coinId ∈ batch → picked.rank ≤ coin.rank

instance (coins : List TrackedCoin) (claim : ClaimDueCoins) (batch : List String) :
    Decidable (ClaimBatch coins claim batch) :=
  inferInstanceAs (Decidable (_ ∧ _ ∧ (∀ id ∈ batch, _) ∧ ∀ coin ∈ coins, _))

/-- What a cycle does about one coin after the poll. -/
inductive PollWrite where
  | success
  | failureClear
  | defer (widenedIntervalSecs : ℤ)
  deriving DecidableEq, Repr

/-- The arms of `poll_cycle`: what the chain answered, and whether the quote of a
success could be stored. -/
def pollWrite {Quote : Type*} (livePollMaxIntervalSecs : ℤ) (upserted : Bool) :
    Except ProviderError Quote → PollWrite
  | .ok _ => if upserted then .success else .failureClear
  | .error (.noCapableProvider _) => .defer livePollMaxIntervalSecs
  | .error (.pacer _) => .failureClear
  | .error e => if e.isTransient then .failureClear else .defer livePollMaxIntervalSecs

/-- `LIVE_COIN_SUCCESS_SQL`, `LIVE_COIN_FAILURE_CLEAR_SQL` and `LIVE_COIN_DEFER_SQL`. -/
def PollWrite.set (now : ℤ) (coin : TrackedCoin) : PollWrite → TrackedCoin
  | .success =>
    { coin with
      lastPolledAt := some now
      lastCollectedAt := some now
      livePollClaimedUntil := none }
  | .failureClear => { coin with livePollClaimedUntil := none }
  | .defer widenedIntervalSecs =>
    { coin with livePollClaimedUntil := some (now + seconds widenedIntervalSecs) }

/-- The body of `PATCH /v1/coins/{coin_id}`: the interval is absent, null or given. -/
structure UpdateCoinRequest where
  status : Option CoinStatus
  livePollInterval : Option (Option ℤ)
  deriving DecidableEq, Repr

/-- `UPDATE_TRACKED_COIN_STATUS_SQL`, `.._RESET_INTERVAL_SQL` and `.._SET_INTERVAL_SQL`. -/
def UpdateCoinRequest.set (req : UpdateCoinRequest) (coin : TrackedCoin) : TrackedCoin :=
  match req.livePollInterval with
  | none => { coin with status := req.status.getD coin.status }
  | some interval =>
    { coin with
      status := req.status.getD coin.status
      livePollInterval := interval
      lastPolledAt := none
      livePollClaimedUntil := none }

/-- The `SET` of `delete_coin`. -/
def pauseCoin (coin : TrackedCoin) : TrackedCoin := { coin with status := .paused }

/-- The row `INSERT_TRACKED_COIN_SQL` inserts. -/
def registeredCoin (coinId symbol : String) (interval : Option ℤ) : TrackedCoin :=
  ⟨coinId, symbol, .active, interval, none, none, none⟩

/-- A claim a replica took, and when its marker expires. -/
structure HeldClaim (R : Type*) where
  replica : R
  coinId : String
  expiry : ℤ
  deriving DecidableEq, Repr

/-- The coins, the clock of the database, and the claims whose replica has not
written how the poll went. -/
structure PollState (R : Type*) where
  coins : List TrackedCoin
  clock : ℤ
  held : List (HeldClaim R)

/-- A statement on `tracked_coins`. A replica that has crashed, or whose statement
failed, issues none. -/
inductive PollAction (R : Type*) where
  | claim (replica : R) (claim : ClaimDueCoins) (batch : List String)
  | finish (replica : R) (coinId : String) (now : ℤ) (write : PollWrite)
  | register (now : ℤ) (coinId symbol : String) (interval : Option ℤ)
  | update (now : ℤ) (coinId : String) (req : UpdateCoinRequest)
  | delete (now : ℤ) (coinId : String)
  deriving DecidableEq, Repr

def PollAction.now {R : Type*} : PollAction R → ℤ
  | .claim _ args _ => args.now
  | .finish _ _ now _ => now
  | .register now _ _ _ => now
  | .update now _ _ => now
  | .delete now _ => now

def PollAction.claimed {R : Type*} : PollAction R → List String
  | .claim _ _ batch => batch
  | _ => []

section Step

variable {R : Type*} [DecidableEq R]

def claimCoins (s : PollState R) (replica : R) (claim : ClaimDueCoins) (batch : List String) :
    PollState R where
  coins := updateWhere (fun coin => coin.coinId ∈ batch) (TrackedCoin.claimFor claim) s.coins
  clock := claim.now
  held := batch.map (fun id => ⟨replica, id, claim.now + seconds claim.claimTtlSecs⟩) ++ s.held

/-- The end of the claims `replica` has on a coin. -/
def finishCoin (s : PollState R) (replica : R) (coinId : String) (now : ℤ) (write : PollWrite) :
    PollState R where
  coins := updateWhere (fun coin => coin.coinId = coinId) (fun coin => write.set now coin) s.coins
  clock := now
  held := s.held.filter fun h => ¬(h.replica = replica ∧ h.coinId = coinId)

def updateCoin (s : PollState R) (coinId : String) (now : ℤ) (set : TrackedCoin → TrackedCoin) :
    PollState R :=
  { s with
    coins := updateWhere (fun coin => coin.coinId = coinId) set s.coins
    clock := now }

/-- One statement; `none` when it cannot be issued. The clock does not run back. -/
def pollStep (s : PollState R) (a : PollAction R) : Option (PollState R) :=
  if s.clock ≤ a.now then
    match a with
    | .claim replica claim batch =>
      if ClaimBatch s.coins claim batch then some (claimCoins s replica claim batch) else none
    | .finish replica coinId now write =>
      if ∃ h ∈ s.held, h.replica = replica ∧ h.coinId = coinId then
        some (finishCoin s replica coinId now write)
      else
        none
    | .register now coinId symbol interval =>
      if ∃ coin ∈ s.coins, coin.coinId = coinId then
        some { s with clock := now }
      else
        some ⟨registeredCoin coinId symbol interval :: s.coins, now, s.held⟩
    | .update now coinId req => some (updateCoin s coinId now req.set)
    | .delete now coinId => some (updateCoin s coinId now pauseCoin)
  else
    none

variable {s t : PollState R}

theorem pollStep_clock {a : PollAction R} (h : pollStep s a = some t) :
    s.clock ≤ a.now ∧ t.clock = a.now := by
  unfold pollStep at h
  split_ifs at h with hclock
  refine ⟨hclock, ?_⟩
  cases a with
  | claim replica claim batch =>
    simp only at h
    split_ifs at h
    cases h
    rfl
  | finish replica coinId now write =>
    simp only at h
    split_ifs at h
    cases h
    rfl
  | register now coinId symbol interval =>
    simp only at h
    split_ifs at h <;> cases h <;> rfl
  | update now coinId req =>
    cases h
    rfl
  | delete now coinId =>
    cases h
    rfl

theorem pollStep_claim {replica : R} {claim : ClaimDueCoins} {batch : List String}
    (h : pollStep s (.claim replica claim batch) = some t) :
    ClaimBatch s.coins claim batch ∧ t = claimCoins s replica claim batch := by
  unfold pollStep at h
  split_ifs at h
  simp only at h
  split_ifs at h with hbatch
  exact ⟨hbatch, (Option.some.inj h).symm⟩

theorem pollStep_finish {replica : R} {coinId : String} {now : ℤ} {write : PollWrite}
    (h : pollStep s (.finish replica coinId now write) = some t) :
    (∃ h ∈ s.held, h.replica = replica ∧ h.coinId = coinId) ∧
      t = finishCoin s replica coinId now write := by
  unfold pollStep at h
  split_ifs at h
  simp only at h
  split_ifs at h with hheld
  exact ⟨hheld, (Option.some.inj h).symm⟩

theorem pollStep_register {now : ℤ} {coinId symbol : String} {interval : Option ℤ}
    (h : pollStep s (.register now coinId symbol interval) = some t) :
    t.held = s.held ∧ (∀ coin ∈ s.coins, coin ∈ t.coins) ∧
      ∀ coin ∈ t.coins, coin ∈ s.coins ∨
        coin = registeredCoin coinId symbol interval ∧ ∀ old ∈ s.coins, old.coinId ≠ coinId := by
  unfold pollStep at h
  split_ifs at h
  simp only at h
  split_ifs at h with hknown
  · cases h
    exact ⟨rfl, fun _ hcoin => hcoin, fun _ hcoin => Or.inl hcoin⟩
  · cases h
    refine ⟨rfl, fun _ hcoin => List.mem_cons_of_mem _ hcoin, ?_⟩
    intro coin hcoin
    rcases List.mem_cons.mp hcoin with rfl | hcoin
    · refine Or.inr ⟨rfl, ?_⟩
      intro old hold heq
      exact hknown ⟨old, hold, heq⟩
    · exact Or.inl hcoin

theorem pollStep_update {now : ℤ} {coinId : String} {req : UpdateCoinRequest}
    (h : pollStep s (.update now coinId req) = some t) : t = updateCoin s coinId now req.set := by
  unfold pollStep at h
  split_ifs at h
  exact (Option.some.inj h).symm

theorem pollStep_delete {now : ℤ} {coinId : String}
    (h : pollStep s (.delete now coinId) = some t) : t = updateCoin s coinId now pauseCoin := by
  unfold pollStep at h
  split_ifs at h
  exact (Option.some.inj h).symm

end Step
end CryptoCollector.Collectors
