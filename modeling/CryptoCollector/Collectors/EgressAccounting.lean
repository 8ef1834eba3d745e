import CryptoCollector.Collectors.PacedWork
import CryptoCollector.Foundations.Runs
import CryptoCollector.Providers.InTree

/-!
# Slots against requests

The pacer is to be charged one slot and one credit for each request, by the
provider that sends it. `paced` takes a slot for every request it sends. The
workers and the pace step of `chain_try` take one of their own, which no request
belongs to, so that the books balance only as long as those are refused.
-/

namespace CryptoCollector.Collectors
open Foundations Models Providers Pacer

/-- A call that may reach the providers: one coin of `poll_cycle`, one item of
`collection_queue`, one page of `backfill_chunks`. -/
inductive EgressCall (V Q M S : Type*) where
  | poll (env : PollEnv V Q) (coin : TrackedCoin)
  | item (env : ItemEnv V Q M S) (item : QueueColumns)
  | page (env : PageEnv V) (chunk : ChunkColumns)

section Counts

/-- A slot of the provider, and the credits it cost. -/
def slotCredits (provider : String) : EgressEvent → Option ℤ
  | .slot _ p credits => if p = provider then some credits else none
  | _ => none

def slotsGranted (provider : String) (log : List EgressEvent) : ℕ :=
  (log.filterMap (slotCredits provider)).length

def creditsCharged (provider : String) (log : List EgressEvent) : ℤ :=
  (log.filterMap (slotCredits provider)).sum

def requestsSent (provider : String) (log : List EgressEvent) : ℕ :=
  log.count (.request provider)

/-- Each provider was charged one slot and one credit for each of its requests. -/
def Balanced (s : Fleet) : Prop :=
  ∀ provider, slotsGranted provider s.log = requestsSent provider s.log ∧
    creditsCharged provider s.log = requestsSent provider s.log

/-- A slot of the provider taken outside `paced`. -/
def isUnpaced (provider : String) : EgressEvent → Bool
  | .slot point p _ => point ≠ .paced ∧ p = provider
  | _ => false

/-- Every slot of the record was taken inside `paced`. -/
def AllPaced (log : List EgressEvent) : Prop :=
  ∀ event ∈ log, ∀ provider, isUnpaced provider event = false

/-- A record in which every slot cost one credit, and every request stands on the
slot `paced` took for it. -/
inductive Ledger : List EgressEvent → Prop where
  | nil : Ledger []
  | unpaced {log : List EgressEvent} (point : AcquirePoint) (provider : String)
      (hpoint : point ≠ .paced) (h : Ledger log) : Ledger (.slot point provider 1 :: log)
  | sent {log : List EgressEvent} (provider : String) (h : Ledger log) :
      Ledger (.request provider :: .slot .paced provider 1 :: log)
  | poke {log : List EgressEvent} (evidence : HealthPoke) (h : Ledger log) :
      Ledger (.poke evidence :: log)
  | enqueued {log : List EgressEvent} (targetKind targetId kind : String) (h : Ledger log) :
      Ledger (.enqueued targetKind targetId kind :: log)
  | met {log : List EgressEvent} (obstacle : Obstacle) (h : Ledger log) :
      Ledger (.met obstacle :: log)

theorem allPaced_cons {event : EgressEvent} {log : List EgressEvent} :
    AllPaced (event :: log) ↔ (∀ provider, isUnpaced provider event = false) ∧ AllPaced log :=
  List.forall_mem_cons

theorem allPaced_iff_countP (log : List EgressEvent) :
    AllPaced log ↔ ∀ provider, log.countP (isUnpaced provider) = 0 := by
  simp only [List.countP_eq_zero, AllPaced, Bool.not_eq_true]
  constructor
  · intro h provider event hevent
    exact h event hevent provider
  · intro h event hevent provider
    exact h provider event hevent

namespace Ledger

variable {log : List EgressEvent}

/-- Slots are requests and the slots taken outside `paced`. -/
theorem slotsGranted_eq (h : Ledger log) (provider : String) :
    slotsGranted provider log =
      requestsSent provider log + log.countP (isUnpaced provider) := by
  unfold slotsGranted requestsSent
  induction h with
  | nil => rfl
  | unpaced point p hpoint h ih =>
    by_cases hp : p = provider <;>
      simp [slotCredits, isUnpaced, hpoint, hp, ih]
    omega
  | sent p h ih =>
    by_cases hp : p = provider <;>
      simp [List.filterMap_cons, slotCredits, isUnpaced, hp, ih]
    omega
  | poke evidence h ih | enqueued targetKind targetId kind h ih | met obstacle h ih =>
    simpa [List.filterMap_cons, slotCredits, isUnpaced] using ih

theorem creditsCharged_eq (h : Ledger log) (provider : String) :
    creditsCharged provider log = slotsGranted provider log := by
  unfold creditsCharged slotsGranted
  induction h with
  | nil => rfl
  | unpaced point p hpoint h ih =>
    by_cases hp : p = provider <;> simp [slotCredits, hp, ih]
    omega
  | sent p h ih =>
    by_cases hp : p = provider <;> simp [List.filterMap_cons, slotCredits, hp, ih]
    omega
  | poke evidence h ih | enqueued targetKind targetId kind h ih | met obstacle h ih =>
    simpa [List.filterMap_cons, slotCredits] using ih

theorem balanced_iff {s : Fleet} (h : Ledger s.log) : Balanced s ↔ AllPaced s.log := by
  rw [allPaced_iff_countP]
  refine forall_congr' fun provider => ?_
  have hslots := h.slotsGranted_eq provider
  have hcredits := h.creditsCharged_eq provider
  omega

end Ledger
end Counts

/-- From `s` to `t` the record stays a ledger, and every slot taken was taken inside
`paced` exactly when `C` holds. -/
structure Charges (C : Prop) (s t : Fleet) : Prop where
  ledger : Ledger s.log → Ledger t.log
  allPaced : AllPaced t.log ↔ AllPaced s.log ∧ C

namespace Charges

variable {C D : Prop} {s t u : Fleet}

theorem refl (s : Fleet) : Charges True s s := ⟨id, by simp⟩

theorem trans (hst : Charges C s t) (htu : Charges D t u) : Charges (C ∧ D) s u where
  ledger h := htu.ledger (hst.ledger h)
  allPaced := by rw [htu.allPaced, hst.allPaced, and_assoc]

theorem congr (h : Charges C s t) (hiff : C ↔ D) : Charges D s t where
  ledger := h.ledger
  allPaced := by rw [h.allPaced, hiff]

theorem of_eq {α : Type*} {result : α × Fleet} {a : α} (h : Charges C s result.2)
    (heq : result = (a, t)) : Charges C s t := by
  rwa [heq] at h

theorem andThen (hst : Charges C s t) (htu : Charges True t u) : Charges C s u :=
  (hst.trans htu).congr (by simp)

theorem of_cons {event : EgressEvent} (hlog : t.log = event :: s.log)
    (hledger : ∀ {log}, Ledger log → Ledger (event :: log)) :
    Charges (∀ provider, isUnpaced provider event = false) s t where
  ledger h := by
    rw [hlog]
    exact hledger h
  allPaced := by rw [hlog, allPaced_cons, and_comm]

theorem of_met {obstacle : Obstacle} (hlog : t.log = .met obstacle :: s.log) : Charges True s t :=
  (of_cons hlog (.met obstacle)).congr (by simp [isUnpaced])

theorem of_sent {provider : String}
    (hlog : t.log = .request provider :: .slot .paced provider 1 :: s.log) : Charges True s t where
  ledger h := by
    rw [hlog]
    exact .sent provider h
  allPaced := by simp [hlog, allPaced_cons, isUnpaced]

end Charges

def SlotRefused (net : Net) (point : AcquirePoint) (provider : String) (s : Fleet) : Prop :=
  ∃ e, (acquireSlot net point provider s).1 = .error e

section Walks

variable {V T : Type*} [Provider V]

/-- The pace step of `chain_try` is refused for every provider of the chain. -/
def PaceRefused (net : Net) (capability : Capability) : List V → Fleet → Prop
  | [], _ => True
  | p :: chain, s =>
    if Provider.supports p capability then
      SlotRefused net .pace (Provider.name p) s ∧
        PaceRefused net capability chain (acquireSlot net .pace (Provider.name p) s).2
    else
      PaceRefused net capability chain s

/-- The slot a worker takes before an OHLC walk is refused, if there is a provider
to take it from. -/
def OwnRefused (net : Net) (providerName : Option String) (s : Fleet) : Prop :=
  ∀ name ∈ providerName, SlotRefused net .worker name s

theorem charges_pokeRegistry (net : Net) (evidence : HealthPoke) (s : Fleet) :
    Charges True s (pokeRegistry net evidence s) := by
  unfold pokeRegistry
  split_ifs
  · exact (Charges.of_cons rfl (.poke evidence)).congr (by simp [isUnpaced])
  · exact Charges.refl s

theorem charges_frame (net : Net) : PokeFrame (pokeRegistry net) (Charges True) where
  refl := Charges.refl
  trans hst htu := hst.andThen htu
  poke := charges_pokeRegistry net

theorem charges_of_use {net : Net} {provider : String} {endpoint : Endpoint T} {s t : Fleet}
    {answer : Except ProviderError T} (huse : EndpointUse net provider endpoint s answer t) :
    Charges True s t := by
  cases huse with
  | unasked e hcheck => exact Charges.of_met rfl
  | refused e t hslot hlog => exact Charges.of_met hlog
  | served answer u hslot hlog hcall =>
    have hsent : (u.record (.request provider)).log =
        .request provider :: .slot .paced provider 1 :: s.log := by
      rw [Fleet.record_log, hlog]
    exact Charges.of_sent hsent
  | failed e t hlog =>
    have hsent : Charges True s
        ⟨s.rows, s.turn, .request provider :: .slot .paced provider 1 :: s.log⟩ :=
      Charges.of_sent rfl
    exact hsent.andThen (Charges.of_met hlog)

theorem charges_fetch (net : Net) (provider : String) (endpoint : Endpoint T) (s : Fleet) :
    Charges True s (endpoint.fetch net provider s).2 :=
  charges_of_use (endpoint.fetch_use net provider s)

/-- A slot taken outside `paced` is one too many unless it is refused. -/
theorem charges_acquireSlot (net : Net) (point : AcquirePoint) (hpoint : point ≠ .paced)
    (provider : String) (s : Fleet) :
    Charges (SlotRefused net point provider s) s (acquireSlot net point provider s).2 := by
  unfold SlotRefused
  rcases acquireSlot_cases net point provider s with ⟨t, hslot, hlog⟩ | ⟨e, t, hslot, hlog⟩
  · rw [hslot]
    exact (Charges.of_cons hlog (.unpaced point provider hpoint)).congr
      (by simp [isUnpaced, hpoint])
  · rw [hslot]
    exact (Charges.of_met hlog).congr (by simp)

theorem charges_chainTryLoop (net : Net) (endpoint : V → Endpoint T) (capability : Capability)
    (whole chain : List V) (lastFetchErr : Option ProviderError)
    (lastPaceErr : Option AcquireSlotError) (s : Fleet) :
    Charges (PaceRefused net capability chain s) s
      (chainTryLoop (pokeRegistry net) (acquireSlot net .pace)
        (fun p => (endpoint p).fetch net (Provider.name p)) capability whole chain lastFetchErr
        lastPaceErr s).2 := by
  induction chain generalizing lastFetchErr lastPaceErr s with
  | nil =>
    cases lastFetchErr with
    | some e => exact charges_pokeRegistry net .chainAllFailed s
    | none =>
      cases lastPaceErr with
      | some e => exact Charges.refl s
      | none =>
        simp only [chainTryLoop]
        split_ifs <;> exact Charges.refl s
  | cons p chain ih =>
    simp only [chainTryLoop, PaceRefused]
    split_ifs with hsupports
    · have hslot := charges_acquireSlot net .pace (by decide) (Provider.name p) s
      rcases hpaced : acquireSlot net .pace (Provider.name p) s with ⟨granted, t⟩
      rw [hpaced] at hslot
      cases granted with
      | error e => exact hslot.trans (ih _ _ _)
      | ok granted =>
        cases granted
        have hnot : ¬SlotRefused net .pace (Provider.name p) s := by
          simp [SlotRefused, hpaced]
        have hfetch := charges_fetch net (Provider.name p) (endpoint p) t
        rcases hanswer : (endpoint p).fetch net (Provider.name p) t with ⟨answer, u⟩
        rw [hanswer] at hfetch
        simp only [hanswer]
        cases answer with
        | ok v =>
          have hpoked := (charges_pokeRegistry net (.providerSuccess (Provider.name p)) u).andThen
            (charges_pokeRegistry net .chainSuccess _)
          exact (hslot.trans (hfetch.andThen hpoked)).congr (by simp [hnot])
        | error e =>
          have hpoked := (charges_frame net).pokeFailure p e u
          exact (hslot.trans (hfetch.trans (hpoked.trans (ih _ _ _)))).congr (by simp [hnot])
    · exact ih _ _ _

theorem paceRefused_of_incapable (net : Net) {capability : Capability} {chain : List V}
    (hnone : firstProviderForCap chain capability = none) (s : Fleet) :
    PaceRefused net capability chain s := by
  have hunsupported : ∀ p ∈ chain, ¬Provider.supports p capability = true := by
    simpa [firstProviderForCap] using hnone
  clear hnone
  induction chain with
  | nil => trivial
  | cons p chain ih =>
    simp only [PaceRefused, hunsupported p List.mem_cons_self]
    exact ih fun q hq => hunsupported q (List.mem_cons_of_mem _ hq)

theorem charges_fetchPaced (net : Net) (capability : Capability) (endpoint : V → Endpoint T)
    (chain : List V) (s : Fleet) :
    Charges (PaceRefused net capability chain s) s
      (fetchPaced net capability endpoint chain s).2 :=
  charges_chainTryLoop net endpoint capability chain chain none none s

end Walks

section Arms

variable {V Q M S T : Type*}

theorem charges_stopWith {α : Type*} (e : DispatchError) (s : Fleet) :
    Charges True s (stopWith (α := α) e s).2 :=
  Charges.of_met rfl

theorem charges_storeServed (net : Net) (upserted : Except String Unit) (s : Fleet) :
    Charges True s (storeServed net upserted s).2 := by
  unfold storeServed
  split
  · exact charges_pokeRegistry net _ s
  · exact (charges_pokeRegistry net _ s).andThen (charges_stopWith _ _)

theorem charges_storeCandles (net : Net) (env : ItemEnv V Q M S) (coinId : String)
    (candles : List OhlcCandle) (s : Fleet) :
    Charges True s (storeCandles net env coinId candles s).2 := by
  have henqueued : ∀ t : Fleet,
      Charges True t (t.record (.enqueued "coin" coinId "rollup")) := fun t =>
    (Charges.of_cons rfl (.enqueued "coin" coinId "rollup")).congr (by simp [isUnpaced])
  simp only [storeCandles]
  split
  · split_ifs
    · exact henqueued s
    · exact (charges_pokeRegistry net _ s).andThen (henqueued _)
  · exact (charges_pokeRegistry net _ s).andThen (charges_stopWith _ _)

theorem charges_storePage (net : Net) (env : PageEnv V) (chunk : ChunkColumns)
    (start : Option ℤ) (intervalSecs : ℤ) (candles : List OhlcCandle) (s : Fleet) :
    Charges True s (storePage net env chunk start intervalSecs candles s).2 := by
  simp only [storePage]
  split
  · exact (charges_pokeRegistry net _ s).andThen (charges_stopWith _ _)
  · dsimp only
    split_ifs
    · exact Charges.refl s
    · exact charges_pokeRegistry net _ s

variable [Provider V]

theorem charges_dispatchPaced (net : Net) (capability : Capability) (missing : String)
    (endpoint : V → Endpoint T) (upsert : T → Except String Unit) (chain : List V) (s : Fleet) :
    Charges (PaceRefused net capability chain s) s
      (dispatchPaced net capability missing endpoint upsert chain s).2 := by
  unfold dispatchPaced
  cases hfirst : firstProviderForCap chain capability with
  | none =>
    have hrefused := paceRefused_of_incapable net hfirst s
    exact (charges_stopWith _ s).congr (by simp [hrefused])
  | some name =>
    have hwalk := charges_fetchPaced net capability endpoint chain s
    generalize fetchPaced net capability endpoint chain s = walk at hwalk ⊢
    obtain ⟨answer, t⟩ := walk
    cases answer with
    | ok answer => exact hwalk.andThen (charges_storeServed net _ t)
    | error e => cases e <;> exact hwalk

/-- The slot of a worker, then a walk and its end in which every slot is paced. -/
theorem charges_ownSlot (net : Net) {α : Type*} (name : String) (s : Fleet)
    (refused : AcquireSlotError → Except DispatchError α)
    (rest : Fleet → Except DispatchError α × Fleet) (hrest : ∀ t, Charges True t (rest t).2) :
    Charges (SlotRefused net .worker name s) s
      (match acquireSlot net .worker name s with
        | (.error e, s) => (refused e, s)
        | (.ok (), s) => rest s).2 := by
  have hslot := charges_acquireSlot net .worker (by decide) name s
  generalize acquireSlot net .worker name s = slot at hslot ⊢
  obtain ⟨granted, t⟩ := slot
  cases granted with
  | error e => exact hslot
  | ok granted => exact hslot.andThen (hrest t)

def Tracked (coin : Except String (Option (String × Option ℤ))) : Prop :=
  ∃ context, coin = .ok (some context)

theorem tracked_of_coinContext {coin : Except String (Option (String × Option ℤ))}
    {coinId : String} {context : String × Option ℤ}
    (h : coinContext coin coinId = .ok context) : Tracked coin := by
  unfold coinContext at h
  split at h <;> cases h
  exact ⟨context, rfl⟩

theorem not_tracked_of_coinContext {coin : Except String (Option (String × Option ℤ))}
    {coinId : String} {e : DispatchError} (h : coinContext coin coinId = .error e) :
    ¬Tracked coin := by
  rintro ⟨context, rfl⟩
  cases h

theorem charges_fetchCandles (net : Net) (env : ItemEnv V Q M S) (chain : List V)
    (request : OhlcRequest) (s : Fleet) :
    Charges True s (fetchCandles net env chain request s).2 :=
  (charges_frame net).chainFetchOhlcInLoop
    (fun p => charges_fetch net (Provider.name p) (env.fetchOhlc p request)) chain chain [] none s

theorem charges_fetchRecent (net : Net) (env : PageEnv V) (chain : List V)
    (request : OhlcRequest) (s : Fleet) :
    Charges True s (fetchRecent net env chain request s).2 :=
  (charges_frame net).chainFetchOhlcInLoop
    (fun p => charges_fetch net (Provider.name p) (env.fetchOhlc p request)) chain chain [] none s

theorem charges_fetchRange (net : Net) (env : PageEnv V) (chain : List V)
    (request : RangeRequest) (s : Fleet) :
    Charges True s (fetchRange net env chain request s).2 :=
  (charges_frame net).chainFetchOhlcRangeInLoop
    (fun p => charges_fetch net (Provider.name p) (env.fetchOhlcRange p request)) chain [] none s

theorem charges_fetchPageIn (net : Net) (env : PageEnv V) (chain : List V) (chunk : ChunkColumns)
    (market : MarketQuery) (start : Option ℤ) (intervalSecs : ℤ) (s : Fleet) :
    Charges True s (fetchPageIn net env chain chunk market start intervalSecs s).2 := by
  unfold fetchPageIn
  split
  · split
    · rename_i hwalk
      exact (charges_fetchRange net env chain _ s).of_eq hwalk
    · rename_i hwalk
      exact ((charges_fetchRange net env chain _ s).of_eq hwalk).andThen
        (charges_storePage net env chunk _ _ _ _)
  · split
    · rename_i hwalk
      exact (charges_fetchRecent net env chain _ s).of_eq hwalk
    · rename_i hwalk
      exact ((charges_fetchRecent net env chain _ s).of_eq hwalk).andThen
        (charges_storePage net env chunk _ _ _ _)

theorem charges_dispatchCandles (net : Net) (env : ItemEnv V Q M S) (chain : List V)
    (coinId : String) (s : Fleet) :
    Charges (Tracked env.coin → OwnRefused net (firstProviderForCap chain .ohlc) s) s
      (dispatchCandles net env chain coinId s).2 := by
  unfold dispatchCandles
  cases hcoin : coinContext env.coin coinId with
  | error e => exact (charges_stopWith e s).congr (by simp [not_tracked_of_coinContext hcoin])
  | ok context =>
    have htracked := tracked_of_coinContext hcoin
    cases hfirst : firstProviderForCap chain .ohlc with
    | none => exact (charges_stopWith _ s).congr (by simp [OwnRefused])
    | some name =>
      refine (charges_ownSlot net name s (pacerOutcome DispatchOutcome.softSkip) _ ?_).congr
        (by simp [OwnRefused, htracked])
      intro t
      dsimp only
      split
      · rename_i hwalk
        exact (charges_fetchCandles net env chain _ t).of_eq hwalk
      · rename_i hwalk
        exact ((charges_fetchCandles net env chain _ t).of_eq hwalk).andThen
          (charges_storeCandles net env coinId _ _)

theorem charges_processChunkIn (net : Net) (env : PageEnv V) (chain : List V)
    (chunk : ChunkColumns) (s : Fleet) :
    Charges (Tracked env.coin → OwnRefused net (pageProvider chain chunk) s) s
      (processChunkIn net env chain chunk s).2 := by
  unfold processChunkIn
  cases hcoin : coinContext env.coin chunk.coinId with
  | error e => exact (charges_stopWith e s).congr (by simp [not_tracked_of_coinContext hcoin])
  | ok context =>
    have htracked := tracked_of_coinContext hcoin
    cases hfirst : pageProvider chain chunk with
    | none => exact (charges_stopWith _ s).congr (by simp [OwnRefused])
    | some name =>
      refine (charges_ownSlot net name s (pacerOutcome ChunkOutcome.softSkip) _ ?_).congr
        (by simp [OwnRefused, htracked])
      intro t
      exact charges_fetchPageIn net env chain chunk _ _ _ t

theorem charges_dispatchDerived (recomputed : Except String Unit) (s : Fleet) :
    Charges True s (dispatchDerived recomputed s).2 := by
  unfold dispatchDerived
  split
  · exact Charges.refl s
  · exact charges_stopWith _ s

theorem charges_dispatchSpot (net : Net) (env : ItemEnv V Q M S) (chain : List V)
    (coinId : String) (s : Fleet) :
    Charges (Tracked env.coin → PaceRefused net .spot chain s) s
      (dispatchSpot net env chain coinId s).2 := by
  unfold dispatchSpot
  cases hcoin : coinContext env.coin coinId with
  | error e => exact (charges_stopWith e s).congr (by simp [not_tracked_of_coinContext hcoin])
  | ok context =>
    have htracked := tracked_of_coinContext hcoin
    exact (charges_dispatchPaced net .spot _ _ _ chain s).congr (by simp [htracked])

theorem charges_pollCoin (net : Net) (env : PollEnv V Q) (chain : List V) (coin : TrackedCoin)
    (s : Fleet) :
    Charges (PaceRefused net .spot chain s) s (pollCoin net env chain coin s).2 := by
  simp only [pollCoin]
  have hwalk := charges_fetchPaced net .spot
    (fun p => env.fetchSpot p (.coinKeyed coin.coinId coin.symbol "USDT" "usd")) chain s
  generalize fetchPaced net .spot
    (fun p => env.fetchSpot p (.coinKeyed coin.coinId coin.symbol "USDT" "usd")) chain s = walk
    at hwalk ⊢
  obtain ⟨answer, t⟩ := walk
  cases answer with
  | error e => exact hwalk
  | ok quote =>
    dsimp only
    split <;> exact hwalk.andThen (charges_pokeRegistry net _ t)

end Arms

section Runs

variable {V Q M S : Type*} [Provider V]

def egressStep (net : Net) (chain : List V) (s : Fleet) : EgressCall V Q M S → Option Fleet
  | .poll env coin => some (pollCoin net env chain coin s).2
  | .item env item => some (dispatchItem net env chain item s).2
  | .page env chunk => some (processChunkIn net env chain chunk s).2

/-- Every slot the call asks for outside `paced` is refused. -/
def OnlyPacedSlots (net : Net) (chain : List V) (s : Fleet) : EgressCall V Q M S → Prop
  | .poll _ _ => PaceRefused net .spot chain s
  | .item env item =>
    match dispatchKind item.targetKind item.kind with
    | some .candles => Tracked env.coin → OwnRefused net (firstProviderForCap chain .ohlc) s
    | some .spot => Tracked env.coin → PaceRefused net .spot chain s
    | some .metadata => PaceRefused net .coinMetadata chain s
    | some .market => PaceRefused net .coinMarket chain s
    | some .cycleOverlay => True
    | some .rollup => True
    | none => True
  | .page env chunk => Tracked env.coin → OwnRefused net (pageProvider chain chunk) s

/-- A call keeps the record a ledger and takes a slot outside `paced` unless all of
those are refused. -/
theorem charges_egressStep {net : Net} {chain : List V} {s t : Fleet} {call : EgressCall V Q M S}
    (h : egressStep net chain s call = some t) : Charges (OnlyPacedSlots net chain s call) s t := by
  cases call with
  | poll env coin =>
    obtain rfl := Option.some.inj h
    exact charges_pollCoin net env chain coin s
  | page env chunk =>
    obtain rfl := Option.some.inj h
    exact charges_processChunkIn net env chain chunk s
  | item env item =>
    obtain rfl := Option.some.inj h
    simp only [dispatchItem, OnlyPacedSlots]
    cases dispatchKind item.targetKind item.kind with
    | none => exact charges_stopWith _ s
    | some kind =>
      cases kind with
      | candles => exact charges_dispatchCandles net env chain item.targetId s
      | spot => exact charges_dispatchSpot net env chain item.targetId s
      | metadata => exact charges_dispatchPaced net .coinMetadata _ _ _ chain s
      | market => exact charges_dispatchPaced net .coinMarket _ _ _ chain s
      | cycleOverlay => exact charges_dispatchDerived _ s
      | rollup => exact charges_dispatchDerived _ s

theorem balanced_reached_iff {net : Net} {chain : List V} {s : Fleet}
    (hledger : Ledger s.log) (hpaced : AllPaced s.log) (calls : List (EgressCall V Q M S)) :
    EveryReached (egressStep net chain) Balanced s calls ↔
      StepsMeet (egressStep net chain) (OnlyPacedSlots net chain) s calls := by
  induction calls generalizing s with
  | nil => simp [everyReached_nil, StepsMeet, hledger.balanced_iff, hpaced]
  | cons call calls ih =>
    rw [everyReached_cons]
    simp only [StepsMeet, hledger.balanced_iff.mpr hpaced, true_and]
    obtain ⟨t, ht⟩ : ∃ t, egressStep net chain s call = some t := by
      cases call <;> exact ⟨_, rfl⟩
    have hcharges := charges_egressStep ht
    have hrest := hcharges.ledger hledger
    simp only [ht, Option.some.injEq, forall_eq']
    constructor
    · intro hreached
      have hbalanced : Balanced t := hreached [] List.nil_prefix t rfl
      have hallPaced := hrest.balanced_iff.mp hbalanced
      exact ⟨(hcharges.allPaced.mp hallPaced).2, (ih hrest hallPaced).mp hreached⟩
    · rintro ⟨hrefused, hmeet⟩
      exact (ih hrest (hcharges.allPaced.mpr ⟨hpaced, hrefused⟩)).mpr hmeet

/-- A cycle of the poller is a run of polls. -/
theorem pollCoins_run (net : Net) (env : PollEnv V Q) (chain : List V) (shutdown : ℕ → Bool)
    (coins : List TrackedCoin) (s : Fleet) :
    ∃ polled, polled <+: coins ∧
      exec (egressStep net chain) s (polled.map (EgressCall.poll (M := M) (S := S) env)) =
        some (pollCoins net env chain shutdown coins s).2 := by
  induction coins generalizing s with
  | nil => exact ⟨[], List.prefix_rfl, rfl⟩
  | cons coin coins ih =>
    simp only [pollCoins]
    split_ifs
    · exact ⟨[], List.nil_prefix, rfl⟩
    · obtain ⟨polled, hprefix, hrun⟩ := ih (pollCoin net env chain coin s).2
      refine ⟨coin :: polled, List.cons_prefix_cons.mpr ⟨rfl, hprefix⟩, ?_⟩
      rw [List.map_cons, exec_cons_eq_some]
      exact ⟨_, rfl, hrun⟩

/-- Over any run of polls, queue items and backfill pages, between any statements
of the other replicas, every provider is charged one slot and one credit per
request in every state reached, exactly when in every call of the run the slots
asked for outside `paced` are refused. -/
theorem slots_match_requests_iff (net : Net) (chain : List V)
    (rows : String → Option PacerRow) (calls : List (EgressCall V Q M S)) :
    EveryReached (egressStep net chain) Balanced (Fleet.start rows) calls ↔
      StepsMeet (egressStep net chain) (OnlyPacedSlots net chain) (Fleet.start rows) calls :=
  balanced_reached_iff .nil (by simp [Fleet.start, AllPaced]) calls

end Runs

def trackedBitcoin : TrackedCoin := ⟨"bitcoin", "BTC", .active, none, none, none, none⟩

def answeringPoll : PollEnv InTree Unit :=
  ⟨fun _ _ => ⟨.ok (), fun _ => .ok ()⟩, fun _ _ => .ok (), 3600⟩

/-- One poll of one coin through Binance, on the rows as seeded: one request, two
slots. -/
theorem poll_charges_two_slots :
    (slotsGranted "binance" (pollCoin Net.calm answeringPoll [InTree.binance] trackedBitcoin
          (Fleet.start (seededRows 0 0))).2.log = 2 ∧
        requestsSent "binance" (pollCoin Net.calm answeringPoll [InTree.binance] trackedBitcoin
          (Fleet.start (seededRows 0 0))).2.log = 1) ∧
      ¬EveryReached (egressStep (M := Unit) (S := Unit) Net.calm [InTree.binance]) Balanced
        (Fleet.start (seededRows 0 0)) [.poll answeringPoll trackedBitcoin] := by
  have hcounts : slotsGranted "binance" (pollCoin Net.calm answeringPoll [InTree.binance]
          trackedBitcoin (Fleet.start (seededRows 0 0))).2.log = 2 ∧
        requestsSent "binance" (pollCoin Net.calm answeringPoll [InTree.binance]
          trackedBitcoin (Fleet.start (seededRows 0 0))).2.log = 1 := by
    decide +kernel
  refine ⟨hcounts, ?_⟩
  intro hreached
  have hbalanced := (hreached _ List.prefix_rfl _ rfl "binance").1
  rw [hcounts.1, hcounts.2] at hbalanced
  cases hbalanced

end CryptoCollector.Collectors
