import CryptoCollector.Models.Candle
import CryptoCollector.Pacer

/-!
# The provider chain

Providers are tried in declared order. What a provider answers to a request is
not under the program's control: a fetch is a parameter, and may differ from
call to call. The health registry poked at each attempt is left out.
-/

namespace CryptoCollector.Providers
open Models Pacer

/-- What a provider can be asked for. -/
inductive Capability where
  | spot
  | ohlc
  | ohlcRange
  | coinMetadata
  | coinMarket
  | derivatives
  deriving DecidableEq, Repr

def Capability.debug : Capability → String
  | .spot => "Spot"
  | .ohlc => "Ohlc"
  | .ohlcRange => "OhlcRange"
  | .coinMetadata => "CoinMetadata"
  | .coinMarket => "CoinMarket"
  | .derivatives => "Derivatives"

/-- `Display` of a pacer error; an instant prints as its nanoseconds. -/
def displayAcquireSlotError : AcquireSlotError → String
  | .cooldown provider expiry =>
    s!"provider '{provider}' is in fleet-wide cooldown until {expiry}"
  | .creditExhausted provider => s!"provider '{provider}' has exhausted its monthly credit limit"
  | .notFound provider => s!"provider '{provider}' not found in upstream_request_pacer"
  | .contended provider =>
    s!"provider '{provider}' pacer row was contended (block lapsed mid-check); retry"
  | .db message => s!"database error: {message}"

/-- Errors of a provider call; `network` and `other` carry the inner error's text. -/
inductive ProviderError where
  | notSupported (cap : Capability)
  | noCapableProvider (cap : Capability)
  | rateLimited
  | http (status : ℕ) (body : String)
  | creditExhausted
  | parse (message : String)
  | network (message : String)
  | pacer (err : AcquireSlotError)
  | other (message : String)
  deriving DecidableEq, Repr

/-- `Display` of a provider error. -/
def ProviderError.display : ProviderError → String
  | .notSupported cap => s!"capability {cap.debug} not supported by provider"
  | .noCapableProvider cap => s!"no provider in the chain supports capability {cap.debug}"
  | .rateLimited => "rate limited (HTTP 429) — cooldown required"
  | .http status body => s!"HTTP error {status}: {body}"
  | .creditExhausted => "credit exhausted — monthly limit reached"
  | .parse message => s!"parse error: {message}"
  | .network message => s!"network error: {message}"
  | .pacer err => s!"pacer error: {displayAcquireSlotError err}"
  | .other message => message

/-- `is_transient`: a retry may succeed. -/
def ProviderError.isTransient : ProviderError → Bool
  | .rateLimited => true
  | .network _ => true
  | .http status _ => status = 408 ∨ status = 425 ∨ status = 429 ∨ 500 ≤ status ∧ status ≤ 599
  | _ => false

inductive MarketQuery where
  | coinKeyed (coinId symbol quote vsCurrency : String)
  | marketKeyed (marketId : ℤ) (coinId : Option String) (base quote : String)
      (venue : Option String) (vsCurrency : String)
  deriving DecidableEq, Repr

/-- `market_id`: zero on a coin-keyed call. -/
def MarketQuery.marketId : MarketQuery → ℤ
  | .coinKeyed _ _ _ _ => 0
  | .marketKeyed marketId _ _ _ _ _ => marketId

def MarketQuery.coinId : MarketQuery → Option String
  | .coinKeyed coinId _ _ _ => some coinId
  | .marketKeyed _ coinId _ _ _ _ => coinId

def MarketQuery.base : MarketQuery → String
  | .coinKeyed _ symbol _ _ => symbol
  | .marketKeyed _ _ base _ _ _ => base

def MarketQuery.quote : MarketQuery → String
  | .coinKeyed _ _ quote _ => quote
  | .marketKeyed _ _ _ quote _ _ => quote

def MarketQuery.vsCurrency : MarketQuery → String
  | .coinKeyed _ _ _ vsCurrency => vsCurrency
  | .marketKeyed _ _ _ _ _ vsCurrency => vsCurrency

inductive ProviderOutcome where
  | success
  | failure
  | unsupported
  deriving DecidableEq, Repr

/-- One provider attempt, for the metrics. -/
structure AttemptRecord where
  provider : String
  capability : Capability
  outcome : ProviderOutcome
  deriving DecidableEq, Repr

/-- The part of the `Provider` trait the chain decides by. -/
class Provider (V : Type*) where
  name : V → String
  supports : V → Capability → Bool

/-- The arguments of `fetch_ohlc_range`: candles at or after `start`, before `stop`. -/
structure RangeRequest where
  market : MarketQuery
  start : ℤ
  stop : ℤ
  intervalSecs : ℤ
  deriving DecidableEq, Repr

structure OhlcRequest where
  market : MarketQuery
  days : ℕ
  intervalSecs : ℤ
  deriving DecidableEq, Repr

variable {V : Type*} [Provider V]

def attempt (p : V) (capability : Capability) (outcome : ProviderOutcome) : AttemptRecord :=
  ⟨Provider.name p, capability, outcome⟩

def chainFetchOhlcRangeLoop (fetch : V → RangeRequest → Except ProviderError (List OhlcCandle))
    (request : RangeRequest) :
    List V → List AttemptRecord → Option ProviderError →
      Except ProviderError (List OhlcCandle) × List AttemptRecord
  | [], records, some e => (.error e, records)
  | [], records, none => (.ok [], records)
  | p :: chain, records, lastErr =>
    if Provider.supports p .ohlcRange then
      match fetch p request with
      | .ok candles =>
        let records := records ++ [attempt p .ohlcRange .success]
        if candles.isEmpty then
          chainFetchOhlcRangeLoop fetch request chain records lastErr
        else
          (.ok candles, records)
      | .error e =>
        chainFetchOhlcRangeLoop fetch request chain
          (records ++ [attempt p .ohlcRange .failure]) (some e)
    else
      chainFetchOhlcRangeLoop fetch request chain
        (records ++ [attempt p .ohlcRange .unsupported]) lastErr

/-- `chain_fetch_ohlc_range`: the first non-empty page wins, an error anywhere
surfaces, and otherwise the page is empty. -/
def chainFetchOhlcRange (fetch : V → RangeRequest → Except ProviderError (List OhlcCandle))
    (chain : List V) (request : RangeRequest) :
    Except ProviderError (List OhlcCandle) × List AttemptRecord :=
  chainFetchOhlcRangeLoop fetch request chain [] none

/-- The loop of `chain_fetch_ohlc`; `whole` is the chain it walks. -/
def chainFetchOhlcLoop (fetch : V → OhlcRequest → Except ProviderError (List OhlcCandle))
    (request : OhlcRequest) (whole : List V) :
    List V → List AttemptRecord → Option ProviderError →
      Except ProviderError (List OhlcCandle) × List AttemptRecord
  | [], records, some e => (.error e, records)
  | [], records, none =>
    if whole.isEmpty then
      (.error (.other "empty provider chain"), records)
    else
      (.error (.noCapableProvider .ohlc), records)
  | p :: chain, records, lastErr =>
    if Provider.supports p .ohlc then
      match fetch p request with
      | .ok candles => (.ok candles, records ++ [attempt p .ohlc .success])
      | .error e =>
        chainFetchOhlcLoop fetch request whole chain
          (records ++ [attempt p .ohlc .failure]) (some e)
    else
      chainFetchOhlcLoop fetch request whole chain
        (records ++ [attempt p .ohlc .unsupported]) lastErr

/-- `chain_fetch_ohlc`: the first success wins, whatever it returned. -/
def chainFetchOhlc (fetch : V → OhlcRequest → Except ProviderError (List OhlcCandle))
    (chain : List V) (request : OhlcRequest) :
    Except ProviderError (List OhlcCandle) × List AttemptRecord :=
  chainFetchOhlcLoop fetch request chain chain [] none

/-- The chain has a member with the capability. -/
def Capable (chain : List V) (capability : Capability) : Prop :=
  ∃ p ∈ chain, Provider.supports p capability = true

instance (chain : List V) (capability : Capability) : Decidable (Capable chain capability) :=
  inferInstanceAs (Decidable (∃ p ∈ chain, _))

theorem prefix_chainFetchOhlcRangeLoop
    (fetch : V → RangeRequest → Except ProviderError (List OhlcCandle)) (request : RangeRequest)
    (chain : List V) (records : List AttemptRecord) (lastErr : Option ProviderError) :
    records <+: (chainFetchOhlcRangeLoop fetch request chain records lastErr).2 := by
  induction chain generalizing records lastErr with
  | nil => cases lastErr <;> exact List.prefix_rfl
  | cons p chain ih =>
    have hstep : ∀ outcome lastErr, records <+: (chainFetchOhlcRangeLoop fetch request chain
        (records ++ [attempt p .ohlcRange outcome]) lastErr).2 :=
      fun outcome lastErr => (List.prefix_append _ _).trans (ih _ lastErr)
    simp only [chainFetchOhlcRangeLoop]
    split_ifs with hsupports
    · cases fetch p request with
      | ok candles =>
        by_cases hempty : candles.isEmpty
        · simpa only [hempty, if_pos] using hstep .success lastErr
        · simp [hempty]
      | error e => exact hstep .failure (some e)
    · exact hstep .unsupported lastErr

variable {fetch : V → RangeRequest → Except ProviderError (List OhlcCandle)}
  {request : RangeRequest}

/-- A page came from a range provider's answer, unless no member could be asked
and nothing went wrong. -/
theorem chainFetchOhlcRangeLoop_answered {chain : List V} {records : List AttemptRecord}
    {lastErr : Option ProviderError} (hasked : Capable chain .ohlcRange ∨ lastErr ≠ none)
    {candles : List OhlcCandle}
    (hok : (chainFetchOhlcRangeLoop fetch request chain records lastErr).1 = .ok candles) :
    ∃ p ∈ chain, Provider.supports p .ohlcRange = true ∧ (∃ page, fetch p request = .ok page) ∧
      attempt p .ohlcRange .success ∈
        (chainFetchOhlcRangeLoop fetch request chain records lastErr).2 := by
  induction chain generalizing records lastErr with
  | nil =>
    rcases hasked with hcap | herr
    · simp [Capable] at hcap
    · cases lastErr with
      | none => exact absurd rfl herr
      | some e => simp [chainFetchOhlcRangeLoop] at hok
  | cons p chain ih =>
    by_cases hsupports : Provider.supports p .ohlcRange = true
    · cases hfetch : fetch p request with
      | ok page =>
        refine ⟨p, List.mem_cons_self, hsupports, ⟨page, hfetch⟩, ?_⟩
        simp only [chainFetchOhlcRangeLoop, hsupports, if_pos, hfetch]
        split_ifs
        · exact (prefix_chainFetchOhlcRangeLoop fetch request chain _ lastErr).subset (by simp)
        · simp
      | error e =>
        simp only [chainFetchOhlcRangeLoop, hsupports, if_pos, hfetch] at hok ⊢
        obtain ⟨q, hq, hanswer⟩ := ih (Or.inr (by simp)) hok
        exact ⟨q, List.mem_cons_of_mem _ hq, hanswer⟩
    · have hrest : Capable chain .ohlcRange ∨ lastErr ≠ none := by
        refine hasked.imp_left fun hcap => ?_
        obtain ⟨q, hq, hqs⟩ := hcap
        rcases List.mem_cons.mp hq with rfl | hq
        · exact absurd hqs hsupports
        · exact ⟨q, hq, hqs⟩
      simp only [chainFetchOhlcRangeLoop, hsupports] at hok ⊢
      obtain ⟨q, hq, hanswer⟩ := ih hrest hok
      exact ⟨q, List.mem_cons_of_mem _ hq, hanswer⟩

theorem chainFetchOhlcRange_answered {chain : List V} (hcap : Capable chain .ohlcRange)
    {candles : List OhlcCandle} (hok : (chainFetchOhlcRange fetch chain request).1 = .ok candles) :
    ∃ p ∈ chain, Provider.supports p .ohlcRange = true ∧ (∃ page, fetch p request = .ok page) ∧
      attempt p .ohlcRange .success ∈ (chainFetchOhlcRange fetch chain request).2 :=
  chainFetchOhlcRangeLoop_answered (Or.inl hcap) hok

theorem chainFetchOhlcRangeLoop_incapable {chain : List V} (h : ¬Capable chain .ohlcRange)
    (records : List AttemptRecord) (lastErr : Option ProviderError) :
    chainFetchOhlcRangeLoop fetch request chain records lastErr =
      (lastErr.elim (.ok []) .error,
        records ++ chain.map fun p => attempt p .ohlcRange .unsupported) := by
  induction chain generalizing records with
  | nil => cases lastErr <;> simp [chainFetchOhlcRangeLoop]
  | cons p chain ih =>
    have hp : ¬Provider.supports p .ohlcRange = true :=
      fun hp => h ⟨p, List.mem_cons_self, hp⟩
    have hrest : ¬Capable chain .ohlcRange := by
      rintro ⟨q, hq, hqs⟩
      exact h ⟨q, List.mem_cons_of_mem _ hq, hqs⟩
    simp [chainFetchOhlcRangeLoop, hp, ih hrest]

/-- `p` is the one range provider of the chain. -/
def SoleRangeProvider (p : V) (chain : List V) : Prop :=
  (chain.filter fun q => Provider.supports q .ohlcRange) = [p]

theorem chainFetchOhlcRangeLoop_sole {p : V} {chain : List V} (h : SoleRangeProvider p chain)
    (records : List AttemptRecord) :
    (chainFetchOhlcRangeLoop fetch request chain records none).1 = fetch p request := by
  unfold SoleRangeProvider at h
  induction chain generalizing records with
  | nil => cases h
  | cons q chain ih =>
    by_cases hsupports : Provider.supports q .ohlcRange = true
    · rw [List.filter_cons, if_pos hsupports, List.cons.injEq, List.filter_eq_nil_iff] at h
      obtain ⟨rfl, hnone⟩ := h
      have hrest : ¬Capable chain .ohlcRange := by
        rintro ⟨r, hr, hrs⟩
        exact hnone r hr hrs
      simp only [chainFetchOhlcRangeLoop, hsupports, if_pos]
      cases hfetch : fetch q request with
      | ok candles =>
        by_cases hempty : candles.isEmpty
        · simp [chainFetchOhlcRangeLoop_incapable hrest, List.isEmpty_iff.mp hempty]
        · simp [hempty]
      | error e => simp [chainFetchOhlcRangeLoop_incapable hrest]
    · rw [List.filter_cons, if_neg hsupports] at h
      simp only [chainFetchOhlcRangeLoop, hsupports]
      exact ih h _

theorem chainFetchOhlcRange_sole {p : V} {chain : List V} (h : SoleRangeProvider p chain) :
    (chainFetchOhlcRange fetch chain request).1 = fetch p request :=
  chainFetchOhlcRangeLoop_sole h []

end CryptoCollector.Providers
