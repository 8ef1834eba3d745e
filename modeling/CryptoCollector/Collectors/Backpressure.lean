import CryptoCollector.Collectors.PacedWork
import CryptoCollector.Providers.InTree

/-!
# Backpressure

A slot refused for a cooldown or for exhausted credit is to be no failure: the
row goes back untouched and the registry hears of no failed chain. It is one when
it is met inside `paced` after the pace step, or the worker, was granted a slot of
its own and nobody behind it serves: `chain_try` then reports that the whole chain
failed, and an OHLC walk fails the row as well.
-/

namespace CryptoCollector.Collectors
open Models Providers Pacer

/-- A refusal for a cooldown or for exhausted credit. -/
def isBackpressure : Obstacle → Bool
  | .slot e => pacerShouldSkipQueue e
  | .provider _ => false
  | .own _ => false

/-- An event that is no obstacle, or only backpressure. -/
def tolerable : EgressEvent → Bool
  | .met obstacle => isBackpressure obstacle
  | _ => true

/-- Nothing but backpressure stood in the way so far. -/
def OnlyBackpressure (s : Fleet) : Prop := ∀ event ∈ s.log, tolerable event = true

/-- The registry was not told that a whole chain failed. -/
def NoEvidence (s : Fleet) : Prop := .poke .chainAllFailed ∉ s.log

instance (s : Fleet) : Decidable (OnlyBackpressure s) :=
  inferInstanceAs (Decidable (∀ event ∈ s.log, _))

instance (s : Fleet) : Decidable (NoEvidence s) := inferInstanceAs (Decidable (¬_))

/-- The record only grows. -/
def RecordGrows (s t : Fleet) : Prop := s.log <:+ t.log

theorem OnlyBackpressure.of_grows {s t : Fleet} (h : OnlyBackpressure t) (hst : RecordGrows s t) :
    OnlyBackpressure s :=
  fun event hevent => h event (hst.subset hevent)

theorem OnlyBackpressure.of_log {s t : Fleet} {event : EgressEvent} (h : OnlyBackpressure t)
    (hlog : t.log = event :: s.log) : tolerable event = true ∧ OnlyBackpressure s := by
  constructor
  · exact h event (by simp [hlog])
  · intro old hold
    exact h old (by simp [hlog, hold])

theorem noEvidence_of_log {s t : Fleet} {event : EgressEvent} (hlog : t.log = event :: s.log) :
    NoEvidence t ↔ event ≠ .poke .chainAllFailed ∧ NoEvidence s := by
  simp [NoEvidence, hlog, eq_comm]

theorem grows_pokeRegistry (net : Net) (evidence : HealthPoke) (s : Fleet) :
    RecordGrows s (pokeRegistry net evidence s) := by
  unfold pokeRegistry
  split_ifs
  · exact List.suffix_cons _ _
  · exact List.suffix_rfl

theorem grows_frame (net : Net) : PokeFrame (pokeRegistry net) RecordGrows where
  refl _ := List.suffix_rfl
  trans hst htu := List.IsSuffix.trans hst htu
  poke := grows_pokeRegistry net

theorem grows_acquireSlot (net : Net) (point : AcquirePoint) (provider : String) (s : Fleet) :
    RecordGrows s (acquireSlot net point provider s).2 := by
  rcases acquireSlot_cases net point provider s with ⟨t, hslot, hlog⟩ | ⟨e, t, hslot, hlog⟩
  · simp [hslot, RecordGrows, hlog]
  · simp [hslot, RecordGrows, hlog]

theorem noEvidence_pokeRegistry (net : Net) {evidence : HealthPoke}
    (hevidence : evidence ≠ .chainAllFailed) (s : Fleet) :
    NoEvidence (pokeRegistry net evidence s) ↔ NoEvidence s := by
  unfold pokeRegistry
  split_ifs
  · simp [NoEvidence, hevidence.symm]
  · rfl

theorem noEvidence_chainAllFailed (net : Net) (s : Fleet) :
    NoEvidence (pokeRegistry net .chainAllFailed s) ↔ NoEvidence s ∧ net.registered = false := by
  unfold pokeRegistry
  split_ifs with hregistered
  · simp [NoEvidence, hregistered]
  · simp [hregistered]

theorem noEvidence_acquireSlot (net : Net) (point : AcquirePoint) (provider : String)
    (s : Fleet) : NoEvidence (acquireSlot net point provider s).2 ↔ NoEvidence s := by
  rcases acquireSlot_cases net point provider s with ⟨t, hslot, hlog⟩ | ⟨e, t, hslot, hlog⟩
  · simp [hslot, noEvidence_of_log hlog]
  · simp [hslot, noEvidence_of_log hlog]

section Endpoints

variable {T : Type*} {net : Net} {provider : String} {endpoint : Endpoint T} {s t : Fleet}
  {answer : Except ProviderError T}

theorem grows_of_use (huse : EndpointUse net provider endpoint s answer t) : RecordGrows s t := by
  cases huse with
  | unasked e hcheck => exact List.suffix_cons _ _
  | refused e t hslot hlog => simp [RecordGrows, hlog]
  | served answer u hslot hlog hcall =>
    simp only [RecordGrows, Fleet.record_log, hlog]
    exact (List.suffix_cons _ _).trans (List.suffix_cons _ _)
  | failed e t hlog =>
    simp only [RecordGrows, hlog]
    exact ((List.suffix_cons _ _).trans (List.suffix_cons _ _)).trans (List.suffix_cons _ _)

theorem noEvidence_of_use (huse : EndpointUse net provider endpoint s answer t) :
    NoEvidence t ↔ NoEvidence s := by
  cases huse with
  | unasked e hcheck => simp [NoEvidence]
  | refused e t hslot hlog => simp [NoEvidence, hlog]
  | served answer u hslot hlog hcall => simp [NoEvidence, hlog]
  | failed e t hlog => simp [NoEvidence, hlog]

theorem served_of_use {v : T} (huse : EndpointUse net provider endpoint s (.ok v) t) :
    ∃ u, acquireSlot net .paced provider s = (.ok (), u) ∧ endpoint.call u.turn = .ok v ∧
      t = u.record (.request provider) := by
  cases huse with
  | served v u hslot hlog hcall => exact ⟨u, hslot, hcall, rfl⟩

/-- With nothing but backpressure in the way, an endpoint that did not serve was refused its
slot. -/
theorem refused_of_onlyBackpressure {e : ProviderError}
    (huse : EndpointUse net provider endpoint s (.error e) t) (honly : OnlyBackpressure t) :
    ∃ a, pacerShouldSkipQueue a = true ∧ e = .pacer a ∧
      acquireSlot net .paced provider s = (.error a, t) := by
  cases huse with
  | unasked e hcheck => cases (honly.of_log rfl).1
  | refused a t hslot hlog => exact ⟨a, (honly.of_log hlog).1, rfl, hslot⟩
  | failed e t hlog =>
    have htolerable := honly (.met (.provider e)) (by simp [hlog])
    cases htolerable

end Endpoints

section ChainTry

variable {V T : Type*} [Provider V]

/-- From here on the walk of `chain_try` reports no failed chain: a provider gets
both its slots, or, from the first granted pace step on, there is none.
`granted` says whether a pace step was granted before. -/
def PaceHolds (net : Net) (capability : Capability) : List V → Bool → Fleet → Prop
  | [], granted, _ => granted = false
  | p :: chain, granted, s =>
    if Provider.supports p capability then
      match acquireSlot net .pace (Provider.name p) s with
      | (.error _, t) => PaceHolds net capability chain granted t
      | (.ok (), t) =>
        match acquireSlot net .paced (Provider.name p) t with
        | (.error _, u) => PaceHolds net capability chain true u
        | (.ok (), _) => True
    else
      PaceHolds net capability chain granted s

def tryRest (net : Net) (endpoint : V → Endpoint T) (capability : Capability) (whole : List V) :
    List V → Option ProviderError → Option AcquireSlotError → Fleet →
      Except ProviderError T × Fleet :=
  chainTryLoop (pokeRegistry net) (acquireSlot net .pace)
    (fun p => (endpoint p).fetch net (Provider.name p)) capability whole

variable (net : Net) (endpoint : V → Endpoint T) (capability : Capability) (whole : List V)

theorem grows_tryRest (chain : List V) (lastFetchErr : Option ProviderError)
    (lastPaceErr : Option AcquireSlotError) (s : Fleet) :
    RecordGrows s (tryRest net endpoint capability whole chain lastFetchErr lastPaceErr s).2 :=
  (grows_frame net).chainTryLoop (grows_acquireSlot net .pace)
    (fun p s => grows_of_use ((endpoint p).fetch_use net (Provider.name p) s)) capability whole
    chain lastFetchErr lastPaceErr s

variable {net endpoint capability whole}

/-- With nothing but backpressure in the way, `chain_try` reports a failed chain
exactly when its pace steps do not hold. -/
theorem noEvidence_tryRest {chain : List V} {lastFetchErr : Option ProviderError}
    {lastPaceErr : Option AcquireSlotError} {s : Fleet}
    (honly : OnlyBackpressure
      (tryRest net endpoint capability whole chain lastFetchErr lastPaceErr s).2) :
    NoEvidence (tryRest net endpoint capability whole chain lastFetchErr lastPaceErr s).2 ↔
      NoEvidence s ∧ (net.registered = true →
        PaceHolds net capability chain lastFetchErr.isSome s) := by
  induction chain generalizing lastFetchErr lastPaceErr s with
  | nil =>
    cases lastFetchErr with
    | some e => simpa [tryRest, chainTryLoop, PaceHolds] using noEvidence_chainAllFailed net s
    | none =>
      cases lastPaceErr with
      | some e => simp [tryRest, chainTryLoop, PaceHolds]
      | none =>
        simp only [tryRest, chainTryLoop, PaceHolds]
        split_ifs <;> simp
  | cons p chain ih =>
    simp only [tryRest, chainTryLoop, PaceHolds] at honly ⊢
    split_ifs at honly ⊢ with hsupports
    · have hquiet := noEvidence_acquireSlot net .pace (Provider.name p) s
      rcases hpace : acquireSlot net .pace (Provider.name p) s with ⟨granted, t⟩
      rw [hpace] at hquiet
      cases granted with
      | ok granted =>
        have huse := (endpoint p).fetch_use net (Provider.name p) t
        rcases hanswer : (endpoint p).fetch net (Provider.name p) t with ⟨answer, u⟩
        rw [hanswer] at huse
        simp only [hpace, hanswer] at honly ⊢
        cases answer with
        | ok v =>
          obtain ⟨w, hinner, -⟩ := served_of_use huse
          rw [noEvidence_pokeRegistry net (by simp), noEvidence_pokeRegistry net (by simp),
            noEvidence_of_use huse, hquiet]
          simp [hinner]
        | error e =>
          have hrest := (grows_frame net).trans ((grows_frame net).pokeFailure p e u)
            (grows_tryRest net endpoint capability whole chain (some e) lastPaceErr _)
          obtain ⟨a, -, rfl, hinner⟩ := refused_of_onlyBackpressure huse (honly.of_grows hrest)
          simp only [hinner]
          rw [← hquiet, ← noEvidence_of_use huse]
          exact ih honly
      | error e =>
        simp only [hpace] at honly ⊢
        rw [← hquiet]
        exact ih honly
    · exact ih honly

/-- With nothing but backpressure in the way, `chain_try` serves or surfaces a
refusal the worker skips for. -/
theorem tryRest_backpressure {chain : List V} {lastFetchErr : Option ProviderError}
    {lastPaceErr : Option AcquireSlotError} {s : Fleet}
    (honly : OnlyBackpressure
      (tryRest net endpoint capability whole chain lastFetchErr lastPaceErr s).2)
    (hfetch : ∀ e ∈ lastFetchErr, ∃ a, pacerShouldSkipQueue a = true ∧ e = .pacer a)
    (hpace : ∀ a ∈ lastPaceErr, pacerShouldSkipQueue a = true)
    (hasked : Capable chain capability ∨ lastFetchErr ≠ none ∨ lastPaceErr ≠ none) :
    (∃ v, (tryRest net endpoint capability whole chain lastFetchErr lastPaceErr s).1 = .ok v) ∨
      ∃ a, pacerShouldSkipQueue a = true ∧
        (tryRest net endpoint capability whole chain lastFetchErr lastPaceErr s).1 =
          .error (.pacer a) := by
  induction chain generalizing lastFetchErr lastPaceErr s with
  | nil =>
    cases lastFetchErr with
    | some e =>
      obtain ⟨a, hskip, rfl⟩ := hfetch e rfl
      exact Or.inr ⟨a, hskip, rfl⟩
    | none =>
      cases lastPaceErr with
      | some a => exact Or.inr ⟨a, hpace a rfl, rfl⟩
      | none => simp [Capable] at hasked
  | cons p chain ih =>
    simp only [tryRest, chainTryLoop] at honly ⊢
    split_ifs at honly ⊢ with hsupports
    · rcases acquireSlot_cases net .pace (Provider.name p) s with
        ⟨t, hslot, hlog⟩ | ⟨a, t, hslot, hlog⟩
      · have huse := (endpoint p).fetch_use net (Provider.name p) t
        rcases hanswer : (endpoint p).fetch net (Provider.name p) t with ⟨answer, u⟩
        rw [hanswer] at huse
        simp only [hslot, hanswer] at honly ⊢
        cases answer with
        | ok v => exact Or.inl ⟨v, rfl⟩
        | error e =>
          have hrest := (grows_frame net).trans ((grows_frame net).pokeFailure p e u)
            (grows_tryRest net endpoint capability whole chain (some e) lastPaceErr _)
          obtain ⟨a, hskip, rfl, -⟩ := refused_of_onlyBackpressure huse (honly.of_grows hrest)
          exact ih honly (by simp [hskip]) hpace (Or.inr (Or.inl (by simp)))
      · simp only [hslot] at honly ⊢
        have hrest : OnlyBackpressure t := honly.of_grows
          (grows_tryRest net endpoint capability whole chain lastFetchErr (some a) t)
        have hskip : pacerShouldSkipQueue a = true := (hrest.of_log hlog).1
        exact ih honly hfetch (by simp [hskip]) (Or.inr (Or.inr (by simp)))
    · refine ih honly hfetch hpace (hasked.imp_left ?_)
      rintro ⟨q, hq, hqs⟩
      rcases List.mem_cons.mp hq with rfl | hq
      · exact absurd hqs hsupports
      · exact ⟨q, hq, hqs⟩

end ChainTry

section OhlcWalks

variable {V : Type*} [Provider V]

/-- One of the providers of candles is granted its slot, those before it refused. -/
def Admitted (net : Net) : List V → Fleet → Prop
  | [], _ => False
  | p :: chain, s =>
    if Provider.supports p .ohlc then
      match acquireSlot net .paced (Provider.name p) s with
      | (.error _, t) => Admitted net chain t
      | (.ok (), _) => True
    else
      Admitted net chain s

/-- From here on the walk by range ends without an error: a provider answers with
candles, or none is refused its slot. `refused` says whether one was before. -/
def RangeHolds (net : Net) (endpoint : V → Endpoint (List OhlcCandle)) :
    List V → Bool → Fleet → Prop
  | [], refused, _ => refused = false
  | p :: chain, refused, s =>
    if Provider.supports p .ohlcRange then
      match acquireSlot net .paced (Provider.name p) s with
      | (.error _, t) => RangeHolds net endpoint chain true t
      | (.ok (), t) =>
        (∃ c candles, (endpoint p).call t.turn = .ok (c :: candles)) ∨
          RangeHolds net endpoint chain refused
            (pokeRegistry net (.providerSuccess (Provider.name p))
              (t.record (.request (Provider.name p))))
    else
      RangeHolds net endpoint chain refused s

def ohlcRest (net : Net) (endpoint : V → Endpoint (List OhlcCandle)) (whole : List V) :
    List V → List AttemptRecord → Option ProviderError → Fleet →
      (Except ProviderError (List OhlcCandle) × List AttemptRecord) × Fleet :=
  chainFetchOhlcInLoop (pokeRegistry net) (fun p => (endpoint p).fetch net (Provider.name p)) whole

def rangeRest (net : Net) (endpoint : V → Endpoint (List OhlcCandle)) :
    List V → List AttemptRecord → Option ProviderError → Fleet →
      (Except ProviderError (List OhlcCandle) × List AttemptRecord) × Fleet :=
  chainFetchOhlcRangeInLoop (pokeRegistry net) fun p => (endpoint p).fetch net (Provider.name p)

theorem noEvidence_observe (net : Net) {records : List AttemptRecord}
    (hrecords : AnySuccess records ∨ ∀ r ∈ records, r.outcome ≠ .failure) (s : Fleet) :
    NoEvidence (observe (pokeRegistry net) records s) ↔ NoEvidence s := by
  by_cases hany : AnySuccess records
  · simp only [observe, observeChainRecords_of_anySuccess hany]
    exact noEvidence_pokeRegistry net (by simp) s
  · have hunsupported : ∀ r ∈ records, r.outcome = .unsupported := by
      intro r hr
      have hfailure := hrecords.resolve_left hany r hr
      cases houtcome : r.outcome with
      | success => exact absurd ⟨r, hr, houtcome⟩ hany
      | failure => exact absurd houtcome hfailure
      | unsupported => rfl
    simp only [observe, observeChainRecords_of_unsupported hunsupported]

theorem noEvidence_pokeFailure (net : Net) (p : V) (e : ProviderError) (s : Fleet) :
    NoEvidence (pokeFailure (pokeRegistry net) p e s) ↔ NoEvidence s := by
  unfold pokeFailure
  split_ifs
  · exact noEvidence_pokeRegistry net (by simp) s
  · rfl

theorem anySuccess_append (records : List AttemptRecord) (p : V) (capability : Capability) :
    AnySuccess (records ++ [attempt p capability .success]) :=
  ⟨attempt p capability .success, by simp, rfl⟩

variable (net : Net) (endpoint : V → Endpoint (List OhlcCandle))

theorem grows_ohlcRest (whole chain : List V) (records : List AttemptRecord)
    (lastErr : Option ProviderError) (s : Fleet) :
    RecordGrows s (ohlcRest net endpoint whole chain records lastErr s).2 :=
  (grows_frame net).chainFetchOhlcInLoop
    (fun p s => grows_of_use ((endpoint p).fetch_use net (Provider.name p) s)) whole chain
    records lastErr s

theorem grows_rangeRest (chain : List V) (records : List AttemptRecord)
    (lastErr : Option ProviderError) (s : Fleet) :
    RecordGrows s (rangeRest net endpoint chain records lastErr s).2 :=
  (grows_frame net).chainFetchOhlcRangeInLoop
    (fun p s => grows_of_use ((endpoint p).fetch_use net (Provider.name p) s)) chain records
    lastErr s

variable {net endpoint}

/-- With nothing but backpressure in the way `chain_fetch_ohlc` serves exactly when
a provider is granted its slot. -/
theorem ohlcRest_ok_iff {whole chain : List V} {records : List AttemptRecord}
    {lastErr : Option ProviderError} {s : Fleet}
    (honly : OnlyBackpressure (ohlcRest net endpoint whole chain records lastErr s).2) :
    (∃ candles, (ohlcRest net endpoint whole chain records lastErr s).1.1 = .ok candles) ↔
      Admitted net chain s := by
  induction chain generalizing records lastErr s with
  | nil =>
    cases lastErr with
    | some e => simp [ohlcRest, chainFetchOhlcInLoop, Admitted]
    | none =>
      simp only [ohlcRest, chainFetchOhlcInLoop, Admitted]
      split_ifs <;> simp
  | cons p chain ih =>
    simp only [ohlcRest, chainFetchOhlcInLoop, Admitted] at honly ⊢
    split_ifs at honly ⊢ with hsupports
    · have huse := (endpoint p).fetch_use net (Provider.name p) s
      rcases hanswer : (endpoint p).fetch net (Provider.name p) s with ⟨answer, t⟩
      rw [hanswer] at huse
      simp only [hanswer] at honly ⊢
      cases answer with
      | ok candles =>
        obtain ⟨u, hslot, -⟩ := served_of_use huse
        simp [hslot]
      | error e =>
        have hrest := (grows_frame net).trans ((grows_frame net).pokeFailure p e t)
          (grows_ohlcRest net endpoint whole chain (records ++ [attempt p .ohlc .failure])
            (some e) _)
        obtain ⟨a, -, rfl, hslot⟩ := refused_of_onlyBackpressure huse (honly.of_grows hrest)
        simp only [hslot]
        exact ih honly
    · exact ih honly

theorem noEvidence_ohlcRest {whole chain : List V} {records : List AttemptRecord}
    {lastErr : Option ProviderError} {s : Fleet} {candles : List OhlcCandle}
    (hok : (ohlcRest net endpoint whole chain records lastErr s).1.1 = .ok candles) :
    NoEvidence (ohlcRest net endpoint whole chain records lastErr s).2 ↔ NoEvidence s := by
  induction chain generalizing records lastErr s with
  | nil =>
    cases lastErr with
    | some e => cases hok
    | none =>
      simp only [ohlcRest, chainFetchOhlcInLoop] at hok
      split_ifs at hok
  | cons p chain ih =>
    simp only [ohlcRest, chainFetchOhlcInLoop] at hok ⊢
    split_ifs at hok ⊢ with hsupports
    · have huse := (endpoint p).fetch_use net (Provider.name p) s
      rcases hanswer : (endpoint p).fetch net (Provider.name p) s with ⟨answer, t⟩
      rw [hanswer] at huse
      simp only [hanswer] at hok ⊢
      cases answer with
      | ok candles =>
        rw [noEvidence_observe net (Or.inl (anySuccess_append records p .ohlc)),
          noEvidence_pokeRegistry net (by simp), noEvidence_of_use huse]
      | error e =>
        rw [← noEvidence_of_use huse, ← noEvidence_pokeFailure net p e t]
        exact ih hok
    · exact ih hok

/-- With nothing but backpressure in the way `chain_fetch_ohlc_range` ends without
an error exactly when the range holds. -/
theorem rangeRest_ok_iff {chain : List V} {records : List AttemptRecord}
    {lastErr : Option ProviderError} {s : Fleet}
    (honly : OnlyBackpressure (rangeRest net endpoint chain records lastErr s).2) :
    (∃ candles, (rangeRest net endpoint chain records lastErr s).1.1 = .ok candles) ↔
      RangeHolds net endpoint chain lastErr.isSome s := by
  induction chain generalizing records lastErr s with
  | nil => cases lastErr <;> simp [rangeRest, chainFetchOhlcRangeInLoop, RangeHolds]
  | cons p chain ih =>
    simp only [rangeRest, chainFetchOhlcRangeInLoop, RangeHolds] at honly ⊢
    split_ifs at honly ⊢ with hsupports
    · have huse := (endpoint p).fetch_use net (Provider.name p) s
      rcases hanswer : (endpoint p).fetch net (Provider.name p) s with ⟨answer, t⟩
      rw [hanswer] at huse
      simp only [hanswer] at honly ⊢
      cases answer with
      | ok candles =>
        obtain ⟨u, hslot, hcall, rfl⟩ := served_of_use huse
        cases candles with
        | nil =>
          simp only [hslot, hcall]
          simpa [rangeRest] using ih honly
        | cons c candles => simp [hslot, hcall]
      | error e =>
        have hrest := (grows_frame net).trans ((grows_frame net).pokeFailure p e t)
          (grows_rangeRest net endpoint chain (records ++ [attempt p .ohlcRange .failure])
            (some e) _)
        obtain ⟨a, -, rfl, hslot⟩ := refused_of_onlyBackpressure huse (honly.of_grows hrest)
        simp only [hslot]
        exact ih honly
    · exact ih honly

/-- A walk of `chain_fetch_ohlc_range` that ends without an error leaves no
evidence: as long as none is kept, no attempt on record failed. -/
theorem noEvidence_rangeRest {chain : List V} {records : List AttemptRecord}
    {lastErr : Option ProviderError} {s : Fleet} {candles : List OhlcCandle}
    (hrecords : lastErr = none → ∀ r ∈ records, r.outcome ≠ .failure)
    (hok : (rangeRest net endpoint chain records lastErr s).1.1 = .ok candles) :
    NoEvidence (rangeRest net endpoint chain records lastErr s).2 ↔ NoEvidence s := by
  induction chain generalizing records lastErr s with
  | nil =>
    cases lastErr with
    | some e => cases hok
    | none => exact noEvidence_observe net (Or.inr (hrecords rfl)) s
  | cons p chain ih =>
    have hkept : ∀ outcome, outcome ≠ .failure → lastErr = none →
        ∀ r ∈ records ++ [attempt p .ohlcRange outcome], r.outcome ≠ .failure := by
      intro outcome houtcome hnone r hr
      rcases List.mem_append.mp hr with hold | hnew
      · exact hrecords hnone r hold
      · obtain rfl := List.mem_singleton.mp hnew
        exact houtcome
    simp only [rangeRest, chainFetchOhlcRangeInLoop] at hok ⊢
    split_ifs at hok ⊢ with hsupports
    · have huse := (endpoint p).fetch_use net (Provider.name p) s
      rcases hanswer : (endpoint p).fetch net (Provider.name p) s with ⟨answer, t⟩
      rw [hanswer] at huse
      simp only [hanswer] at hok ⊢
      have hpoked : NoEvidence (pokeRegistry net (.providerSuccess (Provider.name p)) t) ↔
          NoEvidence s := by
        rw [noEvidence_pokeRegistry net (by simp), noEvidence_of_use huse]
      cases answer with
      | ok answered =>
        cases answered with
        | nil =>
          rw [← hpoked]
          exact ih (hkept .success (by simp)) hok
        | cons c answered =>
          rw [← hpoked]
          exact noEvidence_observe net (Or.inl (anySuccess_append records p .ohlcRange)) _
      | error e =>
        rw [← noEvidence_of_use huse, ← noEvidence_pokeFailure net p e t]
        exact ih (by simp) hok
    · exact ih (hkept .unsupported (by simp)) hok

end OhlcWalks

end CryptoCollector.Collectors
