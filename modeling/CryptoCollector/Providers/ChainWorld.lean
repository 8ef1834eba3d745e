import CryptoCollector.Providers.Chain

/-!
# The chain in a world

A walk of the chain does more than return: slots are taken, requests go out and
the health registry is poked. The walks here pass the state all of this happens
in along, so that what a provider answers may depend on it. Over a state nothing
touches they are the walks of the chain itself.
-/

namespace CryptoCollector.Providers
open Models Pacer

inductive HealthPoke where
  | providerSuccess (provider : String)
  | providerNetworkFailure (provider : String)
  | chainSuccess
  | chainAllFailed
  | upsertSuccess
  | upsertFailure
  deriving DecidableEq, Repr

/-- `matches!(e, ProviderError::Network(_))`. -/
def ProviderError.isNetwork : ProviderError → Bool
  | .network _ => true
  | _ => false

/-- `observe_chain_records`: a member without the capability is no evidence. -/
def observeChainRecords (records : List AttemptRecord) : Option HealthPoke :=
  let attempted := records.filter fun r => r.outcome ≠ .unsupported
  if attempted.isEmpty then
    none
  else if attempted.any fun r => r.outcome = .success then
    some .chainSuccess
  else if attempted.all fun r => r.outcome = .failure then
    some .chainAllFailed
  else
    none

def AnySuccess (records : List AttemptRecord) : Prop := ∃ r ∈ records, r.outcome = .success

theorem observeChainRecords_of_anySuccess {records : List AttemptRecord}
    (h : AnySuccess records) : observeChainRecords records = some .chainSuccess := by
  obtain ⟨r, hr, hsuccess⟩ := h
  have hmem : r ∈ records.filter fun r => r.outcome ≠ .unsupported := by
    simp [hr, hsuccess]
  have hnonempty : (records.filter fun r => r.outcome ≠ .unsupported).isEmpty = false :=
    List.isEmpty_eq_false_iff.mpr (List.ne_nil_of_mem hmem)
  have hany : (records.filter fun r => r.outcome ≠ .unsupported).any
      (fun r => r.outcome = .success) = true :=
    List.any_eq_true.mpr ⟨r, hmem, by simpa using hsuccess⟩
  simp only [observeChainRecords, hnonempty, hany]
  rfl

theorem observeChainRecords_of_unsupported {records : List AttemptRecord}
    (h : ∀ r ∈ records, r.outcome = .unsupported) : observeChainRecords records = none := by
  have hnone : (records.filter fun r => r.outcome ≠ .unsupported) = [] := by
    simpa [List.filter_eq_nil_iff] using h
  simp only [observeChainRecords, hnone]
  rfl

variable {V σ T : Type*} [Provider V]

/-- A failed fetch: only a network error counts against the provider. -/
def pokeFailure (poke : HealthPoke → σ → σ) (p : V) (e : ProviderError) (s : σ) : σ :=
  if e.isNetwork then poke (.providerNetworkFailure (Provider.name p)) s else s

def observe (poke : HealthPoke → σ → σ) (records : List AttemptRecord) (s : σ) : σ :=
  match observeChainRecords records with
  | some evidence => poke evidence s
  | none => s

/-- The loop of `chain_fetch_ohlc`; `whole` is the chain it walks. -/
def chainFetchOhlcInLoop (poke : HealthPoke → σ → σ)
    (fetch : V → σ → Except ProviderError (List OhlcCandle) × σ) (whole : List V) :
    List V → List AttemptRecord → Option ProviderError → σ →
      (Except ProviderError (List OhlcCandle) × List AttemptRecord) × σ
  | [], records, some e, s => ((.error e, records), observe poke records s)
  | [], records, none, s =>
    if whole.isEmpty then
      ((.error (.other "empty provider chain"), records), observe poke records s)
    else
      ((.error (.noCapableProvider .ohlc), records), observe poke records s)
  | p :: chain, records, lastErr, s =>
    if Provider.supports p .ohlc then
      match fetch p s with
      | (.ok candles, s) =>
        let records := records ++ [attempt p .ohlc .success]
        ((.ok candles, records),
          observe poke records (poke (.providerSuccess (Provider.name p)) s))
      | (.error e, s) =>
        chainFetchOhlcInLoop poke fetch whole chain (records ++ [attempt p .ohlc .failure])
          (some e) (pokeFailure poke p e s)
    else
      chainFetchOhlcInLoop poke fetch whole chain (records ++ [attempt p .ohlc .unsupported])
        lastErr s

def chainFetchOhlcIn (poke : HealthPoke → σ → σ)
    (fetch : V → σ → Except ProviderError (List OhlcCandle) × σ) (chain : List V) (s : σ) :
    (Except ProviderError (List OhlcCandle) × List AttemptRecord) × σ :=
  chainFetchOhlcInLoop poke fetch chain chain [] none s

def chainFetchOhlcRangeInLoop (poke : HealthPoke → σ → σ)
    (fetch : V → σ → Except ProviderError (List OhlcCandle) × σ) :
    List V → List AttemptRecord → Option ProviderError → σ →
      (Except ProviderError (List OhlcCandle) × List AttemptRecord) × σ
  | [], records, some e, s => ((.error e, records), observe poke records s)
  | [], records, none, s => ((.ok [], records), observe poke records s)
  | p :: chain, records, lastErr, s =>
    if Provider.supports p .ohlcRange then
      match fetch p s with
      | (.ok candles, s) =>
        let records := records ++ [attempt p .ohlcRange .success]
        if candles.isEmpty then
          chainFetchOhlcRangeInLoop poke fetch chain records lastErr
            (poke (.providerSuccess (Provider.name p)) s)
        else
          ((.ok candles, records),
            observe poke records (poke (.providerSuccess (Provider.name p)) s))
      | (.error e, s) =>
        chainFetchOhlcRangeInLoop poke fetch chain
          (records ++ [attempt p .ohlcRange .failure]) (some e) (pokeFailure poke p e s)
    else
      chainFetchOhlcRangeInLoop poke fetch chain
        (records ++ [attempt p .ohlcRange .unsupported]) lastErr s

def chainFetchOhlcRangeIn (poke : HealthPoke → σ → σ)
    (fetch : V → σ → Except ProviderError (List OhlcCandle) × σ) (chain : List V) (s : σ) :
    (Except ProviderError (List OhlcCandle) × List AttemptRecord) × σ :=
  chainFetchOhlcRangeInLoop poke fetch chain [] none s

/-- The loop of `chain_try`; `whole` is the chain it walks. -/
def chainTryLoop (poke : HealthPoke → σ → σ)
    (pace : String → σ → Except AcquireSlotError Unit × σ)
    (fetch : V → σ → Except ProviderError T × σ) (capability : Capability) (whole : List V) :
    List V → Option ProviderError → Option AcquireSlotError → σ → Except ProviderError T × σ
  | [], some e, _, s => (.error e, poke .chainAllFailed s)
  | [], none, some e, s => (.error (.pacer e), s)
  | [], none, none, s =>
    if whole.isEmpty then
      (.error (.other "empty provider chain"), s)
    else
      (.error (.noCapableProvider capability), s)
  | p :: chain, lastFetchErr, lastPaceErr, s =>
    if Provider.supports p capability then
      match pace (Provider.name p) s with
      | (.error e, s) =>
        chainTryLoop poke pace fetch capability whole chain lastFetchErr (some e) s
      | (.ok (), s) =>
        match fetch p s with
        | (.ok v, s) =>
          (.ok v, poke .chainSuccess (poke (.providerSuccess (Provider.name p)) s))
        | (.error e, s) =>
          chainTryLoop poke pace fetch capability whole chain (some e) lastPaceErr
            (pokeFailure poke p e s)
    else
      chainTryLoop poke pace fetch capability whole chain lastFetchErr lastPaceErr s

/-- `chain_try`: the first success wins, a member whose pace step is refused is
passed over, and a failed fetch outranks a refused pace step. -/
def chainTry (poke : HealthPoke → σ → σ) (pace : String → σ → Except AcquireSlotError Unit × σ)
    (fetch : V → σ → Except ProviderError T × σ) (capability : Capability) (chain : List V)
    (s : σ) : Except ProviderError T × σ :=
  chainTryLoop poke pace fetch capability chain chain none none s

section Relations

variable {poke : HealthPoke → σ → σ} {R : σ → σ → Prop}

/-- A relation between earlier and later states that a poke respects. -/
structure PokeFrame (poke : HealthPoke → σ → σ) (R : σ → σ → Prop) : Prop where
  refl : ∀ s, R s s
  trans : ∀ {s t u}, R s t → R t u → R s u
  poke : ∀ evidence s, R s (poke evidence s)

theorem PokeFrame.pokeFailure (h : PokeFrame poke R) (p : V) (e : ProviderError) (s : σ) :
    R s (pokeFailure poke p e s) := by
  unfold Providers.pokeFailure
  split_ifs
  · exact h.poke _ s
  · exact h.refl s

theorem PokeFrame.observe (h : PokeFrame poke R) (records : List AttemptRecord) (s : σ) :
    R s (observe poke records s) := by
  unfold Providers.observe
  cases observeChainRecords records with
  | none => exact h.refl s
  | some evidence => exact h.poke evidence s

theorem PokeFrame.chainFetchOhlcInLoop (h : PokeFrame poke R)
    {fetch : V → σ → Except ProviderError (List OhlcCandle) × σ}
    (hfetch : ∀ p s, R s (fetch p s).2) (whole chain : List V) (records : List AttemptRecord)
    (lastErr : Option ProviderError) (s : σ) :
    R s (chainFetchOhlcInLoop poke fetch whole chain records lastErr s).2 := by
  induction chain generalizing records lastErr s with
  | nil =>
    cases lastErr with
    | some e => exact h.observe records s
    | none =>
      simp only [Providers.chainFetchOhlcInLoop]
      split_ifs <;> exact h.observe records s
  | cons p chain ih =>
    have hstep := hfetch p s
    simp only [Providers.chainFetchOhlcInLoop]
    split_ifs
    · rcases hanswer : fetch p s with ⟨answer, t⟩
      rw [hanswer] at hstep
      cases answer with
      | ok candles => exact h.trans hstep (h.trans (h.poke _ t) (h.observe _ _))
      | error e => exact h.trans hstep (h.trans (h.pokeFailure p e t) (ih _ _ _))
    · exact ih _ _ _

theorem PokeFrame.chainFetchOhlcRangeInLoop (h : PokeFrame poke R)
    {fetch : V → σ → Except ProviderError (List OhlcCandle) × σ}
    (hfetch : ∀ p s, R s (fetch p s).2) (chain : List V) (records : List AttemptRecord)
    (lastErr : Option ProviderError) (s : σ) :
    R s (chainFetchOhlcRangeInLoop poke fetch chain records lastErr s).2 := by
  induction chain generalizing records lastErr s with
  | nil => cases lastErr <;> exact h.observe records s
  | cons p chain ih =>
    have hstep := hfetch p s
    simp only [Providers.chainFetchOhlcRangeInLoop]
    split_ifs
    · rcases hanswer : fetch p s with ⟨answer, t⟩
      rw [hanswer] at hstep
      cases answer with
      | ok candles =>
        have hpoked := h.trans hstep (h.poke (.providerSuccess (Provider.name p)) t)
        by_cases hempty : candles.isEmpty
        · simp only [hempty, if_pos]
          exact h.trans hpoked (ih _ _ _)
        · simp only [hempty]
          exact h.trans hpoked (h.observe _ _)
      | error e => exact h.trans hstep (h.trans (h.pokeFailure p e t) (ih _ _ _))
    · exact ih _ _ _

theorem PokeFrame.chainTryLoop (h : PokeFrame poke R)
    {pace : String → σ → Except AcquireSlotError Unit × σ}
    {fetch : V → σ → Except ProviderError T × σ} (hpace : ∀ name s, R s (pace name s).2)
    (hfetch : ∀ p s, R s (fetch p s).2) (capability : Capability) (whole chain : List V)
    (lastFetchErr : Option ProviderError) (lastPaceErr : Option AcquireSlotError) (s : σ) :
    R s (chainTryLoop poke pace fetch capability whole chain lastFetchErr lastPaceErr s).2 := by
  induction chain generalizing lastFetchErr lastPaceErr s with
  | nil =>
    cases lastFetchErr with
    | some e => exact h.poke _ s
    | none =>
      cases lastPaceErr with
      | some e => exact h.refl s
      | none =>
        simp only [Providers.chainTryLoop]
        split_ifs <;> exact h.refl s
  | cons p chain ih =>
    have hslot := hpace (Provider.name p) s
    simp only [Providers.chainTryLoop]
    split_ifs
    · rcases hpaced : pace (Provider.name p) s with ⟨granted, t⟩
      rw [hpaced] at hslot
      cases granted with
      | error e => exact h.trans hslot (ih _ _ _)
      | ok granted =>
        cases granted
        have hstep := h.trans hslot (hfetch p t)
        rcases hanswer : fetch p t with ⟨answer, u⟩
        rw [hanswer] at hstep
        simp only [hanswer]
        cases answer with
        | ok v => exact h.trans hstep (h.trans (h.poke _ u) (h.poke _ _))
        | error e => exact h.trans hstep (h.trans (h.pokeFailure p e u) (ih _ _ _))
    · exact ih _ _ _

end Relations

section Answers

variable {request : OhlcRequest} {rangeRequest : RangeRequest}

theorem chainFetchOhlcLoop_congr
    {fetch fetch' : V → OhlcRequest → Except ProviderError (List OhlcCandle)} (whole : List V)
    {chain : List V} (h : ∀ p ∈ chain, fetch p request = fetch' p request)
    (records : List AttemptRecord) (lastErr : Option ProviderError) :
    chainFetchOhlcLoop fetch request whole chain records lastErr =
      chainFetchOhlcLoop fetch' request whole chain records lastErr := by
  induction chain generalizing records lastErr with
  | nil => cases lastErr <;> rfl
  | cons p chain ih =>
    have hrest := ih fun q hq => h q (List.mem_cons_of_mem _ hq)
    simp only [chainFetchOhlcLoop, h p List.mem_cons_self, hrest]

theorem chainFetchOhlcRangeLoop_congr
    {fetch fetch' : V → RangeRequest → Except ProviderError (List OhlcCandle)}
    {chain : List V} (h : ∀ p ∈ chain, fetch p rangeRequest = fetch' p rangeRequest)
    (records : List AttemptRecord) (lastErr : Option ProviderError) :
    chainFetchOhlcRangeLoop fetch rangeRequest chain records lastErr =
      chainFetchOhlcRangeLoop fetch' rangeRequest chain records lastErr := by
  induction chain generalizing records lastErr with
  | nil => cases lastErr <;> rfl
  | cons p chain ih =>
    have hrest := ih fun q hq => h q (List.mem_cons_of_mem _ hq)
    simp only [chainFetchOhlcRangeLoop, h p List.mem_cons_self, hrest]

variable (poke : HealthPoke → σ → σ)
  (fetch : V → σ → Except ProviderError (List OhlcCandle) × σ)

/-- Over a chain that names nobody twice the walk returns what the walk without a
world does, for the answers it got. -/
theorem chainFetchOhlcInLoop_eq (whole : List V) {chain : List V} (hnodup : chain.Nodup)
    (request : OhlcRequest) (records : List AttemptRecord) (lastErr : Option ProviderError)
    (s : σ) :
    ∃ answer : V → OhlcRequest → Except ProviderError (List OhlcCandle),
      (chainFetchOhlcInLoop poke fetch whole chain records lastErr s).1 =
        chainFetchOhlcLoop answer request whole chain records lastErr := by
  classical
  induction chain generalizing records lastErr s with
  | nil =>
    refine ⟨fun _ _ => .ok [], ?_⟩
    cases lastErr with
    | some e => rfl
    | none =>
      simp only [chainFetchOhlcInLoop, chainFetchOhlcLoop]
      split_ifs <;> rfl
  | cons p chain ih =>
    obtain ⟨hnot, hrest⟩ := List.nodup_cons.mp hnodup
    have hother : ∀ (answer : V → OhlcRequest → Except ProviderError (List OhlcCandle)) first,
        ∀ q ∈ chain, answer q request = Function.update answer p first q request := by
      intro answer first q hq
      rw [Function.update_of_ne (ne_of_mem_of_not_mem hq hnot)]
    simp only [chainFetchOhlcInLoop, chainFetchOhlcLoop]
    by_cases hsupports : Provider.supports p .ohlc = true
    · simp only [hsupports, if_pos]
      rcases fetch p s with ⟨first, t⟩
      cases first with
      | ok candles => exact ⟨fun _ _ => .ok candles, rfl⟩
      | error e =>
        obtain ⟨answer, hanswer⟩ := ih hrest (records ++ [attempt p .ohlc .failure]) (some e)
          (pokeFailure poke p e t)
        refine ⟨Function.update answer p fun _ => .error e, ?_⟩
        simp only [Function.update_self, hanswer]
        exact chainFetchOhlcLoop_congr whole (hother answer _) _ _
    · simp only [hsupports]
      exact ih hrest _ _ _

theorem chainFetchOhlcRangeInLoop_eq {chain : List V} (hnodup : chain.Nodup)
    (request : RangeRequest) (records : List AttemptRecord) (lastErr : Option ProviderError)
    (s : σ) :
    ∃ answer : V → RangeRequest → Except ProviderError (List OhlcCandle),
      (chainFetchOhlcRangeInLoop poke fetch chain records lastErr s).1 =
        chainFetchOhlcRangeLoop answer request chain records lastErr := by
  classical
  induction chain generalizing records lastErr s with
  | nil =>
    refine ⟨fun _ _ => .ok [], ?_⟩
    cases lastErr <;> rfl
  | cons p chain ih =>
    obtain ⟨hnot, hrest⟩ := List.nodup_cons.mp hnodup
    have hother : ∀ (answer : V → RangeRequest → Except ProviderError (List OhlcCandle)) first,
        ∀ q ∈ chain, answer q request = Function.update answer p first q request := by
      intro answer first q hq
      rw [Function.update_of_ne (ne_of_mem_of_not_mem hq hnot)]
    simp only [chainFetchOhlcRangeInLoop, chainFetchOhlcRangeLoop]
    by_cases hsupports : Provider.supports p .ohlcRange = true
    · simp only [hsupports, if_pos]
      rcases fetch p s with ⟨first, t⟩
      cases first with
      | ok candles =>
        by_cases hempty : candles.isEmpty
        · obtain ⟨answer, hanswer⟩ := ih hrest (records ++ [attempt p .ohlcRange .success])
            lastErr (poke (.providerSuccess (Provider.name p)) t)
          refine ⟨Function.update answer p fun _ => .ok candles, ?_⟩
          simp only [Function.update_self, hempty, if_pos, hanswer]
          exact chainFetchOhlcRangeLoop_congr (hother answer _) _ _
        · refine ⟨fun _ _ => .ok candles, ?_⟩
          simp [hempty]
      | error e =>
        obtain ⟨answer, hanswer⟩ := ih hrest (records ++ [attempt p .ohlcRange .failure])
          (some e) (pokeFailure poke p e t)
        refine ⟨Function.update answer p fun _ => .error e, ?_⟩
        simp only [Function.update_self, hanswer]
        exact chainFetchOhlcRangeLoop_congr (hother answer _) _ _
    · simp only [hsupports]
      exact ih hrest _ _ _

end Answers

end CryptoCollector.Providers
