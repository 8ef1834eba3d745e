import CryptoCollector.Alarm.Registry
import CryptoCollector.Foundations.FirstStop

/-!
# What a walk of the chain comes to

The three walks of the chain, run over any outside world with every call and its
answer on record and the health registry beside. Each is described by its attempts
alone: the members with the capability in declared order, up to the one that
settles the matter. The result, the calls made and what the registry is told are
read off them.
-/

namespace CryptoCollector.Providers
open Models Pacer Foundations Alarm

variable {V ω T : Type*}

/-- A call the chain makes, with its answer. -/
inductive ChainCall (V T : Type*) where
  | paced (provider : String) (answer : Except AcquireSlotError Unit)
  | fetched (provider : V) (answer : Except ProviderError T)

/-- The outside world, the calls so far, the registry when one is wired and how
many pokes it was shown. -/
structure Watched (ω V T : Type*) where
  world : ω
  calls : List (ChainCall V T)
  registry : Option HealthRegistry
  pokes : ℕ

def Watched.after (clock : ℕ → ℤ) (s : Watched ω V T) (world : ω) (calls : List (ChainCall V T))
    (pokes : List HealthPoke) : Watched ω V T :=
  ⟨world, s.calls ++ calls, s.registry.map (HealthRegistry.recordAll clock s.pokes pokes),
    s.pokes + pokes.length⟩

@[simp] theorem Watched.after_world (clock : ℕ → ℤ) (s : Watched ω V T) (w : ω)
    (calls : List (ChainCall V T)) (pokes : List HealthPoke) :
    (s.after clock w calls pokes).world = w := rfl

theorem Watched.after_nil (clock : ℕ → ℤ) (s : Watched ω V T) :
    s.after clock s.world [] [] = s := by
  obtain ⟨world, calls, registry, pokes⟩ := s
  cases registry <;> simp [Watched.after, HealthRegistry.recordAll]

theorem Watched.after_after (clock : ℕ → ℤ) (s : Watched ω V T) (w w' : ω)
    (calls calls' : List (ChainCall V T)) (pokes pokes' : List HealthPoke) :
    (s.after clock w calls pokes).after clock w' calls' pokes' =
      s.after clock w' (calls ++ calls') (pokes ++ pokes') := by
  cases hreg : s.registry with
  | none => simp [Watched.after, hreg, Nat.add_assoc]
  | some reg => simp [Watched.after, hreg, Nat.add_assoc, HealthRegistry.recordAll_append]

/-- The registry is poked at the instant its clock shows. -/
def watchPoke (clock : ℕ → ℤ) (evidence : HealthPoke) (s : Watched ω V T) : Watched ω V T :=
  { s with
    registry := s.registry.map (HealthRegistry.record (clock s.pokes) evidence)
    pokes := s.pokes + 1 }

/-- A pace step, put on record. -/
def watchPace (pace : String → ω → Except AcquireSlotError Unit × ω) (provider : String)
    (s : Watched ω V T) : Except AcquireSlotError Unit × Watched ω V T :=
  let (answer, world) := pace provider s.world
  (answer, { s with world := world, calls := s.calls ++ [.paced provider answer] })

/-- A fetch, put on record. -/
def watchFetch (fetch : V → ω → Except ProviderError T × ω) (p : V) (s : Watched ω V T) :
    Except ProviderError T × Watched ω V T :=
  let (answer, world) := fetch p s.world
  (answer, { s with world := world, calls := s.calls ++ [.fetched p answer] })

theorem watchPoke_eq (clock : ℕ → ℤ) (evidence : HealthPoke) (s : Watched ω V T) :
    watchPoke clock evidence s = s.after clock s.world [] [evidence] := by
  cases hreg : s.registry <;> simp [watchPoke, Watched.after, HealthRegistry.recordAll, hreg]

theorem watchPace_eq (clock : ℕ → ℤ) {pace : String → ω → Except AcquireSlotError Unit × ω}
    {provider : String} {s : Watched ω V T} {answer : Except AcquireSlotError Unit} {world : ω}
    (h : pace provider s.world = (answer, world)) :
    watchPace pace provider s = (answer, s.after clock world [.paced provider answer] []) := by
  cases hreg : s.registry <;>
    simp [watchPace, Watched.after, HealthRegistry.recordAll, h, hreg]

theorem watchFetch_eq (clock : ℕ → ℤ) {fetch : V → ω → Except ProviderError T × ω} {p : V}
    {s : Watched ω V T} {answer : Except ProviderError T} {world : ω}
    (h : fetch p s.world = (answer, world)) :
    watchFetch fetch p s = (answer, s.after clock world [.fetched p answer] []) := by
  cases hreg : s.registry <;>
    simp [watchFetch, Watched.after, HealthRegistry.recordAll, h, hreg]

variable [Provider V]

/-- The members a capability can be asked of, in declared order. -/
def supporting (chain : List V) (capability : Capability) : List V :=
  chain.filter fun p => Provider.supports p capability

theorem supporting_cons_pos {capability : Capability} {p : V} {chain : List V}
    (h : Provider.supports p capability = true) :
    supporting (p :: chain) capability = p :: supporting chain capability :=
  List.filter_cons_of_pos h

theorem supporting_cons_neg {capability : Capability} {p : V} {chain : List V}
    (h : ¬Provider.supports p capability = true) :
    supporting (p :: chain) capability = supporting chain capability :=
  List.filter_cons_of_neg h

/-- The last of the errors, or the one left over from before. -/
def lastOr {E : Type*} (errors : List E) (before : Option E) : Option E := errors.getLast?.or before

@[simp] theorem lastOr_nil {E : Type*} (before : Option E) : lastOr [] before = before := rfl

@[simp] theorem lastOr_cons {E : Type*} (e : E) (errors : List E) (before : Option E) :
    lastOr (e :: errors) before = lastOr errors (some e) := by
  cases h : errors.getLast? <;> simp [lastOr, List.getLast?_cons, h]

section Try

/-- What became of a member in `chain_try`. -/
inductive TryOutcome (T : Type*) where
  | refused (e : AcquireSlotError)
  | failed (e : ProviderError)
  | served (v : T)

namespace TryOutcome

/-- The outcome that ends the walk. -/
def Served (o : TryOutcome T) : Prop := ∃ v, o = .served v

def value? : TryOutcome T → Option T
  | .served v => some v
  | _ => none

def fetchError? : TryOutcome T → Option ProviderError
  | .failed e => some e
  | _ => none

def paceError? : TryOutcome T → Option AcquireSlotError
  | .refused e => some e
  | _ => none

end TryOutcome

/-- The calls of an attempt: one pace step, and a fetch only after its `Ok`. -/
def tryCalls (a : V × TryOutcome T) : List (ChainCall V T) :=
  match a.2 with
  | .refused e => [.paced (Provider.name a.1) (.error e)]
  | .failed e => [.paced (Provider.name a.1) (.ok ()), .fetched a.1 (.error e)]
  | .served v => [.paced (Provider.name a.1) (.ok ()), .fetched a.1 (.ok v)]

/-- What a fetch tells the registry about its provider. -/
def fetchPokes {A : Type*} (p : V) : Except ProviderError A → List HealthPoke
  | .ok _ => [.providerSuccess (Provider.name p)]
  | .error e => if e.isNetwork then [.providerNetworkFailure (Provider.name p)] else []

/-- What an attempt tells the registry: nothing when its pace step was refused. -/
def tryPokes (a : V × TryOutcome T) : List HealthPoke :=
  match a.2 with
  | .refused _ => []
  | .failed e => fetchPokes (A := T) a.1 (.error e)
  | .served v => fetchPokes a.1 (.ok v)

/-- The value of the winner, if there is one. -/
def tryValue (attempts : List (V × TryOutcome T)) : Option T :=
  attempts.findSome? fun a => a.2.value?

/-- The chain's own stamp: a success, or a failure if any fetch failed. -/
def tryStamp (fetchErr : Option ProviderError) (attempts : List (V × TryOutcome T)) :
    List HealthPoke :=
  match tryValue attempts, lastOr (attempts.filterMap fun a => a.2.fetchError?) fetchErr with
  | some _, _ => [.chainSuccess]
  | none, some _ => [.chainAllFailed]
  | none, none => []

/-- The first success, else the last fetch error, else the last pace error, else
that nobody could be asked. -/
def tryResult (whole : List V) (capability : Capability) (fetchErr : Option ProviderError)
    (paceErr : Option AcquireSlotError) (attempts : List (V × TryOutcome T)) :
    Except ProviderError T :=
  match tryValue attempts with
  | some v => .ok v
  | none =>
    match lastOr (attempts.filterMap fun a => a.2.fetchError?) fetchErr with
    | some e => .error e
    | none =>
      match lastOr (attempts.filterMap fun a => a.2.paceError?) paceErr with
      | some e => .error (.pacer e)
      | none =>
        if whole.isEmpty then .error (.other "empty provider chain")
        else .error (.noCapableProvider capability)

variable (clock : ℕ → ℤ) (pace : String → ω → Except AcquireSlotError Unit × ω)
  (fetch : V → ω → Except ProviderError T × ω)

/-- The registry hears of a failed fetch exactly when it was a network error. -/
theorem pokeFailure_eq (p : V) (e : ProviderError) (s : Watched ω V T) :
    pokeFailure (watchPoke clock) p e s =
      s.after clock s.world [] (fetchPokes (A := T) p (.error e)) := by
  by_cases hnetwork : e.isNetwork = true
  · simp only [pokeFailure, fetchPokes, if_pos hnetwork, watchPoke_eq]
  · simp only [pokeFailure, fetchPokes, if_neg hnetwork, Watched.after_nil]

theorem chainTryLoop_walk (capability : Capability) (whole chain : List V)
    (fetchErr : Option ProviderError) (paceErr : Option AcquireSlotError) (s : Watched ω V T) :
    ∃ attempts w, UpToFirst TryOutcome.Served (supporting chain capability) attempts ∧
      chainTryLoop (watchPoke clock) (watchPace pace) (watchFetch fetch) capability whole chain
          fetchErr paceErr s =
        (tryResult whole capability fetchErr paceErr attempts,
          s.after clock w (attempts.flatMap tryCalls)
            (attempts.flatMap tryPokes ++ tryStamp fetchErr attempts)) := by
  induction chain generalizing fetchErr paceErr s with
  | nil =>
    refine ⟨[], s.world, .done, ?_⟩
    cases fetchErr with
    | some e => simp [chainTryLoop, tryResult, tryStamp, tryValue, watchPoke_eq]
    | none =>
      cases paceErr with
      | some e => simp [chainTryLoop, tryResult, tryStamp, tryValue, Watched.after_nil]
      | none =>
        simp only [chainTryLoop]
        split_ifs with hempty <;>
          simp [tryResult, tryStamp, tryValue, Watched.after_nil, hempty]
  | cons p chain ih =>
    by_cases hsupports : Provider.supports p capability = true
    · rw [supporting_cons_pos hsupports]
      rcases hpace : pace (Provider.name p) s.world with ⟨granted, w⟩
      cases granted with
      | error e =>
        obtain ⟨attempts, w', hwalk, hloop⟩ := ih fetchErr (some e)
          (s.after clock w [.paced (Provider.name p) (.error e)] [])
        refine ⟨(p, .refused e) :: attempts, w', .next (by simp [TryOutcome.Served]) hwalk, ?_⟩
        simp only [chainTryLoop, if_pos hsupports, watchPace_eq clock hpace, hloop,
          Watched.after_after]
        simp [tryResult, tryStamp, tryValue, tryCalls, tryPokes, TryOutcome.value?,
          TryOutcome.fetchError?, TryOutcome.paceError?]
      | ok granted =>
        rcases hfetch : fetch p w with ⟨answer, w'⟩
        have hfetched := watchFetch_eq clock
          (s := s.after clock w [.paced (Provider.name p) (.ok ())] []) hfetch
        cases answer with
        | ok v =>
          refine ⟨[(p, .served v)], w', .stop ⟨v, rfl⟩, ?_⟩
          simp only [chainTryLoop, if_pos hsupports, watchPace_eq clock hpace, hfetched,
            watchPoke_eq, Watched.after_after]
          simp [tryResult, tryStamp, tryValue, tryCalls, tryPokes, fetchPokes,
            TryOutcome.value?, Watched.after]
        | error e =>
          obtain ⟨attempts, w'', hwalk, hloop⟩ := ih (some e) paceErr
            (s.after clock w' [.paced (Provider.name p) (.ok ()), .fetched p (.error e)]
              (fetchPokes (A := T) p (.error e)))
          refine ⟨(p, .failed e) :: attempts, w'', .next (by simp [TryOutcome.Served]) hwalk, ?_⟩
          simp only [chainTryLoop, if_pos hsupports, watchPace_eq clock hpace, hfetched,
            pokeFailure_eq (T := T), Watched.after_after, Watched.after_world, List.nil_append,
            List.append_nil, List.cons_append, hloop]
          simp [tryResult, tryStamp, tryValue, tryCalls, tryPokes, TryOutcome.value?,
            TryOutcome.fetchError?, TryOutcome.paceError?]
    · simp only [supporting_cons_neg hsupports, chainTryLoop, if_neg hsupports]
      exact ih fetchErr paceErr s

end Try

section Ohlc

/-- An attempt of the OHLC walks: a member and what its fetch answered. -/
abbrev Fetched (V : Type*) := V × Except ProviderError (List OhlcCandle)

/-- The page of an answer. -/
def page? : Except ProviderError (List OhlcCandle) → Option (List OhlcCandle)
  | .ok candles => some candles
  | .error _ => none

/-- The page of an answer that holds a candle. -/
def candles? : Except ProviderError (List OhlcCandle) → Option (List OhlcCandle)
  | .ok candles => if candles.isEmpty then none else some candles
  | .error _ => none

def error? : Except ProviderError (List OhlcCandle) → Option ProviderError
  | .ok _ => none
  | .error e => some e

/-- The last error of the attempts, or the one left over from before. -/
def lastError (before : Option ProviderError) (attempts : List (Fetched V)) :
    Option ProviderError :=
  lastOr (attempts.filterMap fun a => error? a.2) before

def fetchCall (a : Fetched V) : ChainCall V (List OhlcCandle) := .fetched a.1 a.2

/-- What the metrics record of an attempt. -/
def fetchRecord (capability : Capability) (a : Fetched V) : AttemptRecord :=
  attempt a.1 capability (if (page? a.2).isSome then .success else .failure)

theorem fetchRecord_ok (capability : Capability) (p : V) (candles : List OhlcCandle) :
    fetchRecord capability (p, .ok candles) = attempt p capability .success := rfl

theorem fetchRecord_error (capability : Capability) (p : V) (e : ProviderError) :
    fetchRecord capability (p, .error e) = attempt p capability .failure := rfl

def asked (records : List AttemptRecord) : List AttemptRecord :=
  records.filter fun r => r.outcome ≠ .unsupported

/-- The chain's own stamp: a success if any fetch answered, even with an empty page,
a failure if every fetch failed, nothing if nobody was asked. -/
def fetchStamp (attempts : List (Fetched V)) : List HealthPoke :=
  if attempts.any fun a => (page? a.2).isSome then [.chainSuccess]
  else if attempts.isEmpty then []
  else [.chainAllFailed]

/-- `chain_fetch_ohlc`: the first page, else the last error, else that nobody could
be asked. -/
def ohlcResult (whole : List V) (before : Option ProviderError) (attempts : List (Fetched V)) :
    Except ProviderError (List OhlcCandle) :=
  match attempts.findSome? (fun a => page? a.2), lastError before attempts with
  | some candles, _ => .ok candles
  | none, some e => .error e
  | none, none =>
    if whole.isEmpty then .error (.other "empty provider chain")
    else .error (.noCapableProvider .ohlc)

/-- `chain_fetch_ohlc_range`: the first page with a candle, else the last error, else
an empty page. -/
def rangeResult (before : Option ProviderError) (attempts : List (Fetched V)) :
    Except ProviderError (List OhlcCandle) :=
  match attempts.findSome? (fun a => candles? a.2), lastError before attempts with
  | some candles, _ => .ok candles
  | none, some e => .error e
  | none, none => .ok []

theorem asked_append (records more : List AttemptRecord) :
    asked (records ++ more) = asked records ++ asked more :=
  List.filter_append _ _

theorem asked_fetchRecord (capability : Capability) (attempts : List (Fetched V)) :
    asked (attempts.map (fetchRecord capability)) = attempts.map (fetchRecord capability) := by
  refine List.filter_eq_self.mpr ?_
  intro r hr
  obtain ⟨a, -, rfl⟩ := List.mem_map.mp hr
  unfold fetchRecord attempt
  split_ifs <;> rfl

/-- The stamp the registry takes from the records is read off the attempts. -/
theorem observeChainRecords_eq {capability : Capability} {records : List AttemptRecord}
    {attempts : List (Fetched V)}
    (h : asked records = attempts.map (fetchRecord capability)) :
    (observeChainRecords records).toList = fetchStamp attempts := by
  have hany : (asked records).any (fun r => r.outcome = .success) =
      attempts.any fun a => (page? a.2).isSome := by
    rw [h, List.any_map]
    congr 1
    funext a
    simp only [Function.comp, fetchRecord, attempt]
    split_ifs with hpage <;> simp [hpage]
  have hall : (attempts.any fun a => (page? a.2).isSome) = false →
      (asked records).all (fun r => r.outcome = .failure) = true := by
    intro hnone
    rw [h, List.all_map, List.all_eq_true]
    intro a ha
    have hpage := List.any_eq_false.mp hnone a ha
    simp [fetchRecord, attempt, hpage]
  have hempty : (asked records).isEmpty = attempts.isEmpty := by
    rw [h, List.isEmpty_map]
  have hcases : observeChainRecords records =
      if (asked records).isEmpty then none
      else if (asked records).any fun r => r.outcome = .success then some .chainSuccess
      else if (asked records).all fun r => r.outcome = .failure then some .chainAllFailed
      else none := rfl
  rw [hcases, hany, hempty]
  unfold fetchStamp
  cases hsome : attempts.any fun a => (page? a.2).isSome with
  | true =>
    have hnonempty : attempts.isEmpty = false := by
      cases attempts with
      | nil => simp at hsome
      | cons a attempts => rfl
    simp [hnonempty]
  | false =>
    rw [hall hsome]
    cases attempts.isEmpty <;> rfl

variable (clock : ℕ → ℤ) (fetch : V → ω → Except ProviderError (List OhlcCandle) × ω)

omit [Provider V] in
theorem observe_eq (records : List AttemptRecord) (s : Watched ω V T) :
    observe (watchPoke clock) records s =
      s.after clock s.world [] (observeChainRecords records).toList := by
  unfold observe
  cases observeChainRecords records with
  | none => exact (s.after_nil clock).symm
  | some evidence => exact watchPoke_eq clock evidence s

theorem asked_attempt {capability : Capability} {records : List AttemptRecord}
    {before : List (Fetched V)} (h : asked records = before.map (fetchRecord capability))
    (a : Fetched V) :
    asked (records ++ [fetchRecord capability a]) =
      (before ++ [a]).map (fetchRecord capability) := by
  have hlast := asked_fetchRecord capability [a]
  rw [List.map_singleton] at hlast
  rw [asked_append, h, hlast, List.map_append, List.map_singleton]

theorem asked_unsupported (p : V) (capability : Capability) (records : List AttemptRecord) :
    asked (records ++ [attempt p capability .unsupported]) = asked records := by
  simp [asked, attempt]

theorem chainFetchOhlcInLoop_walk (whole chain : List V) {records : List AttemptRecord}
    {before : List (Fetched V)} (hrecords : asked records = before.map (fetchRecord .ohlc))
    (lastErr : Option ProviderError) (s : Watched ω V (List OhlcCandle)) :
    ∃ attempts w records', UpToFirst (fun o => (page? o).isSome) (supporting chain .ohlc) attempts ∧
      asked records' = (before ++ attempts).map (fetchRecord .ohlc) ∧
      chainFetchOhlcInLoop (watchPoke clock) (watchFetch fetch) whole chain records lastErr s =
        ((ohlcResult whole lastErr attempts, records'),
          s.after clock w (attempts.map fetchCall)
            (attempts.flatMap (fun a => fetchPokes a.1 a.2) ++
              fetchStamp (before ++ attempts))) := by
  induction chain generalizing records before lastErr s with
  | nil =>
    refine ⟨[], s.world, records, .done, by simpa using hrecords, ?_⟩
    have hstamp := observeChainRecords_eq hrecords
    cases lastErr with
    | some e => simp [chainFetchOhlcInLoop, ohlcResult, lastError, observe_eq, hstamp]
    | none =>
      simp only [chainFetchOhlcInLoop]
      split_ifs with hempty <;> simp [ohlcResult, lastError, observe_eq, hstamp, hempty]
  | cons p chain ih =>
    by_cases hsupports : Provider.supports p .ohlc = true
    · rw [supporting_cons_pos hsupports]
      rcases hfetch : fetch p s.world with ⟨answer, w⟩
      cases answer with
      | ok candles =>
        have hasked := asked_attempt hrecords (p, .ok candles)
        refine ⟨[(p, .ok candles)], w, _, .stop rfl, hasked, ?_⟩
        have hstamp := observeChainRecords_eq hasked
        simp only [chainFetchOhlcInLoop, if_pos hsupports, watchFetch_eq clock hfetch,
          watchPoke_eq, observe_eq, Watched.after_after, Watched.after_world]
        rw [fetchRecord_ok] at hstamp
        simp [ohlcResult, page?, fetchCall, fetchPokes, fetchRecord_ok, hstamp]
      | error e =>
        have hasked := asked_attempt hrecords (p, .error e)
        obtain ⟨attempts, w', records', hwalk, hrecords', hloop⟩ := ih hasked (some e)
          (s.after clock w [.fetched p (.error e)] (fetchPokes (A := List OhlcCandle) p (.error e)))
        rw [fetchRecord_error] at hloop
        refine ⟨(p, .error e) :: attempts, w', records', .next (by simp [page?]) hwalk,
          by simpa using hrecords', ?_⟩
        simp only [chainFetchOhlcInLoop, if_pos hsupports, watchFetch_eq clock hfetch,
          pokeFailure_eq (T := List OhlcCandle), Watched.after_after, Watched.after_world,
          List.nil_append, List.append_nil, hloop]
        simp [ohlcResult, lastError, page?, error?, fetchCall]
    · simp only [supporting_cons_neg hsupports, chainFetchOhlcInLoop, if_neg hsupports]
      exact ih (by rw [asked_unsupported, hrecords]) lastErr s

section RangeCases
variable (before : Option ProviderError) (p : V) (attempts : List (Fetched V))

omit [Provider V] in
theorem rangeResult_empty_page {candles : List OhlcCandle} (hempty : candles.isEmpty = true) :
    rangeResult before ((p, .ok candles) :: attempts) = rangeResult before attempts := by
  have hpage : candles? (.ok candles) = none := by simp only [candles?, if_pos hempty]
  have herror : error? (.ok candles) = none := rfl
  simp only [rangeResult, lastError, List.findSome?_cons, List.filterMap_cons, hpage, herror]

omit [Provider V] in
theorem rangeResult_page {candles : List OhlcCandle} (hempty : ¬candles.isEmpty = true) :
    rangeResult before ((p, .ok candles) :: attempts) = .ok candles := by
  have hpage : candles? (.ok candles) = some candles := by simp only [candles?, if_neg hempty]
  simp only [rangeResult, List.findSome?_cons, hpage]

omit [Provider V] in
theorem rangeResult_error (e : ProviderError) :
    rangeResult before ((p, .error e) :: attempts) = rangeResult (some e) attempts := by
  have hpage : candles? (.error e) = none := rfl
  have herror : error? (.error e) = some e := rfl
  simp only [rangeResult, lastError, List.findSome?_cons, List.filterMap_cons, hpage, herror,
    lastOr_cons]

end RangeCases

theorem chainFetchOhlcRangeInLoop_walk (chain : List V) {records : List AttemptRecord}
    {before : List (Fetched V)} (hrecords : asked records = before.map (fetchRecord .ohlcRange))
    (lastErr : Option ProviderError) (s : Watched ω V (List OhlcCandle)) :
    ∃ attempts w records',
      UpToFirst (fun o => (candles? o).isSome) (supporting chain .ohlcRange) attempts ∧
      asked records' = (before ++ attempts).map (fetchRecord .ohlcRange) ∧
      chainFetchOhlcRangeInLoop (watchPoke clock) (watchFetch fetch) chain records lastErr s =
        ((rangeResult lastErr attempts, records'),
          s.after clock w (attempts.map fetchCall)
            (attempts.flatMap (fun a => fetchPokes a.1 a.2) ++
              fetchStamp (before ++ attempts))) := by
  induction chain generalizing records before lastErr s with
  | nil =>
    refine ⟨[], s.world, records, .done, by simpa using hrecords, ?_⟩
    have hstamp := observeChainRecords_eq hrecords
    cases lastErr <;> simp [chainFetchOhlcRangeInLoop, rangeResult, lastError, observe_eq, hstamp]
  | cons p chain ih =>
    by_cases hsupports : Provider.supports p .ohlcRange = true
    · rw [supporting_cons_pos hsupports]
      rcases hfetch : fetch p s.world with ⟨answer, w⟩
      cases answer with
      | ok candles =>
        have hasked := asked_attempt hrecords (p, .ok candles)
        by_cases hempty : candles.isEmpty = true
        · -- an empty page counts as a success of its provider and the walk goes on
          obtain ⟨attempts, w', records', hwalk, hrecords', hloop⟩ := ih hasked lastErr
            (s.after clock w [.fetched p (.ok candles)] [.providerSuccess (Provider.name p)])
          rw [fetchRecord_ok] at hloop
          refine ⟨(p, .ok candles) :: attempts, w', records',
            .next (by simp [candles?, hempty]) hwalk, by simpa using hrecords', ?_⟩
          simp only [chainFetchOhlcRangeInLoop, if_pos hsupports, watchFetch_eq clock hfetch,
            if_pos hempty, watchPoke_eq, Watched.after_after, Watched.after_world,
            List.nil_append, List.append_nil, hloop]
          simp [rangeResult_empty_page _ _ _ hempty, fetchCall, fetchPokes]
        · refine ⟨[(p, .ok candles)], w, _, .stop (by simp [candles?, hempty]), hasked, ?_⟩
          have hstamp := observeChainRecords_eq hasked
          simp only [chainFetchOhlcRangeInLoop, if_pos hsupports, watchFetch_eq clock hfetch,
            if_neg hempty, watchPoke_eq, observe_eq, Watched.after_after, Watched.after_world]
          rw [fetchRecord_ok] at hstamp
          simp [rangeResult_page _ _ _ hempty, fetchCall, fetchPokes, fetchRecord_ok, hstamp]
      | error e =>
        have hasked := asked_attempt hrecords (p, .error e)
        obtain ⟨attempts, w', records', hwalk, hrecords', hloop⟩ := ih hasked (some e)
          (s.after clock w [.fetched p (.error e)] (fetchPokes (A := List OhlcCandle) p (.error e)))
        rw [fetchRecord_error] at hloop
        refine ⟨(p, .error e) :: attempts, w', records', .next (by simp [candles?]) hwalk,
          by simpa using hrecords', ?_⟩
        simp only [chainFetchOhlcRangeInLoop, if_pos hsupports, watchFetch_eq clock hfetch,
          pokeFailure_eq (T := List OhlcCandle), Watched.after_after, Watched.after_world,
          List.nil_append, List.append_nil, hloop]
        simp [rangeResult_error, fetchCall]
    · simp only [supporting_cons_neg hsupports, chainFetchOhlcRangeInLoop, if_neg hsupports]
      exact ih (by rw [asked_unsupported, hrecords]) lastErr s

omit [Provider V] in
/-- A fetch that erred is never masked by an empty page. -/
theorem rangeResult_ne_empty {attempts : List (Fetched V)}
    (herr : ∃ a ∈ attempts, (error? a.2).isSome) : rangeResult none attempts ≠ .ok [] := by
  unfold rangeResult
  cases hfirst : attempts.findSome? fun a => candles? a.2 with
  | some candles =>
    obtain ⟨a, -, hpage⟩ := List.exists_of_findSome?_eq_some hfirst
    intro hempty
    cases hempty
    unfold candles? at hpage
    split at hpage <;> simp at hpage
  | none =>
    obtain ⟨a, ha, hsome⟩ := herr
    obtain ⟨e, he⟩ := Option.isSome_iff_exists.mp hsome
    have hmem : e ∈ attempts.filterMap fun a => error? a.2 := List.mem_filterMap.mpr ⟨a, ha, he⟩
    cases hlast : lastError none attempts with
    | some e => simp
    | none =>
      have hnil : (attempts.filterMap fun a => error? a.2) = [] := by
        simpa [lastError, lastOr] using hlast
      rw [hnil] at hmem
      cases hmem

end Ohlc

/-- The walk asked the members in declared order, each once, and stopped short of the
last only at the attempt that settles it. -/
def InDeclaredOrder {β : Type*} (stops : β → Prop) (members : List V) (attempts : List (V × β)) :
    Prop :=
  attempts.map Prod.fst <+: members ∧
    ((attempts.map Prod.fst = members ∧ ∀ a ∈ attempts, ¬stops a.2) ∨
      ∃ before winner, attempts = before ++ [winner] ∧ stops winner.2 ∧
        ∀ a ∈ before, ¬stops a.2)

omit [Provider V] in
theorem InDeclaredOrder.of_walk {β : Type*} {stops : β → Prop} {members : List V}
    {attempts : List (V × β)} (h : UpToFirst stops members attempts) :
    InDeclaredOrder stops members attempts :=
  ⟨h.map_fst_prefix, h.ends⟩

/-- The three walks, each described by its attempts: the members asked, the result,
every call with its answer, and everything the registry was told. -/
theorem chain_resolution (clock : ℕ → ℤ) (pace : String → ω → Except AcquireSlotError Unit × ω)
    (fetch : V → ω → Except ProviderError T × ω)
    (fetchOhlc : V → ω → Except ProviderError (List OhlcCandle) × ω) (capability : Capability)
    (chain : List V) (s : Watched ω V T) (u : Watched ω V (List OhlcCandle)) :
    (∃ attempts w, InDeclaredOrder TryOutcome.Served (supporting chain capability) attempts ∧
      chainTry (watchPoke clock) (watchPace pace) (watchFetch fetch) capability chain s =
        (tryResult chain capability none none attempts,
          s.after clock w (attempts.flatMap tryCalls)
            (attempts.flatMap tryPokes ++ tryStamp none attempts))) ∧
    (∃ attempts w records,
      InDeclaredOrder (fun o => (page? o).isSome) (supporting chain .ohlc) attempts ∧
      asked records = attempts.map (fetchRecord .ohlc) ∧
      chainFetchOhlcIn (watchPoke clock) (watchFetch fetchOhlc) chain u =
        ((ohlcResult chain none attempts, records),
          u.after clock w (attempts.map fetchCall)
            (attempts.flatMap (fun a => fetchPokes a.1 a.2) ++ fetchStamp attempts))) ∧
    (∃ attempts w records,
      InDeclaredOrder (fun o => (candles? o).isSome) (supporting chain .ohlcRange) attempts ∧
      asked records = attempts.map (fetchRecord .ohlcRange) ∧
      chainFetchOhlcRangeIn (watchPoke clock) (watchFetch fetchOhlc) chain u =
        ((rangeResult none attempts, records),
          u.after clock w (attempts.map fetchCall)
            (attempts.flatMap (fun a => fetchPokes a.1 a.2) ++ fetchStamp attempts)) ∧
      ((∃ a ∈ attempts, (error? a.2).isSome) → rangeResult none attempts ≠ .ok [])) := by
  refine ⟨?_, ?_, ?_⟩
  · obtain ⟨attempts, w, hwalk, htry⟩ :=
      chainTryLoop_walk clock pace fetch capability chain chain none none s
    exact ⟨attempts, w, .of_walk hwalk, htry⟩
  · have hempty : asked [] = ([] : List (Fetched V)).map (fetchRecord .ohlc) := rfl
    obtain ⟨attempts, w, records, hwalk, hrecords, hohlc⟩ := chainFetchOhlcInLoop_walk clock
      fetchOhlc chain chain hempty none u
    exact ⟨attempts, w, records, .of_walk hwalk, hrecords, hohlc⟩
  · have hempty : asked [] = ([] : List (Fetched V)).map (fetchRecord .ohlcRange) := rfl
    obtain ⟨attempts, w, records, hwalk, hrecords, hrange⟩ := chainFetchOhlcRangeInLoop_walk clock
      fetchOhlc chain hempty none u
    exact ⟨attempts, w, records, .of_walk hwalk, hrecords, hrange, rangeResult_ne_empty⟩

end CryptoCollector.Providers
