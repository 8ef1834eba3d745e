import CryptoCollector.Collectors.Backpressure

/-!
# Rows under backpressure

What backpressure costs the row of a queue item or of a backfill chunk, from the
claim to the last write of `finalize`, and what it leaves in the registry.
-/

namespace CryptoCollector.Collectors
open Models Providers Pacer

section Rows

variable {W P : Type*}

/-- The row after the writes of a worker's `finalize`. -/
def settle (T : LeaseTable W P) (writes : List LeaseWrite) (row : LeaseRow W P) : LeaseRow W P :=
  writes.foldl (fun row op => (T.effect op).getD id row) row

/-- The claim cost the row nothing: it is done, or pending again with the attempts
it had before. -/
def Unscathed (before after : LeaseRow W P) : Prop :=
  after.status = .done ∨ after.status = .pending ∧ after.attempts = before.attempts

instance (before after : LeaseRow W P) : Decidable (Unscathed before after) :=
  inferInstanceAs (Decidable (_ ∨ _))

theorem unscathed_release {before claimed : LeaseRow W P} (hattempts : 0 ≤ before.attempts)
    (hclaimed : claimed.attempts = before.attempts + 1) :
    Unscathed before (releaseRow claimed) := by
  refine Or.inr ⟨rfl, ?_⟩
  simp only [releaseRow, hclaimed]
  omega

theorem not_unscathed_failOrRetry {before claimed : LeaseRow W P}
    (hclaimed : claimed.attempts = before.attempts + 1) (maxAttempts : ℤ) (err : String) :
    ¬Unscathed before (failOrRetryRow maxAttempts err claimed) := by
  rintro (hdone | ⟨-, hattempts⟩)
  · simp only [failOrRetryRow] at hdone
    split_ifs at hdone
  · simp only [failOrRetryRow, hclaimed] at hattempts
    omega

theorem not_unscathed_failPermanent (before claimed : LeaseRow W P) (err : String) :
    ¬Unscathed before (failPermanentRow err claimed) := by
  simp [Unscathed, failPermanentRow]

theorem unscathed_item_iff {row : QueueRow W} (hattempts : 0 ≤ row.attempts) (self : W)
    (now leaseSecs maxAttempts : ℤ) (result : Except DispatchError DispatchOutcome) :
    Unscathed row (settle (queueLease W) [queueWrite maxAttempts result]
      (claimRow self now leaseSecs row)) ↔ ∃ outcome, result = .ok outcome := by
  cases result with
  | ok outcome =>
    simp only [Except.ok.injEq, exists_eq', iff_true]
    cases outcome with
    | done => exact Or.inl rfl
    | softSkip => exact unscathed_release hattempts rfl
  | error e =>
    simp only [reduceCtorEq, exists_false, iff_false]
    cases e with
    | transient message => exact not_unscathed_failOrRetry rfl maxAttempts message
    | permanent message => exact not_unscathed_failPermanent _ _ message

theorem unscathed_chunk_iff {row : ChunkRow W} (hattempts : 0 ≤ row.attempts) (self : W)
    (now leaseSecs maxAttempts : ℤ) (result : Except DispatchError ChunkOutcome) :
    Unscathed row (settle (backfillLease W) (finalizeWrites maxAttempts row.payload result)
      (claimRow self now leaseSecs row)) ↔ ∃ outcome, result = .ok outcome := by
  match result with
  | .ok (.progress maxTs intervalSecs) =>
    simp only [Except.ok.injEq, exists_eq', iff_true, finalizeWrites, settle, List.foldl_append,
      List.foldl_cons, List.foldl_nil]
    have hadvanced : ∀ next : Option ℤ, ((next.toList.map LeaseWrite.advanceCursor).foldl
        (fun row op => ((backfillLease W).effect op).getD id row)
          (claimRow self now leaseSecs row)).attempts = row.attempts + 1 := by
      intro next
      cases next <;> rfl
    split_ifs
    · exact Or.inl rfl
    · exact unscathed_release hattempts (hadvanced _)
  | .ok .softSkip =>
    simp only [Except.ok.injEq, exists_eq', iff_true]
    exact unscathed_release hattempts rfl
  | .error (.permanent message) =>
    simp only [reduceCtorEq, exists_false, iff_false]
    exact not_unscathed_failPermanent _ _ message
  | .error (.transient message) =>
    simp only [reduceCtorEq, exists_false, iff_false]
    exact not_unscathed_failOrRetry rfl maxAttempts message

end Rows

/-- The work ended without an error, and the registry heard of no failed chain. -/
def Harmless {α : Type*} (run : Except DispatchError α × Fleet) : Prop :=
  (∃ outcome, run.1 = .ok outcome) ∧ NoEvidence run.2

section Ends

variable {α : Type*} {V Q M S : Type*}

theorem not_onlyBackpressure_stopWith (e : DispatchError) (s : Fleet) :
    ¬OnlyBackpressure (stopWith (α := α) e s).2 := by
  intro honly
  cases (honly.of_log rfl).1

theorem harmless_storeServed {net : Net} {upserted : Except String Unit} {s : Fleet}
    (honly : OnlyBackpressure (storeServed net upserted s).2) :
    Harmless (storeServed net upserted s) ↔ NoEvidence s := by
  cases upserted with
  | ok stored =>
    simp only [Harmless, storeServed, Except.ok.injEq, exists_eq', true_and]
    exact noEvidence_pokeRegistry net (by simp) s
  | error e => exact absurd honly (not_onlyBackpressure_stopWith _ _)

theorem grows_storeServed (net : Net) (upserted : Except String Unit) (s : Fleet) :
    RecordGrows s (storeServed net upserted s).2 := by
  unfold storeServed
  split
  · exact grows_pokeRegistry net _ s
  · exact (grows_frame net).trans (grows_pokeRegistry net _ s) (List.suffix_cons _ _)

theorem harmless_storeCandles {net : Net} {env : ItemEnv V Q M S} {coinId : String}
    {candles : List OhlcCandle} {s : Fleet}
    (honly : OnlyBackpressure (storeCandles net env coinId candles s).2) :
    Harmless (storeCandles net env coinId candles s) ↔ NoEvidence s := by
  simp only [storeCandles] at honly ⊢
  split at honly
  · simp only [Harmless, Except.ok.injEq, exists_eq', true_and]
    rw [noEvidence_of_log rfl]
    split_ifs
    · simp
    · simp [noEvidence_pokeRegistry net]
  · exact absurd honly (not_onlyBackpressure_stopWith _ _)

theorem grows_storeCandles (net : Net) (env : ItemEnv V Q M S) (coinId : String)
    (candles : List OhlcCandle) (s : Fleet) :
    RecordGrows s (storeCandles net env coinId candles s).2 := by
  simp only [storeCandles]
  split
  · split_ifs
    · exact List.suffix_cons _ _
    · exact (grows_frame net).trans (grows_pokeRegistry net _ s) (List.suffix_cons _ _)
  · exact (grows_frame net).trans (grows_pokeRegistry net _ s) (List.suffix_cons _ _)

theorem harmless_storePage {net : Net} {env : PageEnv V} {chunk : ChunkColumns}
    {start : Option ℤ} {intervalSecs : ℤ} {candles : List OhlcCandle} {s : Fleet}
    (honly : OnlyBackpressure (storePage net env chunk start intervalSecs candles s).2) :
    Harmless (storePage net env chunk start intervalSecs candles s) ↔ NoEvidence s := by
  simp only [storePage] at honly ⊢
  split at honly
  · exact absurd honly (not_onlyBackpressure_stopWith _ _)
  · simp only [Harmless, Except.ok.injEq, exists_eq', true_and]
    split_ifs
    · rfl
    · exact noEvidence_pokeRegistry net (by simp) s

theorem grows_storePage (net : Net) (env : PageEnv V) (chunk : ChunkColumns)
    (start : Option ℤ) (intervalSecs : ℤ) (candles : List OhlcCandle) (s : Fleet) :
    RecordGrows s (storePage net env chunk start intervalSecs candles s).2 := by
  simp only [storePage]
  split
  · exact (grows_frame net).trans (grows_pokeRegistry net _ s) (List.suffix_cons _ _)
  · dsimp only
    split_ifs
    · exact List.suffix_rfl
    · exact grows_pokeRegistry net _ s

end Ends

section Workers

variable {V Q M S T : Type*} [Provider V] {net : Net} {chain : List V} {s : Fleet}

/-- The worker's own slot is refused, or what follows its grant holds. -/
def OwnHolds (net : Net) (providerName : Option String) (s : Fleet) (after : Fleet → Prop) :
    Prop :=
  ∀ name ∈ providerName,
    match acquireSlot net .worker name s with
    | (.error _, _) => True
    | (.ok (), t) => after t

/-- What an item needs for backpressure to be harmless. -/
def ItemHolds (net : Net) (chain : List V) (item : QueueColumns) (s : Fleet) : Prop :=
  match dispatchKind item.targetKind item.kind with
  | some .candles => OwnHolds net (firstProviderForCap chain .ohlc) s (Admitted net chain)
  | some .spot => net.registered = true → PaceHolds net .spot chain false s
  | some .metadata => net.registered = true → PaceHolds net .coinMetadata chain false s
  | some .market => net.registered = true → PaceHolds net .coinMarket chain false s
  | some .cycleOverlay => True
  | some .rollup => True
  | none => True

/-- What the walk of a page needs. -/
def WalkHolds (net : Net) (env : PageEnv V) (chain : List V) (chunk : ChunkColumns)
    (market : MarketQuery) (start : Option ℤ) (intervalSecs : ℤ) (s : Fleet) : Prop :=
  match start, chunk.rangeEnd with
  | some from_, some stop =>
    RangeHolds net (fun p => env.fetchOhlcRange p ⟨market, from_, stop, intervalSecs⟩) chain
      false s
  | _, _ => Admitted net chain s

/-- What a page needs for backpressure to be harmless. -/
def PageHolds (net : Net) (env : PageEnv V) (chain : List V) (chunk : ChunkColumns)
    (s : Fleet) : Prop :=
  ∀ symbol livePollSecs, env.coin = .ok (some (symbol, livePollSecs)) →
    OwnHolds net (pageProvider chain chunk) s
      (WalkHolds net env chain chunk (.coinKeyed chunk.coinId symbol "USDT" "usd")
        (resumeStart chunk.cursor chunk.rangeStart)
        (resolveIntervalSecs chunk.interval livePollSecs env.globalSecs))

theorem capable_of_firstProviderForCap {capability : Capability} {name : String}
    (h : firstProviderForCap chain capability = some name) : Capable chain capability := by
  obtain ⟨p, hp, -⟩ := Option.map_eq_some_iff.mp h
  exact ⟨p, List.mem_of_find?_eq_some hp, by simpa using List.find?_some hp⟩

theorem harmless_ownSlot {α : Type*} {name : String} (skip : α)
    {rest : Fleet → Except DispatchError α × Fleet} {after : Fleet → Prop} (hquiet : NoEvidence s)
    (hrest : ∀ t, NoEvidence t → OnlyBackpressure (rest t).2 → (Harmless (rest t) ↔ after t))
    (honly : OnlyBackpressure
      (match acquireSlot net .worker name s with
        | (.error e, t) => (pacerOutcome skip e, t)
        | (.ok (), t) => rest t).2) :
    Harmless
        (match acquireSlot net .worker name s with
          | (.error e, t) => (pacerOutcome skip e, t)
          | (.ok (), t) => rest t) ↔
      OwnHolds net (some name) s after := by
  have hquiet' := (noEvidence_acquireSlot net .worker name s).mpr hquiet
  rcases acquireSlot_cases net .worker name s with ⟨t, hslot, hlog⟩ | ⟨e, t, hslot, hlog⟩
  · rw [hslot] at hquiet'
    simp only [OwnHolds, hslot, Option.mem_some_iff, forall_eq'] at honly ⊢
    exact hrest t hquiet' honly
  · rw [hslot] at hquiet'
    simp only [OwnHolds, hslot, Option.mem_some_iff, forall_eq', iff_true] at honly ⊢
    have hskip : pacerShouldSkipQueue e = true := (honly.of_log hlog).1
    exact ⟨⟨skip, by simp [pacerOutcome, hskip]⟩, hquiet'⟩

theorem noEvidence_fetchPaced {capability : Capability} {endpoint : V → Endpoint T}
    (honly : OnlyBackpressure (fetchPaced net capability endpoint chain s).2) :
    NoEvidence (fetchPaced net capability endpoint chain s).2 ↔
      NoEvidence s ∧ (net.registered = true → PaceHolds net capability chain false s) :=
  noEvidence_tryRest honly

theorem fetchPaced_backpressure {capability : Capability} {endpoint : V → Endpoint T}
    (hcapable : Capable chain capability)
    (honly : OnlyBackpressure (fetchPaced net capability endpoint chain s).2) :
    (∃ v, (fetchPaced net capability endpoint chain s).1 = .ok v) ∨
      ∃ a, pacerShouldSkipQueue a = true ∧
        (fetchPaced net capability endpoint chain s).1 = .error (.pacer a) :=
  tryRest_backpressure honly (by simp) (by simp) (Or.inl hcapable)

theorem harmless_dispatchPaced {capability : Capability} {missing : String}
    {endpoint : V → Endpoint T} {upsert : T → Except String Unit} (hquiet : NoEvidence s)
    (honly : OnlyBackpressure
      (dispatchPaced net capability missing endpoint upsert chain s).2) :
    Harmless (dispatchPaced net capability missing endpoint upsert chain s) ↔
      (net.registered = true → PaceHolds net capability chain false s) := by
  unfold dispatchPaced at honly ⊢
  cases hfirst : firstProviderForCap chain capability with
  | none =>
    rw [hfirst] at honly
    exact absurd honly (not_onlyBackpressure_stopWith _ _)
  | some name =>
    have hevidence : OnlyBackpressure (fetchPaced net capability endpoint chain s).2 →
        (NoEvidence (fetchPaced net capability endpoint chain s).2 ↔ NoEvidence s ∧
          (net.registered = true → PaceHolds net capability chain false s)) :=
      noEvidence_fetchPaced
    have hanswer : OnlyBackpressure (fetchPaced net capability endpoint chain s).2 →
        (∃ v, (fetchPaced net capability endpoint chain s).1 = .ok v) ∨
          ∃ a, pacerShouldSkipQueue a = true ∧
            (fetchPaced net capability endpoint chain s).1 = .error (.pacer a) :=
      fetchPaced_backpressure (capable_of_firstProviderForCap hfirst)
    rcases hwalk : fetchPaced net capability endpoint chain s with ⟨answer, t⟩
    simp only [hfirst, hwalk] at honly hevidence hanswer ⊢
    cases answer with
    | ok v =>
      rw [harmless_storeServed honly,
        hevidence (honly.of_grows (grows_storeServed net _ t))]
      simp [hquiet]
    | error e =>
      have honly' : OnlyBackpressure t := by cases e <;> exact honly
      rcases hanswer honly' with ⟨v, hv⟩ | ⟨a, hskip, ha⟩
      · cases hv
      · cases ha
        simp [Harmless, pacerOutcome, hskip, hevidence honly', hquiet]

theorem harmless_dispatchSpot {env : ItemEnv V Q M S} {coinId : String} (hquiet : NoEvidence s)
    (honly : OnlyBackpressure (dispatchSpot net env chain coinId s).2) :
    Harmless (dispatchSpot net env chain coinId s) ↔
      (net.registered = true → PaceHolds net .spot chain false s) := by
  unfold dispatchSpot at honly ⊢
  split at honly
  · exact absurd honly (not_onlyBackpressure_stopWith _ _)
  · exact harmless_dispatchPaced hquiet honly

/-- An OHLC walk, then a store that only an error of its own can spoil. -/
theorem harmless_walk {α : Type*}
    {walk : Fleet → (Except ProviderError (List OhlcCandle) × List AttemptRecord) × Fleet}
    {store : List OhlcCandle → Fleet → Except DispatchError α × Fleet} {C : Prop}
    (hquiet : NoEvidence s)
    (hok : OnlyBackpressure (walk s).2 → ((∃ candles, (walk s).1.1 = .ok candles) ↔ C))
    (hevidence : ∀ candles, (walk s).1.1 = .ok candles → (NoEvidence (walk s).2 ↔ NoEvidence s))
    (hgrows : ∀ candles t, RecordGrows t (store candles t).2)
    (hstore : ∀ candles t, OnlyBackpressure (store candles t).2 →
      (Harmless (store candles t) ↔ NoEvidence t))
    (honly : OnlyBackpressure
      (match walk s with
        | ((.error e, _), t) =>
          ((.error (.transient e.display), t) : Except DispatchError α × Fleet)
        | ((.ok candles, _), t) => store candles t).2) :
    Harmless
        (match walk s with
          | ((.error e, _), t) => (.error (.transient e.display), t)
          | ((.ok candles, _), t) => store candles t) ↔ C := by
  rcases hwalk : walk s with ⟨⟨answer, records⟩, t⟩
  rw [hwalk] at hok hevidence honly
  cases answer with
  | error e =>
    rw [← hok honly]
    simp [Harmless]
  | ok candles =>
    rw [← hok (honly.of_grows (hgrows candles t)), hstore candles t honly]
    simp [hevidence candles rfl, hquiet]

theorem harmless_dispatchCandles {env : ItemEnv V Q M S} {coinId : String}
    (hquiet : NoEvidence s)
    (honly : OnlyBackpressure (dispatchCandles net env chain coinId s).2) :
    Harmless (dispatchCandles net env chain coinId s) ↔
      OwnHolds net (firstProviderForCap chain .ohlc) s (Admitted net chain) := by
  unfold dispatchCandles at honly ⊢
  split at honly
  · exact absurd honly (not_onlyBackpressure_stopWith _ _)
  · split at honly
    · exact absurd honly (not_onlyBackpressure_stopWith _ _)
    · rename_i name hfirst
      rw [hfirst]
      refine harmless_ownSlot DispatchOutcome.softSkip hquiet ?_ honly
      intro t hquiet honly
      exact harmless_walk hquiet (fun h => ohlcRest_ok_iff h)
        (fun candles h => noEvidence_ohlcRest h) (grows_storeCandles net env coinId)
        (fun candles u h => harmless_storeCandles h) honly

theorem harmless_fetchPageIn {env : PageEnv V} {chunk : ChunkColumns} {market : MarketQuery}
    {start : Option ℤ} {intervalSecs : ℤ} (hquiet : NoEvidence s)
    (honly : OnlyBackpressure
      (fetchPageIn net env chain chunk market start intervalSecs s).2) :
    Harmless (fetchPageIn net env chain chunk market start intervalSecs s) ↔
      WalkHolds net env chain chunk market start intervalSecs s := by
  unfold WalkHolds
  split
  · rename_i from_ stop hstop
    simp only [fetchPageIn, hstop] at honly ⊢
    exact harmless_walk hquiet (fun h => rangeRest_ok_iff h)
      (fun candles h => noEvidence_rangeRest (by simp) h) (grows_storePage net env chunk _ _)
      (fun candles u h => harmless_storePage h) honly
  · rename_i hrecent
    unfold fetchPageIn at honly ⊢
    split at honly
    · rename_i from_ stop hstop
      exact absurd hstop (hrecent from_ stop rfl)
    · exact harmless_walk hquiet (fun h => ohlcRest_ok_iff h)
        (fun candles h => noEvidence_ohlcRest h) (grows_storePage net env chunk _ _)
        (fun candles u h => harmless_storePage h) honly

theorem harmless_processChunkIn {env : PageEnv V} {chunk : ChunkColumns} (hquiet : NoEvidence s)
    (honly : OnlyBackpressure (processChunkIn net env chain chunk s).2) :
    Harmless (processChunkIn net env chain chunk s) ↔ PageHolds net env chain chunk s := by
  unfold processChunkIn at honly ⊢
  split at honly
  · exact absurd honly (not_onlyBackpressure_stopWith _ _)
  · rename_i symbol livePollSecs hcoin
    split at honly
    · exact absurd honly (not_onlyBackpressure_stopWith _ _)
    · rename_i name hname
      have hcontext : env.coin = .ok (some (symbol, livePollSecs)) := by
        unfold coinContext at hcoin
        split at hcoin <;> cases hcoin
        assumption
      have hpage : PageHolds net env chain chunk s ↔ OwnHolds net (some name) s
          (WalkHolds net env chain chunk (.coinKeyed chunk.coinId symbol "USDT" "usd")
            (resumeStart chunk.cursor chunk.rangeStart)
            (resolveIntervalSecs chunk.interval livePollSecs env.globalSecs)) := by
        rw [← hname]
        constructor
        · intro hholds
          exact hholds symbol livePollSecs hcontext
        · intro hholds symbol' livePollSecs' hcontext'
          cases hcontext.symm.trans hcontext'
          exact hholds
      rw [hpage]
      refine harmless_ownSlot ChunkOutcome.softSkip hquiet ?_ honly
      intro t hquiet honly
      exact harmless_fetchPageIn hquiet honly

theorem harmless_dispatchDerived {recomputed : Except String Unit} (hquiet : NoEvidence s)
    (honly : OnlyBackpressure (dispatchDerived recomputed s).2) :
    Harmless (dispatchDerived recomputed s) := by
  unfold dispatchDerived at honly ⊢
  split at honly
  · exact ⟨⟨.done, rfl⟩, hquiet⟩
  · exact absurd honly (not_onlyBackpressure_stopWith _ _)

theorem harmless_dispatchItem {env : ItemEnv V Q M S} {item : QueueColumns}
    (hquiet : NoEvidence s) (honly : OnlyBackpressure (dispatchItem net env chain item s).2) :
    Harmless (dispatchItem net env chain item s) ↔ ItemHolds net chain item s := by
  unfold dispatchItem at honly ⊢
  unfold ItemHolds
  cases hkind : dispatchKind item.targetKind item.kind with
  | none =>
    rw [hkind] at honly
    exact absurd honly (not_onlyBackpressure_stopWith _ _)
  | some kind =>
    rw [hkind] at honly
    cases kind with
    | candles => exact harmless_dispatchCandles hquiet honly
    | spot => exact harmless_dispatchSpot hquiet honly
    | metadata => exact harmless_dispatchPaced hquiet honly
    | market => exact harmless_dispatchPaced hquiet honly
    | cycleOverlay | rollup => exact iff_true_intro (harmless_dispatchDerived hquiet honly)

end Workers

/-- For every chain, every pacer rows and any statements of the other replicas: a
queue item or a backfill page that met nothing but backpressure leaves its row
done, or released with the attempts it had, and no failed chain in the registry,
exactly when no slot granted outside `paced` is followed by a refusal inside it
that nobody behind makes good. -/
theorem backpressure_harmless_iff {W V Q M S : Type*} [Provider V] (net : Net) (chain : List V)
    (rows : String → Option PacerRow) :
    (∀ (env : ItemEnv V Q M S) (row : QueueRow W) (self : W) (now leaseSecs maxAttempts : ℤ),
      0 ≤ row.attempts →
      OnlyBackpressure (dispatchItem net env chain row.payload (Fleet.start rows)).2 →
      (Unscathed row (settle (queueLease W)
            [queueWrite maxAttempts (dispatchItem net env chain row.payload (Fleet.start rows)).1]
            (claimRow self now leaseSecs row)) ∧
          NoEvidence (dispatchItem net env chain row.payload (Fleet.start rows)).2 ↔
        ItemHolds net chain row.payload (Fleet.start rows))) ∧
    ∀ (env : PageEnv V) (row : ChunkRow W) (self : W) (now leaseSecs maxAttempts : ℤ),
      0 ≤ row.attempts →
      OnlyBackpressure (processChunkIn net env chain row.payload (Fleet.start rows)).2 →
      (Unscathed row (settle (backfillLease W)
            (finalizeWrites maxAttempts row.payload
              (processChunkIn net env chain row.payload (Fleet.start rows)).1)
            (claimRow self now leaseSecs row)) ∧
          NoEvidence (processChunkIn net env chain row.payload (Fleet.start rows)).2 ↔
        PageHolds net env chain row.payload (Fleet.start rows)) := by
  have hquiet : NoEvidence (Fleet.start rows) := by simp [NoEvidence, Fleet.start]
  constructor
  · intro env row self now leaseSecs maxAttempts hattempts honly
    rw [unscathed_item_iff hattempts]
    exact harmless_dispatchItem hquiet honly
  · intro env row self now leaseSecs maxAttempts hattempts honly
    rw [unscathed_chunk_iff hattempts]
    exact harmless_processChunkIn hquiet honly

def answeringItem : ItemEnv InTree Unit Unit Unit where
  coin := .ok (some ("BTC", none))
  globalSecs := 300
  fetchOhlc := fun _ _ => ⟨.ok (), fun _ => .ok []⟩
  fetchSpot := fun _ _ => ⟨.ok (), fun _ => .ok ()⟩
  fetchCoinMetadata := fun _ _ => ⟨.ok (), fun _ => .ok ()⟩
  fetchCoinMarket := fun _ _ _ => ⟨.ok (), fun _ => .ok ()⟩
  upsertCandles := fun _ => .ok ()
  upsertCoinQuote := fun _ _ => .ok ()
  upsertCoinMetadata := fun _ => .ok ()
  upsertCoinMarketSnapshot := fun _ => .ok ()
  recomputeCycleOverlay := fun _ => .ok ()
  runRollup := fun _ => .ok ()

def answeringPage : PageEnv InTree where
  coin := .ok (some ("BTC", none))
  globalSecs := 300
  fetchOhlcRange := fun _ _ => ⟨.ok (), fun _ => .ok []⟩
  fetchOhlc := fun _ _ => ⟨.ok (), fun _ => .ok []⟩
  upsert := fun _ => .ok ()

def bitcoinItem (kind : String) : QueueRow ℕ := newRow 1 0 ⟨"coin", "bitcoin", kind⟩

def bitcoinChunk : ChunkRow ℕ := newRow 1 0 (newChunk 1 "bitcoin" "ohlc" none none none)

/-- The seeded rows, with the row of CoinGecko replaced. -/
def coingeckoRows (row : PacerRow) : String → Option PacerRow :=
  Function.update (seededRows 0 0) "coingecko" (some row)

/-- In a cooldown of CoinGecko the workers' own slot is refused. -/
theorem backpressure_harmless_cooldown :
    ItemHolds Net.calm [InTree.coinGecko .demo] (bitcoinItem "candles").payload
        (Fleet.start (coingeckoRows ⟨0, 2000, some 60000000000, 0, 0, some 10000⟩)) ∧
      PageHolds Net.calm answeringPage [InTree.coinGecko .demo] bitcoinChunk.payload
        (Fleet.start (coingeckoRows ⟨0, 2000, some 60000000000, 0, 0, some 10000⟩)) := by
  have hiff := backpressure_harmless_iff (W := ℕ) (Q := Unit) (M := Unit) (S := Unit) Net.calm
    [InTree.coinGecko .demo] (coingeckoRows ⟨0, 2000, some 60000000000, 0, 0, some 10000⟩)
  constructor
  · exact (hiff.1 answeringItem (bitcoinItem "candles") 0 0 60 5 (by decide)
      (by decide +kernel)).mp (by decide +kernel)
  · exact (hiff.2 answeringPage bitcoinChunk 0 0 60 5 (by decide)
      (by decide +kernel)).mp (by decide +kernel)

/-- CoinGecko has one credit left. The worker takes it for the candles, `paced` is
refused, and the row fails for good; for the metadata the pace step takes it. Both
report that the whole chain failed. -/
theorem last_credit_fails_chain :
    let s := Fleet.start (coingeckoRows ⟨0, 2000, none, 0, 9999, some 10000⟩)
    let candles := dispatchItem Net.calm answeringItem [InTree.coinGecko .demo]
      (bitcoinItem "candles").payload s
    let metadata := dispatchItem Net.calm answeringItem [InTree.coinGecko .demo]
      (bitcoinItem "metadata").payload s
    (OnlyBackpressure candles.2 ∧
        (settle (queueLease ℕ) [queueWrite 1 candles.1]
          (claimRow 0 0 60 (bitcoinItem "candles"))).status = .failed ∧
        ¬NoEvidence candles.2) ∧
      OnlyBackpressure metadata.2 ∧ metadata.1 = .ok .softSkip ∧ ¬NoEvidence metadata.2 := by
  decide +kernel

end CryptoCollector.Collectors
