import CryptoCollector.Collectors.BackfillRules
import CryptoCollector.Providers.InTree

/-!
# What a finished backfill asked for

The chain skips a provider that does not serve ranges, and a chain of such
providers returns an empty page that nobody answered. The worker takes the page
for a gap and walks on to the end of the range. With one range provider in the
chain the first page of a chunk is already a request for the whole range.
-/

namespace CryptoCollector.Collectors
open Foundations Models Providers DateTime

variable {W V : Type*} [Provider V]

/-- Some request for the chunk covered the instant `t` and was answered by a
provider of the chain that serves ranges. -/
def AnsweredAt (chain : List V) (s : BackfillState W) (id t : ℤ) : Prop :=
  ∃ ask ∈ s.asked id, ask.1.start ≤ t ∧ t < ask.1.stop ∧
    ∃ p ∈ chain, Provider.supports p .ohlcRange = true ∧ attempt p .ohlcRange .success ∈ ask.2

/-- Every instant of the chunk's range was asked for and answered. -/
def RangeAnswered (chain : List V) (s : BackfillState W) (id : ℤ) (chunk : ChunkColumns) : Prop :=
  ∀ a ∈ chunk.rangeStart, ∀ b ∈ chunk.rangeEnd, ∀ t, a ≤ t → t < b → AnsweredAt chain s id t

/-- A chain that can answer for a range: it has a range provider, or the worker
gives up at once for want of any OHLC provider, or there is nothing to ask. -/
def RangeAnswerable (chain : List V) (chunk : ChunkColumns) : Prop :=
  Capable chain .ohlcRange ∨ ¬Capable chain .ohlc ∨
    ∀ a ∈ chunk.rangeStart, ∀ b ∈ chunk.rangeEnd, b ≤ a

theorem firstRangeProvider_eq_none {chain : List V} (hrange : ¬Capable chain .ohlcRange)
    (hohlc : ¬Capable chain .ohlc) : firstRangeProvider chain = none := by
  have hnone : ∀ capability, ¬Capable chain capability →
      (chain.find? fun p => Provider.supports p capability) = none := by
    intro capability hincapable
    rw [List.find?_eq_none]
    intro p hp hsupports
    exact hincapable ⟨p, hp, hsupports⟩
  simp [firstRangeProvider, firstOhlcProvider, hnone _ hrange, hnone _ hohlc]

theorem firstPage_answered {chain : List V} {chunk : ChunkColumns} {env : ChunkEnv V}
    (hanswerable : RangeAnswerable chain chunk) (hcursor : chunk.cursor = none)
    {maxTs : Option ℤ} {secs : ℤ}
    (hprogress : (processChunk env chain chunk).outcome = .ok (.progress maxTs secs))
    {a b t : ℤ} (ha : a ∈ chunk.rangeStart) (hb : b ∈ chunk.rangeEnd) (hat : a ≤ t) (htb : t < b) :
    ∃ ask ∈ (processChunk env chain chunk).asked.toList, ask.1.start ≤ t ∧ t < ask.1.stop ∧
      ∃ p ∈ chain, Provider.supports p .ohlcRange = true ∧
        attempt p .ohlcRange .success ∈ ask.2 := by
  have hstart : resumeStart chunk.cursor chunk.rangeStart = some a := by
    rw [hcursor]
    exact ha
  obtain ⟨market, candles, hpage⟩ := processChunk_progress hstart hb hprogress
  have hcap : Capable chain .ohlcRange := by
    rcases hanswerable with hcap | hohlc | hempty
    · exact hcap
    · by_contra hrange
      obtain ⟨-, -, -, hprovider⟩ := processChunk_progress_eq hprogress
      exact hprovider (firstRangeProvider_eq_none hrange hohlc)
    · have hle := hempty a ha b hb
      omega
  obtain ⟨p, hp, hsupports, -, hrecord⟩ := chainFetchOhlcRange_answered hcap hpage.answer
  exact ⟨_, by rw [hpage.asked]; exact List.mem_singleton_self _, hat, htb, p, hp, hsupports,
    hrecord⟩

theorem RangeAnswered.mono {chain : List V} {s t : BackfillState W} {id : ℤ}
    {chunk : ChunkColumns} (h : RangeAnswered chain s id chunk)
    (hasked : ∀ ask ∈ s.asked id, ask ∈ t.asked id) : RangeAnswered chain t id chunk := by
  intro a ha b hb instant hat htb
  obtain ⟨ask, hask, hanswer⟩ := h a ha b hb instant hat htb
  exact ⟨ask, hasked ask hask, hanswer⟩

theorem RangeAnswered.congr_range {chain : List V} {s : BackfillState W} {id : ℤ}
    {chunk chunk' : ChunkColumns} (h : RangeAnswered chain s id chunk)
    (hstart : chunk'.rangeStart = chunk.rangeStart) (hend : chunk'.rangeEnd = chunk.rangeEnd) :
    RangeAnswered chain s id chunk' := by
  unfold RangeAnswered
  rw [hstart, hend]
  exact h

theorem RangeAnswerable.congr_range {chain : List V} {chunk chunk' : ChunkColumns}
    (h : RangeAnswerable chain chunk') (hstart : chunk'.rangeStart = chunk.rangeStart)
    (hend : chunk'.rangeEnd = chunk.rangeEnd) : RangeAnswerable chain chunk := by
  unfold RangeAnswerable
  rw [← hstart, ← hend]
  exact h

/-- A coin is tracked, its slot granted, and nothing else is there to answer. -/
def silentEnv : ChunkEnv V :=
  ⟨.ok (some ("BTC", none)), 300, fun _ => .ok (), fun _ _ => .ok [], fun _ _ => .ok [],
    fun _ => .ok ()⟩

theorem firstRangeProvider_isSome {chain : List V} (h : Capable chain .ohlc) :
    ∃ name, firstRangeProvider chain = some name := by
  obtain ⟨p, hp, hsupports⟩ := h
  have hfound : ((chain.find? fun p => Provider.supports p .ohlc)).isSome :=
    List.find?_isSome.mpr ⟨p, hp, hsupports⟩
  obtain ⟨q, hq⟩ := Option.isSome_iff_exists.mp hfound
  refine Option.isSome_iff_exists.mp ?_
  simp [firstRangeProvider, firstOhlcProvider, hq]

theorem processChunk_silent {chain : List V} (hohlc : Capable chain .ohlc)
    (hrange : ¬Capable chain .ohlcRange) {chunk : ChunkColumns} {start stop : ℤ}
    (hstart : resumeStart chunk.cursor chunk.rangeStart = some start)
    (hstop : chunk.rangeEnd = some stop) :
    ∃ request, processChunk silentEnv chain chunk =
      ⟨.ok (.progress none (resolveIntervalSecs chunk.interval none 300)), [],
        some (request, chain.map fun p => attempt p .ohlcRange .unsupported)⟩ := by
  obtain ⟨name, hname⟩ := firstRangeProvider_isSome hohlc
  refine ⟨⟨.coinKeyed chunk.coinId "BTC" "USDT" "usd", start, stop,
    resolveIntervalSecs chunk.interval none 300⟩, ?_⟩
  simp [processChunk, silentEnv, hstart, hstop, shouldUseRangePath, hname, fetchPage,
    chainFetchOhlcRange, chainFetchOhlcRangeLoop_incapable hrange, persistPage]

/-- One empty page of a chunk nobody answers for. -/
def silentCycle (self : W) (id : ℤ) : List (BackfillAction W V) :=
  [.claim self id 0 60 [], .page self silentEnv, .finalize self, .finalize self]

/-- The cursor an empty page leaves at the configured interval. -/
def skippedCursor (chunk : ChunkColumns) (start stop : ℤ) : ℤ :=
  skipCursor start stop (resolveIntervalSecs chunk.interval none 300)

def skippedRow (self : W) (row : ChunkRow W) (start stop : ℤ) : ChunkRow W :=
  let advanced := advanceCursorRow (skippedCursor row.payload start stop) (claimRow self 0 60 row)
  if skippedCursor row.payload start stop ≥ stop then
    completeBackfillRow advanced
  else
    releaseRow advanced

theorem skippedRow_frame (self : W) (row : ChunkRow W) (start stop : ℤ) :
    (skippedRow self row start stop).id = row.id ∧
      (skippedRow self row start stop).payload.rangeStart = row.payload.rangeStart ∧
      (skippedRow self row start stop).payload.rangeEnd = row.payload.rangeEnd := by
  unfold skippedRow
  split_ifs <;> exact ⟨rfl, rfl, rfl⟩

/-- A chunk with a cursor, or done, was answered for if its chain can answer; so
was one whose worker is about to store a cursor or complete it. -/
theorem coverage_rules (chain : List V) (maxAttempts : ℤ) :
    KeptRules chain maxAttempts (fun _ _ => True)
      (fun (s : BackfillState W) row => RangeAnswerable chain row.payload →
        row.payload.cursor ≠ none ∨ row.status = .done → RangeAnswered chain s row.id row.payload)
      (fun s row writes => RangeAnswerable chain row.payload →
        (∃ op ∈ writes, op.isProgress = true) → RangeAnswered chain s row.id row.payload) where
  enqueue := by simp [newRow, newChunk]
  lease := by
    intro s row row' hid hpayload hclaimed hrow hanswerable hreached
    rw [hpayload] at hanswerable hreached ⊢
    rw [hid]
    exact hrow hanswerable (hreached.imp_right fun hdone => absurd hdone (by simp [hclaimed]))
  extend := by
    intro s t row hextends hrow hanswerable hreached
    exact (hrow hanswerable hreached).mono hextends.asked
  extendWrites := by
    intro s t row writes hextends hwrites hanswerable hprogress
    exact (hwrites hanswerable hprogress).mono hextends.asked
  page := by
    intro s row env _ hrow _ hasked hanswerable hprogress
    obtain ⟨op, hop, hopProgress⟩ := hprogress
    obtain ⟨maxTs, secs, houtcome⟩ := progress_of_finalizeWrites hop hopProgress
    cases hcursor : row.payload.cursor with
    | some cursor => exact hrow hanswerable (Or.inl (by simp [hcursor]))
    | none =>
      intro a ha b hb instant hat htb
      obtain ⟨ask, hask, hanswer⟩ := firstPage_answered hanswerable hcursor houtcome ha hb hat htb
      exact ⟨ask, hasked ask (by simpa using hask), hanswer⟩
  write := by
    intro s t row op rest f hclaimed hrow hwrites hf hupserted hasked hpages
    have hrange := backfill_effect_range hf row
    have hmono : ∀ ask ∈ s.asked row.id, ask ∈ t.asked row.id := by simp [hasked]
    rw [LeaseTable.effect_id hf row]
    constructor
    · intro hanswerable hreached
      have hold := hanswerable.congr_range hrange.1 hrange.2
      refine RangeAnswered.congr_range (RangeAnswered.mono ?_ hmono) hrange.1 hrange.2
      by_cases hop : op.isProgress = true
      · exact hwrites hold ⟨op, List.mem_cons_self, hop⟩
      · have hframe := backfill_effect_of_not_progress hf (by simpa using hop) hclaimed
        refine hrow hold (Or.inl ?_)
        rcases hreached with hcursor | hdone
        · rwa [hframe.1] at hcursor
        · exact absurd hdone hframe.2
    · intro hanswerable hprogress
      obtain ⟨op', hop', hopProgress⟩ := hprogress
      refine RangeAnswered.congr_range (RangeAnswered.mono ?_ hmono) hrange.1 hrange.2
      exact hwrites (hanswerable.congr_range hrange.1 hrange.2)
        ⟨op', List.mem_cons_of_mem _ hop', hopProgress⟩
  skip := by
    intro s row op rest hwrites hanswerable hprogress
    obtain ⟨op', hop', hopProgress⟩ := hprogress
    exact hwrites hanswerable ⟨op', List.mem_cons_of_mem _ hop', hopProgress⟩

variable [DecidableEq W]

/-- The chunk `row` alone in the table, with no request of it answered. -/
structure Unanswered (s : BackfillState W) (row : ChunkRow W) : Prop where
  table : s.queue.table = [row]
  asked : ∀ ask ∈ s.asked row.id, ∀ record ∈ ask.2, record.outcome = .unsupported

/-- The worker `worker` alone holds the claim of the chunk. -/
structure AtWork (s : BackfillState W) (worker : W) (row : ChunkRow W) (work : BackfillWork) :
    Prop extends Unanswered s row where
  owner : row.claimedBy = some worker
  holder : ∃ c, s.queue.holding worker = some c ∧ c.id = row.id
  others : ∀ other, other ≠ worker → s.queue.holding other = none
  work : s.work worker = some work

variable {chain : List V} {s : BackfillState W} {self : W} {row : ChunkRow W}

theorem Unanswered.claim (chain : List V) (maxAttempts : ℤ) (self : W) (h : Unanswered s row)
    (hidle : ∀ self, s.queue.holding self = none) (hpending : row.status = .pending) :
    ∃ t, backfillStep chain maxAttempts s (.claim self row.id 0 60 []) = some t ∧
      AtWork t self (claimRow self 0 60 row) (.fetching row.payload) := by
  have hclaimable : claimable 0 row := Or.inl hpending
  refine ⟨{ s with
    queue := claimStep s.queue self row.id 0 60 row.attempts
    work := Function.update s.work self (some (.fetching row.payload)) }, ?_, ?_⟩
  · simp [backfillStep, leaseStep, h.table, hidle, claimCandidate, hclaimable, claimStep,
      updateWhere, claimRow]
  · refine ⟨⟨?_, h.asked⟩, rfl, ?_, ?_, ?_⟩
    · simp [claimStep, h.table, updateWhere]
    · exact ⟨_, by simp [claimStep]; rfl, rfl⟩
    · intro other hother
      simpa [claimStep, Function.update_of_ne hother] using hidle other
    · simp

theorem AtWork.page (maxAttempts : ℤ) {chunk : ChunkColumns}
    (h : AtWork s self row (.fetching chunk))
    (hasked : ∀ ask ∈ (processChunk (silentEnv (V := V)) chain chunk).asked.toList,
      ∀ record ∈ ask.2, record.outcome = .unsupported) :
    ∃ t, backfillStep chain maxAttempts s (.page self silentEnv) = some t ∧
      AtWork t self row (.finalizing chunk
        (finalizeWrites maxAttempts chunk (processChunk silentEnv chain chunk).outcome)) := by
  obtain ⟨c, hc, hid⟩ := h.holder
  refine ⟨_, by simp only [backfillStep, h.work, hc]; rfl, ⟨?_, ?_⟩, h.owner, ⟨c, ?_, hid⟩, ?_,
    by simp⟩
  · exact h.table
  · intro ask hmem
    simp only [hid, Function.update_self, List.mem_append] at hmem
    rcases hmem with hnew | hold
    · exact hasked ask hnew
    · exact h.asked ask hold
  · exact hc
  · exact h.others

theorem AtWork.advance (chain : List V) (maxAttempts : ℤ) {chunk : ChunkColumns} {cursor : ℤ}
    {rest : List LeaseWrite} (h : AtWork s self row
      (.finalizing chunk (.advanceCursor cursor :: rest))) (hrest : rest ≠ []) :
    ∃ t, backfillStep chain maxAttempts s (.finalize self) = some t ∧
      AtWork t self (advanceCursorRow cursor row) (.finalizing chunk rest) := by
  obtain ⟨c, hc, hid⟩ := h.holder
  have howned : ownedBy self c.id row := ⟨hid.symm, h.owner⟩
  have hstep : leaseStep (backfillLease W) s.queue (.write self (.advanceCursor cursor)) =
      some (writeStep s.queue self c none (advanceCursorRow cursor)) := by
    simp [leaseStep, hc, LeaseTable.effect, backfillLease, LeaseWrite.event]
  refine ⟨_, by simp only [backfillStep, h.work, hc, hstep, Option.map_some]; rfl,
    ⟨?_, ?_⟩, h.owner, ⟨c, ?_, hid⟩, ?_, ?_⟩
  · simp [finalizeStep, writeStep, h.table, updateWhere, howned]
  · exact h.asked
  · simpa [finalizeStep, writeStep] using hc
  · intro other hother
    simpa [finalizeStep, writeStep] using h.others other hother
  · simp [finalizeStep, hrest]

theorem AtWork.finish (chain : List V) (maxAttempts : ℤ) {chunk : ChunkColumns} {op : LeaseWrite}
    {f : ChunkRow W → ChunkRow W} (h : AtWork s self row (.finalizing chunk [op]))
    (hevent : op.event.isSome)
    (hf : (backfillLease W).effect op = some f) :
    ∃ t, backfillStep chain maxAttempts s (.finalize self) = some t ∧ Unanswered t (f row) ∧
      ∀ self, t.queue.holding self = none := by
  obtain ⟨c, hc, hid⟩ := h.holder
  have howned : ownedBy self c.id row := ⟨hid.symm, h.owner⟩
  have hstep : leaseStep (backfillLease W) s.queue (.write self op) =
      some (writeStep s.queue self c op.event f) := by
    simp [leaseStep, hc, hf]
  refine ⟨_, by simp only [backfillStep, h.work, hc, hstep, Option.map_some]; rfl,
    ⟨?_, ?_⟩, ?_⟩
  · simp [finalizeStep, writeStep, h.table, updateWhere, howned]
  · rw [LeaseTable.effect_id hf row]
    exact h.asked
  · intro other
    by_cases hother : other = self
    · subst hother
      simp [finalizeStep, writeStep, hevent]
    · simpa [finalizeStep, writeStep, hevent, Function.update_of_ne hother] using
        h.others other hother

theorem Unanswered.cycle (maxAttempts : ℤ) (self : W) (hohlc : Capable chain .ohlc)
    (hrange : ¬Capable chain .ohlcRange) (h : Unanswered s row)
    (hidle : ∀ self, s.queue.holding self = none)
    (hpending : row.status = .pending) {start stop : ℤ}
    (hstart : resumeStart row.payload.cursor row.payload.rangeStart = some start)
    (hstop : row.payload.rangeEnd = some stop) :
    ∃ t, exec (backfillStep chain maxAttempts) s (silentCycle self row.id) = some t ∧
      Unanswered t (skippedRow self row start stop) ∧ ∀ self, t.queue.holding self = none := by
  obtain ⟨request, hpage⟩ := processChunk_silent hohlc hrange hstart hstop
  set cursor := skippedCursor row.payload start stop with hcursor
  set op : LeaseWrite := if cursor ≥ stop then .complete else .release with hop
  have hwrites : finalizeWrites maxAttempts row.payload
      (processChunk silentEnv chain row.payload).outcome = [.advanceCursor cursor, op] := by
    rw [hpage, hop, hcursor]
    exact finalizeWrites_empty hstart hstop maxAttempts _
  have hunsupported : ∀ ask ∈ (processChunk silentEnv chain row.payload).asked.toList,
      ∀ record ∈ ask.2, record.outcome = .unsupported := by
    rw [hpage]
    intro ask hask record hrecord
    obtain rfl := List.mem_singleton.mp hask
    obtain ⟨p, -, rfl⟩ := List.mem_map.mp hrecord
    rfl
  obtain ⟨s₁, h₁, hs₁⟩ := h.claim chain maxAttempts self hidle hpending
  obtain ⟨s₂, h₂, hs₂⟩ := hs₁.page maxAttempts hunsupported
  rw [hwrites] at hs₂
  obtain ⟨s₃, h₃, hs₃⟩ := hs₂.advance chain maxAttempts (by simp)
  have hlast : ∃ t, backfillStep chain maxAttempts s₃ (.finalize self) = some t ∧
      Unanswered t (skippedRow self row start stop) ∧ ∀ self, t.queue.holding self = none := by
    by_cases hend : cursor ≥ stop
    · rw [hop, if_pos hend] at hs₃
      have hrow : skippedRow self row start stop =
          completeBackfillRow (advanceCursorRow cursor (claimRow self 0 60 row)) := if_pos hend
      rw [hrow]
      exact hs₃.finish chain maxAttempts rfl rfl
    · rw [hop, if_neg hend] at hs₃
      have hrow : skippedRow self row start stop =
          releaseRow (advanceCursorRow cursor (claimRow self 0 60 row)) := if_neg hend
      rw [hrow]
      exact hs₃.finish chain maxAttempts rfl rfl
  obtain ⟨t, h₄, ht⟩ := hlast
  refine ⟨t, ?_, ht⟩
  simp [silentCycle, exec, h₁, h₂, h₃, h₄]

/-- Empty pages walk the chunk to `done`. -/
theorem Unanswered.reaches_done (maxAttempts : ℤ) (self : W) (hohlc : Capable chain .ohlc)
    (hrange : ¬Capable chain .ohlcRange) {stop : ℤ} (n : ℕ) :
    ∀ (start : ℤ) {s : BackfillState W} {row : ChunkRow W}, (stop - start).toNat ≤ n →
      Unanswered s row → (∀ self, s.queue.holding self = none) → row.status = .pending →
      resumeStart row.payload.cursor row.payload.rangeStart = some start →
      row.payload.rangeEnd = some stop →
      ∃ as t row', exec (backfillStep chain maxAttempts) s as = some t ∧ Unanswered t row' ∧
        row'.status = .done ∧ row'.payload.rangeStart = row.payload.rangeStart ∧
        row'.payload.rangeEnd = row.payload.rangeEnd := by
  induction n with
  | zero =>
    intro start s row hn h hidle hpending hstart hstop
    obtain ⟨t, hrun, ht, -⟩ := h.cycle maxAttempts self hohlc hrange hidle hpending hstart hstop
    have hframe := skippedRow_frame self row start stop
    have hend : skippedCursor row.payload start stop ≥ stop := by
      unfold skippedCursor skipCursor seconds emptyPageSkipCandles
      omega
    refine ⟨_, t, _, hrun, ht, ?_, hframe.2.1, hframe.2.2⟩
    simp [skippedRow, hend, completeBackfillRow]
  | succ n ih =>
    intro start s row hn h hidle hpending hstart hstop
    obtain ⟨t, hrun, ht, htidle⟩ := h.cycle maxAttempts self hohlc hrange hidle hpending hstart
      hstop
    have hframe := skippedRow_frame self row start stop
    by_cases hend : skippedCursor row.payload start stop ≥ stop
    · refine ⟨_, t, _, hrun, ht, ?_, hframe.2.1, hframe.2.2⟩
      simp [skippedRow, hend, completeBackfillRow]
    · have hskip : skippedRow self row start stop = releaseRow (advanceCursorRow
          (skippedCursor row.payload start stop) (claimRow self 0 60 row)) := if_neg hend
      have hstored := storeTimestamptz_spec (skippedCursor row.payload start stop)
      have hmoved : start + seconds 1000 ≤ skippedCursor row.payload start stop :=
        le_skipCursor (not_le.mp hend)
      unfold seconds at hmoved
      obtain ⟨as, u, row', hrest, hu, hdone, hrs, hre⟩ := ih
        (storeTimestamptz (skippedCursor row.payload start stop) + 1) (by omega) ht htidle
        (by simp [hskip, releaseRow])
        (by simp [hskip, releaseRow, advanceCursorRow, resumeStart])
        (hframe.2.2.trans hstop)
      exact ⟨_, u, row', (exec_append_eq_some _).mpr ⟨t, hrun, hrest⟩, hu, hdone,
        hrs.trans hframe.2.1, hre.trans hframe.2.2⟩

/-- On a chain that cannot answer, a chunk with the given bounds can be finished
without an answer. -/
theorem exists_unanswered_run {chain : List V} {jobId : ℤ} {coinId dataset : String}
    {interval : Option String} {rangeStart rangeEnd : ℤ}
    (hnot : ¬RangeAnswerable chain
      (newChunk jobId coinId dataset interval (some rangeStart) (some rangeEnd)))
    (maxAttempts : ℤ) (self : W) :
    ∃ (as : List (BackfillAction W V)) (s : BackfillState W) (row : ChunkRow W),
      exec (backfillStep chain maxAttempts) BackfillState.init as = some s ∧
      row ∈ s.queue.table ∧ row.status = .done ∧
      row.payload.rangeStart = some (storeTimestamptz rangeStart) ∧
      row.payload.rangeEnd = some (storeTimestamptz rangeEnd) ∧
      ¬RangeAnswered chain s row.id row.payload := by
  set chunk := newChunk jobId coinId dataset interval (some rangeStart) (some rangeEnd)
    with hchunk
  unfold RangeAnswerable at hnot
  push Not at hnot
  obtain ⟨hrange, hohlc, a, ha, b, hb, hlt⟩ := hnot
  let s₁ : BackfillState W :=
    { BackfillState.init with
      queue := { (World.empty : World W ChunkColumns) with table := [newRow 1 0 chunk] } }
  have hinsert : backfillStep chain maxAttempts BackfillState.init
      (.enqueue 1 0 jobId coinId dataset interval (some rangeStart) (some rangeEnd)) =
      some s₁ := by
    simp [backfillStep, leaseStep, BackfillState.init, World.empty, s₁, hchunk]
  have hfirst : Unanswered s₁ (newRow 1 0 chunk) := ⟨rfl, by simp [s₁, BackfillState.init]⟩
  obtain ⟨as, t, row, hrun, ht, hdone, hrs, hre⟩ := hfirst.reaches_done maxAttempts self hohlc
    hrange (b - a).toNat a le_rfl (fun _ => rfl) rfl ha hb
  refine ⟨_, t, row, (exec_cons_eq_some _).mpr ⟨_, hinsert, hrun⟩, ?_, hdone, hrs, hre, ?_⟩
  · rw [ht.table]
    exact List.mem_singleton_self row
  · intro hanswered
    obtain ⟨ask, hask, -, -, p, -, -, hrecord⟩ :=
      hanswered a (hrs ▸ ha) b (hre ▸ hb) a le_rfl hlt
    exact absurd (ht.asked ask hask _ hrecord) (by simp [attempt])

/-- On a chain, every chunk with the given bounds that any run of the workers
finishes was answered for at every instant of its range, exactly when the chain
can answer for that range. -/
theorem backfill_answered_iff (chain : List V) (maxAttempts : ℤ) (self : W) (jobId : ℤ)
    (coinId dataset : String) (interval : Option String) (rangeStart rangeEnd : ℤ) :
    (∀ (as : List (BackfillAction W V)) s,
      exec (backfillStep chain maxAttempts) BackfillState.init as = some s →
      ∀ row ∈ s.queue.table, row.status = .done →
        row.payload.rangeStart = some (storeTimestamptz rangeStart) →
        row.payload.rangeEnd = some (storeTimestamptz rangeEnd) →
        RangeAnswered chain s row.id row.payload) ↔
      RangeAnswerable chain
        (newChunk jobId coinId dataset interval (some rangeStart) (some rangeEnd)) := by
  constructor
  · intro hall
    by_contra hnot
    obtain ⟨as, s, row, hrun, hrow, hdone, hrs, hre, hunanswered⟩ :=
      exists_unanswered_run hnot maxAttempts self
    exact hunanswered (hall as s hrun row hrow hdone hrs hre)
  · intro hanswerable as s hrun row hrow hdone hrs hre
    have hkept := Kept.of_run (coverage_rules chain maxAttempts) 
      (stepsMeet_of_forall _ (fun _ _ _ _ _ _ _ _ => trivial) _) hrun
    exact hkept.rows row hrow
      (hanswerable.congr_range (by rw [hrs]; rfl) (by rw [hre]; rfl)) (Or.inr hdone)

/-- CoinGecko alone on the demo tier: a day of candles is marked done although
nobody was asked for it. -/
theorem demo_tier_backfill_unanswered :
    ∃ (as : List (BackfillAction (Fin 1) InTree)) (s : BackfillState (Fin 1))
      (row : ChunkRow (Fin 1)),
      exec (backfillStep [InTree.coinGecko .demo] 5) BackfillState.init as = some s ∧
      row ∈ s.queue.table ∧ row.status = .done ∧
      row.payload.rangeStart = some (storeTimestamptz (seconds 1704067200)) ∧
      row.payload.rangeEnd = some (storeTimestamptz (seconds 1704153600)) ∧
      ¬RangeAnswered [InTree.coinGecko .demo] s row.id row.payload := by
  have hnot : ¬RangeAnswerable [InTree.coinGecko .demo] (newChunk 1 "bitcoin" "candles"
      (some "1d") (some (seconds 1704067200)) (some (seconds 1704153600))) := by
    simp [RangeAnswerable, Capable, Provider.supports, InTree.supports, Tier.isPaid, newChunk,
      storeTimestamptz, seconds, pgEpoch, fromTimestamp]
  exact exists_unanswered_run hnot 5 0

end CryptoCollector.Collectors
