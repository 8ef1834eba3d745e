import CryptoCollector.Collectors.BackfillRules
import CryptoCollector.Foundations.Ascending
import CryptoCollector.Providers.InTree

/-!
# The walk over one provider's candles

When one provider of the chain serves ranges, and serves them as the trait asks,
every candle up to the stored cursor has been upserted. A page with candles ends
at the newest of them and an empty page skips instants where there is none, so
the cursor only ever passes candles already there.
-/

namespace CryptoCollector.Collectors
open Foundations Models Providers DateTime

/-- The candles of a provider, at microsecond precision. -/
structure CandleSource where
  candles : List OhlcCandle
  ascending : Ascending OhlcCandle.ts candles
  micros : ∀ candle ∈ candles, Micros candle.ts

def CandleSource.between (source : CandleSource) (start stop : ℤ) : List OhlcCandle :=
  source.candles.filter fun candle => start ≤ candle.ts ∧ candle.ts < stop

/-- Each range request `p` answers gets the first candles of the range, at least
one if there is any and at most `limit`. -/
def ServesPages {V : Type*} (source : CandleSource) (limit : ℕ) (p : V) (env : ChunkEnv V) :
    Prop :=
  ∀ request : RangeRequest, (∃ e, env.fetchOhlcRange p request = .error e) ∨
    ∃ n, 1 ≤ n ∧ n ≤ limit ∧
      env.fetchOhlcRange p request = .ok ((source.between request.start request.stop).take n)

theorem CandleSource.mem_between {source : CandleSource} {start stop : ℤ} {candle : OhlcCandle} :
    candle ∈ source.between start stop ↔
      candle ∈ source.candles ∧ start ≤ candle.ts ∧ candle.ts < stop := by
  simp [CandleSource.between]

theorem CandleSource.between_ascending (source : CandleSource) (start stop : ℤ) :
    Ascending OhlcCandle.ts (source.between start stop) :=
  source.ascending.filter _

theorem filterToRange_take_between (source : CandleSource) (start stop : ℤ) (n : ℕ) :
    filterToRange (some start) (some stop) ((source.between start stop).take n) =
      (source.between start stop).take n := by
  refine List.filter_eq_self.mpr ?_
  intro candle hcandle
  have hmem := CandleSource.mem_between.mp (List.mem_of_mem_take hcandle)
  simp [hmem.2.1, hmem.2.2]

/-- How far a cursor is in the range from `a` to `b`: the candles behind it, and
one for every 999 seconds. A skip of an empty page is a thousand seconds, less
what storing the cursor may take off. -/
def walked (source : CandleSource) (a b : ℤ) : Option ℤ → ℕ
  | none => 0
  | some c => countUpTo OhlcCandle.ts (source.between a b) c + ((c - a) / seconds 999).toNat

theorem walked_mono (source : CandleSource) (a b : ℤ) {cursor : Option ℤ} {d : ℤ}
    (h : ∀ c ∈ cursor, c ≤ d) : walked source a b cursor ≤ walked source a b (some d) := by
  cases cursor with
  | none => exact Nat.zero_le _
  | some c =>
    have hle : c ≤ d := h c rfl
    have hcount := countUpTo_mono OhlcCandle.ts (source.between a b) hle
    have hspan : (c - a) / seconds 999 ≤ (d - a) / seconds 999 := by
      unfold seconds
      omega
    simp only [walked]
    omega

theorem walked_candle {source : CandleSource} {a b : ℤ} {cursor : Option ℤ} {candle : OhlcCandle}
    (hmem : candle ∈ source.between a b) (h : ∀ c ∈ cursor, c < candle.ts) :
    walked source a b cursor + 1 ≤ walked source a b (some candle.ts) := by
  cases cursor with
  | none =>
    have hpos := countUpTo_lt OhlcCandle.ts hmem (sub_one_lt candle.ts)
    simp only [walked]
    omega
  | some c =>
    have hlt : c < candle.ts := h c rfl
    have hcount := countUpTo_lt OhlcCandle.ts hmem hlt
    have hspan : (c - a) / seconds 999 ≤ (candle.ts - a) / seconds 999 := by
      unfold seconds
      omega
    simp only [walked]
    omega

theorem walked_skip {source : CandleSource} {a b : ℤ} {cursor : Option ℤ} {d : ℤ}
    (ha : a + seconds 999 ≤ d) (h : ∀ c ∈ cursor, a ≤ c ∧ c + seconds 999 ≤ d) :
    walked source a b cursor + 1 ≤ walked source a b (some d) := by
  cases cursor with
  | none =>
    simp only [walked]
    unfold seconds at ha ⊢
    omega
  | some c =>
    obtain ⟨hac, hcd⟩ := h c rfl
    have hle : c ≤ d := by
      unfold seconds at hcd
      omega
    have hcount := countUpTo_mono OhlcCandle.ts (source.between a b) hle
    simp only [walked]
    unfold seconds at hcd ⊢
    omega

theorem walked_le {source : CandleSource} {a b : ℤ} {cursor : Option ℤ} (h : ∀ c ∈ cursor, c ≤ b) :
    walked source a b cursor ≤ (source.between a b).length + ((b - a) / seconds 999).toNat := by
  have hlength := countUpTo_le_length OhlcCandle.ts (source.between a b) b
  calc walked source a b cursor
      ≤ walked source a b (some b) := walked_mono source a b h
    _ ≤ (source.between a b).length + ((b - a) / seconds 999).toNat :=
      Nat.add_le_add_right hlength _

variable {W V : Type*} [Provider V]

/-- Every candle of the range up to `c` has been upserted for the coin. -/
def UpsertedUpTo (source : CandleSource) (s : BackfillState W) (coinId : String) (a b c : ℤ) :
    Prop :=
  ∀ candle ∈ source.between a b, candle.ts ≤ c → CoinCandle.ofOhlc coinId candle ∈ s.upserted

theorem UpsertedUpTo.mono {source : CandleSource} {s t : BackfillState W} {coinId : String}
    {a b c : ℤ} (h : UpsertedUpTo source s coinId a b c)
    (hupserted : ∀ candle ∈ s.upserted, candle ∈ t.upserted) :
    UpsertedUpTo source t coinId a b c :=
  fun candle hcandle hle => hupserted _ (h candle hcandle hle)

/-- What the stored cursor of a chunk says of the candles and the pages so far. -/
structure ChunkWalk (source : CandleSource) (s : BackfillState W) (row : ChunkRow W) (a b : ℤ) :
    Prop where
  endMicros : Micros b
  low : ∀ c ∈ row.payload.cursor, min a b ≤ c
  high : ∀ c ∈ row.payload.cursor, c ≤ b
  upserted : ∀ c ∈ row.payload.cursor, UpsertedUpTo source s row.payload.coinId a b c
  pages : s.pages row.id ≤ walked source a b row.payload.cursor
  finished : row.status = .done → row.payload.cursor = some b

/-- The writes a worker may still have to issue for the chunk: its page's cursor
and then a release or the completion, the completion, or a write of no progress. -/
inductive WalkWrites (source : CandleSource) (s : BackfillState W) (row : ChunkRow W) (a b : ℤ) :
    List LeaseWrite → Prop where
  | move (c : ℤ) (low : min a b ≤ storeTimestamptz c) (high : storeTimestamptz c ≤ b)
      (further : ∀ u ∈ row.payload.cursor, u < storeTimestamptz c)
      (upserted : UpsertedUpTo source s row.payload.coinId a b (storeTimestamptz c))
      (walked : walked source a b row.payload.cursor + 1 ≤
        walked source a b (some (storeTimestamptz c))) :
      WalkWrites source s row a b [.advanceCursor c, .release]
  | finish (c : ℤ) (reached : storeTimestamptz c = b)
      (upserted : UpsertedUpTo source s row.payload.coinId a b b) :
      WalkWrites source s row a b [.advanceCursor c, .complete]
  | complete (upserted : UpsertedUpTo source s row.payload.coinId a b b) :
      WalkWrites source s row a b [.complete]
  | stop (op : LeaseWrite) (idle : op.isProgress = false) : WalkWrites source s row a b [op]
  | nothing : WalkWrites source s row a b []

theorem page_served {source : CandleSource} {limit : ℕ} {p : V} {chain : List V}
    (hsole : SoleRangeProvider p chain) {env : ChunkEnv V}
    (hserves : ServesPages source limit p env) {chunk : ChunkColumns} {start stop : ℤ}
    (hstart : resumeStart chunk.cursor chunk.rangeStart = some start)
    (hstop : chunk.rangeEnd = some stop) {maxTs : Option ℤ} {secs : ℤ}
    (h : (processChunk env chain chunk).outcome = .ok (.progress maxTs secs)) :
    ∃ n, 1 ≤ n ∧ maxTs = (((source.between start stop).take n).map OhlcCandle.ts).max? ∧
      (processChunk env chain chunk).upserted =
        ((source.between start stop).take n).map (CoinCandle.ofOhlc chunk.coinId) := by
  obtain ⟨market, candles, hpage⟩ := processChunk_progress hstart hstop h
  have hanswer := hpage.answer
  rw [chainFetchOhlcRange_sole hsole] at hanswer
  rcases hserves ⟨market, start, stop, secs⟩ with ⟨e, herror⟩ | ⟨n, hn, -, hok⟩
  · rw [herror] at hanswer
    cases hanswer
  · obtain rfl : (source.between start stop).take n = candles :=
      Except.ok.inj (hok.symm.trans hanswer)
    refine ⟨n, hn, ?_, ?_⟩
    · rw [hpage.maxTs, filterToRange_take_between]
    · rw [hpage.upserted, filterToRange_take_between]

/-- Where a page starts: behind the cursor, with what lies before it upserted. -/
structure ResumesAt (source : CandleSource) (s : BackfillState W) (row : ChunkRow W)
    (a b start : ℤ) : Prop where
  resume : resumeStart row.payload.cursor row.payload.rangeStart = some start
  low : min a b ≤ start
  cursor : ∀ u ∈ row.payload.cursor, start = u + 1 ∧ min a b ≤ u
  first : row.payload.cursor = none → start = a
  before : UpsertedUpTo source s row.payload.coinId a b (start - 1)

theorem ChunkWalk.resumesAt {source : CandleSource} {s : BackfillState W} {row : ChunkRow W}
    {a b : ℤ} (hwalk : ChunkWalk source s row a b) (ha : row.payload.rangeStart = some a) :
    ∃ start, ResumesAt source s row a b start := by
  cases hcursor : row.payload.cursor with
  | none =>
    refine ⟨a, by rw [hcursor]; exact ha, min_le_left a b, by simp [hcursor], fun _ => rfl, ?_⟩
    intro candle hcandle hle
    have hlow := (CandleSource.mem_between.mp hcandle).2.1
    omega
  | some c =>
    have hlow := hwalk.low c hcursor
    refine ⟨c + 1, by rw [hcursor]; rfl, by omega, ?_, by simp [hcursor], ?_⟩
    · intro u hu
      obtain rfl : c = u := by simpa [hcursor] using hu
      exact ⟨rfl, hlow⟩
    · simpa using hwalk.upserted c hcursor

theorem ResumesAt.le_of_lt {source : CandleSource} {s : BackfillState W} {row : ChunkRow W}
    {a b start : ℤ} (h : ResumesAt source s row a b start) (hlt : start < b) :
    a ≤ start ∧ ∀ u ∈ row.payload.cursor, a ≤ u := by
  cases hcursor : row.payload.cursor with
  | none => exact ⟨(h.first hcursor).ge, by simp⟩
  | some c =>
    obtain ⟨hstart, hlow⟩ := h.cursor c hcursor
    have hac : a ≤ c := by omega
    refine ⟨by omega, ?_⟩
    intro u hu
    obtain rfl : c = u := by simpa using hu
    exact hac

theorem ResumesAt.skip {source : CandleSource} {s : BackfillState W} {row : ChunkRow W}
    {a b start : ℤ} (h : ResumesAt source s row a b start) (hmicros : Micros b)
    (hempty : source.between start b = []) (secs : ℤ) :
    WalkWrites source s row a b [.advanceCursor (skipCursor start b secs),
      if skipCursor start b secs ≥ b then .complete else .release] := by
  have hall : ∀ c, UpsertedUpTo source s row.payload.coinId a b c := by
    intro c candle hcandle _
    obtain ⟨hmem, -, hhigh⟩ := CandleSource.mem_between.mp hcandle
    by_cases hbefore : candle.ts ≤ start - 1
    · exact h.before candle hcandle hbefore
    · have hleft : candle ∈ source.between start b :=
        CandleSource.mem_between.mpr ⟨hmem, by omega, hhigh⟩
      simp [hempty] at hleft
  have hle := skipCursor_le start b secs
  by_cases hend : skipCursor start b secs ≥ b
  · rw [if_pos hend, le_antisymm hle hend]
    exact .finish b (storeTimestamptz_of_micros hmicros) (hall b)
  · rw [if_neg hend]
    have hskip := le_skipCursor (not_le.mp hend)
    have ⟨hstoreLow, hstoreHigh, hstoreMicros⟩ := storeTimestamptz_spec (skipCursor start b secs)
    unfold Micros at hmicros hstoreMicros
    have hspan : start + seconds 999 ≤ storeTimestamptz (skipCursor start b secs) := by
      unfold seconds at hskip ⊢
      omega
    have hinside : start < b := by
      unfold seconds at hskip
      omega
    obtain ⟨hstart, hcursor⟩ := h.le_of_lt hinside
    have hcursorSpan : ∀ u ∈ row.payload.cursor,
        a ≤ u ∧ u + seconds 999 ≤ storeTimestamptz (skipCursor start b secs) := by
      intro u hu
      obtain ⟨hu', -⟩ := h.cursor u hu
      exact ⟨hcursor u hu, by omega⟩
    refine .move _ ?_ (by omega) ?_ (hall _) (walked_skip (by omega) hcursorSpan)
    · have hlow := h.low
      unfold seconds at hspan
      omega
    · intro u hu
      have hu' := (hcursorSpan u hu).2
      unfold seconds at hu'
      omega

/-- A page with candles: the cursor moves to the newest, behind which none was
left out. -/
theorem ResumesAt.candles {source : CandleSource} {s : BackfillState W} {row : ChunkRow W}
    {a b start : ℤ} (h : ResumesAt source s row a b start) {n : ℕ} {m : ℤ}
    (hmax : (((source.between start b).take n).map OhlcCandle.ts).max? = some m)
    (hupserted : ∀ candle ∈ (source.between start b).take n,
      CoinCandle.ofOhlc row.payload.coinId candle ∈ s.upserted) :
    WalkWrites source s row a b [.advanceCursor m, if m ≥ b then .complete else .release] := by
  obtain ⟨hmem, -⟩ := List.max?_eq_some_iff.mp hmax
  obtain ⟨newest, hnewest, rfl⟩ := List.mem_map.mp hmem
  obtain ⟨hcandle, hstart, hstop⟩ := CandleSource.mem_between.mp (List.mem_of_mem_take hnewest)
  obtain ⟨hinside, hcursor⟩ := h.le_of_lt (lt_of_le_of_lt hstart hstop)
  have hstore := storeTimestamptz_of_micros (source.micros newest hcandle)
  have hfurther : ∀ u ∈ row.payload.cursor, u < newest.ts := by
    intro u hu
    obtain ⟨hu', -⟩ := h.cursor u hu
    omega
  rw [if_neg (not_le.mpr hstop)]
  refine .move _ ?_ ?_ ?_ ?_ ?_ <;> rw [hstore]
  · have hlow := h.low
    omega
  · exact hstop.le
  · exact hfurther
  · intro candle hmem hle
    obtain ⟨hcandle', -, hstop'⟩ := CandleSource.mem_between.mp hmem
    by_cases hbefore : candle.ts ≤ start - 1
    · exact h.before candle hmem hbefore
    · have hleft : candle ∈ source.between start b :=
        CandleSource.mem_between.mpr ⟨hcandle', by omega, hstop'⟩
      exact hupserted candle
        ((source.between_ascending start b).mem_take_of_le hleft hnewest hle)
  · exact walked_candle
      (CandleSource.mem_between.mpr ⟨hcandle, hinside.trans hstart, hstop⟩) hfurther

theorem ChunkWalk.page {source : CandleSource} {limit : ℕ} {p : V} {chain : List V}
    (hsole : SoleRangeProvider p chain) {env : ChunkEnv V}
    (hserves : ServesPages source limit p env) (maxAttempts : ℤ) {s : BackfillState W}
    {row : ChunkRow W} {a b : ℤ} (ha : row.payload.rangeStart = some a)
    (hb : row.payload.rangeEnd = some b) (hwalk : ChunkWalk source s row a b)
    (hupserted : ∀ candle ∈ (processChunk env chain row.payload).upserted,
      candle ∈ s.upserted) :
    WalkWrites source s row a b
      (finalizeWrites maxAttempts row.payload (processChunk env chain row.payload).outcome) := by
  by_cases hidle : ∀ maxTs secs,
      (processChunk env chain row.payload).outcome ≠ .ok (.progress maxTs secs)
  · obtain ⟨op, hop, hopIdle⟩ := finalizeWrites_stop maxAttempts row.payload hidle
    rw [hop]
    exact .stop op hopIdle
  push Not at hidle
  obtain ⟨maxTs, secs, houtcome⟩ := hidle
  obtain ⟨start, hresumes⟩ := hwalk.resumesAt ha
  obtain ⟨n, hn, hmax, hpage⟩ := page_served hsole hserves hresumes.resume hb houtcome
  rw [houtcome]
  cases maxTs with
  | none =>
    have hempty : source.between start b = [] := by
      have htake : (source.between start b).take n = [] := by simpa using hmax.symm
      rcases List.take_eq_nil_iff.mp htake with hzero | hnil
      · omega
      · exact hnil
    rw [finalizeWrites_empty hresumes.resume hb]
    exact hresumes.skip hwalk.endMicros hempty secs
  | some m =>
    rw [finalizeWrites_candles hb]
    refine hresumes.candles hmax.symm fun candle hcandle => hupserted _ ?_
    rw [hpage]
    exact List.mem_map_of_mem hcandle

theorem ChunkWalk.moveTo {source : CandleSource} {s t : BackfillState W} {row row' : ChunkRow W}
    {a b c : ℤ} (hwalk : ChunkWalk source s row a b) (hid : row'.id = row.id)
    (hcoin : row'.payload.coinId = row.payload.coinId) (hcursor : row'.payload.cursor = some c)
    (hlow : min a b ≤ c) (hhigh : c ≤ b)
    (hupserted : UpsertedUpTo source s row.payload.coinId a b c)
    (hmono : t.upserted = s.upserted) (hpages : t.pages row.id ≤ walked source a b (some c))
    (hfinished : row'.status = .done → c = b) : ChunkWalk source t row' a b where
  endMicros := hwalk.endMicros
  low := by simpa [hcursor] using hlow
  high := by simpa [hcursor] using hhigh
  upserted := by
    intro u hu
    obtain rfl : c = u := by simpa [hcursor] using hu
    rw [hcoin]
    exact hupserted.mono (by simp [hmono])
  pages := by rwa [hid, hcursor]
  finished := by
    intro hdone
    rw [hcursor, hfinished hdone]

/-- A write that reaches the chunk keeps its walk, and leaves a walk's writes. -/
theorem ChunkWalk.write {source : CandleSource} {s t : BackfillState W} {row : ChunkRow W}
    {a b : ℤ} {op : LeaseWrite} {rest : List LeaseWrite} {f : ChunkRow W → ChunkRow W}
    (hb : row.payload.rangeEnd = some b) (hclaimed : row.status = .claimed)
    (hwalk : ChunkWalk source s row a b) (hwrites : WalkWrites source s row a b (op :: rest))
    (hf : (backfillLease W).effect op = some f) (hupserted : t.upserted = s.upserted)
    (hpages : t.pages row.id = s.pages row.id + (if rest = [.release] then 1 else 0)) :
    ChunkWalk source t (f row) a b ∧ WalkWrites source t (f row) a b rest := by
  have hbefore := hwalk.pages
  cases hwrites with
  | move c low high further upserted walked =>
    cases hf
    simp only [if_true] at hpages
    refine ⟨hwalk.moveTo rfl rfl rfl low high upserted hupserted (by omega) ?_, .stop .release rfl⟩
    intro hdone
    simp [advanceCursorRow, hclaimed] at hdone
  | finish c reached upserted =>
    cases hf
    have hmono := walked_mono source a b hwalk.high
    have hlow : min a b ≤ b := min_le_right a b
    simp only [List.cons.injEq, reduceCtorEq, false_and, if_false, Nat.add_zero] at hpages
    refine ⟨hwalk.moveTo rfl rfl (congrArg some reached) hlow le_rfl upserted hupserted
      (by omega) (fun _ => rfl), .complete (upserted.mono (by simp [hupserted]))⟩
  | complete upserted =>
    cases hf
    have hmono := walked_mono source a b hwalk.high
    have hlow : min a b ≤ b := min_le_right a b
    simp only [List.nil_eq, reduceCtorEq, if_false, Nat.add_zero] at hpages
    exact ⟨hwalk.moveTo rfl rfl hb hlow le_rfl upserted hupserted (by omega) (fun _ => rfl),
      .nothing⟩
  | stop op idle =>
    obtain ⟨hpayload, hstatus⟩ := backfill_effect_of_not_progress hf idle hclaimed
    simp only [List.nil_eq, reduceCtorEq, if_false, Nat.add_zero] at hpages
    refine ⟨⟨hwalk.endMicros, ?_, ?_, ?_, ?_, fun hdone => absurd hdone hstatus⟩, .nothing⟩
    · rw [hpayload]
      exact hwalk.low
    · rw [hpayload]
      exact hwalk.high
    · rw [hpayload]
      exact fun c hc => (hwalk.upserted c hc).mono (by simp [hupserted])
    · rw [hpayload, LeaseTable.effect_id hf row, hpages]
      exact hwalk.pages

/-- The rules of a chunk's walk, for the chunk `id` served from `source`. -/
theorem walk_rules (source : CandleSource) (limit : ℕ) {p : V} {chain : List V}
    (hsole : SoleRangeProvider p chain) (maxAttempts id : ℤ) :
    KeptRules chain maxAttempts (fun id' env => id' = id → ServesPages source limit p env)
      (fun (s : BackfillState W) row => row.id = id → ∀ a ∈ row.payload.rangeStart,
        ∀ b ∈ row.payload.rangeEnd, ChunkWalk source s row a b)
      (fun s row writes => row.id = id → ∀ a ∈ row.payload.rangeStart,
        ∀ b ∈ row.payload.rangeEnd, WalkWrites source s row a b writes) where
  enqueue := by
    intro s id' now jobId coinId dataset interval rangeStart rangeEnd hpages hid a ha b hb
    obtain ⟨stop, -, rfl⟩ := Option.map_eq_some_iff.mp hb
    exact ⟨storeTimestamptz_micros stop, by simp [newRow, newChunk], by simp [newRow, newChunk],
      by simp [newRow, newChunk], by simp [newRow, newChunk, hpages], by simp [newRow]⟩
  lease := by
    intro s row row' hid hpayload hclaimed hrow hid' a ha b hb
    have hwalk := hrow (hid ▸ hid') a (hpayload ▸ ha) b (hpayload ▸ hb)
    refine ⟨hwalk.endMicros, ?_, ?_, ?_, ?_, by simp [hclaimed]⟩
    · rw [hpayload]
      exact hwalk.low
    · rw [hpayload]
      exact hwalk.high
    · rw [hpayload]
      exact hwalk.upserted
    · rw [hpayload, hid]
      exact hwalk.pages
  extend := by
    intro s t row hextends hrow hid a ha b hb
    have hwalk := hrow hid a ha b hb
    exact ⟨hwalk.endMicros, hwalk.low, hwalk.high,
      fun c hc => (hwalk.upserted c hc).mono hextends.upserted,
      hextends.pages ▸ hwalk.pages, hwalk.finished⟩
  extendWrites := by
    intro s t row writes hextends hwrites hid a ha b hb
    cases hwrites hid a ha b hb with
    | move c low high further upserted walked =>
      exact .move c low high further (upserted.mono hextends.upserted) walked
    | finish c reached upserted => exact .finish c reached (upserted.mono hextends.upserted)
    | complete upserted => exact .complete (upserted.mono hextends.upserted)
    | stop op idle => exact .stop op idle
    | nothing => exact .nothing
  page := by
    intro s row env hserves hrow hupserted _ hid a ha b hb
    exact (hrow hid a ha b hb).page hsole (hserves hid) maxAttempts ha hb hupserted
  write := by
    intro s t row op rest f hclaimed hrow hwrites hf hupserted _ hpages
    have hrange := backfill_effect_range hf row
    have hboth : row.id = id → ∀ a ∈ row.payload.rangeStart, ∀ b ∈ row.payload.rangeEnd,
        ChunkWalk source t (f row) a b ∧ WalkWrites source t (f row) a b rest :=
      fun hid a ha b hb => (hrow hid a ha b hb).write hb hclaimed (hwrites hid a ha b hb) hf
        hupserted hpages
    rw [hrange.1, hrange.2, LeaseTable.effect_id hf row]
    exact ⟨fun hid a ha b hb => (hboth hid a ha b hb).1,
      fun hid a ha b hb => (hboth hid a ha b hb).2⟩
  skip := by
    intro s row op rest hwrites hid a ha b hb
    cases hwrites hid a ha b hb with
    | move c low high further upserted walked => exact .stop .release rfl
    | finish c reached upserted => exact .complete upserted
    | complete upserted => exact .nothing
    | stop op idle => exact .nothing

variable [DecidableEq W]

/-- The write that stores a page's cursor and leaves the chunk `id` unfinished
moves the stored cursor on. -/
def CursorIncreases (chain : List V) (maxAttempts id : ℤ) (s : BackfillState W)
    (a : BackfillAction W V) : Prop :=
  ∀ self chunk cursor c, a = .finalize self →
    s.work self = some (.finalizing chunk [.advanceCursor cursor, .release]) →
    s.queue.holding self = some c → ∀ row ∈ s.queue.table, row.id = id → ownedBy self c.id row →
    row.payload.rangeStart.isSome → row.payload.rangeEnd.isSome →
    ∀ t, backfillStep chain maxAttempts s a = some t →
      ∃ row' ∈ t.queue.table, row'.id = id ∧
        ∃ d ∈ row'.payload.cursor, ∀ u ∈ row.payload.cursor, u < d

theorem cursorIncreases_of_kept {source : CandleSource} {chain : List V} {maxAttempts id : ℤ}
    {R : BackfillState W → ChunkRow W → Prop} {s : BackfillState W}
    (hkept : Kept R (fun s row writes => row.id = id → ∀ a ∈ row.payload.rangeStart,
      ∀ b ∈ row.payload.rangeEnd, WalkWrites source s row a b writes) s)
    (a : BackfillAction W V) : CursorIncreases chain maxAttempts id s a := by
  intro self chunk cursor c ha hwork hholds row hrow hid howned hstart hend t hstep
  obtain ⟨start, hstart⟩ := Option.isSome_iff_exists.mp hstart
  obtain ⟨stop, hend⟩ := Option.isSome_iff_exists.mp hend
  subst ha
  have hmoved : advanceCursorRow cursor row ∈ t.queue.table := by
    have hwrite : leaseStep (backfillLease W) s.queue (.write self (.advanceCursor cursor)) =
        some (writeStep s.queue self c none (advanceCursorRow cursor)) := by
      simp [leaseStep, hholds, LeaseTable.effect, backfillLease, LeaseWrite.event]
    simp only [backfillStep, hwork, hholds, hwrite, Option.map_some, Option.some.injEq] at hstep
    subst hstep
    exact mem_writeStep.mpr (Or.inl ⟨row, hrow, howned, rfl⟩)
  refine ⟨_, hmoved, hid, storeTimestamptz cursor, rfl, ?_⟩
  cases hkept.finalizing self c chunk _ hholds hwork row hrow howned hid start hstart stop hend with
  | move _ _ _ further _ _ => exact further

/-- A chunk served by the one range provider of its chain: every page that does
not finish it moves its cursor on, there are at most as many of them as candles
in the range and spans of 999 seconds, and when it is done every candle of the
range has been upserted. -/
theorem backfill_walk_complete {source : CandleSource} {limit : ℕ} {p : V} {chain : List V}
    (hsole : SoleRangeProvider p chain) (maxAttempts id : ℤ) {as : List (BackfillAction W V)}
    {s : BackfillState W}
    (hserves : StepsMeet (backfillStep chain maxAttempts)
      (PagesMeet fun id' env => id' = id → ServesPages source limit p env)
      BackfillState.init as)
    (hrun : exec (backfillStep chain maxAttempts) BackfillState.init as = some s) :
    StepsMeet (backfillStep chain maxAttempts) (CursorIncreases chain maxAttempts id)
        BackfillState.init as ∧
      ∀ row ∈ s.queue.table, row.id = id →
        ∀ a ∈ row.payload.rangeStart, ∀ b ∈ row.payload.rangeEnd,
          s.pages id ≤ (source.between a b).length + ((b - a) / seconds 999).toNat ∧
          (row.status = .done → ∀ candle ∈ source.between a b,
            CoinCandle.ofOhlc row.payload.coinId candle ∈ s.upserted) := by
  have hrules := walk_rules (W := W) source limit hsole maxAttempts id
  constructor
  · exact hserves.of_invariant (fun _ _ _ hkept hmeet h => hkept.preserved hrules hmeet h)
      (fun s a hkept _ => cursorIncreases_of_kept hkept a) Kept.init
  · intro row hrow hid a ha b hb
    have hwalk := (Kept.of_run hrules hserves hrun).rows row hrow hid a ha b hb
    refine ⟨?_, ?_⟩
    · rw [← hid]
      exact hwalk.pages.trans (walked_le hwalk.high)
    · intro hdone candle hcandle
      exact hwalk.upserted b (hwalk.finished hdone) candle hcandle
        (CandleSource.mem_between.mp hcandle).2.2.le

section Example

/-- Two candles, a millisecond apart. -/
def twoCandles : CandleSource where
  candles := [⟨1, "1d", 1000000, 1, 2, 1, 2, none, "usd", "binance"⟩,
    ⟨1, "1d", 2000000, 2, 3, 2, 3, none, "usd", "binance"⟩]
  ascending := by simp [Ascending]
  micros := by simp [Micros]

/-- Binance serving the two candles one at a time. -/
def twoCandlesEnv : ChunkEnv InTree where
  coin := .ok (some ("BTC", none))
  globalSecs := 300
  acquireSlot _ := .ok ()
  fetchOhlcRange _ request := .ok ((twoCandles.between request.start request.stop).take 1)
  fetchOhlc _ _ := .ok []
  upsert _ := .ok ()

/-- Replica 0 dies between its page's upsert and the cursor; the replicas take
turns from there. -/
def twoCandlesRun : List (BackfillAction (Fin 2) InTree) :=
  [.enqueue 1 0 1 "bitcoin" "candles" (some "1d") (some 0) (some 3000000),
    .claim 0 1 0 60 [], .page 0 twoCandlesEnv, .abandon 0,
    .claim 1 1 61000000000 60 [], .page 1 twoCandlesEnv, .finalize 1, .finalize 1,
    .claim 0 1 61000000000 60 [], .page 0 twoCandlesEnv, .finalize 0, .finalize 0,
    .claim 1 1 61000000000 60 [], .page 1 twoCandlesEnv, .finalize 1, .finalize 1]

theorem twoCandlesRun_enabled :
    (exec (backfillStep [InTree.binance] 5) BackfillState.init twoCandlesRun).isSome := by
  decide +kernel

def twoCandlesEnd : BackfillState (Fin 2) :=
  (exec (backfillStep [InTree.binance] 5) BackfillState.init twoCandlesRun).get
    twoCandlesRun_enabled

theorem backfill_walk_complete_two_candles :
    (∃ row ∈ twoCandlesEnd.queue.table, row.id = 1 ∧ row.status = .done) ∧
      StepsMeet (backfillStep [InTree.binance] 5) (CursorIncreases [InTree.binance] 5 1)
        BackfillState.init twoCandlesRun ∧
      ∀ row ∈ twoCandlesEnd.queue.table, row.id = 1 →
        ∀ a ∈ row.payload.rangeStart, ∀ b ∈ row.payload.rangeEnd,
          twoCandlesEnd.pages 1 ≤
            (twoCandles.between a b).length + ((b - a) / seconds 999).toNat ∧
          (row.status = .done → ∀ candle ∈ twoCandles.between a b,
            CoinCandle.ofOhlc row.payload.coinId candle ∈ twoCandlesEnd.upserted) := by
  have hsole : SoleRangeProvider InTree.binance [InTree.binance] := rfl
  have hserves : StepsMeet (backfillStep [InTree.binance] 5)
      (PagesMeet fun id' env => id' = 1 → ServesPages twoCandles 1 InTree.binance env)
      (BackfillState.init : BackfillState (Fin 2)) twoCandlesRun := by
    refine stepsMeet_of_forall _ ?_ _
    intro a ha s self env hpage c _ _ request
    have henv : env = twoCandlesEnv := by
      subst hpage
      simp only [twoCandlesRun, List.mem_cons, reduceCtorEq, BackfillAction.page.injEq,
        List.not_mem_nil, false_or, or_false] at ha
      tauto
    subst henv
    exact Or.inr ⟨1, le_rfl, le_rfl, rfl⟩
  refine ⟨by decide +kernel, ?_⟩
  exact backfill_walk_complete hsole 5 1 hserves (Option.some_get twoCandlesRun_enabled).symm

end Example

end CryptoCollector.Collectors
