import CryptoCollector.Api.CandlesAgg

/-!
# What the fold emits

A bucket is emitted when it has a row and either is still forming or has a row in
every slot. Its candle is fixed by the rows of the bucket, whatever their order.
-/

namespace CryptoCollector.Api
open Models Foundations DateTime

/-- The rows stand on the grid of the interval, counted from the epoch. -/
def AlignedTo (secs : ℤ) (rows : List CoinCandle) : Prop :=
  ∀ c ∈ rows, fromTimestamp secs ∣ c.ts

instance (secs : ℤ) (rows : List CoinCandle) : Decidable (AlignedTo secs rows) :=
  inferInstanceAs (Decidable (∀ c ∈ rows, _))

/-- The rows of the bucket at `b`, in the order they came. -/
def inBucket (targetSecs b : ℤ) (rows : List CoinCandle) : List CoinCandle :=
  rows.filter fun c => fromTimestamp b ≤ c.ts ∧ c.ts < fromTimestamp (b + targetSecs)

/-- Every slot of the bucket has a row. -/
def SlotsFilled (targetSecs sourceSecs b : ℤ) (rows : List CoinCandle) : Prop :=
  ∀ k : ℕ, k < targetSecs / sourceSecs → ∃ c ∈ rows, c.ts = fromTimestamp (b + k * sourceSecs)

/-- The bucket at `b` has a row, and is forming or has one in every slot. -/
def Emitted (targetSecs sourceSecs now b : ℤ) (rows : List CoinCandle) : Prop :=
  inBucket targetSecs b rows ≠ [] ∧
    (now < fromTimestamp (b + targetSecs) ∨ SlotsFilled targetSecs sourceSecs b rows)

/-- The prices of a candle that the rows of a bucket amount to. -/
structure PricesOf (items : List CoinCandle) (c : CoinCandle) : Prop where
  opens : ∃ first ∈ items, (∀ row ∈ items, first.ts ≤ row.ts) ∧ c.openPrice = first.openPrice
  high_mem : ∃ row ∈ items, c.high = row.high
  high_le : ∀ row ∈ items, row.high ≤ c.high
  low_mem : ∃ row ∈ items, c.low = row.low
  le_low : ∀ row ∈ items, c.low ≤ row.low
  closes : ∃ last ∈ items, (∀ row ∈ items, row.ts ≤ last.ts) ∧ c.close = last.close

/-- The candle that the rows of a bucket amount to, with the exact sum of their volumes. -/
structure IsFoldOf (items : List CoinCandle) (c : CoinCandle) : Prop extends PricesOf items c where
  volume_sum : (∀ row ∈ items, row.volume ≠ none) →
    c.volume = some (items.filterMap CoinCandle.volume).sum
  volume_null : (∃ row ∈ items, row.volume = none) → c.volume = none

/-- The candles of `out`, latest first, are those of the buckets of `source` that are to be
emitted, and each is to the rows of its bucket as `Amounts` says. -/
structure FoldedTo (Amounts : List CoinCandle → CoinCandle → Prop)
    (targetSecs sourceSecs now : ℤ) (source out : List CoinCandle) : Prop where
  descending : out.Pairwise fun c d => d.ts < c.ts
  emits : ∀ b, targetSecs ∣ b →
    ((∃ c ∈ out, c.ts = fromTimestamp b) ↔ Emitted targetSecs sourceSecs now b source)
  folds : ∀ c ∈ out, ∃ b, targetSecs ∣ b ∧ c.ts = fromTimestamp b ∧
    Amounts (inBucket targetSecs b source) c

section Volumes

variable {items items' : List CoinCandle}

theorem foldVolume_of_some (h : ∀ row ∈ items, row.volume ≠ none) :
    foldVolume (items.map CoinCandle.volume) =
      some (items.filterMap CoinCandle.volume).sum := by
  have hall : (items.map CoinCandle.volume).all Option.isSome = true := by
    simpa [Option.isSome_iff_ne_none] using h
  rw [foldVolume, if_pos hall, List.filterMap_map]
  rfl

theorem foldVolume_of_none (h : ∃ row ∈ items, row.volume = none) :
    foldVolume (items.map CoinCandle.volume) = none := by
  obtain ⟨row, hrow, hnone⟩ := h
  have hnot : ¬(items.map CoinCandle.volume).all Option.isSome = true := by
    simp only [List.all_eq_true, List.mem_map, forall_exists_index, and_imp, not_forall]
    exact ⟨row.volume, row, hrow, rfl, by simp [hnone]⟩
  rw [foldVolume, if_neg hnot]

end Volumes

theorem foldl_max_spec {κ : Type*} [LinearOrder κ] (x : κ) (l : List κ) :
    l.foldl max x ∈ x :: l ∧ ∀ y ∈ x :: l, y ≤ l.foldl max x := by
  induction l generalizing x with
  | nil => simp
  | cons z l ih =>
    obtain ⟨hmem, hle⟩ := ih (max x z)
    rw [List.foldl_cons]
    constructor
    · rcases List.mem_cons.mp hmem with heq | hmem
      · rw [heq]
        rcases max_choice x z with hx | hz
        · rw [hx]
          exact List.mem_cons_self
        · rw [hz]
          exact List.mem_cons_of_mem _ List.mem_cons_self
      · exact List.mem_cons_of_mem _ (List.mem_cons_of_mem _ hmem)
    · have hfirst := hle _ List.mem_cons_self
      intro y hy
      rcases List.mem_cons.mp hy with rfl | hy
      · exact (le_max_left _ _).trans hfirst
      · rcases List.mem_cons.mp hy with rfl | hy
        · exact (le_max_right _ _).trans hfirst
        · exact hle y (List.mem_cons_of_mem _ hy)

theorem foldl_min_spec {κ : Type*} [LinearOrder κ] (x : κ) (l : List κ) :
    l.foldl min x ∈ x :: l ∧ ∀ y ∈ x :: l, l.foldl min x ≤ y :=
  @foldl_max_spec κᵒᵈ _ x l

section Buckets

variable {targetSecs sourceSecs now b : ℤ} {rows rows' : List CoinCandle} {c : CoinCandle}

theorem mem_inBucket_iff (hpos : 0 < targetSecs) (hb : targetSecs ∣ b) :
    c ∈ inBucket targetSecs b rows ↔ c ∈ rows ∧ bucketEpoch targetSecs c = b := by
  rw [inBucket, List.mem_filter, bucketEpoch_eq_iff hpos hb, decide_eq_true_eq]

theorem bucketRows_perm (hpos : 0 < targetSecs) (hb : targetSecs ∣ b) :
    (bucketRows targetSecs b rows).Perm (inBucket targetSecs b rows) := by
  have hfilter : inBucket targetSecs b rows =
      rows.filter fun c => bucketEpoch targetSecs c = b := by
    apply List.filter_congr
    intro c _
    exact decide_eq_decide.mpr (bucketEpoch_eq_iff hpos hb c).symm
  rw [hfilter]
  exact (List.perm_insertionSort _ rows).filter _

theorem bucketRows_ascending (h : DistinctTs rows) (targetSecs b : ℤ) :
    Ascending CoinCandle.ts (bucketRows targetSecs b rows) :=
  (sortByTs_ascending h).filter _

theorem bucketGroup_items {g : Group ℤ CoinCandle} (h : bucketGroup targetSecs b rows = some g) :
    g.items = bucketRows targetSecs b rows := by
  unfold bucketGroup at h
  split at h
  · cases h
  · next first rest hrows =>
    cases h
    exact hrows.symm

theorem bucketGroup_ne_none_iff (hpos : 0 < targetSecs) (hb : targetSecs ∣ b) :
    bucketGroup targetSecs b rows ≠ none ↔ inBucket targetSecs b rows ≠ [] := by
  have hperm : (bucketRows targetSecs b rows).Perm (inBucket targetSecs b rows) :=
    bucketRows_perm hpos hb
  unfold bucketGroup
  split
  · next hrows =>
    rw [hrows] at hperm
    simp [hperm.nil_eq.symm]
  · next first rest hrows =>
    rw [hrows] at hperm
    have hmem : first ∈ inBucket targetSecs b rows := hperm.subset List.mem_cons_self
    simp [List.ne_nil_of_mem hmem]

def slots (targetSecs sourceSecs b : ℤ) : List ℤ :=
  (List.range (targetSecs / sourceSecs).toNat).map fun k : ℕ => fromTimestamp (b + k * sourceSecs)

theorem slots_nodup (hsource : 0 < sourceSecs) : (slots targetSecs sourceSecs b).Nodup := by
  apply List.Nodup.map _ List.nodup_range
  intro k k' heq
  have hsame : (k : ℤ) * sourceSecs = k' * sourceSecs := by
    have hinj := fromTimestamp_inj.mp heq
    omega
  exact_mod_cast mul_right_cancel₀ hsource.ne' hsame

theorem ts_mem_slots (hsource : 0 < sourceSecs) (htarget : 0 < targetSecs)
    (hdvd : sourceSecs ∣ targetSecs) (hb : targetSecs ∣ b) (haligned : AlignedTo sourceSecs rows)
    (hc : c ∈ bucketRows targetSecs b rows) : c.ts ∈ slots targetSecs sourceSecs b := by
  obtain ⟨hrow, hbucket⟩ := mem_bucketRows.mp hc
  obtain ⟨hlow, hhigh⟩ := (bucketEpoch_eq_iff htarget hb c).mp hbucket
  obtain ⟨j, hj⟩ := haligned c hrow
  obtain ⟨n, hn⟩ := hdvd
  obtain ⟨m, hm⟩ := hb
  have hts : c.ts = fromTimestamp (sourceSecs * j) := by
    rw [hj, fromTimestamp, fromTimestamp]
    ring
  rw [hts, fromTimestamp_le] at hlow
  rw [hts, fromTimestamp_lt] at hhigh
  have hstart : b = sourceSecs * (n * m) := by rw [hm, hn, mul_assoc]
  have hcount : targetSecs / sourceSecs = n := by
    rw [hn, Int.mul_ediv_cancel_left _ hsource.ne']
  have hkLow : n * m ≤ j := by
    rw [hstart] at hlow
    exact le_of_mul_le_mul_left hlow hsource
  have hkHigh : j < n * m + n := by
    have hend : b + targetSecs = sourceSecs * (n * m + n) := by
      rw [hstart, hn]
      ring
    rw [hend] at hhigh
    exact lt_of_mul_lt_mul_left hhigh hsource.le
  apply List.mem_map.mpr
  refine ⟨(j - n * m).toNat, List.mem_range.mpr (by omega), ?_⟩
  have hcast : (((j - n * m).toNat : ℕ) : ℤ) = j - n * m := Int.toNat_of_nonneg (by omega)
  rw [hts, hcast, hstart]
  congr 1
  ring

theorem slotsFilled_iff (hsource : 0 < sourceSecs) (htarget : 0 < targetSecs)
    (hdvd : sourceSecs ∣ targetSecs) (hb : targetSecs ∣ b) (haligned : AlignedTo sourceSecs rows)
    (hdistinct : DistinctTs rows) :
    (targetSecs / sourceSecs).toNat ≤ (bucketRows targetSecs b rows).length ↔
      SlotsFilled targetSecs sourceSecs b rows := by
  have htimes : ((bucketRows targetSecs b rows).map CoinCandle.ts).Nodup :=
    List.pairwise_map.mpr ((bucketRows_ascending hdistinct targetSecs b).imp ne_of_lt)
  have hsub : (bucketRows targetSecs b rows).map CoinCandle.ts ⊆ slots targetSecs sourceSecs b := by
    intro ts hts
    obtain ⟨c, hc, rfl⟩ := List.mem_map.mp hts
    exact ts_mem_slots hsource htarget hdvd hb haligned hc
  have hlength := slots_length_le_iff (slots_nodup hsource) htimes hsub
  rw [slots, List.length_map, List.length_map, List.length_range] at hlength
  rw [hlength]
  constructor
  · intro hfilled k hk
    have hslot : fromTimestamp (b + k * sourceSecs) ∈
        (bucketRows targetSecs b rows).map CoinCandle.ts :=
      hfilled (List.mem_map.mpr ⟨k, List.mem_range.mpr (by omega), rfl⟩)
    obtain ⟨c, hc, hts⟩ := List.mem_map.mp hslot
    exact ⟨c, (mem_bucketRows.mp hc).1, hts⟩
  · intro hfilled ts hts
    obtain ⟨k, hk, rfl⟩ := List.mem_map.mp hts
    have hk' : (k : ℤ) < targetSecs / sourceSecs := by
      rw [List.mem_range] at hk
      omega
    obtain ⟨c, hc, hcts⟩ := hfilled k hk'
    apply List.mem_map.mpr ⟨c, mem_bucketRows.mpr ⟨hc, ?_⟩, hcts⟩
    rw [bucketEpoch_eq_iff htarget hb, hcts, fromTimestamp_le, fromTimestamp_lt]
    obtain ⟨n, hn⟩ := hdvd
    rw [hn, Int.mul_ediv_cancel_left _ hsource.ne'] at hk'
    have hlow : 0 ≤ (k : ℤ) * sourceSecs := by positivity
    have hhigh : (k : ℤ) * sourceSecs < n * sourceSecs := mul_lt_mul_of_pos_right hk' hsource
    constructor
    · omega
    · rw [hn, mul_comm sourceSecs n]
      omega

theorem isDropped_eq_false_iff (hsource : 0 < sourceSecs) (htarget : 0 < targetSecs)
    (hdvd : sourceSecs ∣ targetSecs) (hb : targetSecs ∣ b) (haligned : AlignedTo sourceSecs rows)
    (hdistinct : DistinctTs rows) {g : Group ℤ CoinCandle}
    (hg : bucketGroup targetSecs b rows = some g) :
    isDropped targetSecs sourceSecs now g = false ↔
      now < fromTimestamp (b + targetSecs) ∨ SlotsFilled targetSecs sourceSecs b rows := by
  rw [← slotsFilled_iff hsource htarget hdvd hb haligned hdistinct, ← bucketGroup_items hg,
    ← timestamp_lt_iff]
  have hkey : g.key = b := (bucketGroup_eq_some_iff.mp hg).1
  simp only [isDropped, isClosed, hkey, Bool.and_eq_false_iff, decide_eq_false_iff_not, not_le,
    not_lt]

theorem PricesOf.perm {items items' : List CoinCandle} (h : PricesOf items c)
    (hperm : items.Perm items') : PricesOf items' c where
  opens := by
    obtain ⟨first, hfirst, hmin, hopen⟩ := h.opens
    exact ⟨first, hperm.subset hfirst, fun row hrow => hmin row (hperm.symm.subset hrow), hopen⟩
  high_mem := by
    obtain ⟨row, hrow, hhigh⟩ := h.high_mem
    exact ⟨row, hperm.subset hrow, hhigh⟩
  high_le row hrow := h.high_le row (hperm.symm.subset hrow)
  low_mem := by
    obtain ⟨row, hrow, hlow⟩ := h.low_mem
    exact ⟨row, hperm.subset hrow, hlow⟩
  le_low row hrow := h.le_low row (hperm.symm.subset hrow)
  closes := by
    obtain ⟨last, hlast, hmax, hclose⟩ := h.closes
    exact ⟨last, hperm.subset hlast, fun row hrow => hmax row (hperm.symm.subset hrow), hclose⟩

theorem IsFoldOf.perm {items items' : List CoinCandle} (h : IsFoldOf items c)
    (hperm : items.Perm items') : IsFoldOf items' c where
  toPricesOf := h.toPricesOf.perm hperm
  volume_sum hsome := by
    rw [h.volume_sum fun row hrow => hsome row (hperm.subset hrow)]
    congr 1
    exact (hperm.filterMap _).sum_eq
  volume_null := by
    rintro ⟨row, hrow, hnull⟩
    exact h.volume_null ⟨row, hperm.symm.subset hrow, hnull⟩

/-- The first and the last of an ascending group are its earliest and its latest. -/
theorem pricesOf_foldBucket (coinId vsCurrency targetInterval aggSource : String)
    {g : Group ℤ CoinCandle} (hasc : Ascending CoinCandle.ts g.items) :
    PricesOf g.items (foldBucket coinId vsCurrency targetInterval aggSource g) := by
  have hhigh := foldl_max_spec g.first.high (g.rest.map CoinCandle.high)
  have hlow := foldl_min_spec g.first.low (g.rest.map CoinCandle.low)
  rw [← List.map_cons (f := CoinCandle.high)] at hhigh
  rw [← List.map_cons (f := CoinCandle.low)] at hlow
  constructor
  · refine ⟨g.first, List.mem_cons_self, fun row hrow => ?_, rfl⟩
    rcases List.mem_cons.mp hrow with rfl | hrest
    · exact le_rfl
    · exact ((List.pairwise_cons.mp hasc).1 row hrest).le
  · obtain ⟨row, hrow, heq⟩ := List.mem_map.mp hhigh.1
    exact ⟨row, hrow, heq.symm⟩
  · intro row hrow
    exact hhigh.2 _ (List.mem_map_of_mem hrow)
  · obtain ⟨row, hrow, heq⟩ := List.mem_map.mp hlow.1
    exact ⟨row, hrow, heq.symm⟩
  · intro row hrow
    exact hlow.2 _ (List.mem_map_of_mem hrow)
  · refine ⟨g.last, g.last_mem, fun row hrow => ?_, rfl⟩
    apply hasc.le_getLast hrow
    rw [Group.items, Group.last, List.getLast?_cons, List.getLastD_eq_getLast?]

theorem isFoldOf_foldBucket (coinId vsCurrency targetInterval aggSource : String)
    {g : Group ℤ CoinCandle} (hasc : Ascending CoinCandle.ts g.items) :
    IsFoldOf g.items (foldBucket coinId vsCurrency targetInterval aggSource g) where
  toPricesOf := pricesOf_foldBucket coinId vsCurrency targetInterval aggSource hasc
  volume_sum := foldVolume_of_some
  volume_null := foldVolume_of_none

variable {coinId vsCurrency label targetInterval : String}

theorem isFoldOf_of_bucketCandle (htarget : 0 < targetSecs) (hb : targetSecs ∣ b)
    (hdistinct : DistinctTs rows)
    (h : bucketCandle coinId vsCurrency targetSecs sourceSecs now label targetInterval b rows =
      some c) : IsFoldOf (inBucket targetSecs b rows) c := by
  obtain ⟨g, hg, -, rfl⟩ := bucketCandle_eq_some_iff.mp h
  have hitems := bucketGroup_items hg
  apply IsFoldOf.perm _ (bucketRows_perm htarget hb)
  rw [← hitems]
  apply isFoldOf_foldBucket
  rw [hitems]
  exact bucketRows_ascending hdistinct targetSecs b

theorem bucketCandle_ne_none_iff (hsource : 0 < sourceSecs) (htarget : 0 < targetSecs)
    (hdvd : sourceSecs ∣ targetSecs) (hb : targetSecs ∣ b) (haligned : AlignedTo sourceSecs rows)
    (hdistinct : DistinctTs rows) :
    bucketCandle coinId vsCurrency targetSecs sourceSecs now label targetInterval b rows ≠ none ↔
      Emitted targetSecs sourceSecs now b rows := by
  rw [Emitted, ← bucketGroup_ne_none_iff htarget hb, Option.ne_none_iff_exists',
    Option.ne_none_iff_exists']
  constructor
  · rintro ⟨c, hc⟩
    obtain ⟨g, hg, hkeep, -⟩ := bucketCandle_eq_some_iff.mp hc
    exact ⟨⟨g, hg⟩, (isDropped_eq_false_iff hsource htarget hdvd hb haligned hdistinct hg).mp hkeep⟩
  · rintro ⟨⟨g, hg⟩, hkeep⟩
    have hkept := (isDropped_eq_false_iff hsource htarget hdvd hb haligned hdistinct hg).mpr hkeep
    exact ⟨_, bucketCandle_eq_some_iff.mpr ⟨g, hg, hkept, rfl⟩⟩

theorem dvd_of_bucketCandle
    (h : bucketCandle coinId vsCurrency targetSecs sourceSecs now label targetInterval b rows =
      some c) : targetSecs ∣ b := by
  obtain ⟨row, -, rfl⟩ := exists_row_of_bucketCandle h
  exact dvd_bucketEpoch targetSecs row

end Buckets

section Aggregate

variable {targetSecs sourceSecs now : ℤ} {label targetInterval : String}
  {source source' : List CoinCandle}

theorem sortByTs_eq_of_perm (hdistinct : DistinctTs source) (hperm : source.Perm source') :
    sortByTs source = sortByTs source' := by
  have hdistinct' : DistinctTs source' := (hperm.map CoinCandle.ts).nodup_iff.mp hdistinct
  apply (sortByTs_ascending hdistinct).ext (sortByTs_ascending hdistinct')
  intro c
  rw [mem_sortByTs, mem_sortByTs, hperm.mem_iff]

theorem le_of_sortByTs_eq_cons {first : CoinCandle} {rest : List CoinCandle}
    (hsort : sortByTs source = first :: rest) : ∀ row ∈ source, first.ts ≤ row.ts := by
  have hle : (sortByTs source).Pairwise fun x y => x.ts ≤ y.ts :=
    List.pairwise_insertionSort (fun x y : CoinCandle => x.ts ≤ y.ts) source
  rw [hsort] at hle
  intro row hmem
  rw [← mem_sortByTs, hsort] at hmem
  rcases List.mem_cons.mp hmem with rfl | hrest
  · exact le_rfl
  · exact (List.pairwise_cons.mp hle).1 row hrest

/-- The output is that of the buckets, under the coin and currency of the earliest row. -/
theorem mem_aggregateCandles_iff_of_mem {row : CoinCandle} (hrow : row ∈ source) :
    ∃ first ∈ source, (∀ row ∈ source, first.ts ≤ row.ts) ∧ ∀ c,
      c ∈ aggregateCandles source targetSecs sourceSecs now label targetInterval ↔
        ∃ b, bucketCandle first.coinId first.vsCurrency targetSecs sourceSecs now label
          targetInterval b source = some c := by
  cases hsort : sortByTs source with
  | nil =>
    rw [sortByTs_eq_nil_iff.mp hsort] at hrow
    cases hrow
  | cons first rest =>
    have hhead : (sortByTs source).head? = some first := by rw [hsort, List.head?_cons]
    refine ⟨first, mem_sortByTs.mp (hsort ▸ List.mem_cons_self), le_of_sortByTs_eq_cons hsort,
      fun c => ?_⟩
    rw [aggregateCandles_eq_of_earliest hhead, mem_emittedCandles_iff]

theorem exists_row_of_mem_aggregateCandles {c : CoinCandle}
    (hc : c ∈ aggregateCandles source targetSecs sourceSecs now label targetInterval) :
    ∃ row, row ∈ source := by
  apply List.exists_mem_of_ne_nil
  rintro rfl
  cases hc

theorem FoldedTo.distinct {Amounts : List CoinCandle → CoinCandle → Prop}
    {out : List CoinCandle} (h : FoldedTo Amounts targetSecs sourceSecs now source out) :
    DistinctTs out :=
  List.pairwise_map.mpr (h.descending.imp fun hlt => hlt.ne')

theorem aggregateCandles_foldedTo (now : ℤ) (label targetInterval : String)
    (hsource : 0 < sourceSecs) (htarget : 0 < targetSecs) (hdvd : sourceSecs ∣ targetSecs)
    (haligned : AlignedTo sourceSecs source) (hdistinct : DistinctTs source) :
    FoldedTo IsFoldOf targetSecs sourceSecs now source
      (aggregateCandles source targetSecs sourceSecs now label targetInterval) where
  descending := aggregateCandles_descending _ _ _ _ _ _
  emits b hb := by
    constructor
    · rintro ⟨c, hc, hts⟩
      obtain ⟨row, hrow⟩ := exists_row_of_mem_aggregateCandles hc
      obtain ⟨first, -, -, hmem⟩ := mem_aggregateCandles_iff_of_mem hrow
      obtain ⟨b', hb'⟩ := (hmem c).mp hc
      have hsame : b' = b := fromTimestamp_inj.mp ((bucketCandle_ts hb').symm.trans hts)
      rw [← bucketCandle_ne_none_iff hsource htarget hdvd hb haligned hdistinct, ← hsame, hb']
      exact Option.some_ne_none c
    · intro hemits
      obtain ⟨row, hrow⟩ := List.exists_mem_of_ne_nil _ hemits.1
      obtain ⟨first, -, -, hmem⟩ := mem_aggregateCandles_iff_of_mem (List.mem_of_mem_filter hrow)
      rw [← bucketCandle_ne_none_iff hsource htarget hdvd hb haligned hdistinct] at hemits
      obtain ⟨c, hc⟩ := Option.ne_none_iff_exists'.mp hemits
      exact ⟨c, (hmem c).mpr ⟨b, hc⟩, bucketCandle_ts hc⟩
  folds c hc := by
    obtain ⟨row, hrow⟩ := exists_row_of_mem_aggregateCandles hc
    obtain ⟨first, -, -, hmem⟩ := mem_aggregateCandles_iff_of_mem hrow
    obtain ⟨b, hb⟩ := (hmem c).mp hc
    have hdvdb := dvd_of_bucketCandle hb
    exact ⟨b, hdvdb, bucketCandle_ts hb, isFoldOf_of_bucketCandle htarget hdvdb hdistinct hb⟩

end Aggregate
end CryptoCollector.Api
