import CryptoCollector.Api.CandleFolds

/-!
# Folding a fold

Candles folded from candles of a middle interval are those folded from the source
at once: a closed bucket is full of middle candles exactly when it is full of source
rows, and a fold of folds is a fold.
-/

namespace CryptoCollector.Api
open Models Foundations DateTime

def ohlc (c : CoinCandle) : ℚ × ℚ × ℚ × ℚ := (c.openPrice, c.high, c.low, c.close)

def ohlcv (c : CoinCandle) : ℤ × (ℚ × ℚ × ℚ × ℚ) × Option ℚ := (c.ts, ohlc c, c.volume)

theorem sum_filterMap_flatMap {α β : Type*} {value : α → Option ℚ} {part : α → List β}
    {value' : β → Option ℚ} {l : List α}
    (h : ∀ x ∈ l, value x = some ((part x).filterMap value').sum) :
    (l.filterMap value).sum = ((l.flatMap part).filterMap value').sum := by
  induction l with
  | nil => rfl
  | cons x l ih =>
    have hrest := ih fun y hy => h y (List.mem_cons_of_mem _ hy)
    rw [List.filterMap_cons_some (h x List.mem_cons_self), List.sum_cons, List.flatMap_cons,
      List.filterMap_append, List.sum_append, hrest]

section Folds

variable {items mids : List CoinCandle} {c c' : CoinCandle}

/-- The rows of an earlier part come before those of a later one. -/
def PartsInOrder (mids : List CoinCandle) (part : CoinCandle → List CoinCandle) : Prop :=
  ∀ m ∈ mids, ∀ m' ∈ mids, m.ts ≤ m'.ts →
    m = m' ∨ ∀ row ∈ part m, ∀ row' ∈ part m', row.ts ≤ row'.ts

/-- What a fold can be folded by again: a candle that amounts to candles amounts to their
rows, and its values are those of any other that amounts to them. -/
structure Refolds {β : Type} (Amounts : List CoinCandle → CoinCandle → Prop)
    (values : CoinCandle → β) : Prop where
  prices : ∀ {items c}, Amounts items c → PricesOf items c
  compose : ∀ {items mids c part}, Amounts mids c → (∀ m ∈ mids, Amounts (part m) m) →
    items.Perm (mids.flatMap part) → PartsInOrder mids part → Amounts items c
  unique : ∀ {items c c'}, Amounts items c → Amounts items c' → DistinctTs items →
    values c = values c'
  relabel : ∀ {items c c'}, Amounts items c → ohlcv c' = ohlcv c → Amounts items c'

theorem PricesOf.unique (h : PricesOf items c) (h' : PricesOf items c')
    (hdistinct : DistinctTs items) : ohlc c = ohlc c' := by
  have hopen : c.openPrice = c'.openPrice := by
    obtain ⟨first, hfirst, hmin, hopen⟩ := h.opens
    obtain ⟨first', hfirst', hmin', hopen'⟩ := h'.opens
    have hsame : first = first' := List.inj_on_of_nodup_map hdistinct hfirst hfirst'
      (le_antisymm (hmin first' hfirst') (hmin' first hfirst))
    rw [hopen, hopen', hsame]
  have hclose : c.close = c'.close := by
    obtain ⟨last, hlast, hmax, hclose⟩ := h.closes
    obtain ⟨last', hlast', hmax', hclose'⟩ := h'.closes
    have hsame : last = last' := List.inj_on_of_nodup_map hdistinct hlast hlast'
      (le_antisymm (hmax' last hlast) (hmax last' hlast'))
    rw [hclose, hclose', hsame]
  have hhigh : c.high = c'.high := by
    obtain ⟨row, hrow, heq⟩ := h.high_mem
    obtain ⟨row', hrow', heq'⟩ := h'.high_mem
    exact le_antisymm (heq ▸ h'.high_le row hrow) (heq' ▸ h.high_le row' hrow')
  have hlow : c.low = c'.low := by
    obtain ⟨row, hrow, heq⟩ := h.low_mem
    obtain ⟨row', hrow', heq'⟩ := h'.low_mem
    exact le_antisymm (heq' ▸ h.le_low row' hrow') (heq ▸ h'.le_low row hrow)
  simp only [ohlc, hopen, hhigh, hlow, hclose]

/-- The prices of candles are those of their rows, when the parts follow one another. -/
theorem PricesOf.compose {part : CoinCandle → List CoinCandle} (h : PricesOf mids c)
    (hpart : ∀ m ∈ mids, PricesOf (part m) m) (hitems : items.Perm (mids.flatMap part))
    (hseparate : PartsInOrder mids part) : PricesOf items c := by
  apply PricesOf.perm _ hitems.symm
  constructor
  · obtain ⟨first, hfirst, hmin, hopen⟩ := h.opens
    obtain ⟨row, hrow, hrowmin, hrowopen⟩ := (hpart first hfirst).opens
    refine ⟨row, List.mem_flatMap.mpr ⟨first, hfirst, hrow⟩, ?_, hopen.trans hrowopen⟩
    intro row' hrow'
    obtain ⟨m, hm, hmrow⟩ := List.mem_flatMap.mp hrow'
    rcases hseparate first hfirst m hm (hmin m hm) with rfl | hbefore
    · exact hrowmin row' hmrow
    · exact hbefore row hrow row' hmrow
  · obtain ⟨m, hm, hhigh⟩ := h.high_mem
    obtain ⟨row, hrow, hrowhigh⟩ := (hpart m hm).high_mem
    exact ⟨row, List.mem_flatMap.mpr ⟨m, hm, hrow⟩, hhigh.trans hrowhigh⟩
  · intro row hrow
    obtain ⟨m, hm, hmrow⟩ := List.mem_flatMap.mp hrow
    exact ((hpart m hm).high_le row hmrow).trans (h.high_le m hm)
  · obtain ⟨m, hm, hlow⟩ := h.low_mem
    obtain ⟨row, hrow, hrowlow⟩ := (hpart m hm).low_mem
    exact ⟨row, List.mem_flatMap.mpr ⟨m, hm, hrow⟩, hlow.trans hrowlow⟩
  · intro row hrow
    obtain ⟨m, hm, hmrow⟩ := List.mem_flatMap.mp hrow
    exact (h.le_low m hm).trans ((hpart m hm).le_low row hmrow)
  · obtain ⟨last, hlast, hmax, hclose⟩ := h.closes
    obtain ⟨row, hrow, hrowmax, hrowclose⟩ := (hpart last hlast).closes
    refine ⟨row, List.mem_flatMap.mpr ⟨last, hlast, hrow⟩, ?_, hclose.trans hrowclose⟩
    intro row' hrow'
    obtain ⟨m, hm, hmrow⟩ := List.mem_flatMap.mp hrow'
    rcases hseparate m hm last hlast (hmax m hm) with rfl | hbefore
    · exact hrowmax row' hmrow
    · exact hbefore row' hmrow row hrow

theorem ohlc_eq_of_ohlcv (heq : ohlcv c' = ohlcv c) :
    ohlc c' = ohlc c ∧ c'.volume = c.volume := Prod.mk.inj (Prod.mk.inj heq).2

theorem PricesOf.relabel (h : PricesOf items c) (heq : ohlc c' = ohlc c) :
    PricesOf items c' := by
  simp only [ohlc, Prod.mk.injEq] at heq
  obtain ⟨hopen, hhigh, hlow, hclose⟩ := heq
  constructor
  · rw [hopen]
    exact h.opens
  · rw [hhigh]
    exact h.high_mem
  · rw [hhigh]
    exact h.high_le
  · rw [hlow]
    exact h.low_mem
  · rw [hlow]
    exact h.le_low
  · rw [hclose]
    exact h.closes

/-- Folds with exact sums fold again. -/
theorem refolds_isFoldOf : Refolds IsFoldOf fun c => (ohlc c, c.volume) where
  prices := IsFoldOf.toPricesOf
  compose {items mids c part} h hpart hitems hseparate := by
    apply IsFoldOf.perm _ hitems.symm
    refine ⟨h.toPricesOf.compose (fun m hm => (hpart m hm).toPricesOf) (List.Perm.refl _)
      hseparate, ?_, ?_⟩
    · intro hsome
      have hmids : ∀ m ∈ mids, m.volume = some ((part m).filterMap CoinCandle.volume).sum := by
        intro m hm
        exact (hpart m hm).volume_sum fun row hrow => hsome row (List.mem_flatMap.mpr ⟨m, hm, hrow⟩)
      rw [h.volume_sum fun m hm => by simp [hmids m hm], sum_filterMap_flatMap hmids]
    · rintro ⟨row, hrow, hnull⟩
      obtain ⟨m, hm, hmrow⟩ := List.mem_flatMap.mp hrow
      exact h.volume_null ⟨m, hm, (hpart m hm).volume_null ⟨row, hmrow, hnull⟩⟩
  unique {items c c'} h h' hdistinct := by
    have hprices := h.toPricesOf.unique h'.toPricesOf hdistinct
    have hvolume : c.volume = c'.volume := by
      by_cases hnull : ∃ row ∈ items, row.volume = none
      · rw [h.volume_null hnull, h'.volume_null hnull]
      · push Not at hnull
        rw [h.volume_sum hnull, h'.volume_sum hnull]
    simp only [hprices, hvolume]
  relabel h heq := by
    obtain ⟨hprices, hvolume⟩ := ohlc_eq_of_ohlcv heq
    exact ⟨h.toPricesOf.relabel hprices, hvolume ▸ h.volume_sum, hvolume ▸ h.volume_null⟩

/-- The prices that rows amount to, and whether there is a volume. -/
structure OutlineOf (items : List CoinCandle) (c : CoinCandle) : Prop extends PricesOf items c where
  volume_none_iff : c.volume = none ↔ ∃ row ∈ items, row.volume = none

/-- Whatever the sums of volumes, prices and missing volumes fold again. -/
theorem refolds_outlineOf : Refolds OutlineOf fun c => (ohlc c, c.volume.isSome) where
  prices := OutlineOf.toPricesOf
  compose {items mids c part} h hpart hitems hseparate := by
    refine ⟨h.toPricesOf.compose (fun m hm => (hpart m hm).toPricesOf) hitems hseparate, ?_⟩
    rw [h.volume_none_iff]
    constructor
    · rintro ⟨m, hm, hnull⟩
      obtain ⟨row, hrow, hrownull⟩ := (hpart m hm).volume_none_iff.mp hnull
      exact ⟨row, hitems.symm.subset (List.mem_flatMap.mpr ⟨m, hm, hrow⟩), hrownull⟩
    · rintro ⟨row, hrow, hnull⟩
      obtain ⟨m, hm, hmrow⟩ := List.mem_flatMap.mp (hitems.subset hrow)
      exact ⟨m, hm, (hpart m hm).volume_none_iff.mpr ⟨row, hmrow, hnull⟩⟩
  unique {items c c'} h h' hdistinct := by
    have hprices := h.toPricesOf.unique h'.toPricesOf hdistinct
    have hnone : c.volume = none ↔ c'.volume = none :=
      h.volume_none_iff.trans h'.volume_none_iff.symm
    have hsome : c.volume.isSome = c'.volume.isSome := by
      rw [← Bool.coe_iff_coe, Option.isSome_iff_ne_none, Option.isSome_iff_ne_none]
      exact not_congr hnone
    simp only [hprices, hsome]
  relabel h heq := by
    obtain ⟨hprices, hvolume⟩ := ohlc_eq_of_ohlcv heq
    exact ⟨h.toPricesOf.relabel hprices, hvolume ▸ h.volume_none_iff⟩

end Folds

section Refold

variable {Amounts : List CoinCandle → CoinCandle → Prop} {β : Type} {values : CoinCandle → β}
  {targetSecs midSecs sourceSecs now b : ℤ} {source mids out out' : List CoinCandle}
  {c : CoinCandle}

theorem bucketEpoch_eq_iff_part (hmid : 0 < midSecs) (htarget : 0 < targetSecs)
    (hdvd : midSecs ∣ targetSecs) (hb : targetSecs ∣ b) (c : CoinCandle) :
    bucketEpoch targetSecs c = b ↔
      b ≤ bucketEpoch midSecs c ∧ bucketEpoch midSecs c < b + targetSecs := by
  rw [bucketEpoch_eq_iff htarget hb, boundary_le_bucketEpoch_iff hmid (hdvd.trans hb),
    bucketEpoch_lt_boundary_iff hmid ((hdvd.trans hb).add hdvd)]

/-- The end of the bucket of every row has passed. -/
def AllClosed (targetSecs now : ℤ) (rows : List CoinCandle) : Prop :=
  ∀ row ∈ rows, fromTimestamp (bucketEpoch targetSecs row + targetSecs) ≤ now

instance (targetSecs now : ℤ) (rows : List CoinCandle) :
    Decidable (AllClosed targetSecs now rows) :=
  inferInstanceAs (Decidable (∀ row ∈ rows, _))

theorem AllClosed.of_mem_inBucket (h : AllClosed targetSecs now source) (htarget : 0 < targetSecs)
    (hb : targetSecs ∣ b) (hc : c ∈ inBucket targetSecs b source) :
    fromTimestamp (b + targetSecs) ≤ now := by
  obtain ⟨hrow, hbucket⟩ := (mem_inBucket_iff htarget hb).mp hc
  exact hbucket ▸ h c hrow

theorem inBucket_part (hmid : 0 < midSecs) (htarget : 0 < targetSecs) (hdvd : midSecs ∣ targetSecs)
    (hb : targetSecs ∣ b) {e : ℤ} (he : midSecs ∣ e) (hlow : b ≤ e) (hhigh : e < b + targetSecs)
    (hc : c ∈ inBucket midSecs e source) : c ∈ inBucket targetSecs b source := by
  obtain ⟨hrow, hpart⟩ := (mem_inBucket_iff hmid he).mp hc
  rw [mem_inBucket_iff htarget hb, bucketEpoch_eq_iff_part hmid htarget hdvd hb, hpart]
  exact ⟨hrow, hlow, hhigh⟩

theorem slotsFilled_mul_iff (hsource : 0 < sourceSecs) {n : ℤ} :
    SlotsFilled (sourceSecs * n) sourceSecs b source ↔
      ∀ k, 0 ≤ k → k < n → ∃ c ∈ source, c.ts = fromTimestamp (b + k * sourceSecs) := by
  rw [SlotsFilled, Int.mul_ediv_cancel_left _ hsource.ne']
  constructor
  · intro hfilled k hk0 hk
    obtain ⟨i, rfl⟩ := Int.eq_ofNat_of_zero_le hk0
    exact hfilled i hk
  · intro hfilled k hk
    exact hfilled k (Int.natCast_nonneg k) hk

theorem slotsFilled_parts_iff (hsource : 0 < sourceSecs) (hmid : 0 < midSecs)
    (hdvdMid : sourceSecs ∣ midSecs) {q : ℤ} :
    SlotsFilled (midSecs * q) sourceSecs b source ↔
      ∀ i, 0 ≤ i → i < q → SlotsFilled midSecs sourceSecs (b + i * midSecs) source := by
  obtain ⟨p, rfl⟩ := hdvdMid
  have hp : 0 < p := pos_of_mul_pos_right hmid hsource.le
  rw [mul_assoc, slotsFilled_mul_iff hsource]
  simp only [slotsFilled_mul_iff hsource]
  constructor
  · intro hfilled i hi0 hi j hj0 hj
    obtain ⟨row, hrow, hts⟩ := hfilled (i * p + j) (by positivity) (by nlinarith)
    refine ⟨row, hrow, ?_⟩
    rw [hts]
    congr 1
    ring
  · intro hfilled k hk0 hk
    -- slot `k` of the bucket is slot `k % p` of its part `k / p`
    have hi : k / p < q := Int.ediv_lt_of_lt_mul hp (by rwa [mul_comm])
    obtain ⟨row, hrow, hts⟩ := hfilled (k / p) (by positivity) hi (k % p)
      (Int.emod_nonneg _ hp.ne') (Int.emod_lt_of_pos _ hp)
    refine ⟨row, hrow, ?_⟩
    rw [hts]
    congr 1
    have hsplit := Int.mul_ediv_add_emod k p
    calc b + k / p * (sourceSecs * p) + k % p * sourceSecs
        = b + (p * (k / p) + k % p) * sourceSecs := by ring
      _ = b + k * sourceSecs := by rw [hsplit]

namespace FoldedTo

theorem bucketEpoch_mid (hmid : 0 < midSecs) {e : ℤ} (he : midSecs ∣ e)
    (hts : c.ts = fromTimestamp e) : bucketEpoch midSecs c = e := by
  rw [bucketEpoch_eq_iff hmid he, hts, fromTimestamp_le, fromTimestamp_lt]
  omega

theorem exists_part (h : FoldedTo Amounts midSecs sourceSecs now source mids) (hmid : 0 < midSecs)
    (hc : c ∈ mids) : midSecs ∣ bucketEpoch midSecs c ∧
      c.ts = fromTimestamp (bucketEpoch midSecs c) ∧
        Amounts (inBucket midSecs (bucketEpoch midSecs c) source) c := by
  obtain ⟨e, he, hts, hfold⟩ := h.folds c hc
  have hepoch := bucketEpoch_mid hmid he hts
  rw [hepoch]
  exact ⟨he, hts, hfold⟩

theorem exists_mid_iff (h : FoldedTo Amounts midSecs sourceSecs now source mids)
    (hsource : 0 < sourceSecs) (hmid : 0 < midSecs) (htarget : 0 < targetSecs)
    (hdvdMid : sourceSecs ∣ midSecs) (hdvd : midSecs ∣ targetSecs) (hb : targetSecs ∣ b)
    (hclosed : AllClosed targetSecs now source) {e : ℤ} (he : midSecs ∣ e) (hlow : b ≤ e)
    (hhigh : e < b + targetSecs) :
    (∃ m ∈ mids, m.ts = fromTimestamp e) ↔ SlotsFilled midSecs sourceSecs e source := by
  rw [h.emits e he]
  constructor
  · rintro ⟨hne, hforming | hfilled⟩
    · obtain ⟨row, hrow⟩ := List.exists_mem_of_ne_nil _ hne
      have hend := hclosed.of_mem_inBucket htarget hb
        (inBucket_part hmid htarget hdvd hb he hlow hhigh hrow)
      have hgap := boundary_add_le he ((hdvd.trans hb).add hdvd) hhigh
      have hpartEnd := (fromTimestamp_le.mpr hgap).trans hend
      exact absurd hforming (not_lt.mpr hpartEnd)
    · exact hfilled
  · intro hfilled
    obtain ⟨p, rfl⟩ := hdvdMid
    have hp : 0 < p := pos_of_mul_pos_right hmid hsource.le
    obtain ⟨row, hrow, hts⟩ := (slotsFilled_mul_iff hsource).mp hfilled 0 le_rfl hp
    rw [zero_mul, add_zero] at hts
    have hmem : row ∈ inBucket (sourceSecs * p) e source :=
      (mem_inBucket_iff hmid he).mpr ⟨hrow, bucketEpoch_mid hmid he hts⟩
    exact ⟨List.ne_nil_of_mem hmem, Or.inr hfilled⟩

/-- Middle candles stand in all parts of a bucket when source rows stand in all its slots. -/
theorem slotsFilled_mids_iff (h : FoldedTo Amounts midSecs sourceSecs now source mids)
    (hsource : 0 < sourceSecs) (hmid : 0 < midSecs) (htarget : 0 < targetSecs)
    (hdvdMid : sourceSecs ∣ midSecs) (hdvd : midSecs ∣ targetSecs) (hb : targetSecs ∣ b)
    (hclosed : AllClosed targetSecs now source) :
    SlotsFilled targetSecs midSecs b mids ↔ SlotsFilled targetSecs sourceSecs b source := by
  obtain ⟨q, rfl⟩ := hdvd
  have hparts : ∀ i, 0 ≤ i → i < q →
      ((∃ m ∈ mids, m.ts = fromTimestamp (b + i * midSecs)) ↔
        SlotsFilled midSecs sourceSecs (b + i * midSecs) source) := by
    intro i hi0 hi
    have hdvd : midSecs ∣ midSecs * q := Dvd.intro q rfl
    apply h.exists_mid_iff hsource hmid htarget hdvdMid hdvd hb hclosed
    · exact (hdvd.trans hb).add (Dvd.intro_left i rfl)
    · nlinarith
    · nlinarith
  rw [slotsFilled_mul_iff hmid, slotsFilled_parts_iff hsource hmid hdvdMid]
  exact forall_congr' fun i => forall_congr' fun hi0 => forall_congr' fun hi => hparts i hi0 hi

theorem parts_nodup (h : FoldedTo Amounts midSecs sourceSecs now source mids) (hmid : 0 < midSecs)
    (hdistinct : DistinctTs source) :
    ((inBucket targetSecs b mids).flatMap fun m =>
      inBucket midSecs (bucketEpoch midSecs m) source).Nodup := by
  have hnodup : source.Nodup := List.Nodup.of_map _ hdistinct
  have hmids : mids.Nodup := List.Nodup.of_map _ h.distinct
  rw [List.nodup_flatMap]
  refine ⟨fun m _ => hnodup.filter _, ?_⟩
  apply (hmids.filter _).imp_of_mem
  intro m m' hm hm' hne row hrow hrow'
  obtain ⟨hdvd, hts, -⟩ := h.exists_part hmid (List.mem_of_mem_filter hm)
  obtain ⟨hdvd', hts', -⟩ := h.exists_part hmid (List.mem_of_mem_filter hm')
  have hsame : bucketEpoch midSecs m = bucketEpoch midSecs m' :=
    ((mem_inBucket_iff hmid hdvd).mp hrow).2.symm.trans ((mem_inBucket_iff hmid hdvd').mp hrow').2
  apply hne
  apply List.inj_on_of_nodup_map h.distinct (List.mem_of_mem_filter hm) (List.mem_of_mem_filter hm')
  rw [hts, hts', hsame]

theorem exists_mid_of_row (hmid : 0 < midSecs) (htarget : 0 < targetSecs)
    (hdvd : midSecs ∣ targetSecs) (hb : targetSecs ∣ b)
    (hfilled : SlotsFilled targetSecs midSecs b mids) (hc : c ∈ inBucket targetSecs b source) :
    ∃ m ∈ inBucket targetSecs b mids, c ∈ inBucket midSecs (bucketEpoch midSecs m) source := by
  obtain ⟨hmem, hbucket⟩ := (mem_inBucket_iff htarget hb).mp hc
  obtain ⟨hlow, hhigh⟩ := (bucketEpoch_eq_iff_part hmid htarget hdvd hb c).mp hbucket
  have hpart := dvd_bucketEpoch midSecs c
  obtain ⟨i, hi⟩ := dvd_sub hpart (hdvd.trans hb)
  obtain ⟨q, rfl⟩ := hdvd
  have hi0 : 0 ≤ i := by nlinarith
  have hiq : i < q := by nlinarith
  obtain ⟨m, hm, hts⟩ := (slotsFilled_mul_iff hmid).mp hfilled i hi0 hiq
  have hepoch : m.ts = fromTimestamp (bucketEpoch midSecs c) := by
    rw [hts]
    congr 1
    linarith
  have hsame := bucketEpoch_mid hmid hpart hepoch
  refine ⟨m, (mem_inBucket_iff htarget hb).mpr ⟨hm, ?_⟩, ?_⟩
  · rw [bucketEpoch_eq_iff_part hmid htarget (Dvd.intro q rfl) hb, hsame]
    exact ⟨hlow, hhigh⟩
  · rw [hsame, mem_inBucket_iff hmid hpart]
    exact ⟨hmem, rfl⟩

/-- The middle candles of a full bucket cover all its rows. -/
theorem perm_parts (h : FoldedTo Amounts midSecs sourceSecs now source mids) (hmid : 0 < midSecs)
    (htarget : 0 < targetSecs) (hdvd : midSecs ∣ targetSecs) (hb : targetSecs ∣ b)
    (hdistinct : DistinctTs source) (hfilled : SlotsFilled targetSecs midSecs b mids) :
    (inBucket targetSecs b source).Perm ((inBucket targetSecs b mids).flatMap fun m =>
      inBucket midSecs (bucketEpoch midSecs m) source) := by
  have hnodup : source.Nodup := List.Nodup.of_map _ hdistinct
  apply (List.perm_ext_iff_of_nodup (hnodup.filter _) (h.parts_nodup hmid hdistinct)).mpr
  intro row
  rw [List.mem_flatMap]
  constructor
  · exact exists_mid_of_row hmid htarget hdvd hb hfilled
  · rintro ⟨m, hm, hrow⟩
    obtain ⟨hmem, hbucket⟩ := (mem_inBucket_iff htarget hb).mp hm
    obtain ⟨hlow, hhigh⟩ := (bucketEpoch_eq_iff_part hmid htarget hdvd hb m).mp hbucket
    exact inBucket_part hmid htarget hdvd hb (dvd_bucketEpoch midSecs m) hlow hhigh hrow

theorem parts_separate (h : FoldedTo Amounts midSecs sourceSecs now source mids)
    (hmid : 0 < midSecs) {m m' : CoinCandle} (hm : m ∈ mids) (hm' : m' ∈ mids)
    (hle : m.ts ≤ m'.ts) :
    m = m' ∨ ∀ row ∈ inBucket midSecs (bucketEpoch midSecs m) source,
      ∀ row' ∈ inBucket midSecs (bucketEpoch midSecs m') source, row.ts ≤ row'.ts := by
  obtain ⟨hdvd, hts, -⟩ := h.exists_part hmid hm
  obtain ⟨hdvd', hts', -⟩ := h.exists_part hmid hm'
  rcases eq_or_lt_of_le hle with heq | hlt
  · exact Or.inl (List.inj_on_of_nodup_map h.distinct hm hm' heq)
  · right
    intro row hrow row' hrow'
    rw [hts, hts', fromTimestamp_lt] at hlt
    have hgap := boundary_add_le hdvd hdvd' hlt
    simp only [inBucket, List.mem_filter, decide_eq_true_eq] at hrow hrow'
    exact (hrow.2.2.trans_le ((fromTimestamp_le.mpr hgap).trans hrow'.2.1)).le

theorem exists_row_of_mid (hrefolds : Refolds Amounts values)
    (h : FoldedTo Amounts midSecs sourceSecs now source mids) (hmid : 0 < midSecs)
    (htarget : 0 < targetSecs) (hdvd : midSecs ∣ targetSecs) (hb : targetSecs ∣ b)
    (hne : inBucket targetSecs b mids ≠ []) : ∃ row, row ∈ inBucket targetSecs b source := by
  obtain ⟨m, hm⟩ := List.exists_mem_of_ne_nil _ hne
  obtain ⟨hmem, hbucket⟩ := (mem_inBucket_iff htarget hb).mp hm
  obtain ⟨hpart, -, hfold⟩ := h.exists_part hmid hmem
  obtain ⟨hlow, hhigh⟩ := (bucketEpoch_eq_iff_part hmid htarget hdvd hb m).mp hbucket
  obtain ⟨row, hrow, -, -⟩ := (hrefolds.prices hfold).opens
  exact ⟨row, inBucket_part hmid htarget hdvd hb hpart hlow hhigh hrow⟩

theorem ne_nil_of_slotsFilled (hmid : 0 < midSecs) (htarget : 0 < targetSecs)
    (hdvd : midSecs ∣ targetSecs) (hb : targetSecs ∣ b)
    (hfilled : SlotsFilled targetSecs midSecs b mids) : inBucket targetSecs b mids ≠ [] := by
  obtain ⟨q, rfl⟩ := hdvd
  have hq : 0 < q := pos_of_mul_pos_right htarget hmid.le
  obtain ⟨m, hm, hts⟩ := (slotsFilled_mul_iff hmid).mp hfilled 0 le_rfl hq
  rw [zero_mul, add_zero] at hts
  have hmem : m ∈ inBucket (midSecs * q) b mids :=
    (mem_inBucket_iff htarget hb).mpr ⟨hm, bucketEpoch_mid htarget hb hts⟩
  exact List.ne_nil_of_mem hmem

theorem trans (hrefolds : Refolds Amounts values)
    (h : FoldedTo Amounts midSecs sourceSecs now source mids)
    (h' : FoldedTo Amounts targetSecs midSecs now mids out) (hsource : 0 < sourceSecs)
    (hmid : 0 < midSecs) (htarget : 0 < targetSecs) (hdvdMid : sourceSecs ∣ midSecs)
    (hdvd : midSecs ∣ targetSecs) (hdistinct : DistinctTs source)
    (hclosed : AllClosed targetSecs now source) :
    FoldedTo Amounts targetSecs sourceSecs now source out where
  descending := h'.descending
  emits b hb := by
    have hslots := h.slotsFilled_mids_iff hsource hmid htarget hdvdMid hdvd hb hclosed
    rw [h'.emits b hb, Emitted, Emitted, hslots]
    constructor
    · rintro ⟨hne, hemits⟩
      obtain ⟨row, hrow⟩ := h.exists_row_of_mid hrefolds hmid htarget hdvd hb hne
      exact ⟨List.ne_nil_of_mem hrow, hemits⟩
    · rintro ⟨hne, hemits⟩
      obtain ⟨row, hrow⟩ := List.exists_mem_of_ne_nil _ hne
      have hend := hclosed.of_mem_inBucket htarget hb hrow
      have hfilled : SlotsFilled targetSecs sourceSecs b source :=
        hemits.resolve_left (not_lt.mpr hend)
      exact ⟨ne_nil_of_slotsFilled hmid htarget hdvd hb (hslots.mpr hfilled), Or.inr hfilled⟩
  folds c hc := by
    obtain ⟨b, hb, hts, hfold⟩ := h'.folds c hc
    obtain ⟨hne, hemits⟩ := (h'.emits b hb).mp ⟨c, hc, hts⟩
    obtain ⟨row, hrow⟩ := h.exists_row_of_mid hrefolds hmid htarget hdvd hb hne
    have hend := hclosed.of_mem_inBucket htarget hb hrow
    have hfilled : SlotsFilled targetSecs midSecs b mids :=
      hemits.resolve_left (not_lt.mpr hend)
    refine ⟨b, hb, hts, hrefolds.compose hfold ?_
      (h.perm_parts hmid htarget hdvd hb hdistinct hfilled) ?_⟩
    · intro m hm
      exact (h.exists_part hmid (List.mem_of_mem_filter hm)).2.2
    · intro m hm m' hm' hle
      exact h.parts_separate hmid (List.mem_of_mem_filter hm) (List.mem_of_mem_filter hm') hle

theorem mem_values (hrefolds : Refolds Amounts values)
    (h : FoldedTo Amounts targetSecs sourceSecs now source out)
    (h' : FoldedTo Amounts targetSecs sourceSecs now source out') (hdistinct : DistinctTs source)
    {x : ℤ × β} (hx : x ∈ out.map fun c => (c.ts, values c)) :
    x ∈ out'.map fun c => (c.ts, values c) := by
  obtain ⟨c, hc, rfl⟩ := List.mem_map.mp hx
  obtain ⟨b, hb, hts, hfold⟩ := h.folds c hc
  obtain ⟨c', hc', hts'⟩ := (h'.emits b hb).mpr ((h.emits b hb).mp ⟨c, hc, hts⟩)
  obtain ⟨b', -, hts'', hfold'⟩ := h'.folds c' hc'
  obtain rfl : b = b' := fromTimestamp_inj.mp (hts'.symm.trans hts'')
  have hrows : DistinctTs (inBucket targetSecs b source) := hdistinct.sublist List.filter_sublist
  refine List.mem_map.mpr ⟨c', hc', ?_⟩
  rw [hrefolds.unique hfold' hfold hrows, hts', hts]

theorem values_eq (hrefolds : Refolds Amounts values)
    (h : FoldedTo Amounts targetSecs sourceSecs now source out)
    (h' : FoldedTo Amounts targetSecs sourceSecs now source out')
    (hdistinct : DistinctTs source) :
    (out.map fun c => (c.ts, values c)) = out'.map fun c => (c.ts, values c) := by
  have hstamped : ∀ {l : List CoinCandle}, l.Pairwise (fun c d => d.ts < c.ts) →
      Ascending (fun x : ℤ × β => OrderDual.toDual x.1) (l.map fun c => (c.ts, values c)) :=
    fun hl => List.pairwise_map.mpr hl
  apply (hstamped h.descending).ext (hstamped h'.descending)
  intro x
  exact ⟨h.mem_values hrefolds h' hdistinct, h'.mem_values hrefolds h hdistinct⟩

theorem relabel (hrefolds : Refolds Amounts values) {f : CoinCandle → CoinCandle}
    (hf : ∀ c, ohlcv (f c) = ohlcv c)
    (h : FoldedTo Amounts targetSecs sourceSecs now source out) :
    FoldedTo Amounts targetSecs sourceSecs now source (out.map f) where
  descending := by
    have hts : ∀ c, (f c).ts = c.ts := fun c => congrArg Prod.fst (hf c)
    rw [List.pairwise_map]
    simpa only [hts] using h.descending
  emits b hb := by
    have hts : ∀ c, (f c).ts = c.ts := fun c => congrArg Prod.fst (hf c)
    rw [← h.emits b hb]
    simp only [List.mem_map, exists_exists_and_eq_and, hts]
  folds c hc := by
    obtain ⟨d, hd, rfl⟩ := List.mem_map.mp hc
    obtain ⟨b, hb, hts, hfold⟩ := h.folds d hd
    exact ⟨b, hb, (congrArg Prod.fst (hf d)).trans hts, hrefolds.relabel hfold (hf d)⟩

theorem alignedTo (h : FoldedTo Amounts midSecs sourceSecs now source mids) :
    AlignedTo midSecs mids := by
  intro c hc
  obtain ⟨b, ⟨k, rfl⟩, hts, -⟩ := h.folds c hc
  rw [hts]
  exact ⟨k, by rw [fromTimestamp, fromTimestamp]; ring⟩

end FoldedTo

/-- A fold of what was folded has the values of the fold at once. -/
theorem FoldedTo.compose (hrefolds : Refolds Amounts values)
    (hmids : FoldedTo Amounts midSecs sourceSecs now source mids)
    (hout : FoldedTo Amounts targetSecs midSecs now mids out)
    (hdirect : FoldedTo Amounts targetSecs sourceSecs now source out')
    (hsource : 0 < sourceSecs) (hmid : 0 < midSecs) (htarget : 0 < targetSecs)
    (hdvdMid : sourceSecs ∣ midSecs) (hdvd : midSecs ∣ targetSecs) (hdistinct : DistinctTs source)
    (hclosed : AllClosed targetSecs now source) :
    (out.map fun c => (c.ts, values c)) = out'.map fun c => (c.ts, values c) :=
  (hmids.trans hrefolds hout hsource hmid htarget hdvdMid hdvd hdistinct hclosed).values_eq
    hrefolds hdirect hdistinct

end Refold
end CryptoCollector.Api
