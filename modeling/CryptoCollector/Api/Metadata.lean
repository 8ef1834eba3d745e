import CryptoCollector.Api.Cursor
import CryptoCollector.Db.Metadata
import Mathlib.Data.List.TakeWhile

/-!
# The metadata endpoint

`GET /v1/coins/{coin_id}/metadata`: the latest revision of a coin, or the one first
seen last up to `as_of`. Over every interleaving of upserts the revisions form a
history, and a read as of a past instant returns what was the latest then.
-/

namespace CryptoCollector.Api
open Db Foundations DateTime

variable {J : Type}

/-- The query of `get_metadata`. -/
def selectMetadata (db : MetadataTables J) (coinId : String) :
    Option ℤ → Option (CoinMetadata J)
  | none => newestRow db.rows coinId
  | some as_of =>
    greatest (fun row => row.firstSeenAt) (db.rows.filter fun row =>
      row.coinId = coinId && decide (row.firstSeenAt ≤ storeTimestamptz as_of))

def getMetadata (db : MetadataTables J) (coinId : String) (as_of : Option ℤ) :
    Except ApiError (CoinMetadata J) := do
  ensureTracked db.trackedCoins coinId
  match selectMetadata db coinId as_of with
  | some m => .ok m
  | none => .error (.notFound ("no metadata found for coin '" ++ coinId ++ "'"))

/-- The statements of a run up to `t`. -/
def statementsUpTo (t : ℤ) (run : List (UpsertStatement J)) : List (UpsertStatement J) :=
  run.takeWhile fun a => a.now ≤ t

section Answers

variable {db : MetadataTables J} {coinId : String} {as_of : Option ℤ}

theorem getMetadata_of_selected {m : CoinMetadata J} (htracked : coinId ∈ db.trackedCoins)
    (h : selectMetadata db coinId as_of = some m) : getMetadata db coinId as_of = .ok m := by
  simp [getMetadata, ensureTracked, htracked, h, bind, Except.bind]

theorem getMetadata_of_not_selected (htracked : coinId ∈ db.trackedCoins)
    (h : selectMetadata db coinId as_of = none) : getMetadata db coinId as_of =
      .error (.notFound ("no metadata found for coin '" ++ coinId ++ "'")) := by
  simp [getMetadata, ensureTracked, htracked, h, bind, Except.bind]

end Answers

/-- The row of the highest revision of the coin. -/
def IsLatest (rows : List (CoinMetadata J)) (coinId : String) (row : CoinMetadata J) : Prop :=
  row ∈ rows ∧ row.coinId = coinId ∧
    ∀ other ∈ rows, other.coinId = coinId → other.revision ≤ row.revision

instance (rows : List (CoinMetadata J)) (coinId : String) (row : CoinMetadata J)
    [DecidableEq J] : Decidable (IsLatest rows coinId row) := inferInstanceAs (Decidable (_ ∧ _))

section AsOf

variable {db : MetadataTables J}

theorem IsLatest.getLast?_coinLog (h : SoundLog db.log) {coinId : String} {row : CoinMetadata J}
    (hlatest : IsLatest db.rows coinId row) :
    (coinLog db.log coinId).getLast? = some row.toRevision := by
  obtain ⟨hrow, hcoin, hhighest⟩ := hlatest
  rw [(h.numbered coinId).ascending.getLast?_eq_some_iff]
  refine ⟨mem_coinLog.mpr ⟨List.mem_map_of_mem hrow, hcoin⟩, ?_⟩
  intro r hr
  obtain ⟨hlog, hrcoin⟩ := mem_coinLog.mp hr
  obtain ⟨other, hother, rfl⟩ := List.mem_map.mp hlog
  exact hhighest other hother hrcoin

theorem selectMetadata_latest (h : SoundLog db.log) (coinId : String) :
    (selectMetadata db coinId none).map CoinMetadata.toRevision =
      (coinLog db.log coinId).getLast? :=
  newestRow_toRevision (h.numbered coinId)

theorem coinLog_eq_nil {coinId : String} (h : ∀ row ∈ db.rows, row.coinId ≠ coinId) :
    coinLog db.log coinId = [] := by
  rw [List.eq_nil_iff_forall_not_mem]
  intro r hr
  obtain ⟨hlog, hcoin⟩ := mem_coinLog.mp hr
  obtain ⟨row, hrow, rfl⟩ := List.mem_map.mp hlog
  exact h row hrow hcoin

theorem selectMetadata_asOf (hstamped : Ascending Revision.firstSeenAt db.log)
    (hmicros : ∀ r ∈ db.log, Micros r.firstSeenAt ∧ pgEpoch < r.firstSeenAt) (coinId : String)
    (t : ℤ) :
    (selectMetadata db coinId (some t)).map CoinMetadata.toRevision =
      asOf Revision.firstSeenAt (coinLog db.log coinId) t := by
  have hrows : Ascending (fun row : CoinMetadata J => row.firstSeenAt)
      (db.rows.filter fun row => row.coinId = coinId) := by
    have hlog := hstamped.filter fun r : Revision J => r.coinId = coinId
    change Ascending Revision.firstSeenAt (coinLog (db.rows.map _) coinId) at hlog
    rw [← map_filter_coin, Ascending, List.pairwise_map] at hlog
    exact hlog
  have hbound : asOf Revision.firstSeenAt (coinLog db.log coinId) (storeTimestamptz t) =
      asOf Revision.firstSeenAt (coinLog db.log coinId) t := by
    unfold asOf
    congr 1
    apply List.filter_congr
    intro r hr
    obtain ⟨hwhole, hepoch⟩ := hmicros r (mem_coinLog.mp hr).1
    rw [decide_eq_decide]
    exact le_storeTimestamptz_iff hwhole hepoch
  have hsplit : (db.rows.filter fun row =>
      row.coinId = coinId && decide (row.firstSeenAt ≤ storeTimestamptz t)) =
      (db.rows.filter fun row => row.coinId = coinId).filter
        fun row => row.firstSeenAt ≤ storeTimestamptz t := by
    rw [List.filter_filter]
    exact List.filter_congr fun row _ => Bool.and_comm _ _
  rw [← hbound, selectMetadata, hsplit, hrows.greatest_filter, asOf, asOf, MetadataTables.log,
    ← map_filter_coin, List.filter_map, List.getLast?_map]
  rfl

end AsOf

section Runs

variable {run : List (UpsertStatement J)} {t : ℤ}

/-- The clock of the database moves between statements, in whole microseconds. -/
structure Ticking (run : List (UpsertStatement J)) : Prop where
  later : (run.map UpsertStatement.now).Pairwise (· < ·)
  micros : ∀ now ∈ run.map UpsertStatement.now, Micros now ∧ pgEpoch < now

theorem statementsUpTo_now : ∀ now ∈ (statementsUpTo t run).map UpsertStatement.now, now ≤ t := by
  intro now hnow
  obtain ⟨a, ha, rfl⟩ := List.mem_map.mp hnow
  simpa using List.mem_takeWhile_imp ha

theorem Ticking.statements_after (h : Ticking run) :
    ∀ now ∈ (run.dropWhile fun a => a.now ≤ t).map UpsertStatement.now, t < now := by
  have hrest : ((run.dropWhile fun a => a.now ≤ t).map UpsertStatement.now).Pairwise (· < ·) :=
    h.later.sublist ((List.dropWhile_sublist _).map _)
  have hhead := List.head?_dropWhile_not (fun a : UpsertStatement J => a.now ≤ t) run
  generalize run.dropWhile (fun a => a.now ≤ t) = rest at hrest hhead
  cases rest with
  | nil => simp
  | cons a rest =>
    have hfirst : t < a.now := by simpa using hhead
    intro now hnow
    rcases List.mem_cons.mp hnow with rfl | hmem
    · exact hfirst
    · exact hfirst.trans ((List.pairwise_cons.mp hrest).1 now hmem)

variable [DecidableEq J] {trackedCoins : List String} {s : MetadataSystem J}

theorem selectMetadata_history (hticking : Ticking run)
    (hrun : exec upsertStep (MetadataSystem.start trackedCoins) run = some s) (coinId : String) :
    ∃ earlier, exec upsertStep (MetadataSystem.start trackedCoins) (statementsUpTo t run) =
        some earlier ∧ SoundLog earlier.db.log ∧
      (selectMetadata s.db coinId (some t)).map CoinMetadata.toRevision =
        (coinLog earlier.db.log coinId).getLast? := by
  obtain ⟨-, -, all, hall, hstamps⟩ := (sound_start trackedCoins).exec hrun
  change s.db.log = all at hall
  subst hall
  have hstamped : Ascending Revision.firstSeenAt s.db.log :=
    List.pairwise_map.mp (hticking.later.sublist hstamps)
  have hmicros : ∀ r ∈ s.db.log, Micros r.firstSeenAt ∧ pgEpoch < r.firstSeenAt := fun r hr =>
    hticking.micros _ (hstamps.subset (List.mem_map_of_mem hr))
  rw [← List.takeWhile_append_dropWhile (p := fun a : UpsertStatement J => a.now ≤ t) (l := run),
    exec_append_eq_some] at hrun
  obtain ⟨m, hm, hrest⟩ := hrun
  obtain ⟨hsound, -, old, hold, holdStamps⟩ := (sound_start trackedCoins).exec hm
  change m.db.log = old at hold
  subst hold
  obtain ⟨-, -, later, hlog, hlaterStamps⟩ := hsound.exec hrest
  have hpast : ∀ r ∈ coinLog m.db.log coinId, r.firstSeenAt ≤ t := fun r hr =>
    statementsUpTo_now _ (holdStamps.subset (List.mem_map_of_mem (mem_coinLog.mp hr).1))
  have hafter : ∀ r ∈ coinLog later coinId, t < r.firstSeenAt := fun r hr =>
    hticking.statements_after _
      (hlaterStamps.subset (List.mem_map_of_mem (mem_coinLog.mp hr).1))
  refine ⟨m, hm, hsound.log, ?_⟩
  rw [selectMetadata_asOf hstamped hmicros, hlog, coinLog_append, asOf_append hafter,
    asOf_of_forall_le hpast]

/-- A read as of `t` answers the highest revision stored by the statements up to `t`, and
404 where they stored none. -/
theorem getMetadata_asOf (hticking : Ticking run)
    (hrun : exec upsertStep (MetadataSystem.start trackedCoins) run = some s) {coinId : String}
    (htracked : coinId ∈ trackedCoins) :
    ∃ earlier, exec upsertStep (MetadataSystem.start trackedCoins) (statementsUpTo t run) =
        some earlier ∧
      (∀ row, IsLatest earlier.db.rows coinId row →
        (∃ answer, getMetadata s.db coinId (some t) = .ok answer ∧
          answer.toRevision = row.toRevision) ∧
        ∃ answer, getMetadata earlier.db coinId none = .ok answer ∧
          answer.toRevision = row.toRevision) ∧
      ((∀ row ∈ earlier.db.rows, row.coinId ≠ coinId) → getMetadata s.db coinId (some t) =
        .error (.notFound ("no metadata found for coin '" ++ coinId ++ "'"))) := by
  obtain ⟨earlier, hearlier, hsound, hselect⟩ := selectMetadata_history hticking hrun coinId
  obtain ⟨-, hcoins, -⟩ := (sound_start trackedCoins).exec hrun
  obtain ⟨-, hcoins', -⟩ := (sound_start trackedCoins).exec hearlier
  have hselectLatest := selectMetadata_latest hsound coinId
  refine ⟨earlier, hearlier, ?_, ?_⟩
  · intro row hlatest
    rw [hlatest.getLast?_coinLog hsound, Option.map_eq_some_iff] at hselect hselectLatest
    obtain ⟨answer, hanswer, hrow⟩ := hselect
    obtain ⟨answer', hanswer', hrow'⟩ := hselectLatest
    exact ⟨⟨answer, getMetadata_of_selected (hcoins ▸ htracked) hanswer, hrow⟩,
      answer', getMetadata_of_selected (hcoins' ▸ htracked) hanswer', hrow'⟩
  · intro hnone
    rw [coinLog_eq_nil hnone, List.getLast?_nil, Option.map_eq_none_iff] at hselect
    exact getMetadata_of_not_selected (hcoins ▸ htracked) hselect

end Runs

/-- Two calls read an empty table; the second to write finds revision 0 taken. A third
then reports the description gone. -/
def bitcoinRace : List (UpsertStatement String) :=
  let bitcoin : CoinMeta String :=
    { name := "Bitcoin", symbol := "btc", categories := none, description := some "Digital gold",
      homepage := none, links := none, contractAddresses := none, maxSupply := some 21000000,
      genesisDate := none, coinId := "bitcoin" }
  [.read 0 bitcoin (pgEpoch + 1000), .read 1 bitcoin (pgEpoch + 2000),
    .write 1 (pgEpoch + 3000), .write 0 (pgEpoch + 4000),
    .read 2 { bitcoin with description := none } (pgEpoch + 5000), .write 2 (pgEpoch + 6000)]

end CryptoCollector.Api
