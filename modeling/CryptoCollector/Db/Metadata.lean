import CryptoCollector.Foundations.Histories
import CryptoCollector.Foundations.Runs
import CryptoCollector.Foundations.Tables
import CryptoCollector.Time

/-!
# Coin metadata

`coin_metadata` keeps the revisions of a coin's descriptive fields. A call of
`upsert_coin_metadata` reads the latest revision in one statement, compares, and
writes in a second; nothing holds the two together, and the statements of other
calls come between them. `J` is the type of JSON values.

A revision number is an `i32` and its increment is checked: at the greatest one
the call panics.
-/

namespace CryptoCollector.Db
open Foundations DateTime

structure MetadataFields (J : Type) where
  name : String
  symbol : String
  categories : Option (List String)
  description : Option String
  homepage : Option String
  links : Option J
  contractAddresses : Option J
  maxSupply : Option ℚ
  genesisDate : Option ℤ
  deriving DecidableEq

structure CoinMeta (J : Type) extends MetadataFields J where
  coinId : String
  deriving DecidableEq

structure LatestMetadata (J : Type) extends MetadataFields J where
  revision : ℤ
  deriving DecidableEq

/-- The columns of a row that are set when it is inserted. -/
structure Revision (J : Type) extends MetadataFields J where
  coinId : String
  revision : ℤ
  firstSeenAt : ℤ
  deriving DecidableEq

structure CoinMetadata (J : Type) extends Revision J where
  lastSeenAt : ℤ
  deriving DecidableEq

structure MetadataTables (J : Type) where
  trackedCoins : List String
  rows : List (CoinMetadata J)
  deriving DecidableEq

/-- Why a call errs after its read. -/
inductive UpsertFailure where
  | duplicateRevision
  | untrackedCoin
  | revisionOverflow
  deriving DecidableEq, Repr

variable {J : Type}

def Revision.latest (r : Revision J) : LatestMetadata J :=
  { r.toMetadataFields with revision := r.revision }

/-- `SELECT … WHERE coin_id = $1 ORDER BY revision DESC LIMIT 1`. -/
def newestRow (rows : List (CoinMetadata J)) (coinId : String) : Option (CoinMetadata J) :=
  greatest (fun row => row.revision) (rows.filter fun row => row.coinId = coinId)

/-- The read of `upsert_coin_metadata`. -/
def selectLatest (db : MetadataTables J) (coinId : String) : Option (LatestMetadata J) :=
  (newestRow db.rows coinId).map fun row => row.latest

/-- `insert_metadata_revision`: both timestamps default to `now()`. -/
def insertMetadataRevision (db : MetadataTables J) (now : ℤ) (reported : CoinMeta J)
    (revision : ℤ) : Except UpsertFailure (MetadataTables J) :=
  if ∃ row ∈ db.rows, row.coinId = reported.coinId ∧ row.revision = revision then
    .error .duplicateRevision
  else if reported.coinId ∈ db.trackedCoins then
    .ok { db with
      rows := db.rows ++
        [{ reported.toMetadataFields with
          coinId := reported.coinId, revision := revision, firstSeenAt := now,
          lastSeenAt := now }] }
  else
    .error .untrackedCoin

/-- The update of an unchanged revision. -/
def advanceLastSeen (db : MetadataTables J) (now : ℤ) (coinId : String) (revision : ℤ) :
    MetadataTables J :=
  { db with
    rows := updateWhere (fun row : CoinMetadata J => row.coinId = coinId ∧ row.revision = revision)
      (fun row => { row with lastSeenAt := now }) db.rows }

/-- `i32::MAX`. -/
def maxRevision : ℤ := 2147483647

/-- `existing.revision + 1`. -/
def nextRevision (revision : ℤ) : Option ℤ :=
  if revision < maxRevision then some (revision + 1) else none

section Compare

variable [DecidableEq J]

def metadataHasChanged (existing : LatestMetadata J) (new : CoinMeta J) : Bool :=
  existing.name != new.name || existing.symbol != new.symbol ||
    existing.categories != new.categories || existing.description != new.description ||
    existing.homepage != new.homepage || existing.links != new.links ||
    existing.contractAddresses != new.contractAddresses || existing.maxSupply != new.maxSupply ||
    existing.genesisDate != new.genesisDate

/-- The comparison covers the tracked fields and nothing else. -/
theorem metadataHasChanged_iff {existing : LatestMetadata J} {new : CoinMeta J} :
    metadataHasChanged existing new = true ↔
      existing.toMetadataFields ≠ new.toMetadataFields := by
  rw [ne_eq, MetadataFields.mk.injEq]
  simp only [metadataHasChanged, Bool.or_eq_true, bne_iff_ne, ne_eq]
  tauto

/-- What a call writes after reading `latest`. -/
def writeMetadata (db : MetadataTables J) (now : ℤ) (reported : CoinMeta J) :
    Option (LatestMetadata J) → Except UpsertFailure (MetadataTables J)
  | none => insertMetadataRevision db now reported 0
  | some existing =>
    if !metadataHasChanged existing reported then
      .ok (advanceLastSeen db now reported.coinId existing.revision)
    else
      match nextRevision existing.revision with
      | some revision => insertMetadataRevision db now reported revision
      | none => .error .revisionOverflow

/-- The revision a call goes on to insert. -/
def revisionToInsert (reported : CoinMeta J) : Option (LatestMetadata J) → Option ℤ
  | none => some 0
  | some existing =>
    if metadataHasChanged existing reported then nextRevision existing.revision else none

end Compare

/-- A call of `upsert_coin_metadata`: between its statements, or over. -/
inductive UpsertCall (J : Type) where
  | compared (reported : CoinMeta J) (latest : Option (LatestMetadata J))
  | returned (result : Except UpsertFailure Unit)

/-- The tables and the calls. -/
structure MetadataSystem (J : Type) where
  db : MetadataTables J
  calls : ℕ → Option (UpsertCall J)

/-- A statement of a call, and the time of the database at it. -/
inductive UpsertStatement (J : Type) where
  | read (call : ℕ) (reported : CoinMeta J) (now : ℤ)
  | write (call : ℕ) (now : ℤ)

def UpsertStatement.now : UpsertStatement J → ℤ
  | .read _ _ now => now
  | .write _ now => now

def MetadataSystem.start (trackedCoins : List String) : MetadataSystem J :=
  ⟨⟨trackedCoins, []⟩, fun _ => none⟩

def MetadataSystem.after (s : MetadataSystem J) (db : MetadataTables J) (call : ℕ)
    (next : UpsertCall J) : MetadataSystem J :=
  ⟨db, Function.update s.calls call (some next)⟩

/-- One statement of one call. -/
def upsertStep [DecidableEq J] (s : MetadataSystem J) :
    UpsertStatement J → Option (MetadataSystem J)
  | .read call reported _ =>
    match s.calls call with
    | none => some (s.after s.db call (.compared reported (selectLatest s.db reported.coinId)))
    | some _ => none
  | .write call now =>
    match s.calls call with
    | some (.compared reported latest) =>
      match writeMetadata s.db now reported latest with
      | .ok db => some (s.after db call (.returned (.ok ())))
      | .error failure => some (s.after s.db call (.returned (.error failure)))
    | _ => none

/-- The revisions stored, in the order of their insertion. -/
def MetadataTables.log (db : MetadataTables J) : List (Revision J) :=
  db.rows.map CoinMetadata.toRevision

def coinLog (log : List (Revision J)) (coinId : String) : List (Revision J) :=
  log.filter fun r => r.coinId = coinId

def HasRevision (db : MetadataTables J) (coinId : String) (revision : ℤ) : Prop :=
  ∃ row ∈ db.rows, row.coinId = coinId ∧ row.revision = revision

/-- The revision a report is inserted as. -/
def CoinMeta.asRevision (reported : CoinMeta J) (revision now : ℤ) : Revision J :=
  { reported.toMetadataFields with
    coinId := reported.coinId, revision := revision, firstSeenAt := now }

@[simp] theorem mem_coinLog {log : List (Revision J)} {coinId : String} {r : Revision J} :
    r ∈ coinLog log coinId ↔ r ∈ log ∧ r.coinId = coinId := by
  simp [coinLog]

theorem coinLog_append (log later : List (Revision J)) (coinId : String) :
    coinLog (log ++ later) coinId = coinLog log coinId ++ coinLog later coinId :=
  List.filter_append ..

theorem coinLog_singleton (r : Revision J) (coinId : String) :
    coinLog [r] coinId = if r.coinId = coinId then [r] else [] := by
  by_cases h : r.coinId = coinId <;> simp [coinLog, h]

theorem hasRevision_iff {db : MetadataTables J} {coinId : String} {revision : ℤ} :
    HasRevision db coinId revision ↔ ∃ r ∈ coinLog db.log coinId, r.revision = revision := by
  simp [HasRevision, MetadataTables.log, and_assoc]

theorem map_filter_coin (rows : List (CoinMetadata J)) (coinId : String) :
    (rows.filter fun row => row.coinId = coinId).map CoinMetadata.toRevision =
      coinLog (rows.map CoinMetadata.toRevision) coinId := by
  rw [coinLog, List.filter_map]
  rfl

theorem newestRow_toRevision {db : MetadataTables J} {coinId : String}
    (h : Numbered Revision.revision (coinLog db.log coinId)) :
    (newestRow db.rows coinId).map CoinMetadata.toRevision =
      (coinLog db.log coinId).getLast? := by
  have hascending : Ascending (fun row : CoinMetadata J => row.revision)
      (db.rows.filter fun row => row.coinId = coinId) := by
    have hlog := h.ascending
    rw [MetadataTables.log, ← map_filter_coin, Ascending, List.pairwise_map] at hlog
    exact hlog
  rw [newestRow, hascending.greatest_eq, MetadataTables.log, ← map_filter_coin, List.getLast?_map]

theorem selectLatest_eq {db : MetadataTables J} {coinId : String}
    (h : Numbered Revision.revision (coinLog db.log coinId)) :
    selectLatest db coinId = (coinLog db.log coinId).getLast?.map Revision.latest := by
  rw [← newestRow_toRevision h, Option.map_map]
  rfl

theorem log_advanceLastSeen (db : MetadataTables J) (now : ℤ) (coinId : String) (revision : ℤ) :
    (advanceLastSeen db now coinId revision).log = db.log :=
  map_key_updateWhere fun _ _ => rfl

section Insert

variable {db db' : MetadataTables J} {now revision : ℤ} {reported : CoinMeta J}

theorem insertMetadataRevision_ok
    (h : insertMetadataRevision db now reported revision = .ok db') :
    ¬HasRevision db reported.coinId revision ∧ reported.coinId ∈ db.trackedCoins ∧
      db'.trackedCoins = db.trackedCoins ∧
      db'.log = db.log ++ [reported.asRevision revision now] := by
  unfold insertMetadataRevision at h
  split_ifs at h with hstored htracked
  cases h
  refine ⟨hstored, htracked, rfl, ?_⟩
  simp [MetadataTables.log, CoinMeta.asRevision]

theorem insertMetadataRevision_taken (h : HasRevision db reported.coinId revision) :
    insertMetadataRevision db now reported revision = .error .duplicateRevision :=
  if_pos h

end Insert

section Write

variable [DecidableEq J] {db db' : MetadataTables J} {now : ℤ} {reported : CoinMeta J}
  {latest : Option (LatestMetadata J)}

/-- Everything a successful write does: it leaves the log as it is, or it inserts a
revision that no row has. -/
theorem writeMetadata_ok (h : writeMetadata db now reported latest = .ok db') :
    db'.trackedCoins = db.trackedCoins ∧
      (db'.log = db.log ∨
        ∃ revision, revisionToInsert reported latest = some revision ∧
          ¬HasRevision db reported.coinId revision ∧
          db'.log = db.log ++ [reported.asRevision revision now]) := by
  cases latest with
  | none =>
    obtain ⟨hfresh, -, hcoins, hlog⟩ := insertMetadataRevision_ok h
    exact ⟨hcoins, Or.inr ⟨0, rfl, hfresh, hlog⟩⟩
  | some existing =>
    simp only [writeMetadata] at h
    by_cases hchanged : metadataHasChanged existing reported = true
    · simp only [hchanged, Bool.not_true, Bool.false_eq_true, if_false] at h
      cases hnext : nextRevision existing.revision with
      | none =>
        rw [hnext] at h
        cases h
      | some revision =>
        rw [hnext] at h
        obtain ⟨hfresh, -, hcoins, hlog⟩ := insertMetadataRevision_ok h
        exact ⟨hcoins, Or.inr ⟨revision, by simp [revisionToInsert, hchanged, hnext], hfresh, hlog⟩⟩
    · simp only [hchanged, Bool.not_false, if_true] at h
      cases h
      exact ⟨rfl, Or.inl (log_advanceLastSeen ..)⟩

theorem writeMetadata_taken {revision : ℤ}
    (hinsert : revisionToInsert reported latest = some revision)
    (htaken : HasRevision db reported.coinId revision) :
    writeMetadata db now reported latest = .error .duplicateRevision := by
  cases latest with
  | none =>
    cases hinsert
    exact insertMetadataRevision_taken htaken
  | some existing =>
    simp only [revisionToInsert] at hinsert
    split_ifs at hinsert with hchanged
    simp only [writeMetadata, hchanged, Bool.not_true, Bool.false_eq_true, if_false, hinsert]
    exact insertMetadataRevision_taken htaken

end Write

/-- The revisions of every coin are numbered from zero, and neighbours differ. -/
structure SoundLog (log : List (Revision J)) : Prop where
  numbered : ∀ coinId, Numbered Revision.revision (coinLog log coinId)
  distinct : ∀ coinId, (coinLog log coinId).IsChain fun r r' =>
    r.toMetadataFields ≠ r'.toMetadataFields

/-- What a call read is still stored. -/
structure Sound (s : MetadataSystem J) : Prop where
  log : SoundLog s.db.log
  pending : ∀ call reported existing,
    s.calls call = some (.compared reported (some existing)) →
      ∃ r ∈ coinLog s.db.log reported.coinId, r.latest = existing

theorem SoundLog.concat {log : List (Revision J)} (h : SoundLog log) {r : Revision J}
    (hnumber : r.revision = (coinLog log r.coinId).length)
    (hnew : ∀ last, (coinLog log r.coinId).getLast? = some last →
      last.toMetadataFields ≠ r.toMetadataFields) : SoundLog (log ++ [r]) where
  numbered := by
    intro coinId
    rw [coinLog_append, coinLog_singleton]
    by_cases hcoin : r.coinId = coinId
    · rw [if_pos hcoin]
      exact (h.numbered coinId).concat (hcoin ▸ hnumber)
    · rw [if_neg hcoin, List.append_nil]
      exact h.numbered coinId
  distinct := by
    intro coinId
    rw [coinLog_append, coinLog_singleton]
    by_cases hcoin : r.coinId = coinId
    · rw [if_pos hcoin]
      exact isChain_concat (h.distinct coinId) (hcoin ▸ hnew)
    · rw [if_neg hcoin, List.append_nil]
      exact h.distinct coinId

theorem sound_start (trackedCoins : List String) :
    Sound (MetadataSystem.start (J := J) trackedCoins) where
  log := ⟨fun _ => numbered_nil _, fun _ => List.isChain_nil⟩
  pending := by
    intro call reported existing h
    cases h

theorem SoundLog.eq_of_revision {db : MetadataTables J} (h : SoundLog db.log) {r r' : Revision J}
    (hr : r ∈ db.log) (hr' : r' ∈ db.log) (hcoin : r'.coinId = r.coinId)
    (hrevision : r'.revision = r.revision) : r' = r :=
  (h.numbered r.coinId).ascending.key_inj (mem_coinLog.mpr ⟨hr', hcoin⟩)
    (mem_coinLog.mpr ⟨hr, rfl⟩) hrevision

theorem SoundLog.contiguous {db : MetadataTables J} (h : SoundLog db.log) (coinId : String)
    (k : ℤ) : HasRevision db coinId k ↔ 0 ≤ k ∧ k < (coinLog db.log coinId).length := by
  rw [hasRevision_iff, (h.numbered coinId).exists_iff]

section Steps

variable [DecidableEq J] {s t : MetadataSystem J}

theorem upsertStep_cases {a : UpsertStatement J} (h : upsertStep s a = some t) :
    (∃ call reported, t = s.after s.db call
        (.compared reported (selectLatest s.db reported.coinId))) ∨
      ∃ call reported latest, s.calls call = some (.compared reported latest) ∧
        ((∃ db, writeMetadata s.db a.now reported latest = .ok db ∧
            t = s.after db call (.returned (.ok ()))) ∨
          ∃ failure, writeMetadata s.db a.now reported latest = .error failure ∧
            t = s.after s.db call (.returned (.error failure))) := by
  cases a with
  | read call reported now =>
    simp only [upsertStep] at h
    split at h
    · cases h
      exact Or.inl ⟨call, reported, rfl⟩
    · cases h
  | write call now =>
    simp only [upsertStep] at h
    split at h
    · next reported latest hcall =>
      split at h
      · next db hwrite =>
        cases h
        exact Or.inr ⟨call, reported, latest, hcall, Or.inl ⟨db, hwrite, rfl⟩⟩
      · next failure hwrite =>
        cases h
        exact Or.inr ⟨call, reported, latest, hcall, Or.inr ⟨failure, hwrite, rfl⟩⟩
    · cases h

theorem nextRevision_eq {revision next : ℤ} (h : nextRevision revision = some next) :
    next = revision + 1 := by
  unfold nextRevision at h
  split_ifs at h
  cases h
  rfl

/-- A revision inserted after a read, however old, is the next of the coin and differs
from the one before it. -/
theorem SoundLog.insert_next {db : MetadataTables J} (h : SoundLog db.log)
    {reported : CoinMeta J} {latest : Option (LatestMetadata J)} {revision : ℤ}
    (hread : ∀ existing, latest = some existing →
      ∃ r ∈ coinLog db.log reported.coinId, r.latest = existing)
    (hinsert : revisionToInsert reported latest = some revision)
    (hfresh : ¬HasRevision db reported.coinId revision) :
    revision = (coinLog db.log reported.coinId).length ∧
      ∀ last, (coinLog db.log reported.coinId).getLast? = some last →
        last.toMetadataFields ≠ reported.toMetadataFields := by
  have hnumbered := h.numbered reported.coinId
  rw [h.contiguous] at hfresh
  cases latest with
  | none =>
    cases hinsert
    have hempty : coinLog db.log reported.coinId = [] := List.length_eq_zero_iff.mp (by omega)
    simp [hempty]
  | some existing =>
    obtain ⟨r, hr, rfl⟩ := hread existing rfl
    simp only [revisionToInsert] at hinsert
    split_ifs at hinsert with hchanged
    have hnext : revision = r.revision + 1 := nextRevision_eq hinsert
    have hbound := hnumbered.exists_iff.mp ⟨r, hr, rfl⟩
    refine ⟨by omega, ?_⟩
    intro last hlast
    -- the revision read has the greatest number, so it is the last of the coin
    have hmem : last ∈ coinLog db.log reported.coinId := List.mem_of_getLast? hlast
    have hle : r.revision ≤ last.revision := hnumbered.ascending.le_getLast hr hlast
    have hlastBound := hnumbered.exists_iff.mp ⟨last, hmem, rfl⟩
    obtain rfl : r = last := hnumbered.ascending.key_inj hr hmem (by omega)
    exact metadataHasChanged_iff.mp hchanged

omit [DecidableEq J] in
theorem Sound.read_stored (h : Sound s) {call : ℕ} {reported : CoinMeta J}
    {latest : Option (LatestMetadata J)} (hcall : s.calls call = some (.compared reported latest)) :
    ∀ existing, latest = some existing →
      ∃ r ∈ coinLog s.db.log reported.coinId, r.latest = existing := by
  rintro existing rfl
  exact h.pending call reported existing hcall

theorem Sound.step_log (h : Sound s) {a : UpsertStatement J} (hstep : upsertStep s a = some t) :
    t.db.trackedCoins = s.db.trackedCoins ∧ SoundLog t.db.log ∧
      (t.db.log = s.db.log ∨ ∃ r : Revision J, r.firstSeenAt = a.now ∧
        t.db.log = s.db.log ++ [r]) := by
  obtain ⟨call, reported, rfl⟩ | ⟨call, reported, latest, hcall, hwrite⟩ := upsertStep_cases hstep
  · exact ⟨rfl, h.log, Or.inl rfl⟩
  · obtain ⟨db, hok, rfl⟩ | ⟨failure, -, rfl⟩ := hwrite
    · obtain ⟨hcoins, hsame | ⟨revision, hinsert, hfresh, hlog⟩⟩ := writeMetadata_ok hok
      · refine ⟨hcoins, ?_, Or.inl hsame⟩
        show SoundLog db.log
        rw [hsame]
        exact h.log
      · obtain ⟨hnumber, hnew⟩ := h.log.insert_next (h.read_stored hcall) hinsert hfresh
        refine ⟨hcoins, ?_, Or.inr ⟨reported.asRevision revision a.now, rfl, hlog⟩⟩
        show SoundLog db.log
        rw [hlog]
        exact h.log.concat hnumber hnew
    · exact ⟨rfl, h.log, Or.inl rfl⟩

/-- A read is of a stored revision, and stored revisions stay. -/
theorem Sound.step (h : Sound s) {a : UpsertStatement J} (hstep : upsertStep s a = some t) :
    Sound t := by
  obtain ⟨-, hlog, hgrows⟩ := h.step_log hstep
  have hkept : ∀ coinId, ∀ r ∈ coinLog s.db.log coinId, r ∈ coinLog t.db.log coinId := by
    intro coinId r hr
    obtain hsame | ⟨r', -, hmore⟩ := hgrows
    · rwa [hsame]
    · rw [hmore, coinLog_append]
      exact List.mem_append_left _ hr
  refine ⟨hlog, ?_⟩
  intro call reported existing hcall
  -- a call waiting to write after the step waited before it, or has just read
  have hbefore : s.calls call = some (.compared reported (some existing)) ∨
      selectLatest s.db reported.coinId = some existing := by
    obtain ⟨call', reported', rfl⟩ | ⟨call', reported', latest, -, hwrite⟩ :=
      upsertStep_cases hstep
    · by_cases hsame : call = call'
      · subst hsame
        simp only [MetadataSystem.after, Function.update_self, Option.some.injEq,
          UpsertCall.compared.injEq] at hcall
        obtain ⟨rfl, hread⟩ := hcall
        exact Or.inr hread
      · simp only [MetadataSystem.after, Function.update_of_ne hsame] at hcall
        exact Or.inl hcall
    · by_cases hsame : call = call'
      · subst hsame
        obtain ⟨db, -, rfl⟩ | ⟨failure, -, rfl⟩ := hwrite <;>
          simp [MetadataSystem.after] at hcall
      · obtain ⟨db, -, rfl⟩ | ⟨failure, -, rfl⟩ := hwrite <;>
          exact Or.inl (by simpa [MetadataSystem.after, hsame] using hcall)
  obtain ⟨r, hr, hread⟩ : ∃ r ∈ coinLog s.db.log reported.coinId, r.latest = existing := by
    obtain hwaiting | hread := hbefore
    · exact h.pending call reported existing hwaiting
    · rw [selectLatest_eq (h.log.numbered _), Option.map_eq_some_iff] at hread
      obtain ⟨r, hlast, hr⟩ := hread
      exact ⟨r, List.mem_of_getLast? hlast, hr⟩
  exact ⟨r, hkept _ r hr, hread⟩

/-- Over a run the log only grows, by revisions of the times of its statements. -/
theorem Sound.exec (h : Sound s) {run : List (UpsertStatement J)}
    (hrun : exec upsertStep s run = some t) :
    Sound t ∧ t.db.trackedCoins = s.db.trackedCoins ∧
      ∃ later, t.db.log = s.db.log ++ later ∧
        (later.map Revision.firstSeenAt).Sublist (run.map UpsertStatement.now) := by
  induction run generalizing s with
  | nil =>
    obtain rfl : s = t := by simpa using hrun
    exact ⟨h, rfl, [], (List.append_nil _).symm, List.Sublist.refl _⟩
  | cons a run ih =>
    obtain ⟨u, hu, hrest⟩ := (exec_cons_eq_some upsertStep).mp hrun
    obtain ⟨hcoins, -, hstep⟩ := h.step_log hu
    obtain ⟨hsound, hcoins', later, hlog, hlater⟩ := ih (h.step hu) hrest
    refine ⟨hsound, hcoins'.trans hcoins, ?_⟩
    obtain hsame | ⟨r, hr, hmore⟩ := hstep
    · exact ⟨later, by rw [hlog, hsame], hlater.cons _⟩
    · refine ⟨r :: later, by rw [hlog, hmore, List.append_assoc]; rfl, ?_⟩
      rw [List.map_cons, List.map_cons, hr]
      exact hlater.cons_cons _

theorem upsertStep_taken {call : ℕ} {reported : CoinMeta J} {latest : Option (LatestMetadata J)}
    {revision now : ℤ} (hcall : s.calls call = some (.compared reported latest))
    (hinsert : revisionToInsert reported latest = some revision)
    (htaken : HasRevision s.db reported.coinId revision) :
    upsertStep s (.write call now) =
      some (s.after s.db call (.returned (.error .duplicateRevision))) := by
  simp only [upsertStep, hcall, writeMetadata_taken hinsert htaken]

end Steps

end CryptoCollector.Db
