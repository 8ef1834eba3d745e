import CryptoCollector.Api.PollIntervalText
import CryptoCollector.Models.Coin

/-!
# Coin handlers

What the coin endpoints check, and what their statements do to `tracked_coins`. The
extraction of a request from its body and the codes of the responses are left out.
-/

namespace CryptoCollector.Api
open Models Foundations

/-- The configured bounds of a poll interval, in seconds. -/
structure PollBounds where
  minSecs : ℕ
  maxSecs : ℕ
  globalTickSecs : ℕ
  deriving DecidableEq, Repr

structure RegisterCoinRequest where
  coinId : String
  symbol : String
  name : String
  livePollInterval : Option String
  deriving DecidableEq, Repr

/-- The interval is absent, null or a text. -/
structure UpdateCoinRequest where
  status : Option String
  error : Option String
  livePollInterval : Option (Option String)
  deriving DecidableEq, Repr

/-- `ApiError`, as far as the coin endpoints answer with it. -/
inductive CoinError where
  | notFound (message : String)
  | unprocessableEntity (message : String)
  | internal
  deriving DecidableEq, Repr

/-- `CoinDto`: the row, its interval as it is shown. -/
def CoinDto.ofTrackedCoin (coin : TrackedCoin) : TrackedCoin :=
  { coin with livePollInterval := shownPollInterval coin.livePollInterval }

inductive CoinResponse where
  | created (coin : TrackedCoin)
  | ok (coin : TrackedCoin)
  | noContent
  | failed (e : CoinError)
  deriving DecidableEq, Repr

def coinNotFound (coinId : String) : CoinError := .notFound ("coin '" ++ coinId ++ "' not found")

def validateCoinId (coinId : String) : Except CoinError Unit :=
  if trim coinId.toList = [] then .error (.unprocessableEntity "coin_id must not be empty")
  else .ok ()

/-- The `CHECK` of the column. -/
def coinStatuses : List String := ["active", "paused", "error"]

def validateCoinStatus (status : String) : Except CoinError Unit :=
  if status ∈ coinStatuses then .ok ()
  else .error (.unprocessableEntity
    ("invalid status '" ++ status ++ "': must be active, paused, or error"))

/-- The status of an update, where it has one. -/
def validateNewStatus : Option String → Except CoinError Unit
  | none => .ok ()
  | some status => validateCoinStatus status

def pgIntervalLiteral (bounds : PollBounds) (iv : String) : Except CoinError String :=
  match parseLivePollDuration iv bounds.minSecs bounds.maxSecs bounds.globalTickSecs with
  | .error e => .error (.unprocessableEntity e.message)
  | .ok d => .ok (durationToPgInterval d)

/-- `$4::interval`, and the column's text of it. -/
def castInterval (column : IntervalColumn) (literal : String) : Except CoinError String :=
  match column literal with
  | none => .error .internal
  | some text => .ok text

section Handlers

variable (bounds : PollBounds) (column : IntervalColumn)

/-- The interval of a registration, as the column has it. -/
def newInterval : Option String → Except CoinError (Option String)
  | none => .ok none
  | some iv => do
    let literal ← pgIntervalLiteral bounds iv
    return some (← castInterval column literal)

/-- What a registration passes before it can insert or conflict: the checks of
`register_coin` and the cast of its `INSERT`. -/
def admitCoin (req : RegisterCoinRequest) : Except CoinError (Option String) := do
  validateCoinId req.coinId
  newInterval bounds column req.livePollInterval

/-- The row of `INSERT_TRACKED_COIN_SQL`. -/
def registeredCoin (req : RegisterCoinRequest) (interval : Option String) (now : ℤ) :
    TrackedCoin :=
  ⟨req.coinId, req.symbol, req.name, "active", now, none, none, interval⟩

/-- `ON CONFLICT (coin_id) DO NOTHING`. -/
def insertCoin (coins : TrackedCoinTable) (coin : TrackedCoin) : TrackedCoinTable :=
  coins.upsert (fun _ => false) coin

def setCoin (coins : TrackedCoinTable) (coin : TrackedCoin) : TrackedCoinTable :=
  coins.upsert (fun _ => true) coin

/-- The columns an update sets whatever it says of the interval. -/
def UpdateCoinRequest.apply (req : UpdateCoinRequest) (coin : TrackedCoin) : TrackedCoin :=
  { coin with status := req.status.getD coin.status, error := req.error.or coin.error }

/-- The three statements of `update_coin` on the row they match. The interval is cast
for that row, so not without one. -/
def updatedCoin (req : UpdateCoinRequest) (literal : Option (Option String))
    (coin : TrackedCoin) : Except CoinError TrackedCoin :=
  match literal with
  | none => .ok (req.apply coin)
  | some none => .ok { req.apply coin with livePollInterval := none }
  | some (some literal) => do
    return { req.apply coin with livePollInterval := some (← castInterval column literal) }

/-- What an update binds for the interval. -/
def updateLiteral : Option (Option String) → Except CoinError (Option (Option String))
  | none => .ok none
  | some none => .ok (some none)
  | some (some iv) => do return some (some (← pgIntervalLiteral bounds iv))

/-- The checks of `update_coin`. -/
def checkUpdate (req : UpdateCoinRequest) : Except CoinError (Option (Option String)) := do
  validateNewStatus req.status
  updateLiteral bounds req.livePollInterval

/-- The checks, and the new row. -/
def tryUpdate (coins : TrackedCoinTable) (coinId : String) (req : UpdateCoinRequest) :
    Except CoinError TrackedCoin := do
  let literal ← checkUpdate bounds req
  match coins.lookup coinId with
  | none => .error (coinNotFound coinId)
  | some coin => updatedCoin column req literal coin

def updateCoin (coins : TrackedCoinTable) (coinId : String) (req : UpdateCoinRequest) :
    CoinResponse × TrackedCoinTable :=
  match tryUpdate bounds column coins coinId req with
  | .error e => (.failed e, coins)
  | .ok coin => (.ok (CoinDto.ofTrackedCoin coin), setCoin coins coin)

def getCoin (coins : TrackedCoinTable) (coinId : String) : CoinResponse :=
  match coins.lookup coinId with
  | none => .failed (coinNotFound coinId)
  | some coin => .ok (CoinDto.ofTrackedCoin coin)

/-- The `UPDATE` of `delete_coin`; `none` where it matches no row. -/
def pauseCoin (coins : TrackedCoinTable) (coinId : String) : Option TrackedCoinTable :=
  (coins.lookup coinId).bind fun coin =>
    if coin.status = "paused" then none else some (setCoin coins { coin with status := "paused" })

/-- The answer of a `delete_coin` whose `UPDATE` matched no row. -/
def answerUnpaused (coins : TrackedCoinTable) (coinId : String) : CoinResponse :=
  if (coins.lookup coinId).isSome then .noContent else .failed (coinNotFound coinId)

/-- `LIVE_COIN_SUCCESS_SQL`, on the columns the endpoints show. -/
def collectCoin (coins : TrackedCoinTable) (coinId : String) (now : ℤ) : TrackedCoinTable :=
  match coins.lookup coinId with
  | none => coins
  | some coin => setCoin coins { coin with lastCollectedAt := some now }

end Handlers

section Tables

variable {coins : TrackedCoinTable} {coin : TrackedCoin}

theorem lookup_insertCoin (h : coins.lookup coin.coinId = none) (coinId : String) :
    (insertCoin coins coin).lookup coinId =
      if coinId = coin.coinId then some coin else coins.lookup coinId := by
  rw [insertCoin, KeyedTable.lookup_upsert]
  split_ifs with hid
  · subst hid
    rw [h]
    rfl
  · rfl

theorem lookup_setCoin {old : TrackedCoin} (h : coins.lookup coin.coinId = some old)
    (coinId : String) : (setCoin coins coin).lookup coinId =
      if coinId = coin.coinId then some coin else coins.lookup coinId := by
  rw [setCoin, KeyedTable.lookup_upsert]
  split_ifs with hid
  · subst hid
    rw [h]
    rfl
  · rfl

end Tables

/-- What no statement changes of a coin. -/
structure CoinIdentity where
  symbol : String
  name : String
  registeredAt : ℤ
  deriving DecidableEq, Repr

def coinIdentity (coin : TrackedCoin) : CoinIdentity := ⟨coin.symbol, coin.name, coin.registeredAt⟩

/-- An interval within the bounds, as the column has it. -/
def IntervalWithin (bounds : PollBounds) (column : IntervalColumn) (text : String) : Prop :=
  ∃ d, max bounds.minSecs bounds.globalTickSecs ≤ d ∧ d ≤ bounds.maxSecs ∧ d ≤ u64Max ∧
    column (durationToPgInterval d) = some text

/-- A row the checks let through. -/
structure ValidCoin (bounds : PollBounds) (column : IntervalColumn) (coin : TrackedCoin) :
    Prop where
  coinId : trim coin.coinId.toList ≠ []
  status : coin.status ∈ coinStatuses
  interval : ∀ text ∈ coin.livePollInterval, IntervalWithin bounds column text

section Rows

variable {bounds : PollBounds} {column : IntervalColumn} {coin coin' : TrackedCoin}

theorem intervalWithin_of_cast {iv literal text : String}
    (hliteral : pgIntervalLiteral bounds iv = .ok literal)
    (hcast : castInterval column literal = .ok text) : IntervalWithin bounds column text := by
  unfold pgIntervalLiteral at hliteral
  cases hparse : parseLivePollDuration iv bounds.minSecs bounds.maxSecs bounds.globalTickSecs with
  | error e =>
    rw [hparse] at hliteral
    cases hliteral
  | ok d =>
    rw [hparse] at hliteral
    obtain rfl := Except.ok.inj hliteral
    obtain ⟨hread, hfloor, hmax⟩ := parseLivePollDuration_eq_ok_iff.mp hparse
    unfold castInterval at hcast
    cases hcolumn : column (durationToPgInterval d) with
    | none =>
      rw [hcolumn] at hcast
      cases hcast
    | some stored =>
      rw [hcolumn] at hcast
      obtain rfl := Except.ok.inj hcast
      exact ⟨d, hfloor, hmax, parseHms_le hread, hcolumn⟩

theorem bind_eq_ok_iff {ε α β : Type} {x : Except ε α} {f : α → Except ε β} {b : β} :
    (x >>= f) = .ok b ↔ ∃ a, x = .ok a ∧ f a = .ok b := by
  cases x <;> simp [Bind.bind, Except.bind]

theorem validateCoinId_eq_ok_iff {coinId : String} :
    validateCoinId coinId = .ok () ↔ trim coinId.toList ≠ [] := by
  unfold validateCoinId
  split_ifs with h <;> simp [h]

theorem validateCoinStatus_eq_ok_iff {status : String} :
    validateCoinStatus status = .ok () ↔ status ∈ coinStatuses := by
  unfold validateCoinStatus
  split_ifs with h <;> simp [h]

theorem valid_of_admitted {req : RegisterCoinRequest} {interval : Option String}
    (h : admitCoin bounds column req = .ok interval) (now : ℤ) :
    ValidCoin bounds column (registeredCoin req interval now) := by
  obtain ⟨_, hid, hinterval⟩ := bind_eq_ok_iff.mp h
  refine ⟨validateCoinId_eq_ok_iff.mp hid, List.mem_cons_self, ?_⟩
  intro text htext
  cases hreq : req.livePollInterval with
  | none =>
    rw [hreq] at hinterval
    cases hinterval
    cases htext
  | some iv =>
    rw [hreq] at hinterval
    obtain ⟨literal, hliteral, hrest⟩ := bind_eq_ok_iff.mp hinterval
    obtain ⟨stored, hcast, hstored⟩ := bind_eq_ok_iff.mp hrest
    cases hstored
    obtain rfl : stored = text := by simpa [registeredCoin] using htext
    exact intervalWithin_of_cast hliteral hcast

theorem checkUpdate_ok {req : UpdateCoinRequest} {literal : Option (Option String)}
    (h : checkUpdate bounds req = .ok literal) :
    (∀ status ∈ req.status, status ∈ coinStatuses) ∧
      ∀ text, literal = some (some text) → ∃ iv, pgIntervalLiteral bounds iv = .ok text := by
  obtain ⟨_, hstatus, hrest⟩ := bind_eq_ok_iff.mp h
  constructor
  · intro status hsome
    rw [Option.mem_def.mp hsome] at hstatus
    exact validateCoinStatus_eq_ok_iff.mp hstatus
  · intro text htext
    subst htext
    cases hreq : req.livePollInterval with
    | none =>
      rw [hreq] at hrest
      cases hrest
    | some asked =>
      rw [hreq] at hrest
      cases asked with
      | none => cases hrest
      | some iv =>
        obtain ⟨read, hread, hok⟩ := bind_eq_ok_iff.mp hrest
        cases hok
        exact ⟨iv, hread⟩

theorem UpdateCoinRequest.apply_status {req : UpdateCoinRequest}
    (hreq : ∀ status ∈ req.status, status ∈ coinStatuses) (hcoin : coin.status ∈ coinStatuses) :
    (req.apply coin).status ∈ coinStatuses := by
  cases hstatus : req.status with
  | none => simpa [UpdateCoinRequest.apply, hstatus] using hcoin
  | some status => simpa [UpdateCoinRequest.apply, hstatus] using hreq status hstatus

/-- An update writes the row of its coin, keeps what makes it that coin, and keeps it
valid. -/
theorem tryUpdate_ok {coins : TrackedCoinTable} {coinId : String} {req : UpdateCoinRequest}
    (h : tryUpdate bounds column coins coinId req = .ok coin') :
    ∃ coin, coins.lookup coinId = some coin ∧ coin'.coinId = coinId ∧
      coinIdentity coin' = coinIdentity coin ∧
      (ValidCoin bounds column coin → ValidCoin bounds column coin') := by
  obtain ⟨literal, hcheck, hrow⟩ := bind_eq_ok_iff.mp h
  obtain ⟨hstatus, hliteral⟩ := checkUpdate_ok hcheck
  cases hlookup : coins.lookup coinId with
  | none =>
    simp only [hlookup] at hrow
    cases hrow
  | some coin =>
    simp only [hlookup] at hrow
    have hid := KeyedTable.key_eq_of_lookup hlookup
    refine ⟨coin, rfl, ?_⟩
    unfold updatedCoin at hrow
    split at hrow
    · obtain rfl := Except.ok.inj hrow
      refine ⟨hid, rfl, fun hvalid => ⟨hvalid.coinId, ?_, hvalid.interval⟩⟩
      exact UpdateCoinRequest.apply_status hstatus hvalid.status
    · obtain rfl := Except.ok.inj hrow
      refine ⟨hid, rfl, fun hvalid => ⟨hvalid.coinId, ?_, by simp⟩⟩
      exact UpdateCoinRequest.apply_status hstatus hvalid.status
    · obtain ⟨text, hcast, hok⟩ := bind_eq_ok_iff.mp hrow
      obtain rfl := Except.ok.inj hok
      refine ⟨hid, rfl, fun hvalid => ⟨hvalid.coinId, ?_, ?_⟩⟩
      · exact UpdateCoinRequest.apply_status hstatus hvalid.status
      · intro stored hstored
        obtain rfl : text = stored := by simpa using hstored
        obtain ⟨iv, hiv⟩ := hliteral _ rfl
        exact intervalWithin_of_cast hiv hcast

/-- The collectors and the endpoints read a stored interval as the same number of
seconds. -/
theorem IntervalWithin.read {text : String} (h : IntervalWithin bounds column text)
    (hstyle : column.RendersSeconds) (hrange : column.InRange) :
    ∃ d, max bounds.minSecs bounds.globalTickSecs ≤ d ∧ d ≤ bounds.maxSecs ∧
      pgIntervalToSecs text = some (d : ℤ) ∧
      shownPollInterval (some text) = some (durationToString d) := by
  obtain ⟨d, hfloor, hmax, hread, hstored⟩ := h
  have hfits : d < 2 ^ 63 := by
    have hmicros := hrange d text hstored
    omega
  have hnormal : normalizePgInterval text = some (durationToString d) := by
    rw [hstyle d text hstored, normalizePgInterval_pgHms hread]
  refine ⟨d, hfloor, hmax, ?_, hnormal⟩
  rw [pgIntervalToSecs, hnormal]
  exact hmsAsI64_durationToString hfits

end Rows
end CryptoCollector.Api
