import CryptoCollector.Api.Coins
import CryptoCollector.Collectors.RollupRefresh

/-!
# The coin registry

The coins and the queue of their items as they are committed, and what each request,
each enqueue and each statement of a worker does to them at one instant. A tracked coin
has its items, an item has its coin, and what was once shown of a coin stays true of it.
-/

namespace CryptoCollector.Api
open Models Foundations Collectors

inductive CoinRequest where
  | register (req : RegisterCoinRequest)
  | update (coinId : String) (req : UpdateCoinRequest)
  | get (coinId : String)
  | delete (coinId : String)
  deriving DecidableEq, Repr

/-- The coins, the queue, and the answers given, newest first. -/
structure Registry (W : Type*) where
  coins : TrackedCoinTable
  queue : World W QueueColumns
  answers : List (CoinRequest × CoinResponse)

def Registry.empty {W : Type*} : Registry W := ⟨.empty, .empty, []⟩

def coinItem (coinId kind : String) : QueueColumns := ⟨"coin", coinId, kind⟩

/-- The kinds `register_coin` enqueues. -/
def initialKinds : List String := ["metadata", "market", "candles"]

def refreshKinds : List String := ["market", "metadata", "candles", "rollup"]

/-- The kind of the one item that is there for a configured coin, tracked or not. -/
def overlayKind : String := "cycle_overlay"

/-- What becomes of an answer: it is sent, or its client has gone, or the database connection
breaks before the result of the statement is there. -/
inductive Reply where
  | sent
  | unsent
  | broken
  deriving DecidableEq, Repr

/-- A request that comes to no statement breaks no connection. -/
def Reply.unbroken : Reply → Reply
  | .broken => .sent
  | reply => reply

/-- A change of the committed tables, or a request whose statement or connection failed. -/
inductive RegistryAction (W : Type*) where
  | register (req : RegisterCoinRequest) (now : ℤ) (ids : List ℤ) (reply : Reply)
  | update (coinId : String) (req : UpdateCoinRequest) (reply : Reply)
  | get (coinId : String) (reply : Reply)
  | pause (coinId : String) (reply : Reply)
  | unpaused (coinId : String) (reply : Reply)
  | fail (request : CoinRequest) (reply : Reply)
  | collect (coinId : String) (now : ℤ)
  | enqueue (columns : QueueColumns) (id now : ℤ)
  | lease (a : LeaseAction W QueueColumns)
  deriving DecidableEq, Repr

section Steps

variable {W : Type*}

def Registry.tracks (s : Registry W) (coinId : String) : Prop := (s.coins.lookup coinId).isSome

instance (s : Registry W) (coinId : String) : Decidable (s.tracks coinId) :=
  inferInstanceAs (Decidable (_ = true))

/-- The items there is something to do for. -/
def Registry.admits (s : Registry W) (columns : QueueColumns) : Prop :=
  columns.kind = overlayKind ∨ columns.targetKind = "coin" ∧ s.tracks columns.targetId

instance (s : Registry W) (columns : QueueColumns) : Decidable (s.admits columns) :=
  inferInstanceAs (Decidable (_ ∨ _ ∧ _))

/-- The answer as it is logged: a broken connection is answered 500. -/
def Registry.answer (s : Registry W) (reply : Reply) (request : CoinRequest)
    (response : CoinResponse) : Registry W :=
  match reply with
  | .sent => { s with answers := (request, response) :: s.answers }
  | .unsent => s
  | .broken => { s with answers := (request, .failed .internal) :: s.answers }

@[simp] theorem answer_coins {s : Registry W} {reply : Reply} {request : CoinRequest}
    {response : CoinResponse} : (s.answer reply request response).coins = s.coins := by
  cases reply <;> rfl

@[simp] theorem answer_queue {s : Registry W} {reply : Reply} {request : CoinRequest}
    {response : CoinResponse} : (s.answer reply request response).queue = s.queue := by
  cases reply <;> rfl

variable [DecidableEq W]

/-- The enqueues of a registration, one item for each kind and id. -/
def enqueueItems (coinId : String) (now : ℤ) :
    List (String × ℤ) → World W QueueColumns → Option (World W QueueColumns)
  | [], queue => some queue
  | (kind, id) :: items, queue =>
    (enqueueQueue queue (coinItem coinId kind) id now).bind (enqueueItems coinId now items)

variable (bounds : PollBounds) (column : IntervalColumn)

/-- The request passes its checks, and with them the cast of an `INSERT`. -/
def CoinRequest.admitted : CoinRequest → Bool
  | .register req => (admitCoin bounds column req).isOk
  | .update _ req => (checkUpdate bounds req).isOk
  | .get _ | .delete _ => true

/-- The new coin, the queue with its items, and the answer. -/
def Registry.insertedBy (s : Registry W) (req : RegisterCoinRequest) (coin : TrackedCoin)
    (queue : World W QueueColumns) (reply : Reply) : Registry W :=
  Registry.answer { s with coins := insertCoin s.coins coin, queue := queue } reply
    (.register req) (.created (CoinDto.ofTrackedCoin coin))

/-- A registration that passed its checks. -/
def registerAdmitted (s : Registry W) (req : RegisterCoinRequest) (interval : Option String)
    (now : ℤ) (ids : List ℤ) (reply : Reply) : Option (Registry W) :=
  match s.coins.lookup req.coinId with
  | some coin => some (s.answer reply (.register req) (.ok (CoinDto.ofTrackedCoin coin)))
  | none =>
    if ids.length = initialKinds.length then
      (enqueueItems req.coinId now (initialKinds.zip ids) s.queue).map fun queue =>
        s.insertedBy req (registeredCoin req interval now) queue reply
    else
      none

/-- One change; `none` when the action is not enabled. -/
def registryStep (s : Registry W) : RegistryAction W → Option (Registry W)
  | .register req now ids reply =>
    match admitCoin bounds column req with
    | .error e => some (s.answer reply.unbroken (.register req) (.failed e))
    | .ok interval => registerAdmitted s req interval now ids reply
  | .update coinId req reply =>
    let outcome := updateCoin bounds column s.coins coinId req
    let reply := if (checkUpdate bounds req).isOk then reply else reply.unbroken
    some (Registry.answer { s with coins := outcome.2 } reply (.update coinId req) outcome.1)
  | .get coinId reply => some (s.answer reply (.get coinId) (getCoin s.coins coinId))
  | .pause coinId reply =>
    (pauseCoin s.coins coinId).map fun coins =>
      Registry.answer { s with coins := coins } reply (.delete coinId) .noContent
  | .unpaused coinId reply =>
    some (s.answer reply (.delete coinId) (answerUnpaused s.coins coinId))
  | .fail request reply =>
    if request.admitted bounds column then some (s.answer reply request (.failed .internal))
    else none
  | .collect coinId now => some { s with coins := collectCoin s.coins coinId now }
  | .enqueue columns id now =>
    if s.admits columns then
      (enqueueQueue s.queue columns id now).map fun queue => { s with queue := queue }
    else
      none
  | .lease (.insert _ _ _) => none
  | .lease a => (leaseStep (queueLease W) s.queue a).map fun queue => { s with queue := queue }

variable {bounds column} {s t : Registry W}

theorem registryStep_lease {a : LeaseAction W QueueColumns}
    (h : registryStep bounds column s (.lease a) = some t) :
    (∀ id now payload, a ≠ .insert id now payload) ∧ ∃ queue,
      leaseStep (queueLease W) s.queue a = some queue ∧ t = { s with queue := queue } := by
  cases a with
  | insert id now payload => cases h
  | claim self id now leaseSecs locked | write self op | abandon self =>
    obtain ⟨queue, hqueue, rfl⟩ := Option.map_eq_some_iff.mp h
    exact ⟨by simp, queue, hqueue, rfl⟩

end Steps

section Coins

/-- Rows that were rewritten at most: the same coins, each still the same and valid if
it was. -/
structure CoinsKept (bounds : PollBounds) (column : IntervalColumn)
    (coins coins' : TrackedCoinTable) : Prop where
  forth : ∀ coinId coin, coins.lookup coinId = some coin → (coins'.lookup coinId).isSome
  back : ∀ coinId coin', coins'.lookup coinId = some coin' →
    ∃ coin, coins.lookup coinId = some coin ∧ coinIdentity coin' = coinIdentity coin ∧
      (ValidCoin bounds column coin → ValidCoin bounds column coin')

variable {bounds : PollBounds} {column : IntervalColumn} {coins coins' : TrackedCoinTable}

theorem CoinsKept.refl (coins : TrackedCoinTable) : CoinsKept bounds column coins coins where
  forth _ coin h := Option.isSome_iff_exists.mpr ⟨coin, h⟩
  back _ coin h := ⟨coin, h, rfl, id⟩

theorem CoinsKept.isSome_iff (h : CoinsKept bounds column coins coins') (coinId : String) :
    (coins'.lookup coinId).isSome ↔ (coins.lookup coinId).isSome := by
  constructor
  · intro hsome
    obtain ⟨coin', hcoin'⟩ := Option.isSome_iff_exists.mp hsome
    obtain ⟨coin, hcoin, -⟩ := h.back coinId coin' hcoin'
    exact Option.isSome_iff_exists.mpr ⟨coin, hcoin⟩
  · intro hsome
    obtain ⟨coin, hcoin⟩ := Option.isSome_iff_exists.mp hsome
    exact h.forth coinId coin hcoin

theorem CoinsKept.set {coin coin' : TrackedCoin}
    (hcoin : coins.lookup coin'.coinId = some coin)
    (hidentity : coinIdentity coin' = coinIdentity coin)
    (hvalid : ValidCoin bounds column coin → ValidCoin bounds column coin') :
    CoinsKept bounds column coins (setCoin coins coin') where
  forth := by
    intro coinId other hother
    rw [lookup_setCoin hcoin]
    split_ifs with hid
    · rfl
    · exact Option.isSome_iff_exists.mpr ⟨other, hother⟩
  back := by
    intro coinId other hother
    rw [lookup_setCoin hcoin] at hother
    split_ifs at hother with hid
    · subst hid
      obtain rfl := Option.some.inj hother
      exact ⟨coin, hcoin, hidentity, hvalid⟩
    · exact ⟨other, hother, rfl, id⟩

theorem CoinsKept.update (coins : TrackedCoinTable) (coinId : String) (req : UpdateCoinRequest) :
    CoinsKept bounds column coins (updateCoin bounds column coins coinId req).2 := by
  unfold updateCoin
  cases htry : tryUpdate bounds column coins coinId req with
  | error e => exact CoinsKept.refl coins
  | ok coin' =>
    obtain ⟨coin, hcoin, rfl, hidentity, hvalid⟩ := tryUpdate_ok htry
    exact CoinsKept.set hcoin hidentity hvalid

theorem CoinsKept.pause {coinId : String} (h : pauseCoin coins coinId = some coins') :
    CoinsKept bounds column coins coins' := by
  obtain ⟨coin, hcoin, hpaused⟩ := Option.bind_eq_some_iff.mp h
  split_ifs at hpaused
  obtain rfl := Option.some.inj hpaused
  obtain rfl : coin.coinId = coinId := KeyedTable.key_eq_of_lookup hcoin
  have hstatus : "paused" ∈ coinStatuses := by decide
  exact CoinsKept.set hcoin rfl fun hvalid : ValidCoin bounds column coin =>
    ⟨hvalid.coinId, hstatus, hvalid.interval⟩

theorem CoinsKept.collect (coins : TrackedCoinTable) (coinId : String) (now : ℤ) :
    CoinsKept bounds column coins (collectCoin coins coinId now) := by
  unfold collectCoin
  cases hcoin : coins.lookup coinId with
  | none => exact CoinsKept.refl coins
  | some coin =>
    obtain rfl : coin.coinId = coinId := KeyedTable.key_eq_of_lookup hcoin
    exact CoinsKept.set hcoin rfl fun hvalid : ValidCoin bounds column coin =>
      ⟨hvalid.coinId, hvalid.status, hvalid.interval⟩

end Coins

section Queue

variable {W : Type*} [DecidableEq W] {s t : World W QueueColumns}

theorem itemsKept_lease {a : LeaseAction W QueueColumns}
    (h : leaseStep (queueLease W) s a = some t) :
    ∀ row ∈ s.table, ∃ row' ∈ t.table, row'.payload = row.payload := by
  intro row hrow
  rcases leaseStep_cases h with ⟨id, now, payload, -, -, rfl⟩ |
    ⟨self, id, now, leaseSecs, locked, claimed, -, -, -, -, -, rfl⟩ |
    ⟨self, op, c, f, -, -, hf, rfl⟩ | ⟨self, -, rfl⟩
  · exact ⟨row, List.mem_cons_of_mem _ hrow, rfl⟩
  · by_cases hid : row.id = id
    · exact ⟨claimRow self now leaseSecs row, mem_claimStep.mpr (Or.inl ⟨row, hrow, hid, rfl⟩), rfl⟩
    · exact ⟨row, mem_claimStep.mpr (Or.inr ⟨hrow, hid⟩), rfl⟩
  · by_cases howned : ownedBy self c.id row
    · exact ⟨f row, mem_writeStep.mpr (Or.inl ⟨row, hrow, howned, rfl⟩),
        queue_effect_payload hf row⟩
    · exact ⟨row, mem_writeStep.mpr (Or.inr ⟨hrow, howned⟩), rfl⟩
  · exact ⟨row, hrow, rfl⟩

theorem rowsFrom_lease {a : LeaseAction W QueueColumns} (hlease : LeaseInvariant s)
    (hinsert : ∀ id now payload, a ≠ .insert id now payload)
    (h : leaseStep (queueLease W) s a = some t) : RowsFrom s t := by
  cases a with
  | insert id now payload => exact absurd rfl (hinsert id now payload)
  | claim self id now leaseSecs locked => exact rowsFrom_claim hlease h
  | write self op => exact rowsFrom_write hlease h
  | abandon self =>
    intro row' hrow'
    rw [(ownersFrom_abandon h).1] at hrow'
    exact ⟨row', hrow', rfl, rfl, id⟩

/-- What enqueues leave of the queue and its rules. -/
structure ItemsAdded (s t : World W QueueColumns) (fresh : QueueColumns → Prop) : Prop where
  lease : LeaseInvariant s → LeaseInvariant t
  dedup : Deduplicated s → Deduplicated t
  forth : ∀ row ∈ s.table, row ∈ t.table
  back : ∀ row ∈ t.table, row ∈ s.table ∨ fresh row.payload

theorem ItemsAdded.enqueue {columns : QueueColumns} {id now : ℤ} {fresh : QueueColumns → Prop}
    (hfresh : fresh columns) (h : enqueueQueue s columns id now = some t) :
    ItemsAdded s t fresh where
  lease hlease := by
    rcases enqueueQueue_cases h with ⟨rfl, -⟩ | ⟨-, hids, rfl⟩
    · exact hlease
    · exact hlease.insert now columns hids
  dedup hdedup := hdedup.enqueue h
  forth := mem_enqueueQueue h
  back := by
    intro row hrow
    rcases enqueueQueue_cases h with ⟨rfl, -⟩ | ⟨-, -, rfl⟩
    · exact Or.inl hrow
    · rcases List.mem_cons.mp hrow with rfl | hold
      · exact Or.inr hfresh
      · exact Or.inl hold

omit [DecidableEq W] in
theorem ItemsAdded.trans {r : World W QueueColumns} {fresh : QueueColumns → Prop}
    (h : ItemsAdded s t fresh) (h' : ItemsAdded t r fresh) : ItemsAdded s r fresh where
  lease hlease := h'.lease (h.lease hlease)
  dedup hdedup := h'.dedup (h.dedup hdedup)
  forth row hrow := h'.forth row (h.forth row hrow)
  back row hrow := by
    rcases h'.back row hrow with hmid | hfresh
    · exact h.back row hmid
    · exact Or.inr hfresh

theorem exists_item_of_enqueue {columns : QueueColumns} {id now : ℤ}
    (h : enqueueQueue s columns id now = some t) : ∃ row ∈ t.table, row.payload = columns := by
  rcases enqueueQueue_cases h with ⟨rfl, row, hrow, -, hpayload⟩ | ⟨-, -, rfl⟩
  · exact ⟨row, hrow, hpayload⟩
  · exact ⟨_, List.mem_cons_self, rfl⟩

theorem enqueueItems_spec {coinId : String} {now : ℤ} {items : List (String × ℤ)}
    (h : enqueueItems coinId now items s = some t) :
    ItemsAdded s t (fun columns => columns.targetKind = "coin" ∧ columns.targetId = coinId) ∧
      ∀ item ∈ items, ∃ row ∈ t.table, row.payload = coinItem coinId item.1 := by
  induction items generalizing s with
  | nil =>
    obtain rfl := Option.some.inj h
    exact ⟨⟨id, id, fun _ hrow => hrow, fun _ hrow => Or.inl hrow⟩, by simp⟩
  | cons item items ih =>
    obtain ⟨kind, id⟩ := item
    obtain ⟨queue, hqueue, hrest⟩ := Option.bind_eq_some_iff.mp h
    obtain ⟨hadded, hitems⟩ := ih hrest
    refine ⟨(ItemsAdded.enqueue ⟨rfl, rfl⟩ hqueue).trans hadded, ?_⟩
    intro other hother
    rcases List.mem_cons.mp hother with rfl | hother
    · obtain ⟨row, hrow, hpayload⟩ := exists_item_of_enqueue hqueue
      exact ⟨row, hadded.forth row hrow, hpayload⟩
    · exact hitems other hother

end Queue

def CoinResponse.shown : CoinResponse → Option TrackedCoin
  | .created coin | .ok coin => some coin
  | .noContent | .failed _ => none

def CoinRequest.coinId : CoinRequest → String
  | .register req => req.coinId
  | .update coinId _ | .get coinId | .delete coinId => coinId

def createdFor (coinId : String) (answer : CoinRequest × CoinResponse) : Bool :=
  match answer.2 with
  | .created coin => coin.coinId = coinId
  | .ok _ | .noContent | .failed _ => false

/-- The answer `created` shows what its request asked for. -/
def AsRequested (answer : CoinRequest × CoinResponse) : Prop :=
  (∀ coin ∈ answer.2.shown, coin.coinId = answer.1.coinId) ∧
    ∀ coin, answer.2 = .created coin →
      ∃ req, answer.1 = .register req ∧ coin.symbol = req.symbol ∧ coin.name = req.name

theorem updateCoin_shown {bounds : PollBounds} {column : IntervalColumn}
    {coins : TrackedCoinTable} {coinId : String} {req : UpdateCoinRequest} {shown : TrackedCoin}
    (h : shown ∈ (updateCoin bounds column coins coinId req).1.shown) :
    shown.coinId = coinId ∧ ∃ stored,
      (updateCoin bounds column coins coinId req).2.lookup shown.coinId = some stored ∧
        coinIdentity shown = coinIdentity stored := by
  unfold updateCoin at h ⊢
  cases htry : tryUpdate bounds column coins coinId req with
  | error e =>
    rw [htry] at h
    cases h
  | ok coin =>
    rw [htry] at h
    obtain ⟨old, hold, hid, -⟩ := tryUpdate_ok htry
    obtain rfl := Option.some.inj h
    refine ⟨hid, coin, ?_, rfl⟩
    rw [← hid] at hold
    exact (lookup_setCoin hold coin.coinId).trans (if_pos rfl)

/-- What the registry keeps to: coins the checks let through, their items and no others, and
answers that are still true of the coins they show. -/
structure RegistryInvariant {W : Type*} (bounds : PollBounds) (column : IntervalColumn)
    (s : Registry W) : Prop where
  lease : LeaseInvariant s.queue
  dedup : Deduplicated s.queue
  valid : ∀ coinId coin, s.coins.lookup coinId = some coin → ValidCoin bounds column coin
  items : ∀ coinId, s.tracks coinId → ∀ kind ∈ initialKinds,
    ∃ row ∈ s.queue.table, row.payload = coinItem coinId kind
  admitted : ∀ row ∈ s.queue.table, s.admits row.payload
  shown : ∀ answer ∈ s.answers, ∀ coin ∈ answer.2.shown,
    ∃ stored, s.coins.lookup coin.coinId = some stored ∧ coinIdentity coin = coinIdentity stored
  requested : ∀ answer ∈ s.answers, AsRequested answer
  created : ∀ coinId, s.answers.countP (createdFor coinId) ≤ 1
  refused : ∀ req e, (.register req, .failed e) ∈ s.answers →
    e = .internal ∨ admitCoin bounds column req = .error e

namespace RegistryInvariant

variable {W : Type*} {bounds : PollBounds} {column : IntervalColumn} {s : Registry W}

theorem empty : RegistryInvariant bounds column (Registry.empty : Registry W) where
  lease := LeaseInvariant.empty
  dedup := by simp [Deduplicated, Registry.empty, World.empty]
  valid := by simp [Registry.empty, KeyedTable.lookup, KeyedTable.empty]
  items := by simp [Registry.tracks, Registry.empty, KeyedTable.lookup, KeyedTable.empty]
  admitted := by simp [Registry.empty, World.empty]
  shown := by simp [Registry.empty]
  requested := by simp [Registry.empty]
  created := by simp [Registry.empty]
  refused := by simp [Registry.empty]

theorem countP_created_eq_zero (hinv : RegistryInvariant bounds column s) {coinId : String}
    (h : s.coins.lookup coinId = none) : s.answers.countP (createdFor coinId) = 0 := by
  rw [List.countP_eq_zero]
  intro entry hentry hcreated
  obtain ⟨request, response⟩ := entry
  cases response with
  | created coin =>
    obtain ⟨stored, hstored, -⟩ := hinv.shown _ hentry coin rfl
    obtain rfl : coin.coinId = coinId := of_decide_eq_true hcreated
    rw [h] at hstored
    cases hstored
  | ok coin => cases hcreated
  | noContent => cases hcreated
  | failed e => cases hcreated

theorem rewrite (hinv : RegistryInvariant bounds column s) {coins : TrackedCoinTable}
    (hkept : CoinsKept bounds column s.coins coins) :
    RegistryInvariant bounds column { s with coins := coins } where
  lease := hinv.lease
  dedup := hinv.dedup
  valid := by
    intro coinId coin' hcoin'
    obtain ⟨coin, hcoin, -, hvalid⟩ := hkept.back coinId coin' hcoin'
    exact hvalid (hinv.valid coinId coin hcoin)
  items := fun coinId htracks => hinv.items coinId ((hkept.isSome_iff coinId).mp htracks)
  admitted := by
    intro row hrow
    refine (hinv.admitted row hrow).imp_right fun ⟨hcoin, htracks⟩ => ⟨hcoin, ?_⟩
    exact (hkept.isSome_iff _).mpr htracks
  shown := by
    intro answer hanswer coin hcoin
    obtain ⟨stored, hstored, hidentity⟩ := hinv.shown answer hanswer coin hcoin
    obtain ⟨stored', hstored'⟩ := Option.isSome_iff_exists.mp (hkept.forth _ stored hstored)
    obtain ⟨stored₁, hstored₁, hsame, -⟩ := hkept.back _ stored' hstored'
    obtain rfl := Option.some.inj (hstored.symm.trans hstored₁)
    exact ⟨stored', hstored', hidentity.trans hsame.symm⟩
  requested := hinv.requested
  created := hinv.created
  refused := hinv.refused

theorem requeue (hinv : RegistryInvariant bounds column s) {queue : World W QueueColumns}
    (hlease : LeaseInvariant queue) (hdedup : Deduplicated queue)
    (hforth : ∀ row ∈ s.queue.table, ∃ row' ∈ queue.table, row'.payload = row.payload)
    (hback : ∀ row ∈ queue.table, s.admits row.payload) :
    RegistryInvariant bounds column { s with queue := queue } where
  lease := hlease
  dedup := hdedup
  valid := hinv.valid
  items := by
    intro coinId htracks kind hkind
    obtain ⟨row, hrow, hpayload⟩ := hinv.items coinId htracks kind hkind
    obtain ⟨row', hrow', hsame⟩ := hforth row hrow
    exact ⟨row', hrow', hsame.trans hpayload⟩
  admitted := hback
  shown := hinv.shown
  requested := hinv.requested
  created := hinv.created
  refused := hinv.refused

theorem log (hinv : RegistryInvariant bounds column s) {request : CoinRequest}
    {response : CoinResponse} (hnew : ∀ coin, response ≠ .created coin)
    (hrefused : ∀ req e, request = .register req → response = .failed e →
      e = .internal ∨ admitCoin bounds column req = .error e)
    (hshown : ∀ coin ∈ response.shown, coin.coinId = request.coinId ∧
      ∃ stored, s.coins.lookup coin.coinId = some stored ∧
        coinIdentity coin = coinIdentity stored) :
    RegistryInvariant bounds column { s with answers := (request, response) :: s.answers } := by
  refine ⟨hinv.lease, hinv.dedup, hinv.valid, hinv.items, hinv.admitted, ?_, ?_, ?_, ?_⟩
  · intro entry hentry
    rcases List.mem_cons.mp hentry with rfl | hold
    · exact fun coin hcoin => (hshown coin hcoin).2
    · exact hinv.shown entry hold
  · intro entry hentry
    rcases List.mem_cons.mp hentry with rfl | hold
    · exact ⟨fun coin hcoin => (hshown coin hcoin).1, fun coin hcoin => absurd hcoin (hnew coin)⟩
    · exact hinv.requested entry hold
  · intro coinId
    rw [List.countP_cons_of_neg]
    · exact hinv.created coinId
    · cases response with
      | created coin => exact absurd rfl (hnew coin)
      | ok coin => exact Bool.false_ne_true
      | noContent => exact Bool.false_ne_true
      | failed e => exact Bool.false_ne_true
  · intro req e hentry
    rcases List.mem_cons.mp hentry with hnow | hold
    · obtain ⟨hrequest, hresponse⟩ := Prod.mk.inj hnow
      exact hrefused req e hrequest.symm hresponse.symm
    · exact hinv.refused req e hold

theorem logInternal (hinv : RegistryInvariant bounds column s) (request : CoinRequest) :
    RegistryInvariant bounds column
      { s with answers := (request, .failed .internal) :: s.answers } := by
  refine hinv.log (by simp) ?_ (by simp [CoinResponse.shown])
  intro req e _ hresponse
  exact Or.inl (CoinResponse.failed.inj hresponse).symm

theorem answer (hinv : RegistryInvariant bounds column s) {reply : Reply}
    {request : CoinRequest} {response : CoinResponse}
    (hnew : ∀ coin, response ≠ .created coin)
    (hrefused : ∀ req e, request = .register req → response = .failed e →
      e = .internal ∨ admitCoin bounds column req = .error e)
    (hshown : ∀ coin ∈ response.shown, coin.coinId = request.coinId ∧
      ∃ stored, s.coins.lookup coin.coinId = some stored ∧
        coinIdentity coin = coinIdentity stored) :
    RegistryInvariant bounds column (s.answer reply request response) := by
  cases reply with
  | sent => exact hinv.log hnew hrefused hshown
  | unsent => exact hinv
  | broken => exact hinv.logInternal request

theorem answer_created (hinv : RegistryInvariant bounds column s) (reply : Reply)
    {req : RegisterCoinRequest} {coin stored : TrackedCoin} (hid : coin.coinId = req.coinId)
    (hrequest : coin.symbol = req.symbol ∧ coin.name = req.name)
    (hstored : s.coins.lookup coin.coinId = some stored)
    (hidentity : coinIdentity coin = coinIdentity stored)
    (hfirst : s.answers.countP (createdFor coin.coinId) = 0) :
    RegistryInvariant bounds column (s.answer reply (.register req) (.created coin)) := by
  cases reply with
  | unsent => exact hinv
  | broken => exact hinv.logInternal (.register req)
  | sent =>
    refine ⟨hinv.lease, hinv.dedup, hinv.valid, hinv.items, hinv.admitted, ?_, ?_, ?_, ?_⟩
    · intro entry hentry shown hshown
      rcases List.mem_cons.mp hentry with rfl | hold
      · obtain rfl := Option.some.inj hshown
        exact ⟨stored, hstored, hidentity⟩
      · exact hinv.shown entry hold shown hshown
    · intro entry hentry
      rcases List.mem_cons.mp hentry with rfl | hold
      · constructor
        · intro shown hshown
          obtain rfl := Option.some.inj hshown
          exact hid
        · intro created hcreated
          obtain rfl := CoinResponse.created.inj hcreated
          exact ⟨req, rfl, hrequest⟩
      · exact hinv.requested entry hold
    · intro coinId
      by_cases hsame : coin.coinId = coinId
      · subst hsame
        have hcreated : createdFor coin.coinId (.register req, .created coin) = true :=
          decide_eq_true rfl
        rw [Registry.answer, List.countP_cons_of_pos hcreated, hfirst]
      · rw [Registry.answer, List.countP_cons_of_neg (by simpa [createdFor] using hsame)]
        exact hinv.created coinId
    · intro other e hentry
      rcases List.mem_cons.mp hentry with hnow | hold
      · cases (Prod.mk.inj hnow).2
      · exact hinv.refused other e hold

theorem insert (hinv : RegistryInvariant bounds column s) {coin : TrackedCoin}
    {queue : World W QueueColumns} (hnone : s.coins.lookup coin.coinId = none)
    (hvalid : ValidCoin bounds column coin)
    (hadded : ItemsAdded s.queue queue fun columns =>
      columns.targetKind = "coin" ∧ columns.targetId = coin.coinId)
    (hitems : ∀ kind ∈ initialKinds, ∃ row ∈ queue.table, row.payload = coinItem coin.coinId kind) :
    RegistryInvariant bounds column
      { s with coins := insertCoin s.coins coin, queue := queue } := by
  have hlookup := lookup_insertCoin hnone
  have hold : ∀ coinId, s.tracks coinId → ((insertCoin s.coins coin).lookup coinId).isSome := by
    intro coinId htracks
    rw [hlookup]
    split_ifs
    · rfl
    · exact htracks
  refine ⟨hadded.lease hinv.lease, hadded.dedup hinv.dedup, ?_, ?_, ?_, ?_, hinv.requested,
    hinv.created, hinv.refused⟩
  · intro coinId other hother
    rw [hlookup] at hother
    split_ifs at hother
    · obtain rfl := Option.some.inj hother
      exact hvalid
    · exact hinv.valid coinId other hother
  · intro coinId htracks kind hkind
    by_cases hid : coinId = coin.coinId
    · subst hid
      exact hitems kind hkind
    · simp only [Registry.tracks, hlookup, if_neg hid] at htracks
      obtain ⟨row, hrow, hpayload⟩ := hinv.items coinId htracks kind hkind
      exact ⟨row, hadded.forth row hrow, hpayload⟩
  · intro row hrow
    rcases hadded.back row hrow with hbefore | ⟨hkind, hid⟩
    · exact (hinv.admitted row hbefore).imp_right fun h => ⟨h.1, hold _ h.2⟩
    · refine Or.inr ⟨hkind, ?_⟩
      simp [Registry.tracks, hlookup, hid]
  · intro entry hentry shown hshown
    obtain ⟨stored, hstored, hidentity⟩ := hinv.shown entry hentry shown hshown
    refine ⟨stored, ?_, hidentity⟩
    rw [hlookup, if_neg, hstored]
    intro hid
    rw [hid, hnone] at hstored
    cases hstored

variable [DecidableEq W]

theorem register (hinv : RegistryInvariant bounds column s) {req : RegisterCoinRequest}
    {interval : Option String} {now : ℤ} {ids : List ℤ} {reply : Reply} {t : Registry W}
    (hadmitted : admitCoin bounds column req = .ok interval)
    (h : registerAdmitted s req interval now ids reply = some t) :
    RegistryInvariant bounds column t := by
  unfold registerAdmitted at h
  cases hlookup : s.coins.lookup req.coinId with
  | some coin =>
    simp only [hlookup] at h
    obtain rfl := Option.some.inj h
    have hid : coin.coinId = req.coinId := KeyedTable.key_eq_of_lookup hlookup
    refine hinv.answer (by simp) (by simp) ?_
    intro shown hshown
    obtain rfl := Option.some.inj hshown
    exact ⟨hid, coin, hid ▸ hlookup, rfl⟩
  | none =>
    simp only [hlookup] at h
    split_ifs at h with hids
    obtain ⟨queue, hqueue, rfl⟩ := Option.map_eq_some_iff.mp h
    obtain ⟨hadded, hitems⟩ := enqueueItems_spec hqueue
    have hkinds : ∀ kind ∈ initialKinds,
        ∃ row ∈ queue.table, row.payload = coinItem req.coinId kind := by
      intro kind hkind
      have hzip : kind ∈ (initialKinds.zip ids).map Prod.fst := by
        rw [List.map_fst_zip hids.ge]
        exact hkind
      obtain ⟨item, hitem, rfl⟩ := List.mem_map.mp hzip
      exact hitems item hitem
    have hnone : s.coins.lookup (registeredCoin req interval now).coinId = none := hlookup
    have hstep := hinv.insert hnone (valid_of_admitted hadmitted now) hadded hkinds
    have hstored : (insertCoin s.coins (registeredCoin req interval now)).lookup req.coinId =
        some (registeredCoin req interval now) :=
      (lookup_insertCoin hnone req.coinId).trans (if_pos rfl)
    exact hstep.answer_created reply rfl ⟨rfl, rfl⟩ hstored rfl
      (hinv.countP_created_eq_zero hlookup)

theorem step {a : RegistryAction W} {t : Registry W} (hinv : RegistryInvariant bounds column s)
    (h : registryStep bounds column s a = some t) : RegistryInvariant bounds column t := by
  cases a with
  | register req now ids reply =>
    simp only [registryStep] at h
    cases hadmitted : admitCoin bounds column req with
    | error e =>
      simp only [hadmitted] at h
      obtain rfl := Option.some.inj h
      refine hinv.answer (by simp) ?_ (by simp [CoinResponse.shown])
      intro other e' hrequest hresponse
      obtain rfl := CoinRequest.register.inj hrequest
      obtain rfl := CoinResponse.failed.inj hresponse
      exact Or.inr hadmitted
    | ok interval =>
      simp only [hadmitted] at h
      exact hinv.register hadmitted h
  | update coinId req reply =>
    obtain rfl := Option.some.inj h
    refine (hinv.rewrite (CoinsKept.update s.coins coinId req)).answer ?_ (by simp) ?_
    · unfold updateCoin
      cases tryUpdate bounds column s.coins coinId req <;> simp
    · intro shown hshown
      exact updateCoin_shown hshown
  | get coinId reply =>
    obtain rfl := Option.some.inj h
    unfold getCoin
    cases hlookup : s.coins.lookup coinId with
    | none => exact hinv.answer (by simp) (by simp) (by simp [CoinResponse.shown])
    | some coin =>
      have hid : coin.coinId = coinId := KeyedTable.key_eq_of_lookup hlookup
      refine hinv.answer (by simp) (by simp) ?_
      intro shown hshown
      obtain rfl := Option.some.inj hshown
      exact ⟨hid, coin, hid ▸ hlookup, rfl⟩
  | pause coinId reply =>
    obtain ⟨coins, hcoins, rfl⟩ := Option.map_eq_some_iff.mp h
    exact (hinv.rewrite (CoinsKept.pause hcoins)).answer (by simp) (by simp)
      (by simp [CoinResponse.shown])
  | unpaused coinId reply =>
    obtain rfl := Option.some.inj h
    unfold answerUnpaused
    split_ifs
    · exact hinv.answer (by simp) (by simp) (by simp [CoinResponse.shown])
    · exact hinv.answer (by simp) (by simp) (by simp [CoinResponse.shown])
  | fail request reply =>
    simp only [registryStep] at h
    split_ifs at h
    obtain rfl := Option.some.inj h
    cases reply with
    | sent | broken => exact hinv.logInternal request
    | unsent => exact hinv
  | collect coinId now =>
    obtain rfl := Option.some.inj h
    exact hinv.rewrite (CoinsKept.collect s.coins coinId now)
  | enqueue columns id now =>
    simp only [registryStep] at h
    split_ifs at h with hadmits
    obtain ⟨queue, hqueue, rfl⟩ := Option.map_eq_some_iff.mp h
    have hadded : ItemsAdded s.queue queue s.admits := ItemsAdded.enqueue hadmits hqueue
    refine hinv.requeue (hadded.lease hinv.lease) (hadded.dedup hinv.dedup)
      (fun row hrow => ⟨row, hadded.forth row hrow, rfl⟩) ?_
    intro row hrow
    rcases hadded.back row hrow with hold | hfresh
    · exact hinv.admitted row hold
    · exact hfresh
  | lease a =>
    obtain ⟨hinsert, queue, hqueue, rfl⟩ := registryStep_lease h
    have hfrom := rowsFrom_lease hinv.lease hinsert hqueue
    refine hinv.requeue (hinv.lease.preserved hqueue) (hinv.dedup.of_rowsFrom hfrom)
      (itemsKept_lease hqueue) ?_
    intro row' hrow'
    obtain ⟨row, hrow, -, hpayload, -⟩ := hfrom row' hrow'
    rw [← hpayload]
    exact hinv.admitted row hrow

end RegistryInvariant
end CryptoCollector.Api
