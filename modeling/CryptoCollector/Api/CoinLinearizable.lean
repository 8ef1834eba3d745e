import CryptoCollector.Api.CoinSessions

/-!
# Registrations are atomic

A statement stands for one step of the registry or none: a registration for its commit, every
other request for the statement that answers it, and a request whose connection breaks for
that. Every run of the statements is the run of what they stand for.
-/

namespace CryptoCollector.Api
open Models Foundations Collectors RegistrySystem

def RegistryAction.request {W : Type*} : RegistryAction W → Option CoinRequest
  | .register req _ _ _ => some (.register req)
  | .update coinId req _ => some (.update coinId req)
  | .get coinId _ => some (.get coinId)
  | .pause coinId _ | .unpaused coinId _ => some (.delete coinId)
  | .fail request _ => some request
  | .collect _ _ | .enqueue _ _ _ | .lease _ => none

def StatementAction.request {C W : Type*} : StatementAction C W → Option CoinRequest
  | .begin _ request _ _ | .fail request _ => some request
  | .next _ _ _ | .lose _ _ | .refresh _ _ | .skip _ | .rollup _ _ | .collect _ _ | .lease _ => none

namespace RegistrySystem

section Linearization

variable {C W : Type*} [DecidableEq C] [DecidableEq W] (bounds : PollBounds)
  (column : IntervalColumn)

/-- The requests that wait for their answers. -/
def requests (s : RegistrySystem C W) : List CoinRequest :=
  s.sessions.rows.filterMap fun session => session.2.request

/-- The step that the first statement of a request stands for, unless the request goes on. -/
def linearizedBegin (s : RegistrySystem C W) (now : ℤ) (reply : Reply) :
    CoinRequest → Option (RegistryAction W)
  | .register req =>
    match admitCoin bounds column req with
    | .error _ => some (.register req now [] reply)
    | .ok _ => none
  | .update coinId req => some (.update coinId req reply)
  | .get coinId => some (.get coinId reply)
  | .delete coinId =>
    if (pauseCoin s.committed.coins coinId).isSome then some (.pause coinId reply) else none

/-- The step that the next statement of a connection stands for. -/
def linearizedNext (s : RegistrySystem C W) (now : ℤ) (reply : Reply) :
    SessionPhase → Option (RegistryAction W)
  | .registering req coin [] queued =>
    some (.register req coin.registeredAt (queued.map Prod.snd) reply)
  | .registering _ _ (_ :: _) _ => none
  | .reselecting req => some (.register req now [] reply)
  | .unpaused coinId => some (.unpaused coinId reply)
  | .refreshing [] => none
  | .refreshing (item :: _) => some (.enqueue item s.nextId now)

/-- The step of the registry that a statement stands for. -/
def linearized (s : RegistrySystem C W) : StatementAction C W → Option (RegistryAction W)
  | .begin _ request now reply => s.linearizedBegin bounds column now reply request
  | .next c now reply => (s.phase c).bind (s.linearizedNext now reply)
  | .fail request reply => some (.fail request reply)
  | .lose c reply => ((s.phase c).bind SessionPhase.request).map fun request => .fail request reply
  | .refresh _ _ | .skip _ => none
  | .rollup self now => (s.rollupItem self).map fun item => .enqueue item s.nextId now
  | .collect coinId now => some (.collect coinId now)
  | .lease a => some (.lease a)

/-- The steps of the registry that a run stands for, in its order. -/
def linearize (s : RegistrySystem C W) (as : List (StatementAction C W)) :
    List (RegistryAction W) :=
  translate (RegistrySystem.step bounds column) (linearized bounds column) s as

/-- The statement changes what is committed as what it stands for does. -/
def Linearizes (s : RegistrySystem C W) (b : Option (RegistryAction W))
    (t : RegistrySystem C W) : Prop :=
  exec (registryStep bounds column) s.committed b.toList = some t.committed

variable {bounds column} {s t : RegistrySystem C W} {c : C} {p q : SessionPhase}

omit [DecidableEq C] in
theorem linearizes_none (h : t.committed = s.committed) : Linearizes bounds column s none t :=
  congrArg some h.symm

omit [DecidableEq C] in
theorem linearizes_some {b : RegistryAction W}
    (h : registryStep bounds column s.committed b = some t.committed) :
    Linearizes bounds column s (some b) t :=
  (exec_cons_eq_some _).mpr ⟨t.committed, h, rfl⟩

end Linearization

section Requests

variable {C W : Type*} [DecidableEq C] {bounds : PollBounds} {column : IntervalColumn}
  {s t : RegistrySystem C W} {c : C} {p q : SessionPhase}

omit [DecidableEq C] in
theorem filterMap_request (rows : List (C × SessionPhase)) :
    ((c, p) :: rows).filterMap (fun session => session.2.request) =
      p.request.toList ++ rows.filterMap fun session => session.2.request := by
  cases hrequest : p.request <;> simp [hrequest]

theorem requests_close (h : s.phase c = some p) :
    s.requests.Perm (p.request.toList ++ (s.close c).requests) := by
  obtain ⟨⟨c', p'⟩, hsession, rfl⟩ := Option.map_eq_some_iff.mp h
  obtain rfl : c' = c := KeyedTable.key_eq_of_lookup hsession
  rw [close, requests, requests, ← filterMap_request]
  exact (KeyedTable.perm_erase hsession).filterMap _

theorem requests_idle (h : s.phase c = none) : (s.close c).requests = s.requests := by
  rw [close, requests, requests, KeyedTable.erase_of_lookup_eq_none (Option.map_eq_none_iff.mp h)]

theorem requests_goOn : (s.goOn c p).requests.Perm (p.request.toList ++ (s.close c).requests) := by
  rw [goOn, close, requests, requests, ← filterMap_request]
  exact (KeyedTable.perm_upsert s.sessions (c, p)).filterMap _

theorem requests_begin (h : s.phase c = none) :
    (s.goOn c p).requests.Perm (s.requests ++ p.request.toList) := by
  rw [← requests_idle h]
  exact requests_goOn.trans List.perm_append_comm

theorem requests_next (h : s.phase c = some p) (hrequest : q.request = p.request) :
    (s.goOn c q).requests.Perm s.requests := by
  refine requests_goOn.trans ?_
  rw [hrequest]
  exact (requests_close h).symm

theorem requests_answered (h : s.phase c = some p) :
    (p.request.toList ++ (s.close c).requests).Perm (s.requests ++ []) := by
  rw [List.append_nil]
  exact (requests_close h).symm

variable [DecidableEq W]

theorem beginRequest_requests {request : CoinRequest} {now : ℤ} {reply : Reply}
    (hphase : s.phase c = none)
    (h : s.beginRequest bounds column c now reply request = some t) :
    ((s.linearizedBegin bounds column now reply request).toList.filterMap RegistryAction.request ++
      t.requests).Perm (s.requests ++ [request]) := by
  cases request with
  | register req =>
    simp only [beginRequest, linearizedBegin] at h ⊢
    cases hadmitted : admitCoin bounds column req with
    | error e =>
      simp only [hadmitted] at h ⊢
      obtain rfl := Option.some.inj h
      exact List.perm_append_comm
    | ok interval =>
      simp only [hadmitted] at h ⊢
      split_ifs at h <;> obtain rfl := Option.some.inj h <;> exact requests_begin hphase
  | update coinId req | get coinId =>
    simp only [beginRequest] at h
    obtain ⟨r, -, rfl⟩ := Option.map_eq_some_iff.mp h
    exact List.perm_append_comm
  | delete coinId =>
    simp only [beginRequest, registryStep, linearizedBegin] at h ⊢
    cases hcoins : pauseCoin s.committed.coins coinId with
    | none =>
      simp only [hcoins, Option.map_none] at h ⊢
      obtain rfl := Option.some.inj h
      exact requests_begin hphase
    | some coins =>
      simp only [hcoins, Option.map_some] at h ⊢
      obtain rfl := Option.some.inj h
      exact List.perm_append_comm

theorem enqueueCommitted_sessions {item : QueueColumns} {now : ℤ}
    (h : s.enqueueCommitted item now = some t) : t.sessions = s.sessions := by
  unfold enqueueCommitted at h
  split_ifs at h
  obtain ⟨queue, -, rfl⟩ := Option.map_eq_some_iff.mp h
  rfl

theorem nextStatement_requests {now : ℤ} {reply : Reply} (hphase : s.phase c = some p)
    (h : s.nextStatement c now reply p = some t) :
    ((s.linearizedNext now reply p).toList.filterMap RegistryAction.request ++ t.requests).Perm
      (s.requests ++ []) := by
  cases p with
  | registering req coin kinds queued =>
    cases kinds with
    | nil =>
      obtain rfl := Option.some.inj h
      exact requests_answered hphase
    | cons kind kinds =>
      rw [List.append_nil]
      simp only [nextStatement] at h
      split_ifs at h <;> obtain rfl := Option.some.inj h <;> exact requests_next hphase rfl
  | reselecting req =>
    obtain rfl := Option.some.inj h
    exact requests_answered hphase
  | unpaused coinId =>
    obtain rfl := Option.some.inj h
    exact requests_answered hphase
  | refreshing items =>
    cases items with
    | nil =>
      obtain rfl := Option.some.inj h
      exact requests_answered hphase
    | cons item items =>
      obtain ⟨u, hu, rfl⟩ := Option.map_eq_some_iff.mp h
      have hsessions := enqueueCommitted_sessions hu
      have hphase' : u.phase c = some (.refreshing (item :: items)) := by
        rw [phase, hsessions]
        exact hphase
      rw [List.append_nil, ← show u.requests = s.requests by rw [requests, hsessions, ← requests]]
      exact requests_next hphase' rfl

/-- What a statement stands for answers a request that waited or that it made. -/
theorem step_requests {a : StatementAction C W} (h : s.step bounds column a = some t) :
    ((s.linearized bounds column a).toList.filterMap RegistryAction.request ++ t.requests).Perm
      (s.requests ++ a.request.toList) := by
  cases a with
  | begin c request now reply =>
    simp only [RegistrySystem.step] at h
    split_ifs at h with hphase
    exact beginRequest_requests hphase h
  | next c now reply =>
    obtain ⟨p, hphase, hnext⟩ := Option.bind_eq_some_iff.mp h
    simp only [linearized, hphase]
    exact nextStatement_requests hphase hnext
  | fail request reply =>
    simp only [RegistrySystem.step] at h
    obtain ⟨r, -, rfl⟩ := Option.map_eq_some_iff.mp h
    exact List.perm_append_comm
  | lose c reply =>
    obtain ⟨p, hphase, rfl⟩ := Option.map_eq_some_iff.mp h
    have hanswered := requests_answered hphase
    simp only [linearized, hphase, Option.bind_some, breakOff]
    cases hrequest : p.request with
    | none => rwa [hrequest] at hanswered
    | some request => rwa [hrequest] at hanswered
  | refresh c overlayCoin =>
    simp only [RegistrySystem.step] at h
    split_ifs at h with hphase
    obtain rfl := Option.some.inj h
    exact requests_begin hphase
  | skip c =>
    rw [show (s.requests ++ (StatementAction.skip c : StatementAction C W).request.toList) =
      s.requests from List.append_nil _]
    simp only [RegistrySystem.step] at h
    split at h
    · next item items hphase =>
      obtain rfl := Option.some.inj h
      exact requests_next hphase rfl
    · cases h
  | rollup self now =>
    obtain ⟨item, hitem, henqueued⟩ := Option.bind_eq_some_iff.mp h
    have hrequests : t.requests = s.requests := by
      rw [requests, enqueueCommitted_sessions henqueued, ← requests]
    rw [hrequests]
    simp only [linearized, hitem]
    exact List.perm_append_comm
  | collect coinId now =>
    simp only [RegistrySystem.step] at h
    obtain ⟨r, -, rfl⟩ := Option.map_eq_some_iff.mp h
    exact List.perm_append_comm
  | lease a =>
    simp only [RegistrySystem.step] at h
    obtain ⟨r, -, rfl⟩ := Option.map_eq_some_iff.mp h
    exact List.perm_append_comm

end Requests

end RegistrySystem

namespace SystemInvariant

variable {C W : Type*} [DecidableEq C] [DecidableEq W] {bounds : PollBounds}
  {column : IntervalColumn} {s t : RegistrySystem C W} {c : C}

theorem begin_kept (hinv : SystemInvariant bounds column s) {request : CoinRequest} {now : ℤ}
    {reply : Reply} (h : s.beginRequest bounds column c now reply request = some t) :
    Linearizes bounds column s (s.linearizedBegin bounds column now reply request) t ∧
      SessionsKept bounds column t := by
  cases request with
  | register req =>
    simp only [beginRequest] at h
    cases hadmitted : admitCoin bounds column req with
    | error e =>
      simp only [hadmitted] at h
      obtain rfl := Option.some.inj h
      simp only [linearizedBegin, hadmitted]
      refine ⟨linearizes_some ?_, hinv.sessions.recommit_answer⟩
      simp only [registryStep, hadmitted]
      rfl
    | ok interval =>
      simp only [linearizedBegin, hadmitted] at h ⊢
      split_ifs at h with hheld htracks
      · obtain rfl := Option.some.inj h
        exact ⟨linearizes_none rfl,
          hinv.sessions.goOn_clean ⟨⟨interval, hadmitted⟩, htracks⟩ rfl rfl⟩
      · obtain rfl := Option.some.inj h
        refine ⟨linearizes_none rfl,
          hinv.sessions.goOn ⟨⟨interval, now, hadmitted, rfl⟩, rfl⟩ ?_ ?_ ?_ ?_⟩
        · intro coinId hcoin
          obtain rfl := Option.some.inj hcoin
          exact Option.not_isSome_iff_eq_none.mp htracks
        · simp [SessionPhase.ids]
        · intro other q hq coinId hcoin hqcoin
          obtain rfl := Option.some.inj hcoin
          exact absurd (holdsCoin_iff.mpr ⟨other, q, hq, hqcoin⟩) hheld
        · simp [SessionPhase.ids]
  | update coinId req =>
    simp only [beginRequest] at h
    obtain ⟨r, hr, rfl⟩ := Option.map_eq_some_iff.mp h
    exact ⟨linearizes_some hr, hinv.recommit_sessions (by simp) (by simp) hr⟩
  | get coinId =>
    simp only [beginRequest] at h
    obtain ⟨r, hr, rfl⟩ := Option.map_eq_some_iff.mp h
    exact ⟨linearizes_some hr, hinv.recommit_sessions (by simp) (by simp) hr⟩
  | delete coinId =>
    simp only [beginRequest] at h
    cases hcoins : pauseCoin s.committed.coins coinId with
    | none =>
      simp only [registryStep, hcoins, Option.map_none] at h
      obtain rfl := Option.some.inj h
      simp only [linearizedBegin, hcoins]
      exact ⟨linearizes_none rfl, hinv.sessions.goOn_clean trivial rfl rfl⟩
    | some coins =>
      have hpause : registryStep bounds column s.committed (.pause coinId reply) =
          some (Registry.answer { s.committed with coins := coins } reply (.delete coinId)
            .noContent) := by
        simp only [registryStep, hcoins, Option.map_some]
      simp only [hpause] at h
      obtain rfl := Option.some.inj h
      simp only [linearizedBegin, hcoins]
      exact ⟨linearizes_some hpause, hinv.recommit_sessions (by simp) (by simp) hpause⟩

theorem next_kept (hinv : SystemInvariant bounds column s) {p : SessionPhase} {now : ℤ}
    {reply : Reply} (hphase : s.phase c = some p)
    (h : s.nextStatement c now reply p = some t) :
    Linearizes bounds column s (s.linearizedNext now reply p) t ∧
      SessionsKept bounds column t := by
  cases p with
  | registering req coin kinds queued =>
    cases kinds with
    | nil =>
      obtain rfl := Option.some.inj h
      exact ⟨linearizes_some (hinv.commit_register hphase reply),
        hinv.commit_sessions hphase reply⟩
    | cons kind kinds =>
      obtain ⟨habsorbs, hkept⟩ := hinv.queue_sessions hphase
      simp only [nextStatement, if_neg habsorbs] at h
      split_ifs at h
      obtain rfl := Option.some.inj h
      exact ⟨linearizes_none rfl, hkept⟩
  | reselecting req =>
    obtain rfl := Option.some.inj h
    obtain ⟨⟨interval, hadmitted⟩, htracks⟩ := hinv.sessions.phases c _ hphase
    obtain ⟨coin, hcoin⟩ := Option.isSome_iff_exists.mp htracks
    have hanswer : answerExisting s.committed req reply =
        s.committed.answer reply (.register req) (.ok (CoinDto.ofTrackedCoin coin)) := by
      simp only [answerExisting, hcoin]
    rw [hanswer]
    refine ⟨linearizes_some ?_, (hinv.sessions.close c).recommit_answer⟩
    simp only [registryStep, hadmitted, registerAdmitted, hcoin]
    rfl
  | unpaused coinId =>
    obtain rfl := Option.some.inj h
    exact ⟨linearizes_some rfl, (hinv.sessions.close c).recommit_answer⟩
  | refreshing items =>
    cases items with
    | nil =>
      obtain rfl := Option.some.inj h
      exact ⟨linearizes_none rfl, hinv.sessions.close c⟩
    | cons item items =>
      have hadmits := hinv.sessions.phases c _ hphase
      obtain ⟨u, hu, rfl⟩ := Option.map_eq_some_iff.mp h
      obtain ⟨hstep, hcoins, -, hkept⟩ :=
        hinv.enqueueCommitted_kept (hadmits item List.mem_cons_self) hu
      refine ⟨linearizes_some hstep, hkept.goOn_clean ?_ rfl rfl⟩
      intro other hother
      refine (hadmits other (List.mem_cons_of_mem _ hother)).imp_right fun hcoin => ⟨hcoin.1, ?_⟩
      rw [Registry.tracks, hcoins]
      exact hcoin.2

theorem breakOff_kept (hinv : SystemInvariant bounds column s) {p : SessionPhase} (reply : Reply)
    (hphase : s.phase c = some p) :
    Linearizes bounds column s (p.request.map fun request => .fail request reply)
        (s.breakOff c reply p) ∧ SessionsKept bounds column (s.breakOff c reply p) := by
  unfold breakOff
  cases hrequest : p.request with
  | none => exact ⟨linearizes_none rfl, hinv.sessions.close c⟩
  | some request =>
    refine ⟨linearizes_some ?_, (hinv.sessions.close c).recommit_answer⟩
    simp only [registryStep, hinv.request_admitted hphase hrequest, if_true]
    rfl

/-- A statement changes what is committed as what it stands for does, and what the
connections have open fits afterwards. -/
theorem step_kept (hinv : SystemInvariant bounds column s) {a : StatementAction C W}
    (h : s.step bounds column a = some t) :
    Linearizes bounds column s (s.linearized bounds column a) t ∧
      SessionsKept bounds column t := by
  cases a with
  | begin c request now reply =>
    simp only [RegistrySystem.step] at h
    split_ifs at h
    exact hinv.begin_kept h
  | next c now reply =>
    obtain ⟨p, hphase, hnext⟩ := Option.bind_eq_some_iff.mp h
    simp only [linearized, hphase]
    exact hinv.next_kept hphase hnext
  | fail request reply =>
    simp only [RegistrySystem.step] at h
    obtain ⟨r, hr, rfl⟩ := Option.map_eq_some_iff.mp h
    exact ⟨linearizes_some hr, hinv.recommit_sessions (by simp) (by simp) hr⟩
  | lose c reply =>
    obtain ⟨p, hphase, rfl⟩ := Option.map_eq_some_iff.mp h
    simp only [linearized, hphase]
    exact hinv.breakOff_kept reply hphase
  | refresh c overlayCoin =>
    simp only [RegistrySystem.step] at h
    split_ifs at h with hphase
    obtain rfl := Option.some.inj h
    exact ⟨linearizes_none rfl,
      hinv.sessions.goOn_clean (refreshItems_admitted s.committed overlayCoin) rfl rfl⟩
  | skip c =>
    simp only [RegistrySystem.step] at h
    split at h
    · next item items hphase =>
      obtain rfl := Option.some.inj h
      have hadmits := hinv.sessions.phases c _ hphase
      exact ⟨linearizes_none rfl, hinv.sessions.goOn_clean
        (fun other hother => hadmits other (List.mem_cons_of_mem _ hother)) rfl rfl⟩
    · cases h
  | rollup self now =>
    obtain ⟨item, hitem, henqueued⟩ := Option.bind_eq_some_iff.mp h
    obtain ⟨hstep, -, -, hkept⟩ :=
      hinv.enqueueCommitted_kept (hinv.rollupItem_admitted hitem) henqueued
    simp only [linearized, hitem]
    exact ⟨linearizes_some hstep, hkept⟩
  | collect coinId now =>
    simp only [RegistrySystem.step] at h
    obtain ⟨r, hr, rfl⟩ := Option.map_eq_some_iff.mp h
    exact ⟨linearizes_some hr, hinv.recommit_sessions (by simp) (by simp) hr⟩
  | lease a =>
    simp only [RegistrySystem.step] at h
    obtain ⟨r, hr, rfl⟩ := Option.map_eq_some_iff.mp h
    exact ⟨linearizes_some hr, hinv.recommit_sessions (by simp) (by simp) hr⟩

theorem preserved (hinv : SystemInvariant bounds column s) {a : StatementAction C W}
    (h : s.step bounds column a = some t) : SystemInvariant bounds column t := by
  obtain ⟨hlinear, hsessions⟩ := hinv.step_kept h
  exact ⟨exec_invariant (fun _ _ _ hkept hstep => hkept.step hstep) hinv.registry hlinear,
    hsessions⟩

theorem of_run {as : List (StatementAction C W)}
    (hrun : exec (RegistrySystem.step bounds column) .empty as = some s) :
    SystemInvariant bounds column s :=
  exec_invariant (fun _ _ _ hs hstep => hs.preserved hstep)
    ⟨RegistryInvariant.empty, SessionsKept.empty⟩ hrun

end SystemInvariant

def hourlyBounds : PollBounds := ⟨5, 3600, 60⟩

def registerBitcoin : RegisterCoinRequest := ⟨"bitcoin", "BTC", "Bitcoin", some "5m"⟩

def registerEther : RegisterCoinRequest := ⟨"ethereum", "ETH", "Ethereum", none⟩

/-- Two registrations of one coin; the second waits for the first and meets its row, which
a worker collects and a client pauses. Then connections break: of a registration on its way, of
one at its commit, and of a read. -/
def racingRegistrations : List (StatementAction ℕ ℕ) :=
  [.begin 0 (.register registerBitcoin) 10 .sent, .next 0 11 .sent, .next 0 12 .sent,
    .next 0 13 .sent, .next 0 14 .sent, .begin 1 (.register registerBitcoin) 15 .sent,
    .refresh 2 "bitcoin", .next 1 16 .sent, .collect "bitcoin" 17, .lease (.claim 7 1 18 60 []),
    .next 2 19 .sent, .begin 3 (.delete "bitcoin") 20 .sent,
    .begin 4 (.register registerEther) 21 .sent, .next 4 22 .sent, .lose 4 .sent,
    .begin 5 (.register registerEther) 23 .sent, .next 5 24 .sent, .next 5 25 .sent,
    .next 5 26 .sent, .next 5 27 .broken, .fail (.get "ethereum") .sent]

/-- The requests in the order of their answers, newest first, and which of them failed. -/
def answeredRequests (r : Registry ℕ) : List (CoinRequest × Bool) :=
  r.answers.map fun answer => (answer.1, decide (answer.2 = .failed .internal))

theorem racingRegistrations_run : ∃ t,
    exec (RegistrySystem.step hourlyBounds secondsColumn) .empty racingRegistrations = some t ∧
    answeredRequests t.committed =
      [(.get "ethereum", true), (.register registerEther, true), (.register registerEther, true),
        (.delete "bitcoin", false), (.register registerBitcoin, false),
        (.register registerBitcoin, false)] ∧
    t.committed.coins.lookup "bitcoin" =
      some ⟨"bitcoin", "BTC", "Bitcoin", "paused", 10, some 17, none, some "00:05:00"⟩ := by
  have hrun : (exec (RegistrySystem.step hourlyBounds secondsColumn) .empty
      racingRegistrations).map (fun t =>
        (answeredRequests t.committed, t.committed.coins.lookup "bitcoin")) =
      some ([(.get "ethereum", true), (.register registerEther, true),
          (.register registerEther, true), (.delete "bitcoin", false),
          (.register registerBitcoin, false), (.register registerBitcoin, false)],
        some ⟨"bitcoin", "BTC", "Bitcoin", "paused", 10, some 17, none, some "00:05:00"⟩) := by
    decide +kernel
  obtain ⟨t, ht, hfacts⟩ := Option.map_eq_some_iff.mp hrun
  exact ⟨t, ht, (Prod.mk.inj hfacts).1, (Prod.mk.inj hfacts).2⟩

section Runs

variable {C W : Type*} [DecidableEq C] [DecidableEq W] (bounds : PollBounds)
  (column : IntervalColumn)

/-- Whatever the connections do after any run, the registry could have gone the same way with
each registration in one step: the run of what the statements stand for commits the same and
answers the same, and each request that waited or was made is answered by one step of it or
still waits. -/
theorem registrations_linearizable (before after : List (StatementAction C W))
    (s t : RegistrySystem C W) (hbefore : exec (RegistrySystem.step bounds column) .empty before =
      some s) (hafter : exec (RegistrySystem.step bounds column) s after = some t) :
    exec (registryStep bounds column) s.committed (s.linearize bounds column after) =
        some t.committed ∧
      ((s.linearize bounds column after).filterMap RegistryAction.request ++ t.requests).Perm
        (s.requests ++ after.filterMap StatementAction.request) := by
  constructor
  · exact exec_translate RegistrySystem.committed
      (fun _ _ _ hinv hstep => SystemInvariant.preserved hinv hstep)
      (fun _ _ _ hinv hstep => (SystemInvariant.step_kept hinv hstep).1)
      (SystemInvariant.of_run hbefore) hafter
  · exact translate_perm (fun _ _ _ hstep => step_requests hstep) hafter

/-- From the registration that is not yet committed on. -/
theorem registrations_linearizable_racing : ∃ s t,
    exec (RegistrySystem.step hourlyBounds secondsColumn) .empty
      (racingRegistrations.take 1) = some s ∧
    exec (RegistrySystem.step hourlyBounds secondsColumn) s
      (racingRegistrations.drop 1) = some t ∧
    (answeredRequests t.committed).length = 6 ∧
    exec (registryStep hourlyBounds secondsColumn) s.committed
      (s.linearize hourlyBounds secondsColumn (racingRegistrations.drop 1)) = some t.committed := by
  obtain ⟨t, hrun, hanswers, -⟩ := racingRegistrations_run
  rw [← List.take_append_drop 1 racingRegistrations, exec_append_eq_some] at hrun
  obtain ⟨s, hbefore, hafter⟩ := hrun
  refine ⟨s, t, hbefore, hafter, ?_, ?_⟩
  · rw [hanswers]
    rfl
  · exact (registrations_linearizable hourlyBounds secondsColumn _ _ s t hbefore hafter).1

/-- In every reachable state a tracked coin has an item of each initial kind, an item is of a
tracked coin or of the overlay, and no item is live twice. -/
theorem tracked_iff_items (as : List (StatementAction C W)) (s : RegistrySystem C W)
    (hrun : exec (RegistrySystem.step bounds column) .empty as = some s) :
    (∀ coinId, s.committed.tracks coinId ↔
      ∀ kind ∈ initialKinds, ∃ row ∈ s.committed.queue.table, row.payload = coinItem coinId kind) ∧
    (∀ row ∈ s.committed.queue.table, s.committed.admits row.payload) ∧
    Deduplicated s.committed.queue := by
  have hinv := (SystemInvariant.of_run hrun).registry
  refine ⟨fun coinId => ⟨hinv.items coinId, ?_⟩, hinv.admitted, hinv.dedup⟩
  intro hitems
  have hkind : "market" ∈ initialKinds := by decide
  obtain ⟨row, hrow, hpayload⟩ := hitems "market" hkind
  by_contra huntracked
  exact hinv.no_item (Option.not_isSome_iff_eq_none.mp huntracked) hkind row hrow hpayload

theorem tracked_iff_items_racing : ∃ s,
    exec (RegistrySystem.step hourlyBounds secondsColumn) .empty racingRegistrations = some s ∧
    s.committed.tracks "bitcoin" ∧
    ∀ kind ∈ initialKinds,
      ∃ row ∈ s.committed.queue.table, row.payload = coinItem "bitcoin" kind := by
  obtain ⟨s, hrun, -, hcoin⟩ := racingRegistrations_run
  have htracks : s.committed.tracks "bitcoin" := Option.isSome_iff_exists.mpr ⟨_, hcoin⟩
  exact ⟨s, hrun, htracks,
    ((tracked_iff_items hourlyBounds secondsColumn _ s hrun).1 "bitcoin").mp htracks⟩

/-- A coin is created at most once, whoever registers it; all answers about it show the same
symbol, name and instant of registration, those it still has, and a creation shows what its
request asked for. A registration is refused only for its own body. -/
theorem coin_answers_agree (as : List (StatementAction C W)) (s : RegistrySystem C W)
    (hrun : exec (RegistrySystem.step bounds column) .empty as = some s) :
    (∀ coinId, s.committed.answers.countP (createdFor coinId) ≤ 1) ∧
    (∀ answer ∈ s.committed.answers, AsRequested answer ∧ ∀ coin ∈ answer.2.shown,
      ∃ stored, s.committed.coins.lookup coin.coinId = some stored ∧
        coinIdentity coin = coinIdentity stored) ∧
    ∀ req e, (.register req, .failed e) ∈ s.committed.answers →
      e = .internal ∨ admitCoin bounds column req = .error e := by
  have hinv := (SystemInvariant.of_run hrun).registry
  exact ⟨hinv.created,
    fun answer hanswer => ⟨hinv.requested answer hanswer, hinv.shown answer hanswer⟩,
    hinv.refused⟩

/-- Both clients are shown the same coin, and one of them that it was created. -/
theorem coin_answers_agree_racing : ∃ s,
    exec (RegistrySystem.step hourlyBounds secondsColumn) .empty racingRegistrations = some s ∧
    (answeredRequests s.committed).length = 6 ∧
    s.committed.answers.countP (createdFor "bitcoin") ≤ 1 ∧
    ∀ answer ∈ s.committed.answers, AsRequested answer ∧ ∀ coin ∈ answer.2.shown,
      ∃ stored, s.committed.coins.lookup coin.coinId = some stored ∧
        coinIdentity coin = coinIdentity stored := by
  obtain ⟨s, hrun, hanswers, -⟩ := racingRegistrations_run
  obtain ⟨hcreated, hagree, -⟩ := coin_answers_agree hourlyBounds secondsColumn _ s hrun
  refine ⟨s, hrun, ?_, hcreated "bitcoin", hagree⟩
  rw [hanswers]
  rfl

/-- In every reachable state the collectors read each stored poll interval as a number of
seconds within the bounds, and that is what the endpoints show. -/
theorem stored_coins_valid (hstyle : column.RendersSeconds) (hrange : column.InRange)
    (as : List (StatementAction C W)) (s : RegistrySystem C W)
    (hrun : exec (RegistrySystem.step bounds column) .empty as = some s) (coinId : String)
    (coin : TrackedCoin) (hcoin : s.committed.coins.lookup coinId = some coin) :
    trim coinId.toList ≠ [] ∧ coin.status ∈ coinStatuses ∧
    ∀ text, coin.livePollInterval = some text → ∃ d,
      max bounds.minSecs bounds.globalTickSecs ≤ d ∧ d ≤ bounds.maxSecs ∧
      pgIntervalToSecs text = some (d : ℤ) ∧
      (CoinDto.ofTrackedCoin coin).livePollInterval = some (durationToString d) := by
  have hvalid := (SystemInvariant.of_run hrun).registry.valid coinId coin hcoin
  have hid : coin.coinId = coinId := KeyedTable.key_eq_of_lookup hcoin
  refine ⟨hid ▸ hvalid.coinId, hvalid.status, ?_⟩
  intro text htext
  obtain ⟨d, hfloor, hmax, hread, hshown⟩ := (hvalid.interval text htext).read hstyle hrange
  refine ⟨d, hfloor, hmax, hread, ?_⟩
  rw [CoinDto.ofTrackedCoin, htext]
  exact hshown

theorem stored_coins_valid_racing : ∃ s,
    exec (RegistrySystem.step hourlyBounds secondsColumn) .empty racingRegistrations = some s ∧
    ∃ d : ℕ, 60 ≤ d ∧ d ≤ 3600 ∧ pgIntervalToSecs "00:05:00" = some (d : ℤ) := by
  obtain ⟨s, hrun, -, hcoin⟩ := racingRegistrations_run
  obtain ⟨-, -, hinterval⟩ := stored_coins_valid hourlyBounds secondsColumn
    secondsColumn_rendersSeconds secondsColumn_inRange _ s hrun "bitcoin" _ hcoin
  obtain ⟨d, hfloor, hmax, hread, -⟩ := hinterval "00:05:00" rfl
  exact ⟨s, hrun, d, hfloor, hmax, hread⟩

omit [DecidableEq C] [DecidableEq W] in
theorem coin_of_mem_items {p : SessionPhase} {item : QueueColumns} (h : item ∈ p.items) :
    p.coin = some item.targetId := by
  cases p with
  | registering req coin kinds queued =>
    obtain ⟨queuedItem, -, rfl⟩ := List.mem_map.mp h
    rfl
  | reselecting req => cases h
  | unpaused coinId => cases h
  | refreshing items => cases h

variable {bounds column}

/-- A registration that has inserted its coin waits for no one: its own statements end it. -/
theorem SystemInvariant.finish {s : RegistrySystem C W} (hinv : SystemInvariant bounds column s)
    {c : C} {req : RegisterCoinRequest} {coin : TrackedCoin} {kinds : List String}
    {queued : List (String × ℤ)} (hphase : s.phase c = some (.registering req coin kinds queued))
    (now : ℤ) : ∃ t, exec (RegistrySystem.step bounds column) s
        (List.replicate (kinds.length + 1) (.next c now .sent)) = some t ∧
      t.committed.answers =
        (.register req, .created (CoinDto.ofTrackedCoin coin)) :: s.committed.answers ∧
      t.phase = Function.update s.phase c none := by
  induction kinds generalizing s queued with
  | nil =>
    refine ⟨(s.close c).recommit (commitCoin s.committed req coin queued .sent), ?_, rfl, ?_⟩
    · rw [List.length_nil, List.replicate_succ, exec_cons_eq_some]
      refine ⟨_, ?_, rfl⟩
      simp only [RegistrySystem.step, hphase, Option.bind_some, nextStatement]
    · funext other
      rw [phase_recommit, phase_close, Function.update_apply]
  | cons kind kinds ih =>
    have hfree : ¬s.holdsItem (some c) (coinItem req.coinId kind) := by
      intro hheld
      obtain ⟨other, p, hp, hne, hitem⟩ := holdsItem_iff.mp hheld
      have hsame := hinv.sessions.coins other p c _ hp hphase req.coinId (coin_of_mem_items hitem)
        rfl
      exact hne (congrArg some hsame)
    obtain ⟨habsorbs, hkept⟩ := hinv.queue_sessions hphase
    have hstep : s.step bounds column (.next c now .sent) =
        some (s.bump.goOn c (.registering req coin kinds (queued ++ [(kind, s.nextId)]))) := by
      simp only [RegistrySystem.step, hphase, Option.bind_some, nextStatement, if_neg hfree,
        if_neg habsorbs]
    obtain ⟨t, hrun, hanswers, hphases⟩ := ih (hinv.preserved hstep) (phase_goOn.trans (if_pos rfl))
    refine ⟨t, ?_, hanswers, ?_⟩
    · rw [List.length_cons, List.replicate_succ, exec_cons_eq_some]
      exact ⟨_, hstep, hrun⟩
    · rw [hphases]
      funext other
      rw [Function.update_apply, Function.update_apply, phase_goOn, phase_bump]
      split_ifs <;> rfl

variable (bounds column)

/-- In every reachable state a registration that cannot begin waits for another of the same
coin, whose own statements end it, whereupon it can begin. -/
theorem registrations_never_deadlock (as : List (StatementAction C W)) (s : RegistrySystem C W)
    (hrun : exec (RegistrySystem.step bounds column) .empty as = some s) (c : C)
    (hidle : s.phase c = none) (req : RegisterCoinRequest) (now : ℤ)
    (hwaits : s.step bounds column (.begin c (.register req) now .sent) = none) :
    ∃ holder held k t, held.coinId = req.coinId ∧ k ≤ initialKinds.length + 1 ∧
      exec (RegistrySystem.step bounds column) s (List.replicate k (.next holder now .sent)) =
        some t ∧
      (∃ coin, t.committed.answers =
        (.register held, .created coin) :: s.committed.answers) ∧
      (t.step bounds column (.begin c (.register req) now .sent)).isSome := by
  have hinv := SystemInvariant.of_run hrun
  simp only [RegistrySystem.step, hidle, if_true, beginRequest] at hwaits
  cases hadmitted : admitCoin bounds column req with
  | error e => simp [hadmitted] at hwaits
  | ok interval =>
    simp only [hadmitted] at hwaits
    split_ifs at hwaits with hheld
    obtain ⟨holder, p, hp, hcoin⟩ := holdsCoin_iff.mp hheld
    cases p with
    | registering held coin kinds queued =>
      obtain ⟨t, ht, hanswers, hphases⟩ := hinv.finish hp now
      have hkinds := congrArg List.length (hinv.sessions.phases holder _ hp).2
      rw [List.length_append] at hkinds
      refine ⟨holder, held, kinds.length + 1, t, Option.some.inj hcoin, by omega, ht,
        ⟨_, hanswers⟩, ?_⟩
      have hgone : ¬t.holdsCoin req.coinId := by
        intro hstill
        obtain ⟨other, q, hq, hqcoin⟩ := holdsCoin_iff.mp hstill
        rw [hphases, Function.update_apply] at hq
        split_ifs at hq with hsame
        exact hsame (hinv.sessions.coins other q holder _ hq hp req.coinId hqcoin hcoin)
      have hidle' : t.phase c = none := by
        rw [hphases, Function.update_apply]
        split_ifs
        · rfl
        · exact hidle
      simp only [RegistrySystem.step, hidle', if_true, beginRequest, hadmitted, if_neg hgone]
      split_ifs <;> rfl
    | reselecting held => cases hcoin
    | unpaused coinId => cases hcoin
    | refreshing items => cases hcoin

/-- The second of two clients, while the first has enqueued one item. -/
theorem registrations_never_deadlock_racing : ∃ s,
    exec (RegistrySystem.step hourlyBounds secondsColumn) .empty
      (racingRegistrations.take 2) = some s ∧
    ∃ holder held k t, held.coinId = "bitcoin" ∧ k ≤ initialKinds.length + 1 ∧
      exec (RegistrySystem.step hourlyBounds secondsColumn) s
        (List.replicate k (.next holder 12 .sent)) = some t ∧
      (∃ coin, t.committed.answers =
        (.register held, .created coin) :: s.committed.answers) ∧
      (t.step hourlyBounds secondsColumn
        (.begin 1 (.register registerBitcoin) 12 .sent)).isSome := by
  have hrun : (exec (RegistrySystem.step hourlyBounds secondsColumn) .empty
      (racingRegistrations.take 2)).map (fun s => (s.phase 1, (s.step hourlyBounds secondsColumn
        (.begin 1 (.register registerBitcoin) 12 .sent)).isNone)) = some (none, true) := by
    decide +kernel
  obtain ⟨s, hs, hfacts⟩ := Option.map_eq_some_iff.mp hrun
  exact ⟨s, hs, registrations_never_deadlock hourlyBounds secondsColumn _ s hs 1
    (Prod.mk.inj hfacts).1 registerBitcoin 12 (Option.isNone_iff_eq_none.mp (Prod.mk.inj hfacts).2)⟩

end Runs
end CryptoCollector.Api
