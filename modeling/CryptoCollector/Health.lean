import Mathlib.Data.Int.Order.Basic
import Mathlib.Order.Lattice
import Mathlib.Tactic.SplitIfs
import Mathlib.Tactic.Linarith

/-!
# Readiness probes

`check_readiness` looks at the two flags, then at the ping of the database it may have cached,
and pings itself when that is too old. Probes run concurrently: between two steps of one the
flags may be set and another probe may replace the cached ping. Instants and durations are
nanoseconds; a flag is kept with the instant it was set at.
-/

namespace CryptoCollector.Health

def cacheTtl : ℤ := 2 * 1000000000

structure ReadinessResult where
  ok : Bool
  failed : List String
  deriving DecidableEq, Repr

/-- `CachedResult` once it is set, with the instant its ping was over. -/
structure CachedResult where
  result : ReadinessResult
  pingedAt : ℤ
  checkedAt : ℤ
  deriving DecidableEq, Repr

structure HealthState where
  readyAt : Option ℤ
  shuttingDownAt : Option ℤ
  cache : Option CachedResult
  deriving DecidableEq, Repr

def HealthState.new : HealthState := ⟨none, none, none⟩

def HealthState.setReady (h : HealthState) (now : ℤ) : HealthState :=
  { h with readyAt := some (h.readyAt.getD now) }

def HealthState.setShuttingDown (h : HealthState) (now : ℤ) : HealthState :=
  { h with shuttingDownAt := some (h.shuttingDownAt.getD now) }

/-- How far a `check_readiness` has come. -/
inductive ProbePhase where
  | begun
  | notShuttingDown
  | ready
  | pinging
  | pinged (result : ReadinessResult) (pingedAt : ℤ)
  deriving DecidableEq, Repr

structure Probe where
  began : ℤ
  phase : ProbePhase
  deriving DecidableEq, Repr

/-- What an answer rests on. -/
inductive Backing where
  | flags
  | cached (entry : CachedResult)
  | ping (pingedAt : ℤ)
  deriving DecidableEq, Repr

/-- The answer to a probe: 200 when it is ok, else 503 with what failed. -/
structure Answer where
  began : ℤ
  answeredAt : ℤ
  result : ReadinessResult
  backing : Backing
  deriving DecidableEq, Repr

def shuttingDownResult : ReadinessResult :=
  ⟨false, ["shutting_down: graceful shutdown in progress"]⟩

def startupResult : ReadinessResult := ⟨false, ["startup: initialization not yet complete"]⟩

def pingResult : Option String → ReadinessResult
  | none => ⟨true, []⟩
  | some e => ⟨false, ["postgres: " ++ e]⟩

theorem pingResult_ok {e : Option String} : (pingResult e).ok = true ↔ e = none := by
  cases e <;> simp [pingResult]

def checkReadiness (h : HealthState) (now : ℤ) (pingError : Option String) (probe : Probe) :
    HealthState × (Probe ⊕ Answer) :=
  match probe.phase with
  | .begun =>
    if h.shuttingDownAt.isSome then (h, .inr ⟨probe.began, now, shuttingDownResult, .flags⟩)
    else (h, .inl { probe with phase := .notShuttingDown })
  | .notShuttingDown =>
    if h.readyAt.isSome then (h, .inl { probe with phase := .ready })
    else (h, .inr ⟨probe.began, now, startupResult, .flags⟩)
  | .ready =>
    match h.cache with
    | some entry =>
      if now - entry.checkedAt < cacheTtl then
        (h, .inr ⟨probe.began, now, entry.result, .cached entry⟩)
      else
        (h, .inl { probe with phase := .pinging })
    | none => (h, .inl { probe with phase := .pinging })
  | .pinging => (h, .inl { probe with phase := .pinged (pingResult pingError) now })
  | .pinged result pingedAt =>
    ({ h with cache := some ⟨result, pingedAt, now⟩ },
      .inr ⟨probe.began, now, result, .ping pingedAt⟩)

/-- The health server, with the pings of the database so far: when each was over, and the error
it failed with. -/
structure HealthServer where
  state : HealthState
  probes : List Probe
  answers : List Answer
  pings : List (ℤ × Option String)

def HealthServer.new : HealthServer := ⟨.new, [], [], []⟩

namespace HealthServer

def arrive (w : HealthServer) (now : ℤ) : HealthServer :=
  { w with probes := w.probes ++ [⟨now, .begun⟩] }

/-- The client of a probe goes away. -/
def drop (w : HealthServer) (i : ℕ) : HealthServer := { w with probes := w.probes.eraseIdx i }

/-- A probe goes on, or its answer ends it. -/
def settle (w : HealthServer) (i : ℕ) (next : HealthState × (Probe ⊕ Answer)) : HealthServer :=
  match next.2 with
  | .inl probe => { w with state := next.1, probes := w.probes.set i probe }
  | .inr answer =>
    { w with state := next.1, probes := w.probes.eraseIdx i, answers := answer :: w.answers }

/-- What a probe that is pinging hears of the database. -/
def logPing (w : HealthServer) (now : ℤ) (pingError : Option String) (probe : Probe) :
    HealthServer :=
  if probe.phase = .pinging then { w with pings := (now, pingError) :: w.pings } else w

def goOn (w : HealthServer) (now : ℤ) (i : ℕ) (pingError : Option String) : Option HealthServer :=
  w.probes[i]?.map fun probe =>
    (w.logPing now pingError probe).settle i (checkReadiness w.state now pingError probe)

def setReady (w : HealthServer) (now : ℤ) : HealthServer :=
  { w with state := w.state.setReady now }

def setShuttingDown (w : HealthServer) (now : ℤ) : HealthServer :=
  { w with state := w.state.setShuttingDown now }

end HealthServer

def RestsOn (pings : List (ℤ × Option String)) (result : ReadinessResult) (pingedAt : ℤ) : Prop :=
  ∃ e, (pingedAt, e) ∈ pings ∧ result = pingResult e

def ProbePhase.pingsAt (now : ℤ) : ProbePhase → Option ℤ
  | .pinging => some now
  | .pinged _ pingedAt => some pingedAt
  | _ => none

def Answer.pingedAt (answer : Answer) : Option ℤ :=
  match answer.backing with
  | .ping pingedAt => some pingedAt
  | _ => none

/-- A 200 rests on a ping that succeeded: the probe's own, or one that was cached less than the
lifetime of the cache ago. -/
def Answer.PingBacked (pings : List (ℤ × Option String)) (answer : Answer) : Prop :=
  match answer.backing with
  | .flags => False
  | .ping pingedAt =>
    (pingedAt, none) ∈ pings ∧ answer.began ≤ pingedAt ∧ pingedAt ≤ answer.answeredAt
  | .cached entry =>
    (entry.pingedAt, none) ∈ pings ∧ entry.pingedAt ≤ entry.checkedAt ∧
      entry.checkedAt ≤ answer.answeredAt ∧ answer.answeredAt - entry.checkedAt < cacheTtl

/-- After the answer of a probe that pinged, the probe may ping at `t`: it came no later than
that answer, or the cached ping had to run out first. -/
def Spaced (answers : List Answer) (began t : ℤ) : Prop :=
  ∀ answer ∈ answers, answer.pingedAt.isSome → answer.answeredAt < began →
    answer.answeredAt + cacheTtl ≤ t

structure ProbeKept (w : HealthServer) (now : ℤ) (probe : Probe) : Prop where
  began : probe.began ≤ now
  open_ : probe.phase ≠ .begun → ∀ d ∈ w.state.shuttingDownAt, probe.began ≤ d
  ready : probe.phase ≠ .begun → probe.phase ≠ .notShuttingDown →
    ∃ r ∈ w.state.readyAt, r ≤ now
  pinged : ∀ result pingedAt, probe.phase = .pinged result pingedAt →
    probe.began ≤ pingedAt ∧ pingedAt ≤ now ∧ RestsOn w.pings result pingedAt
  spaced : ∀ t ∈ probe.phase.pingsAt now, Spaced w.answers probe.began t

structure AnswerKept (w : HealthServer) (now : ℤ) (answer : Answer) : Prop where
  began : answer.began ≤ answer.answeredAt
  answered : answer.answeredAt ≤ now
  ready : answer.result.ok = true → ∃ r ∈ w.state.readyAt, r ≤ answer.answeredAt
  open_ : answer.result.ok = true → ∀ d ∈ w.state.shuttingDownAt, answer.began ≤ d
  backed : answer.result.ok = true → answer.PingBacked w.pings
  refused : ∀ d ∈ w.state.shuttingDownAt, d < answer.began → answer.result = shuttingDownResult
  cached : answer.pingedAt.isSome → ∃ entry ∈ w.state.cache, answer.answeredAt ≤ entry.checkedAt
  spaced : ∀ t ∈ answer.pingedAt, Spaced w.answers answer.began t

structure CacheKept (pings : List (ℤ × Option String)) (now : ℤ) (entry : CachedResult) :
    Prop where
  pinged : entry.pingedAt ≤ entry.checkedAt
  checked : entry.checkedAt ≤ now
  rests : RestsOn pings entry.result entry.pingedAt

structure HealthKept (w : HealthServer) (now : ℤ) : Prop where
  ready : ∀ r ∈ w.state.readyAt, r ≤ now
  shutting : ∀ d ∈ w.state.shuttingDownAt, d ≤ now
  cache : ∀ entry ∈ w.state.cache, CacheKept w.pings now entry
  probes : ∀ probe ∈ w.probes, ProbeKept w now probe
  answers : ∀ answer ∈ w.answers, AnswerKept w now answer

section Kept

variable {w w' : HealthServer} {now later : ℤ} {pings : List (ℤ × Option String)}
  {answers : List Answer} {answer : Answer} {probe : Probe}

theorem Spaced.of_le {began t t' : ℤ} (h : Spaced answers began t) (hle : t ≤ t') :
    Spaced answers began t' := by
  intro answer hanswer hpinged hbefore
  exact (h answer hanswer hpinged hbefore).trans hle

theorem Spaced.cons {began t : ℤ} (h : Spaced answers began t)
    (hbegan : began ≤ answer.answeredAt) : Spaced (answer :: answers) began t := by
  intro other hother hpinged hbefore
  rcases List.mem_cons.mp hother with rfl | hold
  · exact absurd hbefore (not_lt.mpr hbegan)
  · exact h other hold hpinged hbefore

theorem RestsOn.cons {result : ReadinessResult} {pingedAt : ℤ} (h : RestsOn pings result pingedAt)
    (ping : ℤ × Option String) : RestsOn (ping :: pings) result pingedAt := by
  obtain ⟨e, hping, hresult⟩ := h
  exact ⟨e, List.mem_cons_of_mem _ hping, hresult⟩

theorem RestsOn.succeeded {result : ReadinessResult} {pingedAt : ℤ}
    (h : RestsOn pings result pingedAt) (hok : result.ok = true) : (pingedAt, none) ∈ pings := by
  obtain ⟨e, hping, rfl⟩ := h
  rwa [pingResult_ok.mp hok] at hping

theorem Answer.PingBacked.cons (h : answer.PingBacked pings) (ping : ℤ × Option String) :
    answer.PingBacked (ping :: pings) := by
  unfold Answer.PingBacked at h ⊢
  split at h
  · exact h
  · exact ⟨List.mem_cons_of_mem _ h.1, h.2⟩
  · exact ⟨List.mem_cons_of_mem _ h.1, h.2⟩

theorem HealthKept.new (now : ℤ) : HealthKept .new now := by
  constructor <;> simp [HealthServer.new, HealthState.new]

theorem HealthKept.wait (h : HealthKept w now) (hle : now ≤ later) : HealthKept w later where
  ready := fun r hr => (h.ready r hr).trans hle
  shutting := fun d hd => (h.shutting d hd).trans hle
  cache := by
    intro entry hentry
    have hkept := h.cache entry hentry
    exact { hkept with checked := hkept.checked.trans hle }
  probes := by
    intro probe hprobe
    have hkept := h.probes probe hprobe
    refine ⟨hkept.began.trans hle, hkept.open_, ?_, ?_, ?_⟩
    · intro hbegun hflag
      obtain ⟨r, hr, hready⟩ := hkept.ready hbegun hflag
      exact ⟨r, hr, hready.trans hle⟩
    · intro result pingedAt hphase
      obtain ⟨hafter, hbefore, hrests⟩ := hkept.pinged result pingedAt hphase
      exact ⟨hafter, hbefore.trans hle, hrests⟩
    · intro t ht
      cases hphase : probe.phase with
      | pinging =>
        obtain rfl : later = t := by simpa [hphase, ProbePhase.pingsAt] using ht
        exact (hkept.spaced now (by simp [hphase, ProbePhase.pingsAt])).of_le hle
      | pinged result pingedAt =>
        refine hkept.spaced t ?_
        simpa [hphase, ProbePhase.pingsAt] using ht
      | _ => simp [hphase, ProbePhase.pingsAt] at ht
  answers := by
    intro answer hanswer
    have hkept := h.answers answer hanswer
    exact { hkept with answered := hkept.answered.trans hle }

theorem HealthKept.setReady (h : HealthKept w now) : HealthKept (w.setReady now) now := by
  have hset : ∀ r ∈ w.state.readyAt, r ∈ (w.state.setReady now).readyAt := by
    intro r hr
    rw [Option.mem_def] at hr
    simp [HealthState.setReady, hr]
  refine ⟨?_, h.shutting, h.cache, ?_, ?_⟩
  · intro r hr
    obtain rfl : w.state.readyAt.getD now = r := by
      simpa [HealthServer.setReady, HealthState.setReady] using hr
    cases hready : w.state.readyAt with
    | none => simp
    | some r => simpa using h.ready r hready
  · intro probe hprobe
    have hkept := h.probes probe hprobe
    refine ⟨hkept.began, hkept.open_, ?_, hkept.pinged, hkept.spaced⟩
    intro hbegun hflag
    obtain ⟨r, hr, hready⟩ := hkept.ready hbegun hflag
    exact ⟨r, hset r hr, hready⟩
  · intro answer hanswer
    have hkept := h.answers answer hanswer
    refine { hkept with ready := ?_ }
    intro hok
    obtain ⟨r, hr, hready⟩ := hkept.ready hok
    exact ⟨r, hset r hr, hready⟩

/-- `set_shutting_down`: who saw the flag unset came before. -/
theorem HealthKept.setShuttingDown (h : HealthKept w now) :
    HealthKept (w.setShuttingDown now) now := by
  have hset : ∀ d ∈ (w.state.setShuttingDown now).shuttingDownAt,
      d ∈ w.state.shuttingDownAt ∨ d = now := by
    intro d hd
    obtain rfl : w.state.shuttingDownAt.getD now = d := by
      simpa [HealthState.setShuttingDown] using hd
    cases hshut : w.state.shuttingDownAt with
    | none => exact Or.inr rfl
    | some d => exact Or.inl rfl
  refine ⟨h.ready, ?_, h.cache, ?_, ?_⟩
  · intro d hd
    rcases hset d hd with hold | rfl
    · exact h.shutting d hold
    · exact le_rfl
  · intro probe hprobe
    have hkept := h.probes probe hprobe
    refine ⟨hkept.began, ?_, hkept.ready, hkept.pinged, hkept.spaced⟩
    intro hbegun d hd
    rcases hset d hd with hold | rfl
    · exact hkept.open_ hbegun d hold
    · exact hkept.began
  · intro answer hanswer
    have hkept := h.answers answer hanswer
    have hcame := hkept.began.trans hkept.answered
    refine { hkept with open_ := ?_, refused := ?_ }
    · intro hok d hd
      rcases hset d hd with hold | rfl
      · exact hkept.open_ hok d hold
      · exact hcame
    · intro d hd hafter
      rcases hset d hd with hold | rfl
      · exact hkept.refused d hold hafter
      · exact absurd hafter (not_lt.mpr hcame)

theorem HealthKept.withProbes (h : HealthKept w now) {probes : List Probe}
    (hprobes : ∀ probe ∈ probes, probe ∈ w.probes ∨ ProbeKept w now probe) :
    HealthKept { w with probes := probes } now := by
  refine ⟨h.ready, h.shutting, h.cache, ?_, ?_⟩
  · intro probe hprobe
    have hkept : ProbeKept w now probe := by
      rcases hprobes probe hprobe with hold | hnew
      · exact h.probes probe hold
      · exact hnew
    exact ⟨hkept.began, hkept.open_, hkept.ready, hkept.pinged, hkept.spaced⟩
  · intro answer hanswer
    have hkept := h.answers answer hanswer
    exact { hkept with }

theorem HealthKept.arrive (h : HealthKept w now) : HealthKept (w.arrive now) now := by
  apply h.withProbes
  intro probe hprobe
  rcases List.mem_append.mp hprobe with hold | hnew
  · exact Or.inl hold
  · obtain rfl := List.mem_singleton.mp hnew
    right
    constructor <;> simp [ProbePhase.pingsAt]

theorem HealthKept.drop (h : HealthKept w now) (i : ℕ) : HealthKept (w.drop i) now :=
  h.withProbes fun _ hprobe => Or.inl (List.mem_of_mem_eraseIdx hprobe)

theorem HealthKept.ping (h : HealthKept w now) (ping : ℤ × Option String) :
    HealthKept { w with pings := ping :: w.pings } now := by
  refine ⟨h.ready, h.shutting, ?_, ?_, ?_⟩
  · intro entry hentry
    have hkept := h.cache entry hentry
    exact { hkept with rests := hkept.rests.cons ping }
  · intro probe hprobe
    have hkept := h.probes probe hprobe
    refine ⟨hkept.began, hkept.open_, hkept.ready, ?_, hkept.spaced⟩
    intro result pingedAt hphase
    obtain ⟨hafter, hbefore, hrests⟩ := hkept.pinged result pingedAt hphase
    exact ⟨hafter, hbefore, hrests.cons ping⟩
  · intro answer hanswer
    have hkept := h.answers answer hanswer
    exact { hkept with backed := fun hok => (hkept.backed hok).cons ping }

/-- A probe is answered at `now`, and the cached ping may be replaced by a newer one. -/
theorem HealthKept.answered (h : HealthKept w now) (cache : Option CachedResult)
    (hcache : ∀ entry ∈ cache, CacheKept w.pings now entry)
    (hnewer : ∀ entry ∈ w.state.cache, ∃ entry' ∈ cache, entry.checkedAt ≤ entry'.checkedAt)
    (hanswer : AnswerKept { w with state := { w.state with cache := cache } } now answer)
    (hnow : answer.answeredAt = now) :
    HealthKept { w with
      state := { w.state with cache := cache }
      answers := answer :: w.answers } now := by
  refine ⟨h.ready, h.shutting, hcache, ?_, ?_⟩
  · intro probe hprobe
    have hkept := h.probes probe hprobe
    refine ⟨hkept.began, hkept.open_, hkept.ready, hkept.pinged, ?_⟩
    intro t ht
    exact (hkept.spaced t ht).cons (hkept.began.trans hnow.ge)
  · intro other hother
    rcases List.mem_cons.mp hother with rfl | hold
    · exact { hanswer with spaced := fun t ht => (hanswer.spaced t ht).cons hanswer.began }
    · have hkept := h.answers other hold
      refine { hkept with cached := ?_, spaced := ?_ }
      · intro hpinged
        obtain ⟨entry, hentry, hchecked⟩ := hkept.cached hpinged
        obtain ⟨entry', hentry', hle⟩ := hnewer entry hentry
        exact ⟨entry', hentry', hchecked.trans hle⟩
      · intro t ht
        exact (hkept.spaced t ht).cons ((hkept.began.trans hkept.answered).trans hnow.ge)

theorem HealthKept.spaced (h : HealthKept w now) (began : ℤ)
    (hold : ∀ entry ∈ w.state.cache, cacheTtl ≤ now - entry.checkedAt) :
    Spaced w.answers began now := by
  intro answer hanswer hpinged _
  obtain ⟨entry, hentry, hchecked⟩ := (h.answers answer hanswer).cached hpinged
  have hran := hold entry hentry
  linarith

theorem HealthKept.moved (h : HealthKept w now) (i : ℕ) (hprobe : ProbeKept w now probe) :
    HealthKept { w with probes := w.probes.set i probe } now := by
  apply h.withProbes
  intro other hother
  rcases List.mem_or_eq_of_mem_set hother with hold | rfl
  · exact Or.inl hold
  · exact Or.inr hprobe

theorem HealthKept.replied (h : HealthKept w now) (i : ℕ) (hanswer : AnswerKept w now answer)
    (hnow : answer.answeredAt = now) :
    HealthKept { w with probes := w.probes.eraseIdx i, answers := answer :: w.answers } now :=
  (h.drop i).answered _ h.cache (fun entry hentry => ⟨entry, hentry, le_rfl⟩) { hanswer with } hnow

theorem AnswerKept.refusal {began : ℤ} {result : ReadinessResult} (hbegan : began ≤ now)
    (hok : result.ok = false)
    (hrefused : ∀ d ∈ w.state.shuttingDownAt, d < began → result = shuttingDownResult) :
    AnswerKept w now ⟨began, now, result, .flags⟩ where
  began := hbegan
  answered := le_rfl
  ready := fun h => by simp [hok] at h
  open_ := fun h => by simp [hok] at h
  backed := fun h => by simp [hok] at h
  refused := hrefused
  cached := by simp [Answer.pingedAt]
  spaced := by simp [Answer.pingedAt]

/-- One step of `check_readiness`; the ping it makes is in the log. -/
theorem HealthKept.checkReadiness (h : HealthKept w now) (hprobe : ProbeKept w now probe) (i : ℕ)
    {pingError : Option String} (hlog : probe.phase = .pinging → (now, pingError) ∈ w.pings) :
    HealthKept (w.settle i (Health.checkReadiness w.state now pingError probe)) now := by
  obtain ⟨began, phase⟩ := probe
  cases phase with
  | begun =>
    simp only [Health.checkReadiness]
    split_ifs with hshut
    · exact h.replied i (.refusal hprobe.began rfl fun _ _ _ => rfl) rfl
    · refine h.moved i ⟨hprobe.began, ?_, fun _ hflag => absurd rfl hflag, by simp, ?_⟩
      · intro _ d hd
        rw [Option.mem_def] at hd
        simp [hd] at hshut
      · simp [ProbePhase.pingsAt]
  | notShuttingDown =>
    have hopen := hprobe.open_ (by simp)
    simp only [Health.checkReadiness]
    split_ifs with hready
    · refine h.moved i ⟨hprobe.began, fun _ => hopen, ?_, by simp, by simp [ProbePhase.pingsAt]⟩
      intro _ _
      obtain ⟨r, hr⟩ := Option.isSome_iff_exists.mp hready
      exact ⟨r, hr, h.ready r hr⟩
    · refine h.replied i (.refusal hprobe.began rfl ?_) rfl
      intro d hd hafter
      exact absurd hafter (not_lt.mpr (hopen d hd))
  | ready =>
    have hopen := hprobe.open_ (by simp)
    have hready := hprobe.ready (by simp) (by simp)
    have hping : (∀ entry ∈ w.state.cache, cacheTtl ≤ now - entry.checkedAt) →
        ProbeKept w now ⟨began, .pinging⟩ := by
      intro hold
      refine ⟨hprobe.began, fun _ => hopen, fun _ _ => hready, by simp, ?_⟩
      intro t ht
      obtain rfl : now = t := by simpa [ProbePhase.pingsAt] using ht
      exact h.spaced began hold
    simp only [Health.checkReadiness]
    cases hcache : w.state.cache with
    | none => exact h.moved i (hping (by simp [hcache]))
    | some entry =>
      have hentry := h.cache entry hcache
      simp only
      split_ifs with hfresh
      · refine h.replied i ?_ rfl
        refine ⟨hprobe.began, le_rfl, fun _ => hready, fun _ => hopen, ?_, ?_, ?_, ?_⟩
        · intro hok
          exact ⟨hentry.rests.succeeded hok, hentry.pinged, hentry.checked, hfresh⟩
        · intro d hd hafter
          exact absurd hafter (not_lt.mpr (hopen d hd))
        · simp [Answer.pingedAt]
        · simp [Answer.pingedAt]
      · exact h.moved i (hping (by simpa [hcache] using hfresh))
  | pinging =>
    refine h.moved i ⟨hprobe.began, fun _ => hprobe.open_ (by simp),
      fun _ _ => hprobe.ready (by simp) (by simp), ?_, hprobe.spaced⟩
    intro result pingedAt hphase
    obtain ⟨rfl, rfl⟩ := ProbePhase.pinged.inj hphase
    exact ⟨hprobe.began, le_rfl, pingError, hlog rfl, rfl⟩
  | pinged result pingedAt =>
    have hopen := hprobe.open_ (by simp)
    obtain ⟨hafter, hbefore, hrests⟩ := hprobe.pinged result pingedAt rfl
    refine (h.drop i).answered (some ⟨result, pingedAt, now⟩) ?_ ?_ ?_ rfl
    · intro entry hentry
      obtain rfl := Option.some.inj hentry
      exact ⟨hbefore, le_rfl, hrests⟩
    · intro entry hentry
      exact ⟨_, rfl, (h.cache entry hentry).checked⟩
    · refine ⟨hprobe.began, le_rfl, fun _ => hprobe.ready (by simp) (by simp), fun _ => hopen,
        ?_, ?_, ?_, ?_⟩
      · intro hok
        exact ⟨hrests.succeeded hok, hafter, hbefore⟩
      · intro d hd hlate
        exact absurd hlate (not_lt.mpr (hopen d hd))
      · intro _
        exact ⟨_, rfl, le_rfl⟩
      · exact hprobe.spaced

theorem checkReadiness_flags {h : HealthState} {pingError : Option String} :
    (checkReadiness h now pingError probe).1.readyAt = h.readyAt ∧
      (checkReadiness h now pingError probe).1.shuttingDownAt = h.shuttingDownAt := by
  unfold Health.checkReadiness
  split
  · split_ifs <;> exact ⟨rfl, rfl⟩
  · split_ifs <;> exact ⟨rfl, rfl⟩
  · split
    · split_ifs <;> exact ⟨rfl, rfl⟩
    · exact ⟨rfl, rfl⟩
  · exact ⟨rfl, rfl⟩
  · exact ⟨rfl, rfl⟩

theorem settle_state (i : ℕ) (next : HealthState × (Probe ⊕ Answer)) :
    (w.settle i next).state = next.1 := by
  unfold HealthServer.settle
  split <;> rfl

theorem goOn_flags {i : ℕ} {pingError : Option String}
    (hstep : w.goOn now i pingError = some w') :
    w'.state.readyAt = w.state.readyAt ∧ w'.state.shuttingDownAt = w.state.shuttingDownAt := by
  obtain ⟨probe, -, rfl⟩ := Option.map_eq_some_iff.mp hstep
  rw [settle_state]
  exact checkReadiness_flags

theorem goOn_nil {i : ℕ} {pingError : Option String} (hnil : w.probes = []) :
    w.goOn now i pingError = none := by
  simp [HealthServer.goOn, hnil]

theorem HealthKept.goOn (h : HealthKept w now) {i : ℕ} {pingError : Option String}
    (hstep : w.goOn now i pingError = some w') : HealthKept w' now := by
  obtain ⟨probe, hat, rfl⟩ := Option.map_eq_some_iff.mp hstep
  have hmem := List.mem_of_getElem? hat
  unfold HealthServer.logPing
  split_ifs with hping
  · have hlogged := h.ping (now, pingError)
    exact hlogged.checkReadiness (hlogged.probes probe hmem) i fun _ => List.mem_cons_self
  · exact h.checkReadiness (h.probes probe hmem) i fun hphase => absurd hphase hping

end Kept
end CryptoCollector.Health
