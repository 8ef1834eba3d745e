import CryptoCollector.Lifecycle.Startup

/-!
# The shutdown of a process

Readiness goes off, the grace period passes, everybody is told to stop, the servers are joined,
the workers are waited for up to the drain limit, and the pool is closed.
-/

namespace CryptoCollector.Lifecycle
open Foundations Health Collectors

/-- The flag, the grace period and the broadcast follow each other. -/
def OrchestratorKept (config : ShutdownConfig) (s : Process) : Orchestrator → Prop
  | .waiting => s.health.state.shuttingDownAt = none ∧ s.broadcastAt = none
  | .grace overAt =>
    (∃ d ∈ s.health.state.shuttingDownAt, d + config.grace = overAt) ∧ s.broadcastAt = none
  | .finished => ∃ d ∈ s.health.state.shuttingDownAt, ∃ t ∈ s.broadcastAt,
      d + config.grace ≤ t ∧ t ≤ s.clock

/-- The servers are joined, and nothing was ever started or the workers were waited for. -/
def MayClose (config : ShutdownConfig) (s : Process) (now : ℤ) : Prop :=
  s.healthJoined ∧ (s.workersAt = none ∧ s.boundAt = none ∨
    ∃ j ∈ s.joinedAt, s.workers = .finished ∨ j + config.drain ≤ now)

/-- `main` has not come to the end of the servers, or of its wait for the health server. -/
def MainPhase.Starting : MainPhase → Prop
  | .draining _ | .closing | .ended => False
  | _ => True

structure ShutdownKept (config : ShutdownConfig) (s : Process) : Prop where
  orchestrator : OrchestratorKept config s s.orchestrator
  stopped : s.api = .stopped ∨ s.workers = .finished ∨ s.healthServing = false →
    s.broadcastAt.isSome
  emptied : s.healthServing = false → s.health.probes = []
  answered : s.api = .stopped → s.requests = 0
  drained : s.workers = .finished → ∀ task ∈ config.workers, (s.supervisors task).phase = .stopped
  joined : ∀ j ∈ s.joinedAt, ¬s.main.Starting ∧ j ≤ s.clock ∧ s.api = .stopped ∧
    ∃ t ∈ s.broadcastAt, t ≤ j
  draining : ∀ since, s.main = .draining since → s.joinedAt = some since ∧ s.healthJoined
  closing : s.main = .closing → MayClose config s s.clock
  closed : ∀ c ∈ s.closedAt, s.main = .ended ∧ s.held = 0 ∧ c ≤ s.clock ∧ MayClose config s c ∧
    ∃ t ∈ s.broadcastAt, t ≤ c
  ended : s.main = .ended → s.closedAt.isSome

section Shutdown

variable {config : ShutdownConfig} {s t : Process}

theorem ShutdownKept.start (now : ℤ) : ShutdownKept config (.start now) := by
  constructor <;> simp [Process.start, OrchestratorKept, HealthServer.new, HealthState.new]

theorem ShutdownKept.broadcast (h : ShutdownKept config s) (hjoined : s.healthJoined) :
    ∃ t ∈ s.broadcastAt, t ≤ s.clock := by
  have hkept := h.orchestrator
  rw [hjoined.2] at hkept
  obtain ⟨-, -, t, ht, -, hpast⟩ := hkept
  exact ⟨t, ht, hpast⟩

theorem ShutdownKept.starting (h : ShutdownKept config s) (hbefore : s.main.Starting)
    (hafter : t.main.Starting) (hclock : t.clock = s.clock)
    (horchestrator : t.orchestrator = s.orchestrator)
    (hshutting : t.health.state.shuttingDownAt = s.health.state.shuttingDownAt)
    (hprobes : t.health.probes = s.health.probes) (hserving : t.healthServing = s.healthServing)
    (hbroadcast : t.broadcastAt = s.broadcastAt) (hjoined : t.joinedAt = s.joinedAt)
    (hclosed : t.closedAt = s.closedAt)
    (hapi : t.api = .stopped → s.api = .stopped ∧ t.requests = s.requests)
    (hworkers : t.workers = .finished → s.workers = .finished ∧ t.supervisors = s.supervisors) :
    ShutdownKept config t where
  orchestrator := by
    have hkept := h.orchestrator
    rw [horchestrator]
    cases hphase : s.orchestrator <;> rw [hphase] at hkept <;>
      simpa only [OrchestratorKept, hshutting, hbroadcast, hclock] using hkept
  stopped := by
    intro hstopped
    rw [hbroadcast]
    rw [hserving] at hstopped
    exact h.stopped (hstopped.imp (And.left ∘ hapi) (Or.imp_left (And.left ∘ hworkers)))
  emptied := by
    rw [hserving, hprobes]
    exact h.emptied
  answered := by
    intro hstopped
    obtain ⟨hold, hrequests⟩ := hapi hstopped
    rw [hrequests]
    exact h.answered hold
  drained := by
    intro hfinished
    obtain ⟨hold, hsupervisors⟩ := hworkers hfinished
    rw [hsupervisors]
    exact h.drained hold
  joined := by
    rw [hjoined]
    intro j hj
    exact absurd hbefore (h.joined j hj).1
  draining := by
    intro since hphase
    rw [hphase] at hafter
    exact hafter.elim
  closing := by
    intro hphase
    rw [hphase] at hafter
    exact hafter.elim
  closed := by
    rw [hclosed]
    intro c hc
    rw [(h.closed c hc).1] at hbefore
    exact hbefore.elim
  ended := by
    intro hphase
    rw [hphase] at hafter
    exact hafter.elim

theorem ShutdownKept.advance (h : ShutdownKept config s) {main : MainPhase} {failures : List ℤ}
    {migratedAt : Option ℤ} (hbefore : s.main.Starting) (hafter : main.Starting) :
    ShutdownKept config { s with
      main := main, failures := failures, migratedAt := migratedAt } :=
  h.starting hbefore hafter rfl rfl rfl rfl rfl rfl rfl rfl (fun hstopped => ⟨hstopped, rfl⟩)
    fun hfinished => ⟨hfinished, rfl⟩

theorem ShutdownKept.unclosed (h : ShutdownKept config s) (hmain : s.main ≠ .ended) :
    s.closedAt = none := by
  by_contra hne
  obtain ⟨c, hc⟩ := Option.ne_none_iff_exists'.mp hne
  exact hmain (h.closed c hc).1

theorem ShutdownKept.mainStep (h : ShutdownKept config s) (hstart : StartKept s)
    {retries : Bool} (hmoved : MainMoved config s retries t) : ShutdownKept config t := by
  cases hmoved with
  | entered hmain _ => exact h.advance (by simp [hmain, MainPhase.Starting]) trivial
  | attemptFailed hmain => exact h.advance (by simp [hmain, MainPhase.Starting]) trivial
  | woken hmain _ => exact h.advance (by simp [hmain, MainPhase.Starting]) trivial
  | aborted hmain _ =>
    have hbefore : s.main.Starting := by
      obtain hmain | ⟨_, hmain⟩ | ⟨_, _, hmain⟩ := hmain <;> simp [hmain, MainPhase.Starting]
    exact h.advance hbefore trivial
  | abandoned hmain hjoined =>
    have hstanding := hstart.standing
    rw [hmain] at hstanding
    have hspawned := hstart.unspawned hstanding
    have hunclosed := h.unclosed (by simp [hmain])
    refine ⟨h.orchestrator, h.stopped, h.emptied, h.answered, h.drained, ?_, ?_, ?_, ?_, ?_⟩
    · intro j hj
      exact absurd (by simp [hmain, MainPhase.Starting]) (h.joined j hj).1
    · simp
    · exact fun _ => ⟨hjoined, .inl ⟨hspawned, hstart.unbound hspawned⟩⟩
    · simp [hunclosed]
    · simp
  | migrated hmain => exact h.advance (by simp [hmain, MainPhase.Starting]) trivial
  | validated before after hpair hmain =>
    simp only [List.mem_cons, Prod.mk.injEq, List.not_mem_nil, or_false] at hpair
    obtain ⟨rfl, rfl⟩ | ⟨rfl, rfl⟩ | ⟨rfl, rfl⟩ := hpair <;>
      exact h.advance (by simp [hmain, MainPhase.Starting]) trivial
  | rejected hmain =>
    have hbefore : s.main.Starting := by
      simp only [List.mem_cons, List.not_mem_nil, or_false] at hmain
      obtain hmain | hmain | hmain := hmain <;> simp [hmain, MainPhase.Starting]
    exact h.advance hbefore trivial
  | workersSpawned hmain =>
    exact h.starting (by simp [hmain, MainPhase.Starting]) trivial rfl rfl rfl rfl rfl rfl rfl rfl
      (fun hstopped => ⟨hstopped, rfl⟩) (by simp)
  | apiBound hmain =>
    exact h.starting (by simp [hmain, MainPhase.Starting]) trivial rfl rfl rfl rfl rfl rfl rfl rfl
      (by simp) fun hfinished => ⟨hfinished, rfl⟩
  | ready hmain =>
    exact h.starting (by simp [hmain, MainPhase.Starting]) trivial rfl rfl rfl rfl rfl rfl rfl rfl
      (fun hstopped => ⟨hstopped, rfl⟩) fun hfinished => ⟨hfinished, rfl⟩
  | serving hmain =>
    exact h.starting (by simp [hmain, MainPhase.Starting]) trivial rfl rfl rfl rfl rfl rfl rfl rfl
      (by simp) fun hfinished => ⟨hfinished, rfl⟩
  | joined hmain hapi hjoined =>
    have hunclosed := h.unclosed (by simp [hmain])
    refine ⟨h.orchestrator, h.stopped, h.emptied, h.answered, h.drained, ?_, ?_, ?_, ?_, ?_⟩
    · intro j hj
      obtain rfl := Option.some.inj hj
      exact ⟨id, le_rfl, hapi, h.broadcast hjoined⟩
    · intro since hsince
      obtain rfl := MainPhase.draining.inj hsince
      exact ⟨rfl, hjoined⟩
    · simp
    · simp [hunclosed]
    · simp
  | drained hmain hdrained =>
    have hunclosed := h.unclosed (by simp [hmain])
    obtain ⟨hj, hjoined⟩ := h.draining _ hmain
    refine ⟨h.orchestrator, h.stopped, h.emptied, h.answered, h.drained, ?_, ?_, ?_, ?_, ?_⟩
    · intro j hj
      exact ⟨id, (h.joined j hj).2⟩
    · simp
    · exact fun _ => ⟨hjoined, .inr ⟨_, hj, hdrained⟩⟩
    · simp [hunclosed]
    · simp
  | closed hmain hheld =>
    have hmay := h.closing hmain
    refine ⟨h.orchestrator, h.stopped, h.emptied, h.answered, h.drained, ?_, ?_, ?_, ?_, ?_⟩
    · intro j hj
      exact ⟨id, (h.joined j hj).2⟩
    · simp
    · simp
    · intro c hc
      obtain rfl := Option.some.inj hc
      exact ⟨rfl, hheld, le_rfl, hmay, h.broadcast hmay.1⟩
    · simp

theorem ShutdownKept.wait (h : ShutdownKept config s) {now : ℤ} (hle : s.clock ≤ now) :
    ShutdownKept config { s with clock := now } := by
  refine ⟨?_, h.stopped, h.emptied, h.answered, h.drained, ?_, h.draining, ?_, ?_, h.ended⟩
  · have hkept := h.orchestrator
    cases hphase : s.orchestrator <;> rw [hphase] at hkept <;>
      simp only [OrchestratorKept] at hkept ⊢
    · exact hkept
    · exact hkept
    · obtain ⟨d, hd, t, ht, hgrace, hpast⟩ := hkept
      exact ⟨d, hd, t, ht, hgrace, hpast.trans hle⟩
  · intro j hj
    obtain ⟨hphase, hpast, hrest⟩ := h.joined j hj
    exact ⟨hphase, hpast.trans hle, hrest⟩
  · intro hmain
    obtain ⟨hjoined, hnothing | ⟨j, hj, hdrained⟩⟩ := h.closing hmain
    · exact ⟨hjoined, .inl hnothing⟩
    · exact ⟨hjoined, .inr ⟨j, hj, hdrained.imp_right fun hover => hover.trans hle⟩⟩
  · intro c hc
    obtain ⟨hmain, hheld, hpast, hrest⟩ := h.closed c hc
    exact ⟨hmain, hheld, hpast.trans hle, hrest⟩

/-- Nothing is joined and the pool is not closed while the orchestrator has not ended. -/
theorem ShutdownKept.orchestrating (h : ShutdownKept config s) (hbroadcast : s.broadcastAt = none) :
    s.joinedAt = none ∧ s.closedAt = none ∧ ¬s.healthJoined := by
  refine ⟨?_, ?_, ?_⟩
  · by_contra hne
    obtain ⟨j, hj⟩ := Option.ne_none_iff_exists'.mp hne
    obtain ⟨-, -, -, t, ht, -⟩ := h.joined j hj
    simp [hbroadcast] at ht
  · by_contra hne
    obtain ⟨c, hc⟩ := Option.ne_none_iff_exists'.mp hne
    obtain ⟨-, -, -, -, t, ht, -⟩ := h.closed c hc
    simp [hbroadcast] at ht
  · intro hjoined
    obtain ⟨t, ht, -⟩ := h.broadcast hjoined
    simp [hbroadcast] at ht

theorem ShutdownKept.orchestrate (h : ShutdownKept config s) {orchestrator : Orchestrator}
    {health : HealthServer} {broadcastAt : Option ℤ} (hbroadcast : s.broadcastAt = none)
    (hprobes : health.probes = s.health.probes)
    (hkept : OrchestratorKept config { s with
      orchestrator := orchestrator, health := health, broadcastAt := broadcastAt } orchestrator) :
    ShutdownKept config { s with
      orchestrator := orchestrator, health := health, broadcastAt := broadcastAt } := by
  obtain ⟨hunjoined, hunclosed, hjoined⟩ := h.orchestrating hbroadcast
  refine ⟨hkept, ?_, ?_, h.answered, h.drained, ?_, ?_, ?_, ?_, h.ended⟩
  · intro hstopped
    have hsome := h.stopped hstopped
    simp [hbroadcast] at hsome
  · simpa only [hprobes] using h.emptied
  · simp [hunjoined]
  · intro since hmain
    exact absurd (h.draining since hmain).2 hjoined
  · intro hmain
    exact absurd (h.closing hmain).1 hjoined
  · simp [hunclosed]

theorem MayClose.finished {now : ℤ} (h : MayClose config s now) :
    MayClose config { s with workers := .finished } now := by
  obtain ⟨hjoined, hnothing | ⟨j, hj, -⟩⟩ := h
  · exact ⟨hjoined, .inl hnothing⟩
  · exact ⟨hjoined, .inr ⟨j, hj, .inl rfl⟩⟩

theorem ShutdownKept.moved (h : ShutdownKept config s) (hstart : StartKept s)
    (hmoved : Moved config s t) : ShutdownKept config t := by
  have hkept := h.orchestrator
  cases hmoved with
  | main hmain => exact h.mainStep hstart hmain
  | signalled hphase =>
    rw [hphase] at hkept
    obtain ⟨hshutting, hbroadcast⟩ := hkept
    have hset : s.clock ∈ (s.health.setShuttingDown s.clock).state.shuttingDownAt := by
      simp [HealthServer.setShuttingDown, HealthState.setShuttingDown, hshutting]
    exact h.orchestrate hbroadcast rfl ⟨⟨s.clock, hset, rfl⟩, hbroadcast⟩
  | graceOver hphase hover =>
    rw [hphase] at hkept
    obtain ⟨⟨d, hd, rfl⟩, hbroadcast⟩ := hkept
    exact h.orchestrate hbroadcast rfl ⟨d, hd, s.clock, rfl, hover, le_rfl⟩
  | @supervised task event sup _ _ hsup =>
    refine ⟨hkept, h.stopped, h.emptied, h.answered, ?_, h.joined, h.draining, h.closing, h.closed,
      h.ended⟩
    intro hfinished other hother
    have hstopped := h.drained hfinished other hother
    by_cases hsame : other = task
    · subst hsame
      cases event <;> simp [Supervisor.step, hstopped] at hsup
    · simpa [Function.update_of_ne hsame] using hstopped
  | workersFinished _ hbroadcast hstopped =>
    refine ⟨hkept, fun _ => hbroadcast, h.emptied, h.answered, fun _ => hstopped, h.joined,
      h.draining, ?_, ?_, h.ended⟩
    · exact fun hmain => (h.closing hmain).finished
    · intro c hc
      obtain ⟨hmain, hheld, hpast, hmay, hsent⟩ := h.closed c hc
      exact ⟨hmain, hheld, hpast, hmay.finished, hsent⟩
  | asked hrequests =>
    refine ⟨hkept, h.stopped, h.emptied, ?_, h.drained, h.joined, h.draining, h.closing, h.closed,
      h.ended⟩
    exact fun hstopped => Nat.le_zero.mp ((hrequests hstopped).trans_eq (h.answered hstopped))
  | apiStopped _ hbroadcast hrequests =>
    refine ⟨hkept, fun _ => hbroadcast, h.emptied, fun _ => hrequests, h.drained, ?_, h.draining,
      h.closing, h.closed, h.ended⟩
    intro j hj
    obtain ⟨hphase, hpast, -, hsent⟩ := h.joined j hj
    exact ⟨hphase, hpast, rfl, hsent⟩
  | connected hheld =>
    refine ⟨hkept, h.stopped, h.emptied, h.answered, h.drained, h.joined, h.draining, h.closing, ?_,
      h.ended⟩
    intro c hc
    obtain ⟨hmain, hnone, hrest⟩ := h.closed c hc
    exact ⟨hmain, Nat.le_zero.mp ((hheld hmain).trans_eq hnone), hrest⟩
  | healthStopped hbroadcast hprobes =>
    refine ⟨hkept, fun _ => hbroadcast, fun _ => hprobes, h.answered, h.drained, h.joined, ?_, ?_,
      ?_, h.ended⟩
    · intro since hmain
      obtain ⟨hj, hjoined⟩ := h.draining since hmain
      exact ⟨hj, rfl, hjoined.2⟩
    · intro hmain
      obtain ⟨hjoined, hrest⟩ := h.closing hmain
      exact ⟨⟨rfl, hjoined.2⟩, hrest⟩
    · intro c hc
      obtain ⟨hmain, hheld, hpast, ⟨hjoined, hrest⟩, hsent⟩ := h.closed c hc
      exact ⟨hmain, hheld, hpast, ⟨⟨rfl, hjoined.2⟩, hrest⟩, hsent⟩
  | probed _ hshutting hnil _ =>
    refine ⟨?_, h.stopped, fun hstopped => hnil hstopped (h.emptied hstopped), h.answered,
      h.drained, h.joined, h.draining, h.closing, h.closed, h.ended⟩
    cases hphase : s.orchestrator <;> rw [hphase] at hkept <;>
      simpa only [OrchestratorKept, hshutting] using hkept

end Shutdown
end CryptoCollector.Lifecycle
