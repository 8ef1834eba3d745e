import CryptoCollector.Collectors.LeaseLoop

/-!
# Runs of the lease worker loop

What a replica does, in order: it claims with nothing in hand, beats for what it works on,
ends the heartbeat before the first write of `finalize`, and claims again only after the
claim has its end. The table never sees more of it than the steps of a lease worker, but for
a beat a panic left behind.
-/

namespace CryptoCollector.Collectors
open Foundations

/-- The claim that is open after what the log says. -/
def openIn : List LoopEvent → Option OpenClaim
  | [] => none
  | .claimed c :: _ => some c
  | .wrote _ op :: log | .refused _ op :: log => if op.event.isSome then none else openIn log
  | .panicked _ :: _ | .killed _ :: _ => none
  | .checked :: log | .shutdownSet :: log | .orphaned :: log | .beat _ _ :: log
  | .joined _ :: log => openIn log

/-- What may follow a log. -/
def Allowed (log : List LoopEvent) : LoopEvent → Prop
  | .checked | .orphaned => openIn log = none
  | .shutdownSet => .shutdownSet ∉ log
  | .claimed c => openIn log = none ∧ .claimed c ∉ log
  | .beat c _ =>
    .joined c ∉ log ∧ .beat c .fencedOut ∉ log ∧ (openIn log = some c ∨ .panicked c ∈ log)
  | .joined c => openIn log = some c ∧ .joined c ∉ log
  | .wrote c _ | .refused c _ => openIn log = some c ∧ .joined c ∈ log
  | .panicked c | .killed c => openIn log = some c

/-- Every event was allowed where it came. -/
def Disciplined : List LoopEvent → Prop
  | [] => True
  | event :: log => Allowed log event ∧ Disciplined log

def endsClaim (c : OpenClaim) : LoopEvent → Bool
  | .wrote c' op | .refused c' op => c' = c ∧ op.event.isSome
  | .panicked c' | .killed c' => c' = c
  | .checked | .shutdownSet | .claimed _ | .orphaned | .beat _ _ | .joined _ => false

/-- A claim, also one whose answer was lost. -/
def isClaim : LoopEvent → Bool
  | .claimed _ | .orphaned => true
  | .checked | .shutdownSet | .beat _ _ | .joined _ | .wrote _ _ | .refused _ _ | .panicked _
  | .killed _ => false

def claimsSinceShutdown (log : List LoopEvent) : ℕ :=
  (log.takeWhile fun event => event ≠ .shutdownSet).countP isClaim

section Log

variable {log : List LoopEvent} {c : OpenClaim}

theorem claimed_of_open (h : openIn log = some c) : .claimed c ∈ log := by
  induction log with
  | nil => cases h
  | cons event log ih =>
    cases event with
    | claimed c' =>
      obtain rfl := Option.some.inj h
      exact List.mem_cons_self
    | wrote c' op | refused c' op =>
      simp only [openIn] at h
      split_ifs at h
      exact List.mem_cons_of_mem _ (ih h)
    | panicked c' | killed c' => cases h
    | checked | shutdownSet | orphaned | beat c' step | joined c' =>
      exact List.mem_cons_of_mem _ (ih h)

theorem endsClaim_openIn {event : LoopEvent} (hallowed : Allowed log event)
    (hend : endsClaim c event = true) : openIn log = some c ∧ openIn (event :: log) = none := by
  cases event with
  | wrote c' op | refused c' op =>
    obtain ⟨rfl, hterminal⟩ := of_decide_eq_true hend
    exact ⟨hallowed.1, if_pos hterminal⟩
  | panicked c' | killed c' =>
    obtain rfl := of_decide_eq_true hend
    exact ⟨hallowed, rfl⟩
  | checked | shutdownSet | claimed c' | orphaned | beat c' step | joined c' => cases hend

theorem openIn_cons {event : LoopEvent} (hallowed : Allowed log event)
    (hclaim : event ≠ .claimed c) (hend : endsClaim c event = false) :
    openIn (event :: log) = some c ↔ openIn log = some c := by
  cases event with
  | claimed c' =>
    have hne : c' ≠ c := fun hsame => hclaim (hsame ▸ rfl)
    simp only [openIn, hallowed.1]
    simp [hne]
  | wrote c' op | refused c' op =>
    simp only [openIn]
    split_ifs with hterminal
    · have hne : c' ≠ c := by
        intro hsame
        simp [endsClaim, hsame, hterminal] at hend
      simp [hallowed.1, hne]
    · rfl
  | panicked c' | killed c' =>
    have hne : c' ≠ c := by
      intro hsame
      simp [endsClaim, hsame] at hend
    have hopen : openIn log = some c' := hallowed
    simp [openIn, hopen, hne]
  | checked | shutdownSet | orphaned | beat c' step | joined c' => rfl

/-- Each claim is open or has its one end. -/
theorem Disciplined.ends_once (h : Disciplined log) (c : OpenClaim) :
    (log.countP (endsClaim c) = if .claimed c ∈ log ∧ openIn log ≠ some c then 1 else 0) := by
  induction log with
  | nil => simp
  | cons event log ih =>
    obtain ⟨hallowed, hlog⟩ := h
    have hcount := ih hlog
    by_cases hclaim : event = .claimed c
    · subst hclaim
      obtain ⟨-, hfresh⟩ := hallowed
      rw [List.countP_cons_of_neg (by simp [endsClaim]), hcount]
      simp [hfresh, openIn]
    · have hmem : .claimed c ∈ event :: log ↔ .claimed c ∈ log := by
        simp [Ne.symm hclaim]
      cases hend : endsClaim c event with
      | true =>
        obtain ⟨hopen, hclosed⟩ := endsClaim_openIn hallowed hend
        rw [List.countP_cons_of_pos hend, hcount]
        simp [hmem, hopen, hclosed, claimed_of_open hopen]
      | false =>
        rw [List.countP_cons_of_neg (by simp [hend]), hcount]
        simp [hmem, openIn_cons hallowed hclaim hend]

/-- The claim an event is about, other than its own claim. -/
def LoopEvent.about : LoopEvent → Option OpenClaim
  | .beat c _ | .joined c | .wrote c _ | .refused c _ | .panicked c | .killed c => some c
  | .checked | .shutdownSet | .claimed _ | .orphaned => none

theorem Disciplined.claimed_of_mem (h : Disciplined log) {event : LoopEvent}
    (hmem : event ∈ log) (habout : event.about = some c) : .claimed c ∈ log := by
  induction log generalizing event with
  | nil => cases hmem
  | cons newest log ih =>
    obtain ⟨hallowed, hlog⟩ := h
    refine List.mem_cons_of_mem _ ?_
    rcases List.mem_cons.mp hmem with rfl | hold
    · cases event with
      | beat c' step =>
        obtain rfl := Option.some.inj habout
        rcases hallowed.2.2 with hopen | hpanicked
        · exact claimed_of_open hopen
        · exact ih hlog hpanicked rfl
      | joined c' | wrote c' op | refused c' op =>
        obtain rfl := Option.some.inj habout
        exact claimed_of_open hallowed.1
      | panicked c' | killed c' =>
        obtain rfl := Option.some.inj habout
        exact claimed_of_open hallowed
      | checked | shutdownSet | claimed c' | orphaned => cases habout
    · exact ih hlog hold habout

end Log

/-- A task beats for the item being worked on, until the loop tells it to stop; any other was
left behind by a panic and is told so. -/
structure TaskKept {P R : Type*} (l : LeaseLoop P R) (c : OpenClaim) (task : HeartbeatTask) :
    Prop where
  unjoined : .joined c ∉ l.log
  unfenced : .beat c .fencedOut ∉ l.log
  claimed : .claimed c ∈ l.log
  owner : (∃ item, l.phase = .working c item) ∧ task.stopped = false ∨
    (∃ item result, l.phase = .stopping c item result) ∧ task.stopped = true ∨
    .panicked c ∈ l.log ∧ task.stopped = true

/-- What a replica keeps to. -/
structure LoopKept {W P R : Type*} (s : World W P) (w : W) (l : LeaseLoop P R) : Prop where
  holding : s.holding w = l.phase.claim
  opened : openIn l.log = l.phase.claim
  numbered : ∀ c, .claimed c ∈ l.log → c.number ≤ s.claimCount c.id
  tasks : ∀ c task, l.tasks c = some task → TaskKept l c task
  working : ∀ c, (∃ item, l.phase = .working c item) ∨
    (∃ item result, l.phase = .stopping c item result) → .joined c ∉ l.log
  finalizing : ∀ c writes outcome, l.phase = .finalizing c writes outcome →
    EndsClaim writes ∧ .joined c ∈ l.log
  shutdown : l.shutdown = true ↔ .shutdownSet ∈ l.log
  disciplined : Disciplined l.log

/-- What a step of one replica leaves the others. -/
structure Framed {W P : Type*} (w : W) (s t : World W P) : Prop where
  holding : ∀ other, other ≠ w → t.holding other = s.holding other
  counts : ∀ id, s.claimCount id ≤ t.claimCount id

section Kept

variable {W P R : Type*} {s t : World W P} {self other : W} {l : LeaseLoop P R}

theorem Framed.refl (self : W) (s : World W P) : Framed self s s :=
  ⟨fun _ _ => rfl, fun _ => le_rfl⟩

theorem Framed.trans {u : World W P} (h : Framed self s t) (h' : Framed self t u) :
    Framed self s u where
  holding other hne := (h'.holding other hne).trans (h.holding other hne)
  counts id := (h.counts id).trans (h'.counts id)

theorem LoopKept.new (self : W) : LoopKept (World.empty : World W P) self (.new : LeaseLoop P R) :=
  ⟨rfl, rfl, by simp [LeaseLoop.new], by simp [LeaseLoop.new], by simp [LeaseLoop.new],
    by simp [LeaseLoop.new], by simp [LeaseLoop.new], trivial⟩

theorem LoopKept.of_holding (h : LoopKept s self l) (hholding : t.holding self = s.holding self)
    (hcounts : ∀ id, s.claimCount id ≤ t.claimCount id) : LoopKept t self l :=
  ⟨hholding.trans h.holding, h.opened, fun c hc => (h.numbered c hc).trans (hcounts c.id),
    h.tasks, h.working, h.finalizing, h.shutdown, h.disciplined⟩

theorem LoopKept.frame (h : LoopKept s other l) (hframe : Framed self s t) (hne : other ≠ self) :
    LoopKept t other l :=
  h.of_holding (hframe.holding other hne) hframe.counts

theorem TaskKept.detached {c : OpenClaim} {task : HeartbeatTask} (h : TaskKept l c task)
    (hphase : l.phase.claim ≠ some c) : .panicked c ∈ l.log ∧ task.stopped = true := by
  rcases h.owner with ⟨⟨item, hworking⟩, -⟩ | ⟨⟨item, result, hstopping⟩, -⟩ | hleft
  · exact absurd (by rw [hworking]; rfl) hphase
  · exact absurd (by rw [hstopping]; rfl) hphase
  · exact hleft

theorem TaskKept.leave {c : OpenClaim} {task : HeartbeatTask} {phase : LoopPhase P R}
    {tasks : OpenClaim → Option HeartbeatTask} {shutdown senderDropped : Bool}
    (h : TaskKept l c task) (hphase : l.phase.claim ≠ some c) (events : List LoopEvent)
    (hjoined : .joined c ∉ events) (hfenced : .beat c .fencedOut ∉ events) :
    TaskKept ⟨phase, tasks, shutdown, senderDropped, events ++ l.log⟩ c task where
  unjoined := by simp [hjoined, h.unjoined]
  unfenced := by simp [hfenced, h.unfenced]
  claimed := List.mem_append_right _ h.claimed
  owner := by
    obtain ⟨hpanicked, hstopped⟩ := h.detached hphase
    exact Or.inr (Or.inr ⟨List.mem_append_right _ hpanicked, hstopped⟩)

theorem working_claim {c : OpenClaim} {phase : LoopPhase P R}
    (h : (∃ item, phase = .working c item) ∨ ∃ item result, phase = .stopping c item result) :
    phase.claim = some c := by
  rcases h with ⟨item, rfl⟩ | ⟨item, result, rfl⟩ <;> rfl

theorem LoopKept.move (h : LoopKept s self l) {phase : LoopPhase P R} {events : List LoopEvent}
    (hbefore : l.phase.claim = none) (hafter : phase.claim = none)
    (hframe : Framed self s t) (hidle : t.holding self = none)
    (hevents : events = [] ∨ events = [.checked] ∨ events = [.orphaned]) :
    LoopKept t self { l with phase := phase, log := events ++ l.log } := by
  have hopen : openIn l.log = none := h.opened.trans hbefore
  have hmem : ∀ event, event ∈ events → event.about = none ∧ (∀ c, event ≠ .claimed c) ∧
      event ≠ .shutdownSet := by
    rcases hevents with rfl | rfl | rfl <;> simp [LoopEvent.about]
  have habout : ∀ event : LoopEvent, event.about ≠ none → event ∉ events :=
    fun event habout hevent => habout (hmem event hevent).1
  refine ⟨hidle.trans hafter.symm, ?_, ?_, ?_, ?_, ?_, ?_, ?_⟩
  · rw [hafter]
    rcases hevents with rfl | rfl | rfl <;> exact hopen
  · intro c hc
    rcases List.mem_append.mp hc with hnew | hold
    · exact absurd rfl ((hmem _ hnew).2.1 c)
    · exact (h.numbered c hold).trans (hframe.counts c.id)
  · intro c task htask
    exact (h.tasks c task htask).leave (by simp [hbefore]) events
      (habout _ (by simp [LoopEvent.about])) (habout _ (by simp [LoopEvent.about]))
  · intro c hc
    exact absurd (hafter.symm.trans (working_claim hc)) (by simp)
  · intro c writes outcome hphase
    have hclaim : phase.claim = some c := by
      have hphase' : phase = .finalizing c writes outcome := hphase
      rw [hphase']
      rfl
    exact absurd (hafter.symm.trans hclaim) (by simp)
  · have hshut : .shutdownSet ∉ events := fun hevent => (hmem _ hevent).2.2 rfl
    simp [hshut, h.shutdown]
  · rcases hevents with rfl | rfl | rfl
    · exact h.disciplined
    · exact ⟨hopen, h.disciplined⟩
    · exact ⟨hopen, h.disciplined⟩

theorem LoopKept.stay (h : LoopKept s self l) {phase : LoopPhase P R}
    (hbefore : l.phase.claim = none) (hafter : phase.claim = none) (events : List LoopEvent)
    (hevents : events = [] ∨ events = [.checked] ∨ events = [.orphaned]) :
    LoopKept s self { l with phase := phase, log := events ++ l.log } :=
  h.move hbefore hafter (Framed.refl self s) (h.holding.trans hbefore) hevents

theorem LoopKept.claim (h : LoopKept s self l) (hbefore : l.phase.claim = none)
    {c : OpenClaim} (item : P) (hframe : Framed self s t) (hc : t.holding self = some c)
    (hnumber : c.number = s.claimCount c.id + 1) (hcount : t.claimCount c.id = c.number) :
    LoopKept t self
      ({ l with
        phase := .working c item
        tasks := Function.update l.tasks c (some ⟨false, false⟩)
        log := .claimed c :: l.log } : LeaseLoop P R) := by
  have hopen : openIn l.log = none := h.opened.trans hbefore
  have hfresh : .claimed c ∉ l.log := by
    intro hold
    have hle := h.numbered c hold
    omega
  have hnone : ∀ event : LoopEvent, event.about = some c → event ∉ l.log :=
    fun event habout hmem => hfresh (h.disciplined.claimed_of_mem hmem habout)
  refine ⟨hc, rfl, ?_, ?_, ?_, by simp, by simp [h.shutdown], ⟨⟨hopen, hfresh⟩, h.disciplined⟩⟩
  · intro c' hc'
    rcases List.mem_cons.mp hc' with hnew | hold
    · obtain rfl := LoopEvent.claimed.inj hnew
      exact hcount.ge
    · exact (h.numbered c' hold).trans (hframe.counts c'.id)
  · intro c' task htask
    simp only [Function.update_apply] at htask
    split_ifs at htask with hsame
    · subst hsame
      obtain rfl := Option.some.inj htask
      refine ⟨?_, ?_, List.mem_cons_self, Or.inl ⟨⟨item, rfl⟩, rfl⟩⟩
      · simp [hnone (.joined c') rfl]
      · simp [hnone (.beat c' .fencedOut) rfl]
    · exact (h.tasks c' task htask).leave (by simp [hbefore]) [.claimed c] (by simp)
        (by simp)
  · intro c' hc'
    obtain rfl := Option.some.inj (working_claim hc')
    simp [hnone (.joined c) rfl]

theorem signalStop_eq_some {tasks : OpenClaim → Option HeartbeatTask} {c c' : OpenClaim}
    {task : HeartbeatTask} (h : signalStop tasks c c' = some task) :
    (c' = c ∧ task.stopped = true ∧ ∃ before, tasks c = some before) ∨
      c' ≠ c ∧ tasks c' = some task := by
  rw [signalStop, Function.update_apply] at h
  split_ifs at h with hsame
  · obtain ⟨before, hbefore, rfl⟩ := Option.map_eq_some_iff.mp h
    exact Or.inl ⟨hsame, rfl, before, hbefore⟩
  · exact Or.inr ⟨hsame, h⟩

theorem LoopKept.workDone (h : LoopKept s self l) {c : OpenClaim} {item : P}
    (hphase : l.phase = .working c item) (result : R) :
    LoopKept s self
      { l with phase := .stopping c item result, tasks := signalStop l.tasks c } := by
  have hclaim : l.phase.claim = some c := by rw [hphase]; rfl
  refine ⟨h.holding.trans hclaim, h.opened.trans hclaim, h.numbered, ?_, ?_, by simp, h.shutdown,
    h.disciplined⟩
  · intro c' task htask
    rcases signalStop_eq_some htask with ⟨rfl, hstopped, before, hbefore⟩ | ⟨hne, hold⟩
    · have hkept := h.tasks c' before hbefore
      exact ⟨hkept.unjoined, hkept.unfenced, hkept.claimed,
        Or.inr (Or.inl ⟨⟨item, result, rfl⟩, hstopped⟩)⟩
    · exact (h.tasks c' task hold).leave (by simpa [hclaim] using Ne.symm hne) [] (by simp)
        (by simp)
  · intro c' hc'
    obtain rfl := Option.some.inj (working_claim hc')
    exact h.working c (Or.inl ⟨item, hphase⟩)

theorem LoopKept.join (h : LoopKept s self l) {c : OpenClaim} {item : P} {result : R}
    (hphase : l.phase = .stopping c item result) (hended : l.tasks c = none)
    (worker : LeaseFinalizer P R) :
    LoopKept s self
      ({ l with
        phase := .finalizing c (worker.writes item result) (worker.outcome result)
        log := .joined c :: l.log } : LeaseLoop P R) := by
  have hclaim : l.phase.claim = some c := by rw [hphase]; rfl
  have hunjoined := h.working c (Or.inr ⟨item, result, hphase⟩)
  have hopen := h.opened.trans hclaim
  refine ⟨h.holding.trans hclaim, hopen, ?_, ?_, by simp, ?_, by simp [h.shutdown],
    ⟨⟨hopen, hunjoined⟩, h.disciplined⟩⟩
  · intro c' hc'
    exact h.numbered c' (by simpa using hc')
  · intro c' task htask
    have hne : c ≠ c' := by
      rintro rfl
      rw [hended] at htask
      cases htask
    exact (h.tasks c' task htask).leave (by simpa [hclaim] using hne) [.joined c]
      (by simpa using Ne.symm hne) (by simp)
  · intro c' writes outcome hfinal
    obtain ⟨rfl, rfl, -⟩ := LoopPhase.finalizing.inj hfinal
    exact ⟨worker.ends item result, List.mem_cons_self⟩

theorem EndsClaim.cons {op : LeaseWrite} {rest : List LeaseWrite} (h : EndsClaim (op :: rest)) :
    rest = [] ∧ op.event.isSome = true ∨ op.event = none ∧ EndsClaim rest := by
  cases rest with
  | nil => exact Or.inl ⟨rfl, h⟩
  | cons next rest => exact Or.inr h

/-- A write of `finalize`, or one that was refused: only the last one ends the claim. -/
theorem LoopKept.finalize (h : LoopKept s self l) {c : OpenClaim} {op : LeaseWrite}
    {rest : List LeaseWrite} {outcome : LeaseCycleOutcome} {event : LoopEvent}
    (hphase : l.phase = .finalizing c (op :: rest) outcome) (hframe : Framed self s t)
    (hholding : t.holding self = if op.event.isSome then none else some c)
    (hevent : event = .wrote c op ∨ event = .refused c op) :
    LoopKept t self
      ({ l with phase := afterFinalize c outcome rest, log := event :: l.log } :
        LeaseLoop P R) := by
  have hclaim : l.phase.claim = some c := by rw [hphase]; rfl
  have hopen := h.opened.trans hclaim
  obtain ⟨hends, hjoined⟩ := h.finalizing c _ outcome hphase
  have hafter : (afterFinalize c outcome rest : LoopPhase P R).claim =
      if op.event.isSome then none else some c := by
    rcases hends.cons with ⟨rfl, hlast⟩ | ⟨hmore, hrest⟩
    · rw [if_pos hlast]
      cases outcome <;> rfl
    · cases rest with
      | nil => cases hrest
      | cons next rest =>
        rw [hmore]
        rfl
  have hkind : event.about = some c ∧ event ≠ .shutdownSet ∧ (∀ c', event ≠ .claimed c') ∧
      (∀ c', event ≠ .joined c') ∧ ∀ c' step, event ≠ .beat c' step := by
    rcases hevent with rfl | rfl <;> simp [LoopEvent.about]
  obtain ⟨-, hnoShutdown, hnoClaim, hnoJoin, hnoBeat⟩ := hkind
  refine ⟨hholding.trans hafter.symm, ?_, ?_, ?_, ?_, ?_, ?_, ?_⟩
  · rw [hafter]
    rcases hevent with rfl | rfl <;> simp only [openIn, hopen]
  · intro c' hc'
    rcases List.mem_cons.mp hc' with hnew | hold
    · exact absurd hnew.symm (hnoClaim c')
    · exact (h.numbered c' hold).trans (hframe.counts c'.id)
  · intro c' task htask
    have hne : c ≠ c' := by
      rintro rfl
      exact (h.tasks c task htask).unjoined hjoined
    exact (h.tasks c' task htask).leave (by simpa [hclaim] using hne) [event]
      (by simpa using (hnoJoin c').symm) (by simpa using (hnoBeat c' .fencedOut).symm)
  · intro c' hc'
    cases rest with
    | nil => cases outcome <;> simp [afterFinalize] at hc'
    | cons next rest => simp [afterFinalize] at hc'
  · intro c' writes outcome' hfinal
    cases rest with
    | nil => cases outcome <;> cases hfinal
    | cons next rest =>
      obtain ⟨rfl, rfl, -⟩ := LoopPhase.finalizing.inj hfinal
      rcases hends.cons with ⟨hnil, -⟩ | ⟨-, hrest⟩
      · cases hnil
      · exact ⟨hrest, List.mem_cons_of_mem _ hjoined⟩
  · simp [hnoShutdown.symm, h.shutdown]
  · refine ⟨?_, h.disciplined⟩
    rcases hevent with rfl | rfl
    · exact ⟨hopen, hjoined⟩
    · exact ⟨hopen, hjoined⟩

theorem LoopKept.panic (h : LoopKept s self l) {c : OpenClaim}
    (hclaim : l.phase.claim = some c) (hidle : t.holding self = none) (hframe : Framed self s t) :
    LoopKept t self
      ({ l with
        phase := .crashed
        tasks := signalStop l.tasks c
        log := .panicked c :: l.log } : LeaseLoop P R) := by
  have hopen := h.opened.trans hclaim
  refine ⟨hidle, rfl, ?_, ?_, by simp, by simp, by simp [h.shutdown], ⟨hopen, h.disciplined⟩⟩
  · intro c' hc'
    exact (h.numbered c' (by simpa using hc')).trans (hframe.counts c'.id)
  · intro c' task htask
    rcases signalStop_eq_some htask with ⟨rfl, hstopped, before, hbefore⟩ | ⟨hne, hold⟩
    · have hkept := h.tasks c' before hbefore
      refine ⟨by simp [hkept.unjoined], by simp [hkept.unfenced],
        List.mem_cons_of_mem _ hkept.claimed, Or.inr (Or.inr ⟨List.mem_cons_self, hstopped⟩)⟩
    · exact (h.tasks c' task hold).leave (by simpa [hclaim] using Ne.symm hne) [.panicked c]
        (by simp) (by simp)

theorem LoopKept.kill (h : LoopKept s self l) (hidle : t.holding self = none)
    (hframe : Framed self s t) :
    LoopKept t self
      ({ l with
        phase := .killed
        tasks := fun _ => none
        log := (l.phase.claim.map LoopEvent.killed).toList ++ l.log } : LeaseLoop P R) := by
  have hlog : openIn ((l.phase.claim.map LoopEvent.killed).toList ++ l.log) = none ∧
      Disciplined ((l.phase.claim.map LoopEvent.killed).toList ++ l.log) := by
    cases hclaim : l.phase.claim with
    | none => exact ⟨h.opened.trans hclaim, h.disciplined⟩
    | some c => exact ⟨rfl, h.opened.trans hclaim, h.disciplined⟩
  refine ⟨hidle, hlog.1, ?_, by simp, by simp, by simp, ?_, hlog.2⟩
  · intro c hc
    refine (h.numbered c ?_).trans (hframe.counts c.id)
    simpa using hc
  · simp [h.shutdown]

theorem LoopKept.retask (h : LoopKept s self l) {c : OpenClaim} {before : HeartbeatTask}
    (hbefore : l.tasks c = some before) {after : Option HeartbeatTask}
    (hafter : ∀ task ∈ after, task.stopped = before.stopped) :
    LoopKept s self { l with tasks := Function.update l.tasks c after } := by
  refine ⟨h.holding, h.opened, h.numbered, ?_, h.working, h.finalizing, h.shutdown, h.disciplined⟩
  intro c' task htask
  simp only [Function.update_apply] at htask
  split_ifs at htask with hsame
  · subst hsame
    have hkept := h.tasks c' before hbefore
    have hstopped := hafter task htask
    exact ⟨hkept.unjoined, hkept.unfenced, hkept.claimed, by rw [hstopped]; exact hkept.owner⟩
  · have hkept := h.tasks c' task htask
    exact ⟨hkept.unjoined, hkept.unfenced, hkept.claimed, hkept.owner⟩

/-- A task beats for the open claim, or was left behind by a panic. -/
theorem LoopKept.beats_for (h : LoopKept s self l) {c : OpenClaim} {task : HeartbeatTask}
    (htask : l.tasks c = some task) : openIn l.log = some c ∨ .panicked c ∈ l.log := by
  rcases (h.tasks c task htask).owner with ⟨⟨item, hphase⟩, -⟩ | ⟨⟨item, result, hphase⟩, -⟩ | hleft
  · exact Or.inl (h.opened.trans (by rw [hphase]; rfl))
  · exact Or.inl (h.opened.trans (by rw [hphase]; rfl))
  · exact Or.inr hleft.1

/-- A beat, after which the task goes on unless it was fenced out. -/
theorem LoopKept.beat (h : LoopKept s self l) {c : OpenClaim} {before : HeartbeatTask}
    (hbefore : l.tasks c = some before) {after : Option HeartbeatTask} {step : HeartbeatStep}
    (hafter : ∀ task ∈ after, task.stopped = before.stopped ∧ step ≠ .fencedOut)
    (hframe : Framed self s t) (hholding : t.holding = s.holding) :
    LoopKept t self
      { l with tasks := Function.update l.tasks c after, log := .beat c step :: l.log } := by
  have hkept := h.tasks c before hbefore
  refine ⟨(congrFun hholding self).trans h.holding, h.opened, ?_, ?_, ?_, ?_, by simp [h.shutdown],
    ⟨⟨hkept.unjoined, hkept.unfenced, h.beats_for hbefore⟩, h.disciplined⟩⟩
  · intro c' hc'
    exact (h.numbered c' (by simpa using hc')).trans (hframe.counts c'.id)
  · intro c' task htask
    have hlogged : ∀ other, TaskKept l c' other → (c' = c → step ≠ .fencedOut) →
        other.stopped = task.stopped → TaskKept
          { l with tasks := Function.update l.tasks c after, log := .beat c step :: l.log }
          c' task := by
      intro other hother hstep hstopped
      refine ⟨by simp [hother.unjoined], ?_, List.mem_cons_of_mem _ hother.claimed, ?_⟩
      · simp only [List.mem_cons, LoopEvent.beat.injEq, not_or, not_and]
        exact ⟨fun hsame hfenced => hstep hsame hfenced.symm, hother.unfenced⟩
      · rw [← hstopped]
        exact hother.owner.imp_right fun hrest =>
          hrest.imp_right fun hleft => ⟨List.mem_cons_of_mem _ hleft.1, hleft.2⟩
    simp only [Function.update_apply] at htask
    split_ifs at htask with hsame
    · obtain ⟨hstopped, hstep⟩ := hafter task htask
      exact hlogged before (hsame ▸ hkept) (fun _ => hstep) hstopped.symm
    · exact hlogged task (h.tasks c' task htask) (fun heq => absurd heq hsame) rfl
  · intro c' hc'
    simpa using h.working c' hc'
  · intro c' writes outcome hphase
    obtain ⟨hends, hjoined⟩ := h.finalizing c' writes outcome hphase
    exact ⟨hends, List.mem_cons_of_mem _ hjoined⟩

theorem LoopKept.setShutdown (h : LoopKept s self l) (hfirst : l.shutdown = false) :
    LoopKept s self { l with shutdown := true, log := .shutdownSet :: l.log } := by
  have hnone : .shutdownSet ∉ l.log := by
    intro hmem
    rw [h.shutdown.mpr hmem] at hfirst
    cases hfirst
  refine ⟨h.holding, h.opened, ?_, ?_, ?_, ?_, by simp, ⟨hnone, h.disciplined⟩⟩
  · intro c hc
    exact h.numbered c (by simpa using hc)
  · intro c task htask
    have hkept := h.tasks c task htask
    refine ⟨by simp [hkept.unjoined], by simp [hkept.unfenced],
      List.mem_cons_of_mem _ hkept.claimed, ?_⟩
    exact hkept.owner.imp_right fun hrest =>
      hrest.imp_right fun hleft => ⟨List.mem_cons_of_mem _ hleft.1, hleft.2⟩
  · intro c hc
    simpa using h.working c hc
  · intro c writes outcome hphase
    obtain ⟨hends, hjoined⟩ := h.finalizing c writes outcome hphase
    exact ⟨hends, List.mem_cons_of_mem _ hjoined⟩

variable [DecidableEq W] {T : LeaseTable W P}

theorem Framed.abandon (T : LeaseTable W P) (s : World W P) (self : W) :
    Framed self s (dropClaim T s self) ∧ (dropClaim T s self).holding self = none := by
  unfold dropClaim
  cases h : leaseStep T s (.abandon self) with
  | none =>
    refine ⟨Framed.refl self s, ?_⟩
    simp only [leaseStep] at h
    split_ifs at h with hnone
    exact hnone
  | some t =>
    obtain rfl := leaseStep_abandon h
    exact ⟨⟨fun other hne => Function.update_of_ne hne _ _, fun _ => le_rfl⟩, by simp⟩

theorem Framed.write {op : LeaseWrite} (h : leaseStep T s (.write self op) = some t) :
    Framed self s t ∧ ∃ c, s.holding self = some c ∧
      t.holding self = if op.event.isSome then none else some c := by
  obtain ⟨c, f, hc, hf, rfl⟩ := leaseStep_write h
  refine ⟨⟨?_, fun id => (claimCount_writeStep s self c op f id).ge⟩, c, hc, ?_⟩
  · intro other hne
    simp only [writeStep]
    split_ifs
    · exact Function.update_of_ne hne _ _
    · rfl
  · simp only [writeStep]
    split_ifs
    · simp
    · exact hc

theorem Framed.beat (s : World W P) (self : W) (id now leaseSecs : ℤ) :
    Framed self s (beatStep s self id now leaseSecs) ∧
      (beatStep s self id now leaseSecs).holding = s.holding :=
  ⟨⟨fun _ _ => rfl, fun _ => le_rfl⟩, rfl⟩

theorem Framed.claim {id now leaseSecs : ℤ} {locked : List ℤ}
    (h : leaseStep T s (.claim self id now leaseSecs locked) = some t) :
    Framed self s t ∧ ∃ c, t.holding self = some c ∧ c.number = s.claimCount c.id + 1 ∧
      t.claimCount c.id = s.claimCount c.id + 1 := by
  obtain ⟨-, -, row, -, -, rfl⟩ := leaseStep_claim h
  refine ⟨⟨fun other hne => Function.update_of_ne hne _ _, ?_⟩,
    ⟨id, s.claimCount id + 1, row.attempts⟩, by simp [claimStep], rfl, ?_⟩
  · intro other
    by_cases hid : other = id
    · subst hid
      simp
    · rw [claimCount_claimStep_of_ne s self hid]
  · simp

/-- What a step of one replica does to the table: steps of a lease worker, or a beat for the
row of a claim. -/
def TableStep (T : LeaseTable W P) (self : W) (l : LeaseLoop P R) (s t : World W P) : Prop :=
  (∃ as, exec (leaseStep T) s as = some t) ∨
    ∃ c task now leaseSecs, l.tasks c = some task ∧ t = beatStep s self c.id now leaseSecs

theorem TableStep.same (T : LeaseTable W P) (self : W) (l : LeaseLoop P R) (s : World W P) :
    TableStep T self l s s := Or.inl ⟨[], rfl⟩

theorem dropClaim_run (T : LeaseTable W P) (s : World W P) (self : W) :
    ∃ as, exec (leaseStep T) s as = some (dropClaim T s self) := by
  unfold dropClaim
  cases h : leaseStep T s (.abandon self) with
  | none => exact ⟨[], rfl⟩
  | some t => exact ⟨[.abandon self], (exec_cons_eq_some _).mpr ⟨t, h, rfl⟩⟩

variable {worker : LeaseFinalizer P R} {l' : LeaseLoop P R}

theorem claimItem_kept (h : LoopKept s self l) {id now leaseSecs : ℤ} {locked : List ℤ}
    {answered : Bool} (hphase : l.phase = .claiming)
    (hstep : claimItem T s self l id now leaseSecs locked answered = some (t, l')) :
    LoopKept t self l' ∧ Framed self s t ∧ TableStep T self l s t := by
  have hbefore : l.phase.claim = none := by rw [hphase]; rfl
  obtain ⟨u, hclaim, hrest⟩ := Option.bind_eq_some_iff.mp hstep
  obtain ⟨hframe, c, hc, hnumber, hcount⟩ := Framed.claim hclaim
  split_ifs at hrest
  · obtain ⟨c', hc', hrow⟩ := Option.bind_eq_some_iff.mp hrest
    obtain rfl := Option.some.inj (hc.symm.trans hc')
    obtain ⟨row, -, hnext⟩ := Option.map_eq_some_iff.mp hrow
    obtain ⟨rfl, rfl⟩ := Prod.mk.inj hnext
    exact ⟨h.claim hbefore row.payload hframe hc hnumber (hcount.trans hnumber.symm), hframe,
      Or.inl ⟨[.claim self id now leaseSecs locked], (exec_cons_eq_some _).mpr ⟨u, hclaim, rfl⟩⟩⟩
  · obtain ⟨rfl, rfl⟩ := Prod.mk.inj (Option.some.inj hrest)
    obtain ⟨hdrop, hidle⟩ := Framed.abandon T u self
    obtain ⟨as, has⟩ := dropClaim_run T u self
    exact ⟨h.move hbefore rfl (hframe.trans hdrop) hidle (Or.inr (Or.inr rfl)), hframe.trans hdrop,
      Or.inl ⟨.claim self id now leaseSecs locked :: as,
        (exec_cons_eq_some _).mpr ⟨u, hclaim, has⟩⟩⟩

theorem finalizeWrite_kept (h : LoopKept s self l) {applied : Bool} {c : OpenClaim}
    {op : LeaseWrite} {rest : List LeaseWrite} {outcome : LeaseCycleOutcome}
    (hphase : l.phase = .finalizing c (op :: rest) outcome)
    (hstep : finalizeWrite T s self l applied c op rest outcome = some (t, l')) :
    LoopKept t self l' ∧ Framed self s t ∧ TableStep T self l s t := by
  have hholding : s.holding self = some c := h.holding.trans (by rw [hphase]; rfl)
  unfold finalizeWrite at hstep
  split_ifs at hstep with happlied hterminal
  · obtain ⟨u, hwrite, hnext⟩ := Option.map_eq_some_iff.mp hstep
    obtain ⟨rfl, rfl⟩ := Prod.mk.inj hnext
    obtain ⟨hframe, c', hc', hafter⟩ := Framed.write hwrite
    obtain rfl := Option.some.inj (hholding.symm.trans hc')
    exact ⟨h.finalize hphase hframe hafter (Or.inl rfl), hframe,
      Or.inl ⟨[.write self op], (exec_cons_eq_some _).mpr ⟨u, hwrite, rfl⟩⟩⟩
  · obtain ⟨rfl, rfl⟩ := Prod.mk.inj (Option.some.inj hstep)
    obtain ⟨hframe, hidle⟩ := Framed.abandon T s self
    exact ⟨h.finalize hphase hframe (hidle.trans (if_pos hterminal).symm) (Or.inr rfl), hframe,
      Or.inl (dropClaim_run T s self)⟩
  · obtain ⟨rfl, rfl⟩ := Prod.mk.inj (Option.some.inj hstep)
    exact ⟨h.finalize hphase (Framed.refl self s) (hholding.trans (if_neg hterminal).symm)
      (Or.inr rfl), Framed.refl self s, TableStep.same T self l s⟩

theorem beatEnd_kept (h : LoopKept s self l) {c : OpenClaim} {now leaseSecs : ℤ}
    {stopped applied : Bool} {step : HeartbeatStep} (htask : l.tasks c = some ⟨stopped, true⟩)
    (hstep : beatEnd s self l c now leaseSecs stopped step applied = some (t, l')) :
    LoopKept t self l' ∧ Framed self s t ∧ TableStep T self l s t := by
  obtain ⟨hframe, hholding⟩ := Framed.beat s self c.id now leaseSecs
  have hbeat : TableStep T self l s (beatStep s self c.id now leaseSecs) :=
    Or.inr ⟨c, _, now, leaseSecs, htask, rfl⟩
  cases step with
  | renewed =>
    simp only [beatEnd] at hstep
    split_ifs at hstep
    obtain ⟨rfl, rfl⟩ := Prod.mk.inj (Option.some.inj hstep)
    exact ⟨h.beat htask (by simp) hframe hholding, hframe, hbeat⟩
  | fencedOut =>
    simp only [beatEnd] at hstep
    split_ifs at hstep
    obtain ⟨rfl, rfl⟩ := Prod.mk.inj (Option.some.inj hstep)
    exact ⟨h.beat htask (by simp) (Framed.refl self s) rfl, Framed.refl self s,
      TableStep.same T self l s⟩
  | errored =>
    obtain ⟨rfl, rfl⟩ := Prod.mk.inj (Option.some.inj hstep)
    split_ifs
    · exact ⟨h.beat htask (by simp) hframe hholding, hframe, hbeat⟩
    · exact ⟨h.beat htask (by simp) (Framed.refl self s) rfl, Framed.refl self s,
        TableStep.same T self l s⟩

/-- What a step of a replica keeps. -/
theorem loopStep_kept (h : LoopKept s self l) {a : LoopAction R}
    (hstep : loopStep T worker s self l a = some (t, l')) :
    LoopKept t self l' ∧ Framed self s t ∧ TableStep T self l s t := by
  have hstill : Framed self s s ∧ TableStep T self l s s :=
    ⟨Framed.refl self s, TableStep.same T self l s⟩
  cases a with
  | check =>
    simp only [loopStep] at hstep
    split at hstep
    · next hphase =>
      have hbefore : l.phase.claim = none := by rw [hphase]; rfl
      split_ifs at hstep
      · obtain ⟨rfl, rfl⟩ := Prod.mk.inj (Option.some.inj hstep)
        exact ⟨h.stay hbefore rfl [] (Or.inl rfl), hstill⟩
      · obtain ⟨rfl, rfl⟩ := Prod.mk.inj (Option.some.inj hstep)
        exact ⟨h.stay hbefore rfl [.checked] (Or.inr (Or.inl rfl)), hstill⟩
    · cases hstep
  | claim id now leaseSecs locked answered =>
    simp only [loopStep] at hstep
    split at hstep
    · next hphase => exact claimItem_kept h hphase hstep
    · cases hstep
  | noClaim =>
    simp only [loopStep] at hstep
    split at hstep
    · next hphase =>
      obtain ⟨rfl, rfl⟩ := Prod.mk.inj (Option.some.inj hstep)
      exact ⟨h.stay (by rw [hphase]; rfl) rfl [] (Or.inl rfl), hstill⟩
    · cases hstep
  | wake =>
    simp only [loopStep] at hstep
    split at hstep
    · next hphase =>
      obtain ⟨rfl, rfl⟩ := Prod.mk.inj (Option.some.inj hstep)
      exact ⟨h.stay (by rw [hphase]; rfl) rfl [] (Or.inl rfl), hstill⟩
    · next hphase =>
      obtain ⟨rfl, rfl⟩ := Prod.mk.inj (Option.some.inj hstep)
      exact ⟨h.stay (by rw [hphase]; rfl) rfl [] (Or.inl rfl), hstill⟩
    · cases hstep
  | breakLoop =>
    simp only [loopStep] at hstep
    split at hstep
    · next hphase =>
      split_ifs at hstep
      obtain ⟨rfl, rfl⟩ := Prod.mk.inj (Option.some.inj hstep)
      exact ⟨h.stay (by rw [hphase]; rfl) rfl [] (Or.inl rfl), hstill⟩
    · next hphase =>
      split_ifs at hstep
      obtain ⟨rfl, rfl⟩ := Prod.mk.inj (Option.some.inj hstep)
      exact ⟨h.stay (by rw [hphase]; rfl) rfl [] (Or.inl rfl), hstill⟩
    · cases hstep
  | workDone result =>
    simp only [loopStep] at hstep
    split at hstep
    · next c item hphase =>
      obtain ⟨rfl, rfl⟩ := Prod.mk.inj (Option.some.inj hstep)
      exact ⟨h.workDone hphase result, hstill⟩
    · cases hstep
  | join =>
    simp only [loopStep] at hstep
    split at hstep
    · next c item result hphase =>
      split_ifs at hstep with hended
      obtain ⟨rfl, rfl⟩ := Prod.mk.inj (Option.some.inj hstep)
      exact ⟨h.join hphase hended worker, hstill⟩
    · cases hstep
  | finalize applied =>
    simp only [loopStep] at hstep
    split at hstep
    · next c op rest outcome hphase => exact finalizeWrite_kept h hphase hstep
    · cases hstep
  | panic =>
    obtain ⟨hframe, hidle⟩ := Framed.abandon T s self
    have hdrop : TableStep T self l s (dropClaim T s self) := Or.inl (dropClaim_run T s self)
    simp only [loopStep] at hstep
    split at hstep
    · next c item hphase =>
      obtain ⟨rfl, rfl⟩ := Prod.mk.inj (Option.some.inj hstep)
      exact ⟨h.panic (by rw [hphase]; rfl) hidle hframe, hframe, hdrop⟩
    · next c writes outcome hphase =>
      obtain ⟨rfl, rfl⟩ := Prod.mk.inj (Option.some.inj hstep)
      exact ⟨h.panic (by rw [hphase]; rfl) hidle hframe, hframe, hdrop⟩
    · cases hstep
  | kill =>
    obtain ⟨hframe, hidle⟩ := Framed.abandon T s self
    obtain ⟨rfl, rfl⟩ := Prod.mk.inj (Option.some.inj hstep)
    exact ⟨h.kill hidle hframe, hframe, Or.inl (dropClaim_run T s self)⟩
  | restart =>
    simp only [loopStep] at hstep
    split at hstep
    · next hphase =>
      obtain ⟨rfl, rfl⟩ := Prod.mk.inj (Option.some.inj hstep)
      refine ⟨h.stay (by rw [hphase]; rfl) ?_ [] (Or.inl rfl), hstill⟩
      split_ifs <;> rfl
    · cases hstep
  | tick c =>
    simp only [loopStep] at hstep
    split at hstep
    · next stopped htask =>
      obtain ⟨rfl, rfl⟩ := Prod.mk.inj (Option.some.inj hstep)
      exact ⟨h.retask htask (by simp), hstill⟩
    · cases hstep
  | beat c now leaseSecs step applied =>
    simp only [loopStep] at hstep
    split at hstep
    · next stopped htask => exact beatEnd_kept h htask hstep
    · cases hstep
  | observeStop c =>
    simp only [loopStep] at hstep
    split at hstep
    · next htask =>
      obtain ⟨rfl, rfl⟩ := Prod.mk.inj (Option.some.inj hstep)
      exact ⟨h.retask htask (by simp), hstill⟩
    · cases hstep
  | setShutdown =>
    simp only [loopStep] at hstep
    split_ifs at hstep with hset
    obtain ⟨rfl, rfl⟩ := Prod.mk.inj (Option.some.inj hstep)
    exact ⟨h.setShutdown (Bool.not_eq_true _ ▸ hset), hstill⟩
  | dropSender =>
    obtain ⟨rfl, rfl⟩ := Prod.mk.inj (Option.some.inj hstep)
    exact ⟨⟨h.holding, h.opened, h.numbered, fun c task htask =>
      ⟨(h.tasks c task htask).unjoined, (h.tasks c task htask).unfenced,
        (h.tasks c task htask).claimed, (h.tasks c task htask).owner⟩,
      h.working, h.finalizing, h.shutdown, h.disciplined⟩, hstill⟩

end Kept

/-- The loop has seen no shutdown and is about to claim. -/
def LoopPhase.isClaiming {P R : Type*} : LoopPhase P R → Bool
  | .claiming => true
  | .top | .idle | .working _ _ | .stopping _ _ _ | .finalizing _ _ _ | .pausing | .ended
  | .crashed | .killed => false

/-- One claim at most comes after the shutdown, the one the loop was about to make. -/
def OneClaimLeft {P R : Type*} (l : LeaseLoop P R) : Prop :=
  l.shutdown = true →
    claimsSinceShutdown l.log + (if l.phase.isClaiming then 1 else 0) ≤ 1

section Shutdown

variable {W P R : Type*} [DecidableEq W] {T : LeaseTable W P} {worker : LeaseFinalizer P R}
  {s t : World W P} {self : W} {l l' : LeaseLoop P R}

theorem claimsSinceShutdown_cons (event : LoopEvent) (log : List LoopEvent) :
    claimsSinceShutdown (event :: log) =
      if event = .shutdownSet then 0
      else claimsSinceShutdown log + if isClaim event then 1 else 0 := by
  unfold claimsSinceShutdown
  by_cases hshut : event = .shutdownSet
  · simp [hshut]
  · rw [List.takeWhile_cons_of_pos (by simpa using hshut), List.countP_cons, if_neg hshut]

/-- What a step of a replica does to its log and to its way to the next claim. -/
inductive LoopLogged {P R : Type*} (l l' : LeaseLoop P R) : Prop where
  | quiet (events : List LoopEvent) (hlog : l'.log = events ++ l.log)
      (hevents : ∀ event ∈ events, isClaim event = false ∧ event ≠ .shutdownSet)
      (hshutdown : l'.shutdown = l.shutdown)
      (hphase : l'.phase.isClaiming = true → l.phase.isClaiming = true ∨ l.shutdown = false)
  | claim (event : LoopEvent) (hlog : l'.log = event :: l.log) (hevent : isClaim event = true)
      (hshutdown : l'.shutdown = l.shutdown) (hbefore : l.phase.isClaiming = true)
      (hafter : l'.phase.isClaiming = false)
  | shutdown (hlog : l'.log = .shutdownSet :: l.log)

theorem isClaiming_afterFinalize (c : OpenClaim) (outcome : LeaseCycleOutcome)
    (rest : List LeaseWrite) :
    (afterFinalize c outcome rest : LoopPhase P R).isClaiming = false := by
  cases rest with
  | nil => cases outcome <;> rfl
  | cons op rest => rfl

theorem claimItem_logged {id now leaseSecs : ℤ} {locked : List ℤ} {answered : Bool}
    (hphase : l.phase = .claiming)
    (hstep : claimItem T s self l id now leaseSecs locked answered = some (t, l')) :
    LoopLogged l l' := by
  have hbefore : l.phase.isClaiming = true := by rw [hphase]; rfl
  obtain ⟨u, -, hrest⟩ := Option.bind_eq_some_iff.mp hstep
  split_ifs at hrest
  · obtain ⟨c, -, hrow⟩ := Option.bind_eq_some_iff.mp hrest
    obtain ⟨row, -, hnext⟩ := Option.map_eq_some_iff.mp hrow
    obtain ⟨rfl, rfl⟩ := Prod.mk.inj hnext
    exact .claim (.claimed c) rfl rfl rfl hbefore rfl
  · obtain ⟨rfl, rfl⟩ := Prod.mk.inj (Option.some.inj hrest)
    exact .claim .orphaned rfl rfl rfl hbefore rfl

theorem finalizeWrite_logged {applied : Bool} {c : OpenClaim} {op : LeaseWrite}
    {rest : List LeaseWrite} {outcome : LeaseCycleOutcome}
    (hstep : finalizeWrite T s self l applied c op rest outcome = some (t, l')) :
    LoopLogged l l' := by
  have hafter := isClaiming_afterFinalize (P := P) (R := R) c outcome rest
  unfold finalizeWrite at hstep
  split_ifs at hstep
  · obtain ⟨u, -, hnext⟩ := Option.map_eq_some_iff.mp hstep
    obtain ⟨rfl, rfl⟩ := Prod.mk.inj hnext
    exact .quiet [.wrote c op] rfl (by simp [isClaim]) rfl (by simp [hafter])
  all_goals
    obtain ⟨rfl, rfl⟩ := Prod.mk.inj (Option.some.inj hstep)
    exact .quiet [.refused c op] rfl (by simp [isClaim]) rfl (by simp [hafter])

theorem beatEnd_logged {c : OpenClaim} {now leaseSecs : ℤ} {stopped applied : Bool}
    {step : HeartbeatStep}
    (hstep : beatEnd s self l c now leaseSecs stopped step applied = some (t, l')) :
    LoopLogged l l' := by
  have hlogged : ∀ task : Option HeartbeatTask, LoopLogged l
      { l with tasks := Function.update l.tasks c task, log := .beat c step :: l.log } :=
    fun task => .quiet [.beat c step] rfl (by simp [isClaim]) rfl Or.inl
  cases step with
  | renewed | fencedOut =>
    simp only [beatEnd] at hstep
    split_ifs at hstep
    obtain ⟨rfl, rfl⟩ := Prod.mk.inj (Option.some.inj hstep)
    exact hlogged _
  | errored =>
    obtain ⟨rfl, rfl⟩ := Prod.mk.inj (Option.some.inj hstep)
    exact hlogged _

theorem loopStep_logged {a : LoopAction R}
    (hstep : loopStep T worker s self l a = some (t, l')) : LoopLogged l l' := by
  cases a with
  | claim id now leaseSecs locked answered =>
    simp only [loopStep] at hstep
    split at hstep
    · next hphase => exact claimItem_logged hphase hstep
    · cases hstep
  | finalize applied =>
    simp only [loopStep] at hstep
    split at hstep
    · exact finalizeWrite_logged hstep
    · cases hstep
  | beat c now leaseSecs step applied =>
    simp only [loopStep] at hstep
    split at hstep
    · exact beatEnd_logged hstep
    · cases hstep
  | setShutdown =>
    simp only [loopStep] at hstep
    split_ifs at hstep
    obtain ⟨rfl, rfl⟩ := Prod.mk.inj (Option.some.inj hstep)
    exact .shutdown rfl
  | check =>
    simp only [loopStep] at hstep
    split at hstep
    · split_ifs at hstep with hset
      · obtain ⟨rfl, rfl⟩ := Prod.mk.inj (Option.some.inj hstep)
        exact .quiet [] rfl (by simp) rfl (by simp [LoopPhase.isClaiming])
      · obtain ⟨rfl, rfl⟩ := Prod.mk.inj (Option.some.inj hstep)
        exact .quiet [.checked] rfl (by simp [isClaim]) rfl fun _ => Or.inr (by simpa using hset)
    · cases hstep
  | panic =>
    simp only [loopStep] at hstep
    split at hstep
    · next c item hphase =>
      obtain ⟨rfl, rfl⟩ := Prod.mk.inj (Option.some.inj hstep)
      exact .quiet [.panicked c] rfl (by simp [isClaim]) rfl (by simp [LoopPhase.isClaiming])
    · next c writes outcome hphase =>
      obtain ⟨rfl, rfl⟩ := Prod.mk.inj (Option.some.inj hstep)
      exact .quiet [.panicked c] rfl (by simp [isClaim]) rfl (by simp [LoopPhase.isClaiming])
    · cases hstep
  | join =>
    simp only [loopStep] at hstep
    split at hstep
    · next c item result hphase =>
      split_ifs at hstep
      obtain ⟨rfl, rfl⟩ := Prod.mk.inj (Option.some.inj hstep)
      exact .quiet [.joined c] rfl (by simp [isClaim]) rfl (by simp [LoopPhase.isClaiming])
    · cases hstep
  | kill =>
    obtain ⟨rfl, rfl⟩ := Prod.mk.inj (Option.some.inj hstep)
    refine .quiet _ rfl ?_ rfl (by simp [LoopPhase.isClaiming])
    intro event hevent
    obtain ⟨c, -, rfl⟩ : ∃ c, l.phase.claim = some c ∧ LoopEvent.killed c = event := by
      simpa using hevent
    simp [isClaim]
  | restart =>
    simp only [loopStep] at hstep
    split at hstep
    · obtain ⟨rfl, rfl⟩ := Prod.mk.inj (Option.some.inj hstep)
      refine .quiet [] rfl (by simp) rfl ?_
      cases l.shutdown <;> simp [LoopPhase.isClaiming]
    · cases hstep
  | noClaim | wake | workDone result =>
    simp only [loopStep] at hstep
    split at hstep
    all_goals
      cases hstep <;> exact .quiet [] rfl (by simp) rfl (by simp [LoopPhase.isClaiming])
  | breakLoop =>
    simp only [loopStep] at hstep
    split at hstep
    · split_ifs at hstep
      cases hstep
      exact .quiet [] rfl (by simp) rfl (by simp [LoopPhase.isClaiming])
    · split_ifs at hstep
      cases hstep
      exact .quiet [] rfl (by simp) rfl (by simp [LoopPhase.isClaiming])
    · cases hstep
  | tick c | observeStop c =>
    simp only [loopStep] at hstep
    split at hstep
    all_goals cases hstep <;> exact .quiet [] rfl (by simp) rfl Or.inl
  | dropSender =>
    obtain ⟨rfl, rfl⟩ := Prod.mk.inj (Option.some.inj hstep)
    exact .quiet [] rfl (by simp) rfl Or.inl

theorem claimsSinceShutdown_append {events : List LoopEvent}
    (h : ∀ event ∈ events, isClaim event = false ∧ event ≠ .shutdownSet) (log : List LoopEvent) :
    claimsSinceShutdown (events ++ log) = claimsSinceShutdown log := by
  induction events with
  | nil => rfl
  | cons event events ih =>
    obtain ⟨hclaim, hshut⟩ := h event List.mem_cons_self
    rw [List.cons_append, claimsSinceShutdown_cons, if_neg hshut,
      ih fun other hother => h other (List.mem_cons_of_mem _ hother)]
    simp [hclaim]

theorem OneClaimLeft.step (h : OneClaimLeft l) (hlogged : LoopLogged l l') : OneClaimLeft l' := by
  intro hset
  cases hlogged with
  | quiet events hlog hevents hshutdown hphase =>
    have hbefore := h (hshutdown ▸ hset)
    rw [hlog, claimsSinceShutdown_append hevents]
    by_cases hclaiming : l'.phase.isClaiming = true
    · rcases hphase hclaiming with hold | hunset
      · rw [if_pos hold] at hbefore
        rwa [if_pos hclaiming]
      · rw [← hshutdown, hset] at hunset
        cases hunset
    · rw [if_neg hclaiming]
      exact (Nat.le_add_right _ _).trans hbefore
  | claim event hlog hevent hshutdown hold hafter =>
    have hbefore := h (hshutdown ▸ hset)
    have hshut : event ≠ .shutdownSet := by
      rintro rfl
      cases hevent
    rw [if_pos hold] at hbefore
    rw [hlog, claimsSinceShutdown_cons, if_neg hshut, if_pos hevent, hafter]
    exact hbefore
  | shutdown hlog =>
    rw [hlog, claimsSinceShutdown_cons, if_pos rfl, Nat.zero_add]
    split_ifs
    · exact le_rfl
    · exact Nat.zero_le 1

end Shutdown
end CryptoCollector.Collectors
