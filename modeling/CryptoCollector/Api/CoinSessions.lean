import CryptoCollector.Api.CoinTransactions

/-!
# What the connections have open

It fits the committed tables: an uncommitted coin is nobody else's and not there yet, and
neither are its items. So a commit finds everything as the registration left it.
-/

namespace CryptoCollector.Api
open Models Foundations Collectors

/-- What a connection knows of the committed tables. -/
def PhaseKept {W : Type*} (bounds : PollBounds) (column : IntervalColumn) (r : Registry W) :
    SessionPhase → Prop
  | .registering req coin kinds queued =>
    (∃ interval now, admitCoin bounds column req = .ok interval ∧
      coin = registeredCoin req interval now) ∧ queued.map Prod.fst ++ kinds = initialKinds
  | .reselecting req =>
    (∃ interval, admitCoin bounds column req = .ok interval) ∧ r.tracks req.coinId
  | .unpaused _ => True
  | .refreshing items => ∀ item ∈ items, r.admits item

theorem PhaseKept.mono {W : Type*} {bounds : PollBounds} {column : IntervalColumn}
    {r r' : Registry W} {p : SessionPhase} (h : PhaseKept bounds column r p)
    (htracks : ∀ coinId, r.tracks coinId → r'.tracks coinId) : PhaseKept bounds column r' p := by
  cases p with
  | registering req coin kinds queued => exact h
  | reselecting req => exact ⟨h.1, htracks _ h.2⟩
  | unpaused coinId => trivial
  | refreshing items =>
    exact fun item hitem => (h item hitem).imp_right fun hcoin => ⟨hcoin.1, htracks _ hcoin.2⟩

namespace RegistrySystem

variable {C W : Type*} [DecidableEq C] {bounds : PollBounds} {column : IntervalColumn}
  {s t : RegistrySystem C W} {c other : C} {p q : SessionPhase}

theorem mem_sessions_iff : (c, p) ∈ s.sessions.rows ↔ s.phase c = some p := by
  rw [KeyedTable.mem_rows_iff, phase, Option.map_eq_some_iff]
  constructor
  · intro h
    exact ⟨(c, p), h, rfl⟩
  · rintro ⟨⟨c', p'⟩, h, rfl⟩
    obtain rfl : c' = c := KeyedTable.key_eq_of_lookup h
    exact h

theorem holdsCoin_iff {coinId : String} :
    s.holdsCoin coinId ↔ ∃ c p, s.phase c = some p ∧ p.coin = some coinId := by
  constructor
  · rintro ⟨⟨c, p⟩, hsession, hcoin⟩
    exact ⟨c, p, mem_sessions_iff.mp hsession, hcoin⟩
  · rintro ⟨c, p, hphase, hcoin⟩
    exact ⟨(c, p), mem_sessions_iff.mpr hphase, hcoin⟩

theorem holdsItem_iff {item : QueueColumns} {c : Option C} :
    s.holdsItem c item ↔ ∃ c' p, s.phase c' = some p ∧ some c' ≠ c ∧ item ∈ p.items := by
  constructor
  · rintro ⟨⟨c', p⟩, hsession, hne, hitem⟩
    exact ⟨c', p, mem_sessions_iff.mp hsession, hne, hitem⟩
  · rintro ⟨c', p, hphase, hne, hitem⟩
    exact ⟨(c', p), mem_sessions_iff.mpr hphase, hne, hitem⟩

theorem phase_goOn : (s.goOn c p).phase other = if other = c then some p else s.phase other := by
  unfold phase goOn
  rw [KeyedTable.lookup_upsert]
  split_ifs with hc
  · cases s.sessions.lookup other <;> rfl
  · rfl

theorem phase_close : (s.close c).phase other = if other = c then none else s.phase other := by
  unfold phase close
  rw [KeyedTable.lookup_erase]
  cases hlookup : s.sessions.lookup other with
  | none => simp
  | some session =>
    have hkey : session.1 = other := KeyedTable.key_eq_of_lookup hlookup
    by_cases hc : other = c <;> simp [Option.filter, hkey, hc]

@[simp] theorem phase_bump : s.bump.phase c = s.phase c := rfl

@[simp] theorem phase_recommit (r : Registry W) : (s.recommit r).phase c = s.phase c := rfl

end RegistrySystem

open RegistrySystem

/-- What the open connections keep to: an uncommitted coin or item is nobody else's, and
is not committed. -/
structure SessionsKept {C W : Type*} [DecidableEq C] (bounds : PollBounds)
    (column : IntervalColumn) (s : RegistrySystem C W) : Prop where
  issued : ∀ row ∈ s.committed.queue.table, row.id < s.nextId
  phases : ∀ c p, s.phase c = some p → PhaseKept bounds column s.committed p
  absent : ∀ c p, s.phase c = some p → ∀ coinId, p.coin = some coinId →
    s.committed.coins.lookup coinId = none
  free : ∀ c p, s.phase c = some p → p.ids.Nodup ∧
    ∀ id ∈ p.ids, id < s.nextId ∧ ∀ row ∈ s.committed.queue.table, row.id ≠ id
  coins : ∀ c p c' p', s.phase c = some p → s.phase c' = some p' → ∀ coinId,
    p.coin = some coinId → p'.coin = some coinId → c = c'
  ids : ∀ c p c' p', s.phase c = some p → s.phase c' = some p' → ∀ id ∈ p.ids, id ∈ p'.ids → c = c'

namespace SessionsKept

variable {C W : Type*} [DecidableEq C] {bounds : PollBounds} {column : IntervalColumn}
  {s : RegistrySystem C W} {c : C} {p : SessionPhase}

theorem empty : SessionsKept bounds column (RegistrySystem.empty : RegistrySystem C W) := by
  have hnone : ∀ c, (RegistrySystem.empty : RegistrySystem C W).phase c = none := fun c => rfl
  refine ⟨?_, ?_, ?_, ?_, ?_, ?_⟩
  · simp [RegistrySystem.empty, Registry.empty, World.empty]
  · simp [hnone]
  · simp [hnone]
  · simp [hnone]
  · simp [hnone]
  · simp [hnone]

theorem bump (h : SessionsKept bounds column s) : SessionsKept bounds column s.bump where
  issued row hrow := (h.issued row hrow).trans (Int.lt_succ _)
  phases := h.phases
  absent := h.absent
  free c p hp := by
    obtain ⟨hnodup, hids⟩ := h.free c p hp
    exact ⟨hnodup, fun id hid => ⟨(hids id hid).1.trans (Int.lt_succ _), (hids id hid).2⟩⟩
  coins := h.coins
  ids := h.ids

theorem recommit (h : SessionsKept bounds column s) {r : Registry W}
    (htracks : ∀ coinId, s.committed.tracks coinId → r.tracks coinId)
    (habsent : ∀ c p, s.phase c = some p → ∀ coinId, p.coin = some coinId →
      r.coins.lookup coinId = none)
    (hissued : ∀ row ∈ r.queue.table, row.id < s.nextId)
    (hfree : ∀ c p, s.phase c = some p → ∀ row ∈ r.queue.table, row.id ∉ p.ids) :
    SessionsKept bounds column (s.recommit r) where
  issued := hissued
  phases c p hp := (h.phases c p hp).mono htracks
  absent := habsent
  free c p hp := by
    obtain ⟨hnodup, hids⟩ := h.free c p hp
    refine ⟨hnodup, fun id hid => ⟨(hids id hid).1, ?_⟩⟩
    intro row hrow hrowId
    exact hfree c p hp row hrow (hrowId ▸ hid)
  coins := h.coins
  ids := h.ids

theorem recommit_same (h : SessionsKept bounds column s) {r : Registry W}
    (htracks : ∀ coinId, r.tracks coinId ↔ s.committed.tracks coinId)
    (hrows : ∀ row ∈ r.queue.table, ∃ old ∈ s.committed.queue.table, old.id = row.id) :
    SessionsKept bounds column (s.recommit r) := by
  refine h.recommit (fun coinId => (htracks coinId).mpr) ?_ ?_ ?_
  · intro c p hp coinId hcoin
    have hnone := h.absent c p hp coinId hcoin
    rw [← Option.not_isSome_iff_eq_none] at hnone ⊢
    exact fun hsome => hnone ((htracks coinId).mp hsome)
  · intro row hrow
    obtain ⟨old, hold, hid⟩ := hrows row hrow
    exact hid ▸ h.issued old hold
  · intro c p hp row hrow hmem
    obtain ⟨old, hold, hid⟩ := hrows row hrow
    exact ((h.free c p hp).2 row.id hmem).2 old hold hid

theorem recommit_answer (h : SessionsKept bounds column s) {reply : Reply}
    {request : CoinRequest} {response : CoinResponse} :
    SessionsKept bounds column (s.recommit (s.committed.answer reply request response)) := by
  refine h.recommit_same ?_ ?_
  · intro coinId
    rw [Registry.tracks, answer_coins, Registry.tracks]
  · intro row hrow
    rw [answer_queue] at hrow
    exact ⟨row, hrow, rfl⟩

theorem close (h : SessionsKept bounds column s) (c : C) :
    SessionsKept bounds column (s.close c) := by
  have hfrom : ∀ other p, (s.close c).phase other = some p → s.phase other = some p := by
    intro other p hp
    rw [phase_close] at hp
    split_ifs at hp
    exact hp
  exact ⟨h.issued, fun other p hp => h.phases other p (hfrom other p hp),
    fun other p hp => h.absent other p (hfrom other p hp),
    fun other p hp => h.free other p (hfrom other p hp),
    fun a p b p' ha hb => h.coins a p b p' (hfrom a p ha) (hfrom b p' hb),
    fun a p b p' ha hb => h.ids a p b p' (hfrom a p ha) (hfrom b p' hb)⟩

theorem goOn (h : SessionsKept bounds column s) (hphase : PhaseKept bounds column s.committed p)
    (habsent : ∀ coinId, p.coin = some coinId → s.committed.coins.lookup coinId = none)
    (hfree : p.ids.Nodup ∧
      ∀ id ∈ p.ids, id < s.nextId ∧ ∀ row ∈ s.committed.queue.table, row.id ≠ id)
    (hcoins : ∀ other q, s.phase other = some q → ∀ coinId, p.coin = some coinId →
      q.coin = some coinId → other = c)
    (hids : ∀ other q, s.phase other = some q → ∀ id ∈ p.ids, id ∈ q.ids → other = c) :
    SessionsKept bounds column (s.goOn c p) := by
  have hcases : ∀ other q, (s.goOn c p).phase other = some q →
      (other = c ∧ q = p) ∨ s.phase other = some q := by
    intro other q hq
    rw [phase_goOn] at hq
    split_ifs at hq with hc
    · exact Or.inl ⟨hc, (Option.some.inj hq).symm⟩
    · exact Or.inr hq
  refine ⟨h.issued, ?_, ?_, ?_, ?_, ?_⟩
  · intro other q hq
    rcases hcases other q hq with ⟨-, rfl⟩ | hold
    · exact hphase
    · exact h.phases other q hold
  · intro other q hq
    rcases hcases other q hq with ⟨-, rfl⟩ | hold
    · exact habsent
    · exact h.absent other q hold
  · intro other q hq
    rcases hcases other q hq with ⟨-, rfl⟩ | hold
    · exact hfree
    · exact h.free other q hold
  · intro a q b q' ha hb coinId hqa hqb
    rcases hcases a q ha with ⟨rfl, rfl⟩ | hafter
    · rcases hcases b q' hb with ⟨hsame, -⟩ | hbefore
      · exact hsame.symm
      · exact (hcoins b q' hbefore coinId hqa hqb).symm
    · rcases hcases b q' hb with ⟨rfl, rfl⟩ | hbefore
      · exact hcoins a q hafter coinId hqb hqa
      · exact h.coins a q b q' hafter hbefore coinId hqa hqb
  · intro a q b q' ha hb id hqa hqb
    rcases hcases a q ha with ⟨rfl, rfl⟩ | hafter
    · rcases hcases b q' hb with ⟨hsame, -⟩ | hbefore
      · exact hsame.symm
      · exact (hids b q' hbefore id hqa hqb).symm
    · rcases hcases b q' hb with ⟨rfl, rfl⟩ | hbefore
      · exact hids a q hafter id hqb hqa
      · exact h.ids a q b q' hafter hbefore id hqa hqb

theorem goOn_clean (h : SessionsKept bounds column s)
    (hphase : PhaseKept bounds column s.committed p) (hcoin : p.coin = none) (hids : p.ids = []) :
    SessionsKept bounds column (s.goOn c p) := by
  refine h.goOn hphase ?_ ?_ ?_ ?_
  · simp [hcoin]
  · simp [hids]
  · simp [hcoin]
  · simp [hids]

end SessionsKept

section Enqueues

variable {W : Type*} [DecidableEq W] {queue : World W QueueColumns}

theorem enqueueQueue_fresh {columns : QueueColumns} {id : ℤ} (now : ℤ)
    (hitem : ∀ row ∈ queue.table, row.payload ≠ columns) (hid : ∀ row ∈ queue.table, row.id ≠ id) :
    enqueueQueue queue columns id now =
      some { queue with table := newRow id now columns :: queue.table } := by
  have hlive : ¬∃ row ∈ queue.table, row.status.live ∧ row.payload = columns := by
    rintro ⟨row, hrow, -, hpayload⟩
    exact hitem row hrow hpayload
  have htaken : ¬∃ row ∈ queue.table, row.id = id := by
    rintro ⟨row, hrow, hsame⟩
    exact hid row hrow hsame
  rw [enqueueQueue, if_neg hlive, leaseStep, if_neg htaken]

theorem enqueueItems_fresh {coinId : String} {now : ℤ} {items : List (String × ℤ)}
    (hkinds : (items.map Prod.fst).Nodup) (hids : (items.map Prod.snd).Nodup)
    (hitem : ∀ item ∈ items, ∀ row ∈ queue.table, row.payload ≠ coinItem coinId item.1)
    (hid : ∀ item ∈ items, ∀ row ∈ queue.table, row.id ≠ item.2) :
    enqueueItems coinId now items queue =
      some { queue with
        table := (items.map fun item => newRow item.2 now (coinItem coinId item.1)).reverse ++
          queue.table } := by
  induction items generalizing queue with
  | nil => rfl
  | cons item items ih =>
    rw [List.map_cons, List.nodup_cons] at hkinds hids
    rw [enqueueItems, enqueueQueue_fresh now (hitem item List.mem_cons_self)
      (hid item List.mem_cons_self), Option.bind_some, ih hkinds.2 hids.2]
    · simp
    · intro other hother row hrow
      rcases List.mem_cons.mp hrow with rfl | hold
      · intro hsame
        have hkind : item.1 = other.1 := congrArg QueueColumns.kind hsame
        exact hkinds.1 (hkind ▸ List.mem_map_of_mem hother)
      · exact hitem other (List.mem_cons_of_mem _ hother) row hold
    · intro other hother row hrow
      rcases List.mem_cons.mp hrow with rfl | hold
      · intro hsame
        have hsame' : item.2 = other.2 := hsame
        exact hids.1 (hsame' ▸ List.mem_map_of_mem hother)
      · exact hid other (List.mem_cons_of_mem _ hother) row hold

end Enqueues

section Committed

variable {W : Type*} {bounds : PollBounds} {column : IntervalColumn} {r : Registry W}

theorem RegistryInvariant.no_item (hinv : RegistryInvariant bounds column r) {coinId kind : String}
    (hnone : r.coins.lookup coinId = none) (hkind : kind ∈ initialKinds) :
    ∀ row ∈ r.queue.table, row.payload ≠ coinItem coinId kind := by
  intro row hrow hpayload
  have hadmitted := hinv.admitted row hrow
  rw [hpayload] at hadmitted
  rcases hadmitted with hoverlay | ⟨-, htracks⟩
  · have hkind' : overlayKind ∈ initialKinds := hoverlay ▸ hkind
    exact absurd hkind' (by decide)
  · have hsome : (r.coins.lookup coinId).isSome := htracks
    rw [hnone] at hsome
    cases hsome

end Committed

/-- What every reachable state keeps to. -/
structure SystemInvariant {C W : Type*} [DecidableEq C] (bounds : PollBounds)
    (column : IntervalColumn) (s : RegistrySystem C W) : Prop where
  registry : RegistryInvariant bounds column s.committed
  sessions : SessionsKept bounds column s

namespace SystemInvariant

variable {C W : Type*} [DecidableEq C] [DecidableEq W] {bounds : PollBounds}
  {column : IntervalColumn} {s t : RegistrySystem C W} {c : C}

/-- The commit of a registration registers the coin in one step. -/
theorem commit_register (hinv : SystemInvariant bounds column s) {req : RegisterCoinRequest}
    {coin : TrackedCoin} {queued : List (String × ℤ)}
    (hphase : s.phase c = some (.registering req coin [] queued)) (reply : Reply) :
    registryStep bounds column s.committed
        (.register req coin.registeredAt (queued.map Prod.snd) reply) =
      some (commitCoin s.committed req coin queued reply) := by
  obtain ⟨⟨interval, now, hadmitted, rfl⟩, hkinds⟩ := hinv.sessions.phases c _ hphase
  have hnone := hinv.sessions.absent c _ hphase req.coinId rfl
  obtain ⟨hnodup, hids⟩ := hinv.sessions.free c _ hphase
  rw [List.append_nil] at hkinds
  have hzip : initialKinds.zip (queued.map Prod.snd) = queued := (List.zip_of_prod hkinds rfl).symm
  have hlength : (queued.map Prod.snd).length = initialKinds.length := by
    rw [← hkinds, List.length_map, List.length_map]
  have hqueue : enqueueItems req.coinId now queued s.committed.queue =
      some { s.committed.queue with
        table := (queued.map fun item => newRow item.2 now (coinItem req.coinId item.1)).reverse ++
          s.committed.queue.table } := by
    refine enqueueItems_fresh ?_ hnodup ?_ ?_
    · rw [hkinds]
      decide
    · intro item hitem
      exact hinv.registry.no_item hnone (hkinds ▸ List.mem_map_of_mem hitem)
    · intro item hitem
      exact (hids item.2 (List.mem_map_of_mem hitem)).2
  have hnow : (registeredCoin req interval now).registeredAt = now := rfl
  simp only [registryStep, hadmitted, registerAdmitted, hnone, hlength, if_true, hzip, hnow, hqueue]
  rfl

omit [DecidableEq W] in
theorem commit_sessions (hinv : SystemInvariant bounds column s) {req : RegisterCoinRequest}
    {coin : TrackedCoin} {queued : List (String × ℤ)}
    (hphase : s.phase c = some (.registering req coin [] queued)) (reply : Reply) :
    SessionsKept bounds column
      ((s.close c).recommit (commitCoin s.committed req coin queued reply)) := by
  obtain ⟨⟨interval, now, hadmitted, rfl⟩, -⟩ := hinv.sessions.phases c _ hphase
  have hnone := hinv.sessions.absent c _ hphase req.coinId rfl
  have hids := (hinv.sessions.free c _ hphase).2
  have hlookup : ∀ coinId, (commitCoin s.committed req (registeredCoin req interval now) queued
      reply).coins.lookup coinId =
        if coinId = req.coinId then some (registeredCoin req interval now)
        else s.committed.coins.lookup coinId := by
    intro coinId
    have hinsert : s.committed.coins.lookup (registeredCoin req interval now).coinId = none := hnone
    rw [commitCoin, Registry.insertedBy, answer_coins]
    exact lookup_insertCoin hinsert coinId
  have hrows : ∀ row ∈ (commitCoin s.committed req (registeredCoin req interval now) queued
      reply).queue.table, row.id ∈ queued.map Prod.snd ∨ row ∈ s.committed.queue.table := by
    intro row hrow
    simp only [commitCoin, Registry.insertedBy, answer_queue] at hrow
    rcases List.mem_append.mp hrow with hnew | hold
    · obtain ⟨item, hitem, rfl⟩ := List.mem_map.mp (List.mem_reverse.mp hnew)
      exact Or.inl (List.mem_map_of_mem hitem)
    · exact Or.inr hold
  have hother : ∀ other p, (s.close c).phase other = some p → other ≠ c ∧
      s.phase other = some p := by
    intro other p hp
    rw [phase_close] at hp
    split_ifs at hp with hc
    exact ⟨hc, hp⟩
  refine (hinv.sessions.close c).recommit ?_ ?_ ?_ ?_
  · intro coinId htracks
    rw [Registry.tracks, hlookup]
    split_ifs
    · rfl
    · exact htracks
  · intro other p hp coinId hcoin
    obtain ⟨hne, hold⟩ := hother other p hp
    rw [hlookup, if_neg]
    · exact hinv.sessions.absent other p hold coinId hcoin
    · rintro rfl
      exact hne (hinv.sessions.coins other p c _ hold hphase req.coinId hcoin rfl)
  · intro row hrow
    rcases hrows row hrow with hnew | hold
    · exact (hids row.id hnew).1
    · exact hinv.sessions.issued row hold
  · intro other p hp row hrow hid
    obtain ⟨hne, hold⟩ := hother other p hp
    rcases hrows row hrow with hnew | hrow
    · exact hne (hinv.sessions.ids other p c _ hold hphase row.id hid hnew)
    · exact ((hinv.sessions.free other p hold).2 row.id hid).2 row hrow rfl

omit [DecidableEq W] in
theorem queue_sessions (hinv : SystemInvariant bounds column s) {req : RegisterCoinRequest}
    {coin : TrackedCoin} {kind : String} {kinds : List String} {queued : List (String × ℤ)}
    (hphase : s.phase c = some (.registering req coin (kind :: kinds) queued)) :
    ¬s.absorbs queued req.coinId kind ∧ SessionsKept bounds column
      (s.bump.goOn c (.registering req coin kinds (queued ++ [(kind, s.nextId)]))) := by
  obtain ⟨hadmitted, hkinds⟩ := hinv.sessions.phases c _ hphase
  have hnone := hinv.sessions.absent c _ hphase req.coinId rfl
  obtain ⟨hnodup, hids⟩ := hinv.sessions.free c _ hphase
  have hinitial : kind ∈ initialKinds := by
    rw [← hkinds]
    simp
  have hids' : ∀ id ∈ (queued ++ [(kind, s.nextId)]).map Prod.snd,
      id ∈ queued.map Prod.snd ∨ id = s.nextId := by
    intro id hid
    simpa using hid
  constructor
  · rintro (⟨row, hrow, -, hpayload⟩ | hqueued)
    · exact hinv.registry.no_item hnone hinitial row hrow hpayload
    · have hdistinct : (queued.map Prod.fst ++ kind :: kinds).Nodup := by
        rw [hkinds]
        decide
      exact (List.nodup_append.mp hdistinct).2.2 kind hqueued kind List.mem_cons_self rfl
  · refine hinv.sessions.bump.goOn ⟨hadmitted, ?_⟩ ?_ ⟨?_, ?_⟩ ?_ ?_
    · rw [← hkinds]
      simp
    · intro coinId hcoin
      exact hinv.sessions.absent c _ hphase coinId hcoin
    · have hfresh : s.nextId ∉ queued.map Prod.snd := fun hmem => (hids _ hmem).1.false
      rw [SessionPhase.ids, List.map_append, List.map_singleton]
      exact List.Nodup.append hnodup (List.nodup_singleton _)
        (List.disjoint_singleton.mpr hfresh)
    · intro id hid
      rcases hids' id hid with hold | rfl
      · exact ⟨(hids id hold).1.trans (Int.lt_succ _), (hids id hold).2⟩
      · refine ⟨Int.lt_succ _, fun row hrow => ?_⟩
        exact (hinv.sessions.issued row hrow).ne
    · intro other q hq coinId hcoin hqcoin
      exact hinv.sessions.coins other q c _ hq hphase coinId hqcoin hcoin
    · intro other q hq id hid hqid
      rcases hids' id hid with hold | rfl
      · exact hinv.sessions.ids other q c _ hq hphase id hqid hold
      · exact absurd ((hinv.sessions.free other q hq).2 _ hqid).1 (lt_irrefl _)

theorem recommit_sessions (hinv : SystemInvariant bounds column s) {b : RegistryAction W}
    {r : Registry W} (hregister : ∀ req now ids reply, b ≠ .register req now ids reply)
    (henqueue : ∀ columns id now, b ≠ .enqueue columns id now)
    (h : registryStep bounds column s.committed b = some r) :
    SessionsKept bounds column (s.recommit r) := by
  have hsame : ∀ coins, CoinsKept bounds column s.committed.coins coins → r.coins = coins →
      r.queue = s.committed.queue → SessionsKept bounds column (s.recommit r) := by
    intro coins hkept hcoins hqueue
    refine hinv.sessions.recommit_same ?_ ?_
    · intro coinId
      rw [Registry.tracks, hcoins]
      exact hkept.isSome_iff coinId
    · intro row hrow
      exact ⟨row, hqueue ▸ hrow, rfl⟩
  cases b with
  | register req now ids reply => exact absurd rfl (hregister req now ids reply)
  | enqueue columns id now => exact absurd rfl (henqueue columns id now)
  | update coinId req reply =>
    obtain rfl := Option.some.inj h
    exact hsame _ (CoinsKept.update s.committed.coins coinId req) answer_coins answer_queue
  | get coinId reply =>
    obtain rfl := Option.some.inj h
    exact hsame _ (CoinsKept.refl s.committed.coins) answer_coins answer_queue
  | pause coinId reply =>
    obtain ⟨coins, hcoins, rfl⟩ := Option.map_eq_some_iff.mp h
    exact hsame _ (CoinsKept.pause hcoins) answer_coins answer_queue
  | unpaused coinId reply =>
    obtain rfl := Option.some.inj h
    exact hsame _ (CoinsKept.refl s.committed.coins) answer_coins answer_queue
  | fail request reply =>
    simp only [registryStep] at h
    split_ifs at h
    obtain rfl := Option.some.inj h
    exact hsame _ (CoinsKept.refl s.committed.coins) answer_coins answer_queue
  | collect coinId now =>
    obtain rfl := Option.some.inj h
    exact hsame _ (CoinsKept.collect s.committed.coins coinId now) rfl rfl
  | lease a =>
    obtain ⟨hinsert, queue, hqueue, rfl⟩ := registryStep_lease h
    refine hinv.sessions.recommit_same (fun _ => Iff.rfl) ?_
    intro row' hrow'
    obtain ⟨row, hrow, hid, -⟩ := rowsFrom_lease hinv.registry.lease hinsert hqueue row' hrow'
    exact ⟨row, hrow, hid⟩

theorem enqueueCommitted_kept (hinv : SystemInvariant bounds column s) {item : QueueColumns}
    {now : ℤ} (hadmits : s.committed.admits item) (h : s.enqueueCommitted item now = some t) :
    registryStep bounds column s.committed (.enqueue item s.nextId now) = some t.committed ∧
      t.committed.coins = s.committed.coins ∧ (∀ other, t.phase other = s.phase other) ∧
      SessionsKept bounds column t := by
  unfold enqueueCommitted at h
  split_ifs at h
  obtain ⟨queue, hqueue, rfl⟩ := Option.map_eq_some_iff.mp h
  refine ⟨?_, rfl, fun _ => rfl, ?_⟩
  · simp only [registryStep, if_pos hadmits, hqueue]
    rfl
  have hrows : ∀ row ∈ queue.table, row.id = s.nextId ∨ row ∈ s.committed.queue.table := by
    intro row hrow
    rcases enqueueQueue_cases hqueue with ⟨rfl, -⟩ | ⟨-, -, rfl⟩
    · exact Or.inr hrow
    · rcases List.mem_cons.mp hrow with rfl | hold
      · exact Or.inl rfl
      · exact Or.inr hold
  refine hinv.sessions.bump.recommit (fun _ htracks => htracks) hinv.sessions.absent ?_ ?_
  · intro row hrow
    rcases hrows row hrow with hnew | hold
    · rw [hnew]
      exact Int.lt_succ _
    · exact (hinv.sessions.issued row hold).trans (Int.lt_succ _)
  · intro other p hp row hrow hid
    have hfree := (hinv.sessions.free other p hp).2 row.id hid
    rcases hrows row hrow with hnew | hold
    · exact absurd hfree.1 (hnew ▸ lt_irrefl _)
    · exact hfree.2 row hold rfl

omit [DecidableEq W] in
theorem refreshItems_admitted (r : Registry W) (overlayCoin : String) :
    ∀ item ∈ refreshItems r.coins overlayCoin, r.admits item := by
  intro item hitem
  rcases List.mem_append.mp hitem with hofCoin | hoverlay
  · obtain ⟨coin, hcoin, hkind⟩ := List.mem_flatMap.mp hofCoin
    obtain ⟨kind, -, rfl⟩ := List.mem_map.mp hkind
    refine Or.inr ⟨rfl, ?_⟩
    have hstored := KeyedTable.mem_rows_iff.mp (List.mem_filter.mp hcoin).1
    exact Option.isSome_iff_exists.mpr ⟨coin, hstored⟩
  · obtain rfl := List.mem_singleton.mp hoverlay
    exact Or.inl rfl

omit [DecidableEq W] in
theorem rollupItem_admitted (hinv : SystemInvariant bounds column s) {self : W}
    {item : QueueColumns} (h : s.rollupItem self = some item) : s.committed.admits item := by
  obtain ⟨claim, -, hclaimed⟩ := Option.bind_eq_some_iff.mp h
  obtain ⟨row, hrow, hitem⟩ := Option.bind_eq_some_iff.mp hclaimed
  split_ifs at hitem with hcandles
  obtain rfl := Option.some.inj hitem
  rcases hinv.registry.admitted row (List.mem_of_find?_eq_some hrow) with hoverlay | hcoin
  · rw [hcandles.2] at hoverlay
    exact absurd hoverlay (by decide)
  · exact Or.inr ⟨rfl, hcoin.2⟩

omit [DecidableEq W] in
theorem request_admitted (hinv : SystemInvariant bounds column s) {p : SessionPhase}
    {request : CoinRequest} (hphase : s.phase c = some p) (hrequest : p.request = some request) :
    request.admitted bounds column = true := by
  have hkept := hinv.sessions.phases c p hphase
  cases p with
  | registering req coin kinds queued =>
    obtain ⟨⟨interval, now, hadmitted, -⟩, -⟩ := hkept
    obtain rfl := Option.some.inj hrequest
    simp [CoinRequest.admitted, hadmitted, Except.isOk, Except.toBool]
  | reselecting req =>
    obtain ⟨⟨interval, hadmitted⟩, -⟩ := hkept
    obtain rfl := Option.some.inj hrequest
    simp [CoinRequest.admitted, hadmitted, Except.isOk, Except.toBool]
  | unpaused coinId =>
    obtain rfl := Option.some.inj hrequest
    rfl
  | refreshing items => cases hrequest

end SystemInvariant
end CryptoCollector.Api
