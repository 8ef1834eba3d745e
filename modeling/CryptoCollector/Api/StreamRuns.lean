import CryptoCollector.Api.Streams

/-!
# Runs of the live streams

Every client is sent what was notified after it subscribed, in commit order and each
notification at most once; what it was not sent is accounted for by what its receiver was told
it lost, by what is still in the channel, and by what its relay missed.
-/

namespace CryptoCollector.Api
open Foundations Models Db

/-- The client heard the channel, and the channel what the relay heard of the feed. -/
structure ClientKept {M : Type*} (feed : List M) (rep : StreamReplica M)
    (client : StreamClient M) : Prop where
  heard : Heard rep.sent client.sentBefore client.next client.delivered client.lagged
  carried : ∃ lost, Heard feed client.positionBefore rep.relay.position
    (rep.sent.drop client.sentBefore) lost ∧
      (client.isOpen = true → lost + client.missedBefore = rep.relay.missed)

structure ReplicaKept {M : Type*} (feed : List M) (rep : StreamReplica M) : Prop where
  position : rep.relay.position ≤ feed.length
  clients : ∀ client ∈ rep.clients, ClientKept feed rep client

section Replica

variable {M : Type*} {feed : List M} {rep rep' : StreamReplica M} {client : StreamClient M}

theorem ReplicaKept.new (feed : List M) : ReplicaKept feed (.new : StreamReplica M) :=
  ⟨Nat.zero_le _, by simp [StreamReplica.new]⟩

theorem ReplicaKept.write (h : ReplicaKept feed rep) (payloads : List M) :
    ReplicaKept (feed ++ payloads) rep where
  position := h.position.trans (by simp)
  clients := by
    intro client hclient
    obtain ⟨hheard, lost, hcarried, hopen⟩ := h.clients client hclient
    exact ⟨hheard, lost, hcarried.send payloads, hopen⟩

theorem ReplicaKept.listen (h : ReplicaKept feed rep) :
    ReplicaKept feed { rep with relay := { rep.relay with
      listening := true
      position := feed.length
      missed := rep.relay.missed + (feed.length - rep.relay.position) } } where
  position := le_rfl
  clients := by
    intro client hclient
    obtain ⟨hheard, lost, hcarried, hopen⟩ := h.clients client hclient
    have hposition := h.position
    have hreached : rep.relay.position + (feed.length - rep.relay.position) = feed.length := by
      omega
    refine ⟨hheard, lost + (feed.length - rep.relay.position), ?_, ?_⟩
    · have hlag := hcarried.lag hreached.le
      rwa [hreached] at hlag
    · intro hisOpen
      have hlost := hopen hisOpen
      simp only
      omega

theorem ReplicaKept.relay (h : ReplicaKept feed rep) {payload : M}
    (hpayload : feed[rep.relay.position]? = some payload) :
    ReplicaKept feed { rep with
      relay := { rep.relay with position := rep.relay.position + 1 }
      sent := broadcastSend rep payload } where
  position := (List.getElem?_eq_some_iff.mp hpayload).1
  clients := by
    intro client hclient
    obtain ⟨hheard, lost, hcarried, hopen⟩ := h.clients client hclient
    by_cases hany : rep.clients.any StreamClient.isOpen = true
    · have hsent : broadcastSend rep payload = rep.sent ++ [payload] := if_pos hany
      have hbefore : client.sentBefore ≤ rep.sent.length := by
        have hcounted := hheard.counted
        have hbounded := hheard.bounded
        omega
      refine ⟨?_, lost, ?_, hopen⟩
      · simp only [hsent]
        exact hheard.send [payload]
      · simp only [hsent, List.drop_append_of_le_length hbefore]
        exact hcarried.message hpayload
    · have hsent : broadcastSend rep payload = rep.sent := if_neg hany
      have hclosed : client.isOpen ≠ true := by
        intro hisOpen
        exact hany (List.any_eq_true.mpr ⟨client, hclient, hisOpen⟩)
      refine ⟨?_, lost + 1, ?_, fun hisOpen => absurd hisOpen hclosed⟩
      · simp only [hsent]
        exact hheard
      · simp only [hsent]
        exact hcarried.lag (List.getElem?_eq_some_iff.mp hpayload).1

theorem ReplicaKept.subscribe (h : ReplicaKept feed rep) :
    ReplicaKept feed { rep with
      clients := rep.clients ++ [⟨rep.sent.length, [], 0, true, rep.sent.length,
        rep.relay.position, rep.relay.missed⟩] } where
  position := h.position
  clients := by
    intro client hclient
    rcases List.mem_append.mp hclient with hold | hnew
    · exact ⟨(h.clients client hold).heard, (h.clients client hold).carried⟩
    · obtain rfl := List.mem_singleton.mp hnew
      refine ⟨Heard.start le_rfl, 0, ?_, fun _ => Nat.zero_add _⟩
      simp only [List.drop_length]
      exact Heard.start h.position

theorem ReplicaKept.onClient (h : ReplicaKept feed rep) {i : ℕ}
    {f : StreamClient M → Option (StreamClient M)}
    (hf : ∀ client client', ClientKept feed rep client → f client = some client' →
      ClientKept feed rep client')
    (hstep : rep.onClient i f = some rep') : ReplicaKept feed rep' := by
  obtain ⟨client, hclient, hrest⟩ := Option.bind_eq_some_iff.mp hstep
  split_ifs at hrest
  obtain ⟨client', hnext, rfl⟩ := Option.map_eq_some_iff.mp hrest
  refine ⟨h.position, ?_⟩
  intro other hother
  have hkept : ClientKept feed rep other := by
    rcases List.mem_or_eq_of_mem_set hother with hold | rfl
    · exact h.clients other hold
    · exact hf client other (h.clients client (List.mem_of_getElem? hclient)) hnext
  exact ⟨hkept.heard, hkept.carried⟩

theorem ClientKept.forward (h : ClientKept feed rep client) {sendOk : Bool}
    {client' : StreamClient M}
    (hstep : client.forward broadcastCapacity rep.sent sendOk = some client') :
    ClientKept feed rep client' := by
  unfold StreamClient.forward at hstep
  split at hstep
  · next payload next hreceive =>
    obtain ⟨hpayload, rfl⟩ := receive_message hreceive
    split_ifs at hstep
    · obtain rfl := Option.some.inj hstep
      exact ⟨h.heard.message hpayload, h.carried⟩
    · obtain rfl := Option.some.inj hstep
      obtain ⟨lost, hcarried, -⟩ := h.carried
      exact ⟨h.heard, lost, hcarried, fun hisOpen => by cases hisOpen⟩
  · next n next hreceive =>
    obtain ⟨-, rfl, hreached⟩ := receive_lagged hreceive
    obtain rfl := Option.some.inj hstep
    exact ⟨h.heard.lag (by omega), h.carried⟩
  · cases hstep

theorem ReplicaKept.step (h : ReplicaKept feed rep) {a : ReplicaAction}
    (hstep : rep.step feed a = some rep') : ReplicaKept feed rep' := by
  cases a with
  | listen =>
    simp only [StreamReplica.step] at hstep
    split_ifs at hstep
    obtain rfl := Option.some.inj hstep
    exact h.listen
  | connectionLost =>
    simp only [StreamReplica.step] at hstep
    split_ifs at hstep
    obtain rfl := Option.some.inj hstep
    exact ⟨h.position, fun client hclient =>
      ⟨(h.clients client hclient).heard, (h.clients client hclient).carried⟩⟩
  | relay =>
    simp only [StreamReplica.step] at hstep
    split_ifs at hstep
    obtain ⟨payload, hpayload, rfl⟩ := Option.map_eq_some_iff.mp hstep
    exact h.relay hpayload
  | stopRelay =>
    obtain rfl := Option.some.inj hstep
    exact ⟨h.position, fun client hclient =>
      ⟨(h.clients client hclient).heard, (h.clients client hclient).carried⟩⟩
  | subscribe =>
    obtain rfl := Option.some.inj hstep
    exact h.subscribe
  | forward i sendOk =>
    exact h.onClient (fun _ _ hkept hnext => hkept.forward hnext) hstep
  | hangUp i =>
    refine h.onClient ?_ hstep
    intro client client' hkept hnext
    obtain rfl := Option.some.inj hnext
    obtain ⟨lost, hcarried, -⟩ := hkept.carried
    exact ⟨hkept.heard, lost, hcarried, fun hisOpen => by cases hisOpen⟩

end Replica

section System

variable {ι S W M : Type*} [DecidableEq ι] {N : NotifyingStore S W M} {s : StreamSystem ι S M}

theorem streams_kept {as : List (StreamAction ι W)}
    (hrun : exec (StreamSystem.step N) (.start N) as = some s) (r : ι) :
    ReplicaKept s.feed (s.replicas r) := by
  refine exec_invariant (I := fun u => ∀ r, ReplicaKept u.feed (u.replicas r)) ?_
    (fun _ => ReplicaKept.new []) hrun r
  intro u a v hu hstep r
  cases a with
  | write w =>
    obtain ⟨⟨store, payloads⟩, -, rfl⟩ := Option.map_eq_some_iff.mp hstep
    exact (hu r).write payloads
  | on r' a =>
    obtain ⟨rep, hrep, rfl⟩ := Option.map_eq_some_iff.mp hstep
    by_cases hr : r = r'
    · subst hr
      simpa using (hu r).step hrep
    · simpa [Function.update_of_ne hr] using hu r

/-- Every client is sent, in commit order and once, what was notified since it subscribed, but
for what is accounted for: what its receiver was told it lost, what is still in the channel and
what its relay missed. Where nothing was lost it was sent the first of these notifications. -/
theorem streams_accounted {as : List (StreamAction ι W)}
    (hrun : exec (StreamSystem.step N) (.start N) as = some s) (r : ι) (client : StreamClient M)
    (hclient : client ∈ (s.replicas r).clients) :
    client.delivered.Sublist (s.feed.drop client.positionBefore) ∧
      (client.isOpen = true →
        client.delivered.length + client.lagged + ((s.replicas r).sent.length - client.next) +
            ((s.replicas r).relay.missed - client.missedBefore) + client.positionBefore =
          (s.replicas r).relay.position ∧
        (client.lagged = 0 → (s.replicas r).relay.missed = client.missedBefore →
          client.delivered <+: s.feed.drop client.positionBefore)) := by
  obtain ⟨hheard, lost, hcarried, hopen⟩ := (streams_kept hrun r).clients client hclient
  obtain ⟨hsublist, hcounted⟩ := hcarried.relayed hheard
  refine ⟨hsublist, fun hisOpen => ⟨?_, ?_⟩⟩
  · have hlost := hopen hisOpen
    omega
  · intro hlagged hmissed
    obtain rfl : lost = 0 := by
      have hlost := hopen hisOpen
      omega
    rw [hlagged] at hheard
    exact hheard.prefix_of_lost.trans hcarried.prefix_of_lost

end System
end CryptoCollector.Api
