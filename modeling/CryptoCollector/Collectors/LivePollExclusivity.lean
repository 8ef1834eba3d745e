import CryptoCollector.Collectors.LivePoller

/-!
# Claims of the live poller exclude each other

While a marker stands, no other replica claims the coin. A marker is taken down
early in two ways: `PATCH` of a coin's interval resets it so that the new cadence
counts at once, and a statement that ends a claim names only the coin, so it also
ends a claim that another replica took over in the meantime. In every run without
these, no coin is claimed while another replica holds an unexpired claim on it.
-/

namespace CryptoCollector.Collectors
open Foundations DateTime

variable {R : Type*}

section Condition

variable [DecidableEq R]

/-- A claim is taken only of coins on which the other replicas' claims have expired. -/
def ClaimsAlone (s : PollState R) : PollAction R → Prop
  | .claim replica claim batch =>
    ∀ h ∈ s.held, h.coinId ∈ batch → h.replica ≠ replica → h.expiry ≤ claim.now
  | _ => True

instance (s : PollState R) (a : PollAction R) : Decidable (ClaimsAlone s a) :=
  match a with
  | .claim _ _ _ => inferInstanceAs (Decidable (∀ h ∈ s.held, _))
  | .finish _ _ _ _ => inferInstanceAs (Decidable True)
  | .register _ _ _ _ => inferInstanceAs (Decidable True)
  | .update _ _ _ => inferInstanceAs (Decidable True)
  | .delete _ _ => inferInstanceAs (Decidable True)

/-- The marker a write leaves lasts as long as `expiry`. -/
def PollWrite.covers (now expiry : ℤ) : PollWrite → Prop
  | .defer widenedIntervalSecs => expiry ≤ now + seconds widenedIntervalSecs
  | _ => False

instance (now expiry : ℤ) (write : PollWrite) : Decidable (write.covers now expiry) :=
  match write with
  | .defer _ => inferInstanceAs (Decidable (_ ≤ _))
  | .success => inferInstanceAs (Decidable False)
  | .failureClear => inferInstanceAs (Decidable False)

/-- A step that takes no marker down under an unexpired claim: a replica's last
statement comes while no other replica's claim on the coin is running, and the
API resets no coin that is being polled. -/
def Orderly (s : PollState R) : PollAction R → Prop
  | .finish replica coinId now write =>
    ∀ h ∈ s.held, h.coinId = coinId → h.replica ≠ replica →
      h.expiry ≤ now ∨ write.covers now h.expiry
  | .update now coinId req =>
    req.livePollInterval = none ∨ ∀ h ∈ s.held, h.coinId = coinId → h.expiry ≤ now
  | _ => True

instance (s : PollState R) (a : PollAction R) : Decidable (Orderly s a) :=
  match a with
  | .claim _ _ _ => inferInstanceAs (Decidable True)
  | .finish _ _ _ _ => inferInstanceAs (Decidable (∀ h ∈ s.held, _))
  | .register _ _ _ _ => inferInstanceAs (Decidable True)
  | .update _ _ _ => inferInstanceAs (Decidable (_ ∨ ∀ h ∈ s.held, _))
  | .delete _ _ => inferInstanceAs (Decidable True)

end Condition

/-- The marker of the coin lasts as long as `expiry`. -/
def MarkedUntil (expiry : ℤ) (coin : TrackedCoin) : Prop :=
  ∃ marker ∈ coin.livePollClaimedUntil, expiry ≤ marker

/-- The claim has expired, or the marker of its coin covers it. -/
def MarkedClaim (coins : List TrackedCoin) (clock : ℤ) (h : HeldClaim R) : Prop :=
  (∃ coin ∈ coins, coin.coinId = h.coinId) ∧
    (h.expiry ≤ clock ∨ ∀ coin ∈ coins, coin.coinId = h.coinId → MarkedUntil h.expiry coin)

/-- Every claim that is held is marked. -/
def Marked (s : PollState R) : Prop := ∀ h ∈ s.held, MarkedClaim s.coins s.clock h

theorem MarkedClaim.updateWhere {coins : List TrackedCoin} {clock now : ℤ} {h : HeldClaim R}
    (hs : MarkedClaim coins clock h) (hclock : clock ≤ now) {p : TrackedCoin → Prop}
    [DecidablePred p] {f : TrackedCoin → TrackedCoin} (hid : ∀ coin, (f coin).coinId = coin.coinId)
    (hf : ∀ coin ∈ coins, coin.coinId = h.coinId → p coin → MarkedUntil h.expiry coin →
      h.expiry ≤ now ∨ MarkedUntil h.expiry (f coin)) :
    MarkedClaim (Foundations.updateWhere p f coins) now h := by
  obtain ⟨⟨known, hknown, hknownid⟩, hmark⟩ := hs
  constructor
  · obtain ⟨coin, hcoin, hcoinid⟩ :=
      exists_mem_updateWhere (p := p) (fun coin _ => hid coin) hknown
    exact ⟨coin, hcoin, hcoinid.trans hknownid⟩
  · by_cases hexpired : h.expiry ≤ now
    · exact Or.inl hexpired
    · have hmarked := hmark.resolve_left fun hle => hexpired (hle.trans hclock)
      refine Or.inr ?_
      intro coin hcoin hcoinid
      rcases mem_updateWhere.mp hcoin with ⟨old, hold, hp, rfl⟩ | ⟨hold, -⟩
      · rw [hid] at hcoinid
        exact (hf old hold hcoinid hp (hmarked old hold hcoinid)).resolve_left hexpired
      · exact hmarked coin hold hcoinid

variable {s t : PollState R}

/-- A coin that is claimed is under no claim that is marked and not expired. -/
theorem expiry_le_of_batch {claim : ClaimDueCoins} {batch : List String}
    (hbatch : ClaimBatch s.coins claim batch) (hclock : s.clock ≤ claim.now) {h : HeldClaim R}
    (hs : MarkedClaim s.coins s.clock h) (hin : h.coinId ∈ batch) : h.expiry ≤ claim.now := by
  obtain ⟨coin, hcoin, hid, ⟨-, -, hfree⟩, -⟩ := hbatch.2.2.1 h.coinId hin
  rcases hs.2 with hexpired | hmarked
  · exact hexpired.trans hclock
  · obtain ⟨marker, hmarker, hle⟩ := hmarked coin hcoin hid
    exact hle.trans (hfree marker hmarker)

theorem marked_claimCoins (hs : Marked s) {replica : R} {claim : ClaimDueCoins}
    {batch : List String} (hclock : s.clock ≤ claim.now) (hbatch : ClaimBatch s.coins claim batch) :
    Marked (claimCoins s replica claim batch) := by
  intro h hh
  rcases List.mem_append.mp hh with hnew | hold
  · obtain ⟨id, hid, rfl⟩ := List.mem_map.mp hnew
    obtain ⟨coin, hcoin, hcoinid, -⟩ := hbatch.2.2.1 id hid
    have hkept : ∃ kept ∈ updateWhere (fun coin => coin.coinId ∈ batch)
        (TrackedCoin.claimFor claim) s.coins, kept.coinId = coin.coinId :=
      exists_mem_updateWhere (f := TrackedCoin.claimFor claim)
        (fun coin _ => (rfl : (coin.claimFor claim).coinId = coin.coinId)) hcoin
    rw [hcoinid] at hkept
    refine ⟨hkept, Or.inr ?_⟩
    intro coin hcoin hcoinid
    rcases mem_updateWhere.mp hcoin with ⟨old, -, -, rfl⟩ | ⟨-, hnot⟩
    · exact ⟨_, rfl, le_rfl⟩
    · exact absurd (hcoinid ▸ hid) hnot
  · refine (hs h hold).updateWhere hclock (fun _ => rfl) ?_
    intro coin _ hcoinid hin _
    exact Or.inl (expiry_le_of_batch hbatch hclock (hs h hold) (hcoinid ▸ hin))

theorem marked_update (hs : Marked s) {coinId : String} {now : ℤ} {req : UpdateCoinRequest}
    (hclock : s.clock ≤ now) (hmeet : Orderly s (.update now coinId req)) :
    Marked (updateCoin s coinId now req.set) := by
  intro h hh
  refine (hs h hh).updateWhere hclock
    (fun coin => by unfold UpdateCoinRequest.set; split <;> rfl) ?_
  intro coin _ hcoinid hcoin hmarked
  rcases hmeet with hnone | hexpired
  · right
    unfold UpdateCoinRequest.set
    rw [hnone]
    exact hmarked
  · exact Or.inl (hexpired h hh (hcoinid.symm.trans hcoin))

variable [DecidableEq R]

theorem claimsAlone_of_marked (hs : Marked s) {a : PollAction R} (h : pollStep s a = some t) :
    ClaimsAlone s a := by
  cases a with
  | claim replica claim batch =>
    obtain ⟨hbatch, -⟩ := pollStep_claim h
    intro held hheld hmem _
    exact expiry_le_of_batch hbatch (pollStep_clock h).1 (hs held hheld) hmem
  | finish replica coinId now write => trivial
  | register now coinId symbol interval => trivial
  | update now coinId req => trivial
  | delete now coinId => trivial

theorem marked_finishCoin (hs : Marked s) {replica : R} {coinId : String} {now : ℤ}
    {write : PollWrite} (hclock : s.clock ≤ now)
    (hmeet : Orderly s (.finish replica coinId now write)) :
    Marked (finishCoin s replica coinId now write) := by
  intro h hh
  obtain ⟨hold, hother⟩ := List.mem_filter.mp hh
  refine (hs h hold).updateWhere hclock (fun coin => by cases write <;> rfl) ?_
  intro coin _ hcoinid hcoin _
  have hsame : h.coinId = coinId := hcoinid.symm.trans hcoin
  have hreplica : h.replica ≠ replica := by
    intro hreplica
    simp [hreplica, hsame] at hother
  rcases hmeet h hold hsame hreplica with hexpired | hcovers
  · exact Or.inl hexpired
  · cases write with
    | success => exact hcovers.elim
    | failureClear => exact hcovers.elim
    | defer widenedIntervalSecs => exact Or.inr ⟨_, rfl, hcovers⟩

/-- An orderly step keeps the claims marked. -/
theorem marked_step {a : PollAction R} (hs : Marked s) (hmeet : Orderly s a)
    (h : pollStep s a = some t) : Marked t := by
  have hclock := pollStep_clock h
  cases a with
  | claim replica claim batch =>
    obtain ⟨hbatch, rfl⟩ := pollStep_claim h
    exact marked_claimCoins hs hclock.1 hbatch
  | finish replica coinId now write =>
    obtain ⟨-, rfl⟩ := pollStep_finish h
    exact marked_finishCoin hs hclock.1 hmeet
  | register now coinId symbol interval =>
    obtain ⟨hheld, hkept, hcoins⟩ := pollStep_register h
    intro held hin
    rw [hheld] at hin
    obtain ⟨⟨known, hknown, hid⟩, hmark⟩ := hs held hin
    refine ⟨⟨known, hkept known hknown, hid⟩, ?_⟩
    rcases hmark with hexpired | hmarked
    · exact Or.inl (hexpired.trans (hclock.1.trans hclock.2.ge))
    · refine Or.inr ?_
      intro coin hcoin hcoinid
      rcases hcoins coin hcoin with hold | ⟨rfl, hfresh⟩
      · exact hmarked coin hold hcoinid
      · exact absurd (hid.trans hcoinid.symm) (hfresh known hknown)
  | update now coinId req =>
    obtain rfl := pollStep_update h
    exact marked_update hs hclock.1 hmeet
  | delete now coinId =>
    obtain rfl := pollStep_delete h
    intro held hin
    exact (hs held hin).updateWhere hclock.1 (fun _ => rfl) fun _ _ _ _ hmarked => Or.inr hmarked

/-- In every run whose steps are orderly, no coin is claimed while another replica
holds an unexpired claim on it. -/
theorem live_poll_exclusive (coins : List TrackedCoin) (clock : ℤ) (as : List (PollAction R))
    (t : PollState R) (hrun : exec pollStep ⟨coins, clock, []⟩ as = some t)
    (hmeet : StepsMeet pollStep Orderly ⟨coins, clock, []⟩ as) :
    StepsMeet pollStep ClaimsAlone ⟨coins, clock, []⟩ as := by
  have hinit : Marked (⟨coins, clock, []⟩ : PollState R) := by
    intro h hh
    cases hh
  exact hmeet.of_exec (fun _ _ _ hs hmeet hstep => marked_step hs hmeet hstep)
    (fun _ _ _ hs _ hstep => claimsAlone_of_marked hs hstep) hinit hrun

def bitcoinPoll : PollState ℕ :=
  ⟨[⟨"bitcoin", "BTC", .active, none, none, none, none⟩], 0, []⟩

/-- A claim of it at an instant, under the default cadence and lifetime. -/
def bitcoinClaim (replica : ℕ) (now : ℤ) : PollAction ℕ :=
  .claim replica ⟨now, 60, 120, 50, []⟩ ["bitcoin"]

/-- A replica crashes, another one takes over when the marker has expired. -/
theorem live_poll_exclusive_takeover :
    StepsMeet pollStep ClaimsAlone bitcoinPoll
      [bitcoinClaim 1 0, bitcoinClaim 2 (seconds 120),
        .finish 2 "bitcoin" (seconds 121) .success, bitcoinClaim 1 (seconds 200)] :=
  live_poll_exclusive _ _ _ _ rfl (by decide)

/-- The interval is reset under a claim. -/
def resetUnderClaim : List (PollAction ℕ) :=
  [bitcoinClaim 1 0, .update 1 "bitcoin" ⟨none, some (some 30)⟩, bitcoinClaim 2 1]

/-- A failure is written after another replica took the coin over. -/
def clearAfterTakeover : List (PollAction ℕ) :=
  [bitcoinClaim 1 0, bitcoinClaim 2 (seconds 120),
    .finish 1 "bitcoin" (seconds 121) .failureClear, bitcoinClaim 3 (seconds 121)]

/-- In both runs the last claim is taken under another replica's. -/
theorem live_poll_claims_overlap :
    ((exec pollStep bitcoinPoll resetUnderClaim).isSome = true ∧
      ¬StepsMeet pollStep ClaimsAlone bitcoinPoll resetUnderClaim) ∧
    ((exec pollStep bitcoinPoll clearAfterTakeover).isSome = true ∧
      ¬StepsMeet pollStep ClaimsAlone bitcoinPoll clearAfterTakeover) := by
  decide

end CryptoCollector.Collectors
