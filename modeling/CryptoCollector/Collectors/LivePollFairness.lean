import CryptoCollector.Collectors.LivePoller
import CryptoCollector.Foundations.Rotation
import Mathlib.Algebra.Order.Floor.Div

/-!
# The batch bound of the live poller

A cycle claims the coins that were polled longest ago. Only a success moves a coin
to the back, so the bound serves every coin in turn as long as no coin that was
claimed comes back ahead of one that waits. A coin whose polls keep failing does.
-/

namespace CryptoCollector.Collectors
open Foundations DateTime

variable {R : Type*}

def activeCoins (s : PollState R) : List String :=
  (s.coins.filter fun coin => coin.status = .active).map TrackedCoin.coinId

/-- A poll cycle with this batch bound that finds the row of `x` unlocked. -/
def cycleFor (x : String) (bound : ℕ) : PollAction R → Bool
  | .claim _ claim _ => claim.batchLimit = bound ∧ x ∉ claim.locked
  | _ => false

/-- Until it is claimed, `x` is due and unclaimed at the cycle. -/
def StaysDue (x : String) (bound : ℕ) (s : PollState R × List String) : PollAction R → Prop
  | .claim replica claim batch =>
    cycleFor x bound (.claim replica claim batch) = true → x ∉ s.2 →
      ∃ coin ∈ s.1.coins, coin.coinId = x ∧ coin.claimable claim
  | _ => True

instance (x : String) (bound : ℕ) (s : PollState R × List String) (a : PollAction R) :
    Decidable (StaysDue x bound s a) :=
  match a with
  | .claim _ _ _ => inferInstanceAs (Decidable (_ → _ → ∃ coin ∈ s.1.coins, _))
  | .finish _ _ _ _ => inferInstanceAs (Decidable True)
  | .register _ _ _ _ => inferInstanceAs (Decidable True)
  | .update _ _ _ => inferInstanceAs (Decidable True)
  | .delete _ _ => inferInstanceAs (Decidable True)

/-- While `x` waits, the coins a cycle may claim before it are of the population
and were not claimed yet. -/
def NoneReturns (population : List String) (x : String) (s : PollState R × List String) :
    PollAction R → Prop
  | .claim _ claim _ =>
    x ∉ s.2 → ∀ coin ∈ s.1.coins, coin.coinId = x →
      ∀ other ∈ s.1.coins, other.coinId ≠ x → claimableBy claim other → other.rank ≤ coin.rank →
        other.coinId ∈ population ∧ other.coinId ∉ s.2
  | _ => True

instance (population : List String) (x : String) (s : PollState R × List String)
    (a : PollAction R) : Decidable (NoneReturns population x s a) :=
  match a with
  | .claim _ _ _ => inferInstanceAs (Decidable (_ → ∀ coin ∈ s.1.coins, _ → ∀ other ∈ s.1.coins, _))
  | .finish _ _ _ _ => inferInstanceAs (Decidable True)
  | .register _ _ _ _ => inferInstanceAs (Decidable True)
  | .update _ _ _ => inferInstanceAs (Decidable True)
  | .delete _ _ => inferInstanceAs (Decidable True)

/-- A cycle that leaves a waiting coin out claims a full batch of coins ahead of it. -/
theorem servesFresh_of_claim {s : PollState R} {log : List String} {population : List String}
    {x : String} {bound : ℕ} {replica : R} {claim : ClaimDueCoins} {batch : List String}
    (hcycle : cycleFor x bound (.claim replica claim batch : PollAction R) = true)
    (hbatch : ClaimBatch s.coins claim batch) (hlog : x ∉ log) (hleft : x ∉ batch)
    (hdue : StaysDue x bound (s, log) (.claim replica claim batch))
    (hnone : NoneReturns population x (s, log) (.claim replica claim batch)) :
    ServesFresh PollAction.claimed population bound log (.claim replica claim batch) := by
  obtain ⟨hlimit, hunlocked⟩ : claim.batchLimit = bound ∧ x ∉ claim.locked := by
    simpa [cycleFor] using hcycle
  obtain ⟨coin, hcoin, rfl, hclaimable⟩ := hdue hcycle hlog
  obtain ⟨hnodup, -, hopen, hfull⟩ := hbatch
  obtain ⟨hlength, hahead⟩ := hfull coin hcoin ⟨hclaimable, hunlocked⟩ hleft
  refine ⟨hlength.trans hlimit, hnodup, ?_⟩
  intro id hid
  obtain ⟨other, hother, rfl, hotheropen⟩ := hopen id hid
  have hne : other.coinId ≠ coin.coinId := by
    intro heq
    exact hleft (heq ▸ hid)
  exact hnone hlog coin hcoin rfl other hother hne hotheropen (hahead other hother hid)

variable [DecidableEq R]

/-- A coin that stays due and unclaimed is claimed within as many cycles as the
active coins fill, unless a coin that was claimed comes back ahead of it. -/
theorem live_poll_fair (s t : PollState R) (as : List (PollAction R)) (x : String) (bound : ℕ)
    (hbound : 0 < bound) (hactive : x ∈ activeCoins s) (hrun : exec pollStep s as = some t)
    (hdue : StepsMeet (logStep pollStep PollAction.claimed) (StaysDue x bound) (s, []) as)
    (hnone : StepsMeet (logStep pollStep PollAction.claimed) (NoneReturns (activeCoins s) x)
      (s, []) as)
    (hcycles : (activeCoins s).length ⌈/⌉ bound ≤ as.countP (cycleFor x bound)) :
    x ∈ as.flatMap PollAction.claimed := by
  have hrotates : StepsMeet (logStep pollStep PollAction.claimed)
      (Rotates PollAction.claimed (cycleFor x bound) (activeCoins s) bound x) (s, []) as := by
    refine (hdue.and hnone).of_exec (I := fun _ => True) (fun _ _ _ _ _ _ => trivial) ?_ trivial
      (exec_logged hrun)
    rintro ⟨u, log⟩ a v - ⟨hduea, hnonea⟩ hstep hcycle hlog hleft
    obtain ⟨w, hw, -⟩ := Option.map_eq_some_iff.mp hstep
    cases a with
    | claim replica claim batch =>
      exact servesFresh_of_claim hcycle (pollStep_claim hw).1 hlog hleft hduea hnonea
    | finish replica coinId now write => cases hcycle
    | register now coinId symbol interval => cases hcycle
    | update now coinId req => cases hcycle
    | delete now coinId => cases hcycle
  apply served_of_rotates hrun hrotates hactive
  have hfill := le_smul_ceilDiv (b := (activeCoins s).length) hbound
  rw [smul_eq_mul] at hfill
  calc (activeCoins s).length ≤ bound * ((activeCoins s).length ⌈/⌉ bound) := hfill
    _ ≤ bound * as.countP (cycleFor x bound) := Nat.mul_le_mul_left bound hcycles
    _ = as.countP (cycleFor x bound) * bound := Nat.mul_comm _ _

/-- Bitcoin was never polled, ether a minute ago. -/
def twoCoins : PollState ℕ :=
  ⟨[⟨"bitcoin", "BTC", .active, none, none, none, none⟩,
    ⟨"ethereum", "ETH", .active, none, some 0, some 0, none⟩], seconds 60, []⟩

/-- A cycle with a batch bound of one that claims a coin, and how its poll went. -/
def cycleOfOne (coinId : String) (now : ℤ) (answer : Except Providers.ProviderError ℚ) :
    List (PollAction ℕ) :=
  [.claim 0 ⟨now, 60, 120, 1, []⟩ [coinId], .finish 0 coinId now (pollWrite 3600 true answer)]

/-- Bitcoin's poll succeeds, then ether has its turn. -/
theorem live_poll_fair_after_success :
    "ethereum" ∈ (cycleOfOne "bitcoin" (seconds 60) (.ok 1) ++
      cycleOfOne "ethereum" (seconds 61) (.ok 1)).flatMap PollAction.claimed :=
  live_poll_fair twoCoins _ _ _ 1 (by decide) (by decide) rfl (by decide) (by decide) (by decide)

/-- Bitcoin's polls fail and ether, due all along, is not claimed in two cycles. -/
theorem live_poll_starves : ¬∀ (s t : PollState ℕ) (as : List (PollAction ℕ)) (x : String)
    (bound : ℕ), 0 < bound → x ∈ activeCoins s → exec pollStep s as = some t →
      StepsMeet (logStep pollStep PollAction.claimed) (StaysDue x bound) (s, []) as →
      (activeCoins s).length ⌈/⌉ bound ≤ as.countP (cycleFor x bound) →
      x ∈ as.flatMap PollAction.claimed := by
  intro h
  have hclaimed := h twoCoins _ (cycleOfOne "bitcoin" (seconds 60) (.error .rateLimited) ++
    cycleOfOne "bitcoin" (seconds 61) (.error .rateLimited)) "ethereum" 1 (by decide) (by decide)
    rfl (by decide) (by decide)
  revert hclaimed
  decide

end CryptoCollector.Collectors
