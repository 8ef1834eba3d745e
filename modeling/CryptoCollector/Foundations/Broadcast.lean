import Mathlib.Data.List.Basic

/-!
# Broadcast channels that drop the oldest

A channel keeps its last `capacity` messages for any number of receivers. A receiver that has
fallen further behind is told how many messages it lost and goes on with the oldest one left.
`Heard` accounts for every message sent since a receiver came: it was received or reported lost.
-/

namespace CryptoCollector.Foundations

variable {M : Type*}

/-- What a receiver is answered. -/
inductive Received (M : Type*) where
  | empty
  | message (m : M)
  | lagged (n : ℕ)
  deriving DecidableEq, Repr

/-- The next answer to a receiver that stands at `next`, and where it stands then; `sent` are
all messages so far, oldest first. -/
def receive (capacity : ℕ) (sent : List M) (next : ℕ) : Received M × ℕ :=
  if next + capacity < sent.length then
    (.lagged (sent.length - capacity - next), sent.length - capacity)
  else
    match sent[next]? with
    | some m => (.message m, next + 1)
    | none => (.empty, next)

theorem receive_message {capacity next next' : ℕ} {sent : List M} {m : M}
    (h : receive capacity sent next = (.message m, next')) :
    sent[next]? = some m ∧ next' = next + 1 := by
  unfold receive at h
  split_ifs at h
  · cases h
  · cases hm : sent[next]? with
    | none => simp [hm] at h
    | some m' =>
      rw [hm] at h
      obtain ⟨hmessage, rfl⟩ := Prod.mk.inj h
      exact ⟨congrArg some (Received.message.inj hmessage), rfl⟩

theorem receive_lagged {capacity next next' n : ℕ} {sent : List M}
    (h : receive capacity sent next = (.lagged n, next')) :
    next + capacity < sent.length ∧ next' = next + n ∧ next' + capacity = sent.length := by
  unfold receive at h
  split_ifs at h with hfar
  · obtain ⟨hlagged, rfl⟩ := Prod.mk.inj h
    have hn := Received.lagged.inj hlagged
    omega
  · cases hm : sent[next]? <;> simp [hm] at h

/-- A receiver that came when `since` messages were sent and stands at `next` received `got`
and lost `lost` messages in between. -/
structure Heard (sent : List M) (since next : ℕ) (got : List M) (lost : ℕ) : Prop where
  bounded : next ≤ sent.length
  sublist : got.Sublist ((sent.take next).drop since)
  counted : got.length + lost + since = next

theorem Heard.start {sent : List M} {next : ℕ} (h : next ≤ sent.length) :
    Heard sent next next [] 0 :=
  ⟨h, List.nil_sublist _, by simp⟩

theorem Heard.send {sent : List M} {since next lost : ℕ} {got : List M}
    (h : Heard sent since next got lost) (more : List M) :
    Heard (sent ++ more) since next got lost where
  bounded := Nat.le_trans h.bounded (by simp)
  sublist := by rw [List.take_append_of_le_length h.bounded]; exact h.sublist
  counted := h.counted

theorem Heard.message {sent : List M} {since next lost : ℕ} {got : List M} {m : M}
    (h : Heard sent since next got lost) (hm : sent[next]? = some m) :
    Heard sent since (next + 1) (got ++ [m]) lost := by
  obtain ⟨hlt, rfl⟩ := List.getElem?_eq_some_iff.mp hm
  have hsince : since ≤ (sent.take next).length := by
    have hcounted := h.counted
    rw [List.length_take_of_le h.bounded]
    omega
  refine ⟨hlt, ?_, ?_⟩
  · rw [List.take_succ_eq_append_getElem hlt, List.drop_append_of_le_length hsince]
    exact h.sublist.append (List.Sublist.refl _)
  · have hcounted := h.counted
    rw [List.length_append, List.length_singleton]
    omega

theorem Heard.lag {sent : List M} {since next lost : ℕ} {got : List M} {n : ℕ}
    (h : Heard sent since next got lost) (hn : next + n ≤ sent.length) :
    Heard sent since (next + n) got (lost + n) where
  bounded := hn
  sublist := by
    refine h.sublist.trans (List.Sublist.drop ?_ since)
    exact (List.take_prefix_take_left (Nat.le_add_right next n)).sublist
  counted := by
    have hcounted := h.counted
    omega

theorem Heard.prefix_of_lost {sent : List M} {since next : ℕ} {got : List M}
    (h : Heard sent since next got 0) : got <+: sent.drop since := by
  have hcounted := h.counted
  have hlength : got.length = ((sent.take next).drop since).length := by
    rw [List.length_drop, List.length_take_of_le h.bounded]
    omega
  rw [h.sublist.eq_of_length hlength, List.drop_take]
  exact List.take_prefix _ _

theorem Heard.sublist_drop {sent : List M} {since next lost : ℕ} {got : List M}
    (h : Heard sent since next got lost) : got.Sublist (sent.drop since) :=
  h.sublist.trans (List.Sublist.drop (List.take_sublist next sent) since)

/-- A receiver of a channel that itself repeats what it heard on another: what came through,
and the losses of both. -/
theorem Heard.relayed {feed sent : List M} {since next opened place lost lost' : ℕ} {got : List M}
    (h : Heard feed since next (sent.drop opened) lost) (h' : Heard sent opened place got lost') :
    got.Sublist (feed.drop since) ∧
      got.length + lost' + (sent.length - place) + lost + since = next := by
  refine ⟨h'.sublist_drop.trans h.sublist_drop, ?_⟩
  have hfeed := h.counted
  have hsent := h'.counted
  have hbounded := h'.bounded
  rw [List.length_drop] at hfeed
  omega

end CryptoCollector.Foundations
