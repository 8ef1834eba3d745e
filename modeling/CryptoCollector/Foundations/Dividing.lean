import Mathlib.Tactic

/-!
# Computations that divide

A computation keeps the divisors it has divided by. It may stop without a result: where
a quotient does not exist, and for reasons of its own. It is safe when none of its
divisors is zero, however far it gets.
-/

namespace CryptoCollector.Foundations

/-- The divisors met on the way, and the result unless the computation stops. -/
@[ext] structure Dividing (K : Type) (α : Type) where
  divisors : List K
  result : Option α

namespace Dividing

variable {K α β : Type}

/-- Run `f` on the result, if there is one. -/
def andThen (x : Dividing K α) (f : α → Dividing K β) : Dividing K β :=
  match x.result with
  | none => ⟨x.divisors, none⟩
  | some a => ⟨x.divisors ++ (f a).divisors, (f a).result⟩

instance : Monad (Dividing K) where
  pure a := ⟨[], some a⟩
  bind := andThen

/-- A step that divides by nothing and may stop. -/
def lift (x : Option α) : Dividing K α := ⟨[], x⟩

/-- A division, which stops where there is no quotient. -/
def divide (quotient : K → K → Option K) (x y : K) : Dividing K K := ⟨[y], quotient x y⟩

/-- No divisor is zero. -/
def Safe [Zero K] (x : Dividing K α) : Prop := ∀ y ∈ x.divisors, y ≠ 0

section Results

variable {x : Dividing K α} {f : α → Dividing K β}

@[simp] theorem result_pure (a : α) : (pure a : Dividing K α).result = some a := rfl

@[simp] theorem result_lift (x : Option α) : (lift x : Dividing K α).result = x := rfl

@[simp] theorem result_divide (quotient : K → K → Option K) (x y : K) :
    (divide quotient x y).result = quotient x y := rfl

@[simp] theorem result_bind (x : Dividing K α) (f : α → Dividing K β) :
    (x >>= f).result = x.result.bind fun a => (f a).result := by
  change (andThen x f).result = _
  unfold andThen
  cases x.result with
  | none => rfl
  | some a => rfl

@[simp] theorem lift_some_bind (a : α) (f : α → Dividing K β) : (lift (some a) >>= f) = f a :=
  Dividing.ext (List.nil_append _) rfl

theorem divisors_bind_none (h : x.result = none) : (x >>= f).divisors = x.divisors := by
  change (andThen x f).divisors = _
  simp [andThen, h]

theorem divisors_bind_some {a : α} (h : x.result = some a) :
    (x >>= f).divisors = x.divisors ++ (f a).divisors := by
  change (andThen x f).divisors = _
  simp [andThen, h]

instance : LawfulMonad (Dividing K) := LawfulMonad.mk' (Dividing K)
  (by
    rintro α ⟨divisors, result⟩
    cases result with
    | none => rfl
    | some a => exact Dividing.ext (List.append_nil _) rfl)
  (by
    intro α β a f
    exact Dividing.ext (List.nil_append _) rfl)
  (by
    rintro α β γ ⟨divisors, result⟩ f g
    cases result with
    | none => rfl
    | some a =>
      cases hf : (f a).result with
      | none => apply Dividing.ext <;> simp [bind, andThen, hf]
      | some b => apply Dividing.ext <;> simp [bind, andThen, hf])

@[simp] theorem result_map (g : α → β) (x : Dividing K α) :
    (g <$> x).result = x.result.map g := by
  rw [map_eq_pure_bind, result_bind]
  cases x.result with
  | none => rfl
  | some a => rfl

theorem result_mapM (f : α → Dividing K β) (l : List α) :
    (l.mapM f).result = l.mapM fun a => (f a).result := by
  induction l with
  | nil => rfl
  | cons a l ih =>
    rw [List.mapM_cons, List.mapM_cons, result_bind]
    congr 1
    funext b
    rw [result_bind, ih]
    rfl

theorem result_mapM_of_some {f : α → Dividing K β} {g : α → β}
    (h : ∀ a, (f a).result = some (g a)) (l : List α) : (l.mapM f).result = some (l.map g) := by
  rw [result_mapM]
  induction l with
  | nil => rfl
  | cons a l ih =>
    rw [List.mapM_cons, h, ih]
    rfl

theorem result_mapM_ne_none {f : α → Dividing K β} {l : List α} :
    (l.mapM f).result ≠ none ↔ ∀ a ∈ l, (f a).result ≠ none := by
  induction l with
  | nil => simp
  | cons a l ih =>
    rw [List.mapM_cons, result_bind, List.forall_mem_cons, ← ih]
    cases (f a).result with
    | none => simp
    | some b =>
      cases hrest : (l.mapM f).result with
      | none => simp [hrest]
      | some bs => simp [hrest]

end Results

section Safety

variable [Zero K] {x : Dividing K α} {f : α → Dividing K β}

@[simp] theorem safe_pure (a : α) : (pure a : Dividing K α).Safe := by
  intro y hy
  cases hy

@[simp] theorem safe_lift (x : Option α) : (lift x : Dividing K α).Safe := by
  intro y hy
  cases hy

@[simp] theorem safe_divide_iff {quotient : K → K → Option K} {x y : K} :
    (divide quotient x y).Safe ↔ y ≠ 0 := by
  simp [Safe, divide]

/-- What comes after a step matters where the step has a result. -/
theorem safe_bind_iff : (x >>= f).Safe ↔ x.Safe ∧ ∀ a, x.result = some a → (f a).Safe := by
  unfold Safe
  cases hx : x.result with
  | none =>
    rw [divisors_bind_none hx]
    simp
  | some a =>
    rw [divisors_bind_some hx]
    simp only [List.mem_append, or_imp, forall_and, Option.some.injEq, forall_eq']

@[simp] theorem safe_map_iff (g : α → β) : (g <$> x).Safe ↔ x.Safe := by
  rw [map_eq_pure_bind, safe_bind_iff]
  exact and_iff_left fun a _ => safe_pure _

theorem safe_bind (hx : x.Safe) (hf : ∀ a, (f a).Safe) : (x >>= f).Safe :=
  safe_bind_iff.mpr ⟨hx, fun a _ => hf a⟩

/-- Over a list, a computation is run when those before it have results. -/
theorem safe_mapM_iff {f : α → Dividing K β} {l : List α} :
    (l.mapM f).Safe ↔ ∀ pre a post, l = pre ++ a :: post →
      (∀ b ∈ pre, (f b).result ≠ none) → (f a).Safe := by
  induction l with
  | nil => simp
  | cons head l ih =>
    rw [List.mapM_cons, safe_bind_iff]
    have htail : ∀ b : β, ((do let bs ← l.mapM f; pure (b :: bs)) : Dividing K (List β)).Safe ↔
        (l.mapM f).Safe := by
      intro b
      rw [safe_bind_iff]
      exact and_iff_left fun bs _ => safe_pure _
    simp only [htail, ih]
    constructor
    · rintro ⟨hhead, hrest⟩ pre a post heq hpre
      cases pre with
      | nil =>
        obtain ⟨rfl, -⟩ := List.cons.inj heq
        exact hhead
      | cons first pre =>
        obtain ⟨rfl, rfl⟩ := List.cons.inj heq
        obtain ⟨b, hb⟩ := Option.ne_none_iff_exists'.mp (hpre head List.mem_cons_self)
        exact hrest b hb pre a post rfl fun c hc => hpre c (List.mem_cons_of_mem _ hc)
    · intro hall
      refine ⟨hall [] head l rfl (by simp), ?_⟩
      intro b hb pre a post heq hpre
      apply hall (head :: pre) a post (by rw [heq, List.cons_append])
      intro c hc
      rcases List.mem_cons.mp hc with rfl | hc
      · simp [hb]
      · exact hpre c hc

theorem safe_mapM {f : α → Dividing K β} {l : List α} (h : ∀ a ∈ l, (f a).Safe) :
    (l.mapM f).Safe := by
  apply safe_mapM_iff.mpr
  rintro pre a post rfl -
  exact h a (List.mem_append_right _ List.mem_cons_self)

theorem safe_foldlM {f : β → α → Dividing K β} {l : List α} (h : ∀ b a, (f b a).Safe) (b : β) :
    (l.foldlM f b).Safe := by
  induction l generalizing b with
  | nil => exact safe_pure b
  | cons a l ih =>
    rw [List.foldlM_cons]
    exact safe_bind (h b a) ih

end Safety

end Dividing
end CryptoCollector.Foundations
