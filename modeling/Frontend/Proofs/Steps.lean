import Mathlib.Data.List.Forall2
import Mathlib.Logic.Relation

/-!
Steps over a state that outlives a failure: what a step gives and leaves behind, and one equivalence
for each way of building a step that says what its successful runs are.
-/
namespace Frontend

variable {ε σ : Type}

/-- What `act` gives from `st`, and the state it leaves. -/
def outcome (act : ExceptT ε (StateM σ) α) (st : σ) : Except ε α × σ := act.run st

/-- From `st`, `act` succeeds with `a` and leaves `st'`. -/
def Runs (act : ExceptT ε (StateM σ) α) (st : σ) (a : α) (st' : σ) : Prop :=
  outcome act st = (.ok a, st')

/-- What one step hands on is there after any number of them. -/
theorem carried_along {step : α → α → Prop} {P : α → Prop} (hstep : ∀ {a b}, step a b → P a → P b)
    {a b : α} (h : Relation.ReflTransGen step a b) (ha : P a) : P b := by
  induction h with
  | refl => exact ha
  | tail _ hab ih => exact hstep hab ih

theorem bind_eq_ok {x : Except ε α} {f : α → Except ε β} {b : β} :
    (x >>= f) = .ok b ↔ ∃ a, x = .ok a ∧ f a = .ok b := by
  cases x <;> simp [bind, Except.bind]

variable {st st' : σ}

theorem outcome_bind (x : ExceptT ε (StateM σ) α) (f : α → ExceptT ε (StateM σ) β) (st : σ) :
    outcome (x >>= f) st = match outcome x st with
      | (.ok a, st₁) => outcome (f a) st₁
      | (.error e, st₁) => (.error e, st₁) := by
  simp only [outcome, bind, ExceptT.bind, ExceptT.mk, ExceptT.run, StateT.bind, ExceptT.bindCont]
  cases (x st : Except _ α × σ) with
  | mk r st₁ => cases r <;> rfl

theorem outcome_pure (a : α) (st : σ) :
    outcome (pure a : ExceptT ε (StateM σ) α) st = (.ok a, st) := rfl

theorem outcome_throw (e : ε) (st : σ) :
    outcome (throw e : ExceptT ε (StateM σ) α) st = (.error e, st) := rfl

@[simp] theorem runs_pure {a b : α} :
    Runs (pure a : ExceptT ε (StateM σ) α) st b st' ↔ b = a ∧ st' = st := by
  rw [Runs, outcome_pure]
  simp [eq_comm]

@[simp] theorem runs_bind {x : ExceptT ε (StateM σ) α} {f : α → ExceptT ε (StateM σ) β} {b : β} :
    Runs (x >>= f) st b st' ↔ ∃ a st₁, Runs x st a st₁ ∧ Runs (f a) st₁ b st' := by
  simp only [Runs, outcome_bind]
  cases h : outcome x st with
  | mk r st₁ => cases r <;> simp [and_assoc]

@[simp] theorem runs_map {x : ExceptT ε (StateM σ) α} {f : α → β} {b : β} :
    Runs (f <$> x) st b st' ↔ ∃ a, Runs x st a st' ∧ b = f a := by
  rw [map_eq_pure_bind, runs_bind]
  simp only [runs_pure]
  constructor
  · rintro ⟨a, st₁, h, hb, rfl⟩
    exact ⟨a, h, hb⟩
  · rintro ⟨a, h, hb⟩
    exact ⟨a, st', h, hb, rfl⟩

@[simp] theorem runs_ite {c : Prop} [Decidable c] {x y : ExceptT ε (StateM σ) α} {a : α} :
    Runs (if c then x else y) st a st' ↔ c ∧ Runs x st a st' ∨ ¬ c ∧ Runs y st a st' := by
  by_cases h : c <;> simp [h]

@[simp] theorem runs_get {a : σ} :
    Runs (get : ExceptT ε (StateM σ) σ) st a st' ↔ a = st ∧ st' = st := by
  have h : outcome (get : ExceptT ε (StateM σ) σ) st = (.ok st, st) := rfl
  simp [Runs, h, eq_comm]

theorem outcome_get_bind (f : σ → ExceptT ε (StateM σ) β) (st : σ) :
    outcome (get >>= f) st = outcome (f st) st := rfl

theorem runs_get_bind {f : σ → ExceptT ε (StateM σ) β} {b : β} :
    Runs (get >>= f) st b st' ↔ Runs (f st) st b st' := by
  rw [Runs, outcome_get_bind, Runs]

@[simp] theorem runs_modifyGet {f : σ → α × σ} {a : α} :
    Runs (modifyGet f : ExceptT ε (StateM σ) α) st a st' ↔ a = (f st).1 ∧ st' = (f st).2 := by
  have h : outcome (modifyGet f : ExceptT ε (StateM σ) α) st = (.ok (f st).1, (f st).2) := rfl
  simp [Runs, h, eq_comm]

@[simp] theorem runs_modify {f : σ → σ} {u : Unit} :
    Runs (modify f : ExceptT ε (StateM σ) Unit) st u st' ↔ st' = f st := by
  have h : outcome (modify f : ExceptT ε (StateM σ) Unit) st = (.ok (), f st) := rfl
  simp [Runs, h, eq_comm]

@[simp] theorem not_runs_throw {e : ε} {a : α} :
    ¬ Runs (throw e : ExceptT ε (StateM σ) α) st a st' := by
  rw [Runs, outcome_throw]
  simp

theorem outcome_ofExcept (r : Except ε α) (st : σ) :
    outcome (MonadExcept.ofExcept r : ExceptT ε (StateM σ) α) st = (r, st) := by
  cases r <;> rfl

@[simp] theorem runs_ofExcept {r : Except ε α} {a : α} :
    Runs (MonadExcept.ofExcept r : ExceptT ε (StateM σ) α) st a st' ↔ r = .ok a ∧ st' = st := by
  rw [Runs, outcome_ofExcept]
  simp [eq_comm]

/-- Steps that leave the state, one for each member of a list. -/
theorem Runs.mapM {f : α → ExceptT ε (StateM σ) β} {R : α → β → Prop}
    (hf : ∀ a b st₁, Runs (f a) st b st₁ → R a b ∧ st₁ = st) {as : List α} {bs : List β}
    (h : Runs (as.mapM f) st bs st') : List.Forall₂ R as bs ∧ st' = st := by
  induction as generalizing bs st' with
  | nil =>
    rw [List.mapM_nil] at h
    obtain ⟨rfl, rfl⟩ := runs_pure.mp h
    exact ⟨.nil, rfl⟩
  | cons a as ih =>
    rw [List.mapM_cons] at h
    obtain ⟨b, st₁, ha, h₁⟩ := runs_bind.mp h
    obtain ⟨hb, rfl⟩ := hf a b st₁ ha
    obtain ⟨cs, st₂, has, h₂⟩ := runs_bind.mp h₁
    obtain ⟨hcs, rfl⟩ := ih has
    obtain ⟨rfl, rfl⟩ := runs_pure.mp h₂
    exact ⟨.cons hb hcs, rfl⟩

end Frontend
