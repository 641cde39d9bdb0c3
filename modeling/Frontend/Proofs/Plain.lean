import Frontend.Proofs.Composition

/-!
The small steps of which lowering an expression is made, once its names and types are known. All
they do is add instructions to the current block; none of these names or calls a function or takes
the address of a field, and what stops them is that something is not supported.
-/
namespace Frontend

/-- Neither a call nor the address of a field or of a function. -/
def Ir.Op.isPlain : Op → Bool
  | .call _ _ | .callPtr _ _ | .fieldPtr _ _ | .funcRef _ => false
  | _ => true

theorem Ir.Op.Computes.isPlain {op : Op} (h : op.Computes) : op.isPlain := by
  cases op <;> first | rfl | cases h

namespace Lowering

/-- `act` adds plain instructions to the current block, or stops at something that is not
supported. -/
def Plain (act : LowerM α) : Prop :=
  ∀ st, match outcome act st with
    | (.ok _, st') => ∃ code, st' = st.extend code ∧ ∀ i ∈ code, i.op.isPlain
    | (.error e, st') => st'.names = st.names ∧
      ∃ what, what ≠ .illTyped ∧ e.value = .unsupported what

namespace Plain

variable {st st' : State} {act : LowerM α}

theorem runs (h : Plain act) {a : α} (hrun : Runs act st a st') :
    ∃ code, st' = st.extend code ∧ ∀ i ∈ code, i.op.isPlain := by
  have hst := h st
  rw [hrun] at hst
  exact hst

theorem error (h : Plain act) {e : Located LowerError} (he : outcome act st = (.error e, st')) :
    st'.names = st.names ∧ ∃ what, what ≠ .illTyped ∧ e.value = .unsupported what := by
  have hst := h st
  rw [he] at hst
  exact hst

theorem pure {a : α} : Plain (pure a) := fun st => ⟨[], by simp, by simp⟩

theorem bind {f : α → LowerM β} (h : Plain act) (hf : ∀ a, Plain (f a)) : Plain (act >>= f) := by
  intro st
  have hst := h st
  rw [outcome_bind]
  generalize outcome act st = r at hst
  obtain ⟨r, st₁⟩ := r
  cases r with
  | error e => exact hst
  | ok a =>
    obtain ⟨is, rfl, his⟩ := hst
    have hnext := hf a (st.extend is)
    dsimp only
    generalize outcome (f a) (st.extend is) = r at hnext
    obtain ⟨r, st₂⟩ := r
    cases r with
    | error e => exact hnext
    | ok b =>
      obtain ⟨js, rfl, hjs⟩ := hnext
      refine ⟨is ++ js, by simp, fun i hi => ?_⟩
      exact (List.mem_append.mp hi).elim (his i) (hjs i)

theorem unsupported {s : Span} {what : Unsupported} (h : what ≠ .illTyped) :
    Plain (unsupported s what : LowerM α) :=
  fun _ => ⟨rfl, what, h, rfl⟩

theorem emitReg {op : Ir.Op} (h : op.isPlain) : Plain (emitReg op) :=
  fun st => ⟨[⟨some ⟨st.current.nextReg⟩, op⟩], rfl, by simpa using h⟩

theorem emit {op : Ir.Op} {ty : Ir.Ty} (h : op.isPlain) : Plain (emit op ty) :=
  bind (emitReg h) fun _ => pure

end Plain

theorem computing_plain : Computing fun _ act _ => Plain act where
  pure _ := .pure
  unsupported _ := .unsupported
  bind := .bind
  mono h _ := h
  emitReg h := .emitReg h.isPlain
  ownedHere owner s st := by
    rw [outcome_ownedHere]
    by_cases h : owner = st.current.id
    · rw [if_pos h]
      exact ⟨[], by simp, by simp⟩
    · rw [if_neg h]
      exact ⟨rfl, .foreignLocal, nofun, rfl⟩

end Lowering

end Frontend
