import Frontend.Proofs.Runs

/-!
Steps that only add instructions to the current block. What the instructions are for is told by a
reading of code from front to back: it starts from what is known before them and ends with what is
known after them. The laws by which such steps are put together are the same for all readings.
-/
namespace Frontend.Lowering

/-- How the code is read that a step adds. From what is known at one place it `leads` to what is
known at another, and `shows` there the things that it is for. Where a state is `ready`, what is
known holds of it. -/
structure CodeReading (σ τ : Type) where
  ready : State → σ → Prop
  leads : σ → List Ir.Instr → σ → Prop
  shows : σ → List Ir.Instr → List τ → Prop
  nil (c : σ) : leads c [] c ∧ shows c [] []
  append {c c₁ c₂ : σ} {is js : List Ir.Instr} {xs ys : List τ} : leads c is c₁ → shows c₁ is xs →
    leads c₁ js c₂ → shows c₂ js ys → leads c (is ++ js) c₂ ∧ shows c₂ (is ++ js) (xs ++ ys)
  extend {st : State} {c c' : σ} {code : List Ir.Instr} : ready st c → leads c code c' →
    ready (st.extend code) c'

/-- Added code leads from `st`, where `c` is known, to `st'`, where `c'` is. -/
def Emits (leads : σ → List Ir.Instr → σ → Prop) (st : State) (c : σ) (st' : State) (c' : σ) :
    Prop :=
  ∃ code, st' = st.extend code ∧ leads c code c'

section

variable {leads : σ → List Ir.Instr → σ → Prop} {st st' : State} {c c' : σ}
  (h : Emits leads st c st' c')

include h

theorem Emits.names : st'.names = st.names := by
  obtain ⟨_, rfl, _⟩ := h
  rfl

theorem Emits.current_id : st'.current.id = st.current.id := by
  obtain ⟨_, rfl, _⟩ := h
  rfl

end

/-- Runs of `act` from `st`, where `c` is known, add code for `xs`. What they give satisfies `Q` by
what is known after it. -/
def Adds (R : CodeReading σ τ) (act : LowerM α) (st : State) (c : σ) (xs : List τ)
    (Q : α → σ → Prop) : Prop :=
  ∀ a st', Runs act st a st' →
    ∃ code c', st' = st.extend code ∧ R.leads c code c' ∧ R.shows c' code xs ∧ Q a c'

namespace Adds

variable {σ τ α β : Type} {R : CodeReading σ τ} {act : LowerM α} {f : α → LowerM β} {st : State}
  {c : σ} {xs ys : List τ} {Q : α → σ → Prop} {S : β → σ → Prop} {s : Span}

theorem unsupported {what : Unsupported} : Adds R (unsupported s what) st c xs Q :=
  fun _ _ hrun => absurd hrun not_runs_unsupported

theorem fail {e : LowerError} : Adds R (fail s e) st c xs Q :=
  fun _ _ hrun => absurd hrun not_runs_fail

theorem mono {Q' : α → σ → Prop} (h : Adds R act st c xs Q) (hq : ∀ a c', Q a c' → Q' a c') :
    Adds R act st c xs Q' := by
  intro a st' hrun
  obtain ⟨code, c', hst, hleads, hshows, ha⟩ := h a st' hrun
  exact ⟨code, c', hst, hleads, hshows, hq a c' ha⟩

/-- What a run says of what it gives. -/
theorem noting {p : α → Prop} (h : Adds R act st c xs Q)
    (hact : ∀ a st', Runs act st a st' → p a) : Adds R act st c xs fun a c' => Q a c' ∧ p a := by
  intro a st' hrun
  obtain ⟨code, c', hst, hleads, hshows, ha⟩ := h a st' hrun
  exact ⟨code, c', hst, hleads, hshows, ha, hact a st' hrun⟩

/-- A step that reads the state and leaves it. -/
theorem reading {p : α → Prop} (hact : ∀ a st', Runs act st a st' → p a ∧ st' = st) :
    Adds R act st c [] fun a c' => p a ∧ c' = c := by
  intro a st' hrun
  obtain ⟨ha, rfl⟩ := hact a st' hrun
  exact ⟨[], c, by simp, (R.nil c).1, (R.nil c).2, ha, rfl⟩

theorem pure {a : α} (h : Q a c) : Adds R (pure a) st c [] Q := by
  refine (reading (p := (· = a)) fun b st' hrun => runs_pure.mp hrun).mono ?_
  rintro _ _ ⟨rfl, rfl⟩
  exact h

theorem lowerType {ty : Ty} :
    Adds R (lowerType ty s) st c [] fun t c' => ty.lower st.names = .ok t ∧ c' = c :=
  reading fun _ _ hrun => runs_lowerType.mp hrun

theorem infer {e : Expr} :
    Adds R (infer e) st c [] fun ty c' => e.infer st.names = .ok ty ∧ c' = c :=
  reading fun _ _ hrun => runs_infer.mp hrun

theorem ownedHere {owner : Nat} :
    Adds R (ownedHere owner s) st c [] fun _ c' => owner = st.current.id ∧ c' = c :=
  reading fun _ _ hrun => runs_ownedHere.mp hrun

theorem joined {l r : Ty} :
    Adds R (joined l r s) st c [] fun ty c' => l.join r = .ok ty ∧ c' = c := by
  unfold Lowering.joined
  split
  · rename_i h
    exact pure ⟨h, rfl⟩
  · exact fail

theorem lookup {id : Ident} : Adds R (lookup id) st c [] fun h c' =>
    (∃ b, st.names.find? id.name = some b ∧ h = b.value) ∧ c' = c := by
  refine reading fun h st' hrun => ?_
  obtain ⟨b, hb, rfl, rfl⟩ := runs_lookup.mp hrun
  exact ⟨⟨b, hb, rfl⟩, rfl⟩

section

variable (hr : R.ready st c)

include hr

theorem bind (hx : Adds R act st c xs Q) (hf : ∀ a st₁ c₁, Emits R.leads st c st₁ c₁ →
    R.ready st₁ c₁ → Q a c₁ → Adds R (f a) st₁ c₁ ys S) :
    Adds R (act >>= f) st c (xs ++ ys) S := by
  intro b st' hrun
  obtain ⟨a, st₁, h₁, h₂⟩ := runs_bind.mp hrun
  obtain ⟨is, c₁, rfl, his, hxs, hq⟩ := hx a st₁ h₁
  obtain ⟨js, c₂, rfl, hjs, hys, hres⟩ := hf a _ c₁ ⟨is, rfl, his⟩ (R.extend hr his) hq b st' h₂
  obtain ⟨hleads, hshows⟩ := R.append his hxs hjs hys
  exact ⟨is ++ js, c₂, by simp, hleads, hshows, hres⟩

/-- After a step that is for nothing. -/
theorem lead (hx : Adds R act st c [] Q) (hf : ∀ a st₁ c₁, Emits R.leads st c st₁ c₁ →
    R.ready st₁ c₁ → Q a c₁ → Adds R (f a) st₁ c₁ xs S) : Adds R (act >>= f) st c xs S :=
  bind hr hx hf

/-- Before a step that is for nothing. -/
theorem trail (hx : Adds R act st c xs Q) (hf : ∀ a st₁ c₁, Emits R.leads st c st₁ c₁ →
    R.ready st₁ c₁ → Q a c₁ → Adds R (f a) st₁ c₁ [] S) : Adds R (act >>= f) st c xs S := by
  simpa using bind hr hx hf

end

end Adds

end Frontend.Lowering
