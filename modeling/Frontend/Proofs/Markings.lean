import Frontend.Proofs.Additions
import Frontend.Proofs.Composition

/-!
Steps that add code which is for the same things wherever they are taken. What is known before and
after them does not change, so that the walk over expressions applies to them.
-/
namespace Frontend.Lowering

/-- What added code shows, wherever the names in sight are `ready` for it. -/
structure Marking (τ : Type) where
  ready : ScopeTable Handle → Prop
  shows : List Ir.Instr → List τ → Prop
  nil : shows [] []
  append {is js : List Ir.Instr} {xs ys : List τ} : shows is xs → shows js ys →
    shows (is ++ js) (xs ++ ys)

def Marking.reading (M : Marking τ) : CodeReading Unit τ where
  ready st _ := M.ready st.names
  leads _ _ _ := True
  shows _ := M.shows
  nil _ := ⟨trivial, M.nil⟩
  append _ hxs _ hys := ⟨trivial, M.append hxs hys⟩
  extend hr _ := hr

/-- Runs of `act` add code for `xs`. -/
def Writes (M : Marking τ) (α : Type) (act : LowerM α) (xs : List τ) : Prop :=
  ∀ st, M.ready st.names → Adds M.reading act st () xs fun _ _ => True

namespace Writes

variable {τ α β : Type} {M : Marking τ} {act : LowerM α} {f : α → LowerM β}
  {xs ys : List τ}

theorem unsupported (s : Span) (what : Unsupported) (xs : List τ) :
    Writes M α (unsupported s what) xs :=
  fun _ _ => .unsupported

theorem bind (hx : Writes M _ act xs) (hf : ∀ a, Writes M _ (f a) ys) :
    Writes M _ (act >>= f) (xs ++ ys) :=
  fun st hr => .bind hr (hx st hr) fun a st₁ _ _ hr₁ _ => hf a st₁ hr₁

/-- After a step that is for nothing. -/
theorem lead (hx : Writes M _ act []) (hf : ∀ a, Writes M _ (f a) xs) : Writes M _ (act >>= f) xs :=
  bind hx hf

/-- Before a step that is for nothing. -/
theorem trail (hx : Writes M _ act xs) (hf : ∀ a, Writes M _ (f a) []) :
    Writes M _ (act >>= f) xs := by
  simpa using bind hx hf

/-- A step that leaves the state. -/
theorem reading (hact : ∀ st a st', Runs act st a st' → st' = st) : Writes M _ act [] := by
  intro st _
  refine (Adds.reading (p := fun _ => True) fun a st' hrun => ?_).mono fun _ _ _ => trivial
  exact ⟨trivial, hact st a st' hrun⟩

theorem ask {f : State → LowerM α} (hf : ∀ st, Writes M _ (f st) xs) :
    Writes M _ (get >>= f) xs :=
  bind (reading fun _ _ _ hrun => (runs_get.mp hrun).2) hf

theorem sequenced : Sequenced fun _ act => Writes M _ act [] where
  pure _ _ _ := .pure trivial
  fail _ _ _ _ := .fail
  bind := bind
  asking _ := ask

variable {op : Ir.Op}

theorem emitReg (h : ∀ r, M.shows [⟨some r, op⟩] xs) : Writes M _ (emitReg op) xs := by
  intro st _ r st' hrun
  obtain ⟨-, rfl⟩ := runs_emitReg.mp hrun
  exact ⟨_, (), rfl, trivial, h _, trivial⟩

theorem emit {ty : Ir.Ty} (h : ∀ r, M.shows [⟨some r, op⟩] xs) : Writes M _ (emit op ty) xs :=
  trail (emitReg h) fun _ => sequenced.pure _

theorem emitVoid (h : M.shows [⟨none, op⟩] xs) : Writes M _ (emitVoid op) xs := by
  intro st _ _ st' hrun
  obtain rfl := runs_emitVoid.mp hrun
  exact ⟨_, (), rfl, trivial, h, trivial⟩

/-- Code that computes is for nothing. -/
theorem computing (h : ∀ r op, op.Computes → M.shows [⟨some r, op⟩] []) :
    Computing fun _ act _ => Writes M _ act [] where
  pure := sequenced.pure
  unsupported s what _ := unsupported s what []
  bind := bind
  mono h _ := h
  emitReg hop := emitReg fun r => h r _ hop
  ownedHere _ _ := reading fun _ _ _ hrun => (runs_ownedHere.mp hrun).2

end Writes

end Frontend.Lowering
