import Frontend.Proofs.Checking
import Frontend.Proofs.Growth
import Frontend.Proofs.Sight

/-!
The walks over a tree have in sight what the tree says. Whether it is checked or lowered, a
statement that succeeds leaves the table with the names that it declares, and with no others.
-/
namespace Frontend

open List (Forall₂)
open ScopeTable (Gains)

namespace Check

theorem start_shows : ScopeTable.start.Shows .start :=
  ScopeTable.shows_addPrelude (fun _ => ()) fun _ _ => trivial

/-- Parameters are seen as they are declared. -/
theorem gains_params (t : ScopeTable Unit) (ps : List Param) :
    t.Gains (t.addAll (ps.map paramBinding)) (ps.map Param.sighting).reverse := by
  refine Gains.addAll t ?_
  rw [List.forall₂_map_left_iff, List.forall₂_map_right_iff, List.forall₂_same]
  exact fun _ _ => ⟨rfl, rfl, trivial, rfl, rfl⟩

/-- What the body of a function has in sight. -/
theorem inside_shows {t : ScopeTable Unit} (sig : Signature) {v : Sight} (hv : t.Shows v) :
    ((t.add (sigBinding sig false)).enter.addAll (sig.params.map paramBinding)).Shows
      (sig.inside v) := by
  have hself : t.Gains (t.add (sigBinding sig false)) [sig.sighting false] :=
    .add _ (.plain rfl rfl trivial rfl rfl)
  exact (hv.gain hself).enter.gain (gains_params _ sig.params)

/-- A statement declares its names, and what a body declares is gone once it ends. -/
def Change.Gains (st st' : State) : Change → Prop
  | .stmt s _ => st.names.Gains st'.names s.declares
  | .alternative .. | .body .. => st.names.Gains st'.names []
  | .stmts .. => ∃ new, st.names.Gains st'.names new

theorem Passes.gains {c : Change} {st st' : State} (h : Passes st c st')
    (hin : st.names.current < st.names.size) : c.Gains st st' := by
  induction h with
  | varDef => exact .add _ (.plain rfl rfl trivial rfl rfl)
  | structDef _ _ hleave => exact .struct hin (gains_params _ _) hleave trivial trivial
  | fnDef _ _ _ _ hleave ih =>
    obtain ⟨new, hgains⟩ := ih ((gains_params _ _).inside (by simp))
    exact (Gains.add _ (.plain rfl rfl trivial rfl rfl)).trans
      (((gains_params _ _).trans hgains).leave hleave)
  | fnDecl _ _ _ hleave =>
    exact (Gains.add _ (.plain rfl rfl trivial rfl rfl)).trans ((gains_params _ _).leave hleave)
  | varSet | memberSet | expr | return_ | break_ | none => exact .refl _
  | for_ _ _ ih | block _ ih | else_ _ ih => exact ih hin
  | if_ _ _ _ ih ih' | elif _ _ _ ih ih' => exact (ih hin).trans (ih' ((ih hin).inside hin))
  | nil => exact ⟨[], .refl _⟩
  | cons _ _ ih ih' =>
    obtain ⟨new, hrest⟩ := ih' ((ih hin).inside hin)
    exact ⟨_, (ih hin).trans hrest⟩
  | body _ hleave ih =>
    obtain ⟨new, hbody⟩ := ih (by simp)
    exact hbody.leave hleave

/-- Checking changes no declaration. -/
theorem Passes.declares {s r : Stmt} {st st' : State} (h : Passes st (.stmt s r) st') :
    r.declares = s.declares := by
  cases h <;> rfl

end Check

namespace Lowering

variable {st st' : State} {v : Sight} {sig : Signature} {low : LoweredSig}

theorem start_shows (name : String) : (State.start name).names.Shows .start := by
  have hfits : ∀ f ∈ prelude, Handle.Fits ⟨f.name, f.ty, f.attributes, some f.params.length, none⟩
      (.func f.name (preludeParams f) (preludeRet f) f.attributes.isVariadic) := by
    intro f hf
    obtain rfl := List.mem_singleton.mp hf
    exact ⟨rfl, rfl, rfl⟩
  exact ScopeTable.shows_addPrelude
    (fun f => Handle.func f.name (preludeParams f) (preludeRet f) f.attributes.isVariadic) hfits

theorem LoweredSig.Of.length (h : low.Of sig st) : sig.params.length = low.params.length :=
  h.params.length_eq

/-- Parameters are seen as they are declared, whatever they are lowered to. -/
theorem gains_params (t : ScopeTable Handle) {ps : List Param} {tys : List Ir.Ty} (owner : Nat)
    (h : ps.length = tys.length) :
    t.Gains (t.addAll (paramBindings ps tys owner)) (ps.map Param.sighting).reverse := by
  refine Gains.addAll t ?_
  have hzip : (ps.zip (Ir.numbered tys)).map Prod.fst = ps :=
    List.map_fst_zip (by simp [Ir.numbered, h])
  rw [← hzip, List.map_map, paramBindings, hzip, List.forall₂_map_left_iff,
    List.forall₂_map_right_iff, List.forall₂_same]
  exact fun _ _ => ⟨rfl, rfl, ⟨rfl, rfl⟩, rfl, rfl⟩

theorem LoweredSig.Of.describes (h : low.Of sig st) (isExternal : Bool) (t : ScopeTable Handle) :
    t.Describes (sig.sighting isExternal) (low.binding sig isExternal) :=
  .plain rfl rfl ⟨rfl, congrArg some h.length, rfl⟩ rfl rfl

/-- What the body of a function has in sight. -/
theorem LoweredSig.Of.inside (h : low.Of sig st) (hv : st.names.Shows v) :
    ((st.enterFunction sig low).names.enter.addAll
      (paramBindings sig.params low.params st.nextId)).Shows (sig.inside v) :=
  (hv.gain (.add _ (h.describes false _))).enter.gain (gains_params _ _ h.length)

theorem Passes.gains {links links' : List String} (h : Passes links links' [] st st') :
    st.names.Gains st'.names [] :=
  ⟨[], h.names, .nil⟩

theorem Extending.gains {act : LowerM α} (h : Extending act) {a : α} (hrun : Runs act st a st') :
    st.names.Gains st'.names [] := by
  obtain ⟨code, rfl⟩ := h st a st' hrun
  exact .refl _

/-- A statement that was lowered has declared its names. -/
theorem stmt_gains {s : Stmt} (hin : st.names.current < st.names.size)
    (h : Runs (stmt s) st () st') : st.names.Gains st'.names s.declares := by
  cases s with
  | varDef name ty init s =>
    unfold stmt at h
    obtain ⟨t, ptr, st₁, -, hcell, rfl⟩ := variable_inv h
    obtain ⟨code, rfl⟩ := newCell_extending t init _ _ _ hcell
    exact .add _ (.plain rfl rfl ⟨rfl, rfl⟩ rfl rfl)
  | structDef name members s =>
    unfold stmt at h
    obtain ⟨fields, outer, -, hleave, rfl⟩ := struct_inv h
    refine .struct hin (.addAll _ ?_) hleave ⟨rfl, rfl⟩ ⟨rfl, rfl⟩
    rw [List.forall₂_map_left_iff, List.forall₂_map_right_iff, List.forall₂_same]
    exact fun _ _ => ⟨rfl, rfl, ⟨rfl, rfl⟩, rfl, rfl⟩
  | fnDef sig body s =>
    obtain ⟨low, st₁, outer, hlow, -, hp, rfl⟩ :=
      fnDef_body (fun _ _ => stmts_passes body ([] ++ [sig.link []])) h
    exact (Gains.add st.names (hlow.describes false _)).trans hp.gains
  | fnDecl sig s =>
    obtain ⟨low, hlow, rfl⟩ := fnDecl_inv h
    exact .add _ (hlow.describes true _)
  | varSet target e s =>
    unfold stmt at h
    exact (emitting_extending.tallying.assign target e).gains h
  | memberSet target e s =>
    unfold stmt at h
    exact (emitting_extending.tallying.assignMember target e).gains h
  | expr e s =>
    unfold stmt at h
    exact (emitting_extending.tallying.effect e).gains h
  | return_ e s =>
    unfold stmt at h
    obtain ⟨r, st₁, hr, rfl⟩ := return_inv h
    have hgains : st.names.Gains st₁.names [] := (emitting_extending.tallying.returned e).gains hr
    exact hgains
  | break_ s | for_ cond body s =>
    unfold stmt at h
    exact absurd h not_runs_unsupported
  | if_ cond body otherwise s =>
    exact (if_passes (fun _ _ => stmts_passes body []) (alternative_passes otherwise _ s)
      (alternative_none otherwise _ s) h).1.gains
  | block body s =>
    unfold stmt at h
    exact (Advances.inScope (fun _ _ => stmts_passes body []) h).1.gains

end Lowering

end Frontend
