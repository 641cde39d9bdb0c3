import Frontend.Check
import Frontend.Proofs.Steps
import Frontend.Proofs.Visible

/-!
Successful runs of checking steps: what each says about the tables and the tree.
-/
namespace Frontend

namespace Check

section Parts

variable {st st' : State}

@[simp] theorem not_runs_fail {s : Span} {e : CheckError} {a : α} :
    ¬ Runs (fail s e) st a st' := not_runs_throw

@[simp] theorem runs_declare {b : Binding Unit} {u : Unit} :
    Runs (declare b) st u st' ↔ st' = { st with names := st.names.add b } := by
  simp [declare]

@[simp] theorem runs_checkExpr {e : Expr} {u : Unit} :
    Runs (checkExpr e) st u st' ↔ expr st.names e = .ok () ∧ st' = st := by
  rw [checkExpr, runs_get_bind, runs_ofExcept]

@[simp] theorem runs_typeOf {e : Expr} {ty : Ty} :
    Runs (typeOf e) st ty st' ↔ e.infer st.names = .ok ty ∧ st' = st := by
  rw [typeOf, runs_get_bind, runs_ofExcept, typeIn]
  cases e.infer st.names <;> simp [Except.mapError]

theorem outcome_within (s : Span) (enter : ScopeTable Unit → ScopeTable Unit) (act : CheckM α)
    (st : State) :
    outcome (within s enter act) st =
      match outcome act { st with names := enter st.names } with
      | (r, st₁) =>
        match st₁.names.leave? with
        | some outer => (r, { st₁ with names := outer })
        | none => (.error ⟨s, .breach .rootScopeClosed⟩, st₁) := rfl

variable {s : Span} {st st' : State}

/-- A run in a new scope is a run of its inside, and the scope is closed in the end. -/
theorem runs_within {enter : ScopeTable Unit → ScopeTable Unit} {act : CheckM α} {a : α} :
    Runs (within s enter act) st a st' ↔
      ∃ st₁ outer, Runs act { st with names := enter st.names } a st₁ ∧
        st₁.names.leave? = some outer ∧ st' = { st₁ with names := outer } := by
  rw [Runs, outcome_within]
  constructor
  · intro h
    generalize hr : outcome act { st with names := enter st.names } = r at h
    obtain ⟨r, st₁⟩ := r
    cases hl : st₁.names.leave? with
    | none => simp [hl] at h
    | some outer =>
      simp only [hl, Prod.mk.injEq] at h
      obtain ⟨rfl, rfl⟩ := h
      exact ⟨st₁, outer, hr, hl, rfl⟩
  · rintro ⟨st₁, outer, hr, hl, rfl⟩
    rw [Runs] at hr
    rw [hr]
    simp only [hl]

theorem outcome_returning (ty : Ty) (act : CheckM α) (st : State) : outcome (returning ty act) st =
    match outcome act { st with returns := some ty } with
    | (r, st₁) => (r, { st₁ with returns := st.returns }) := rfl

theorem runs_returning {ty : Ty} {act : CheckM α} {a : α} : Runs (returning ty act) st a st' ↔
    ∃ st₁, Runs act { st with returns := some ty } a st₁ ∧
      st' = { st₁ with returns := st.returns } := by
  rw [Runs, outcome_returning]
  constructor
  · intro h
    generalize hr : outcome act { st with returns := some ty } = r at h
    obtain ⟨r, st₁⟩ := r
    obtain ⟨rfl, rfl⟩ := Prod.mk.inj h
    exact ⟨st₁, hr, rfl⟩
  · rintro ⟨st₁, hact, rfl⟩
    rw [Runs] at hact
    rw [hact]

@[simp] theorem runs_undeclared {name : Ident} {u : Unit} :
    Runs (undeclared name) st u st' ↔ st.names.findLocal? name.name = none ∧ st' = st := by
  rw [undeclared, runs_get_bind]
  cases st.names.findLocal? name.name <;> simp

/-- If the type names a struct, the struct is known. -/
def Known (t : ScopeTable Unit) (ty : Ty) : Prop := ∀ name ∈ ty.name?, t.isStruct name

@[simp] theorem runs_knownType {ty : Ty} {s : Span} {u : Unit} :
    Runs (knownType ty s) st u st' ↔ Known st.names ty ∧ st' = st := by
  rw [knownType, Known]
  cases ty.name? with
  | none => simp
  | some name =>
    dsimp only
    rw [runs_get_bind]
    cases h : st.names.isStruct name <;> simp [h]

/-- The state with more to warn of. -/
def State.warn (st : State) (ws : List (Located Warning)) : State :=
  { st with warnings := st.warnings ++ ws }

@[simp] theorem State.warn_nil (st : State) : st.warn [] = st := by simp [warn]

/-- What becomes of a value where a `ty` is asked for, and what is warned of. -/
inductive Takes (t : ScopeTable Unit) (ty : Ty) (e : Expr) :
    Expr → List (Located Warning) → Prop where
  | same : e.infer t = .ok ty → Takes t ty e e []
  | retyped {actual : Ty} {e' : Expr} : e.infer t = .ok actual → actual ≠ ty →
      ty.compatible actual → e.coerce? ty = some e' →
      Takes t ty e e'
        (if actual.isFloat && ty.isInteger then [⟨e.span, .truncatedFloat ty⟩] else [])

theorem runs_coerce {expected : Ty} {e e' : Expr} {mismatch : Ty → Ty → CheckError} :
    Runs (coerce expected e mismatch) st e' st' ↔
      ∃ ws, Takes st.names expected e e' ws ∧ st' = st.warn ws := by
  rw [coerce, runs_bind]
  constructor
  · rintro ⟨actual, st₁, hty, h₁⟩
    obtain ⟨hty, rfl⟩ := runs_typeOf.mp hty
    dsimp only at h₁
    split at h₁
    · rename_i heq
      obtain ⟨rfl, rfl⟩ := runs_pure.mp h₁
      exact ⟨[], .same (heq ▸ hty), by simp⟩
    · rename_i hne
      split at h₁
      · rename_i value' hc
        split at hc
        · rename_i hcompatible
          refine ⟨_, .retyped hty hne hcompatible (?_ : e.coerce? expected = some e'), ?_⟩ <;>
            cases hcut : actual.isFloat && expected.isInteger <;> rw [hcut] at h₁ <;>
            simp_all [State.warn]
        · simp at hc
      · exact absurd h₁ not_runs_fail
  · rintro ⟨ws, htakes, rfl⟩
    cases htakes with
    | same hty => exact ⟨_, st, runs_typeOf.mpr ⟨hty, rfl⟩, by simp⟩
    | @retyped actual _ hty hne hcompatible hc =>
      refine ⟨_, st, runs_typeOf.mpr ⟨hty, rfl⟩, ?_⟩
      cases actual.isFloat && expected.isInteger <;> simp [hne, hcompatible, hc, State.warn]

/-- The same expression, or the one that a coercion to `ty` makes of it. -/
def Coerced (ty : Ty) (e e' : Expr) : Prop := e' = e ∨ e.coerce? ty = some e'

theorem Takes.coerced {t : ScopeTable Unit} {ty : Ty} {e e' : Expr} {ws : List (Located Warning)}
    (h : Takes t ty e e' ws) : Coerced ty e e' := by
  cases h with
  | same _ => exact .inl rfl
  | retyped _ _ _ hc => exact .inr hc

/-- What becomes of a value that may be left out. -/
inductive TakesIf (t : ScopeTable Unit) (ty : Ty) :
    Option Expr → Option Expr → List (Located Warning) → Prop where
  | none : TakesIf t ty none none []
  | some {e e' : Expr} {ws : List (Located Warning)} : expr t e = .ok () → Takes t ty e e' ws →
      TakesIf t ty (some e) (some e') ws

/-- A variable is given no value of type `void`. -/
def NotVoid (t : ScopeTable Unit) (e : Expr) : Prop := ∀ ty, e.infer t = .ok ty → ty.isVoid = false

@[simp] theorem runs_initializer {name : Ident} {ty : Ty} {init init' : Option Expr} :
    Runs (initializer name ty init) st init' st' ↔ (∀ e ∈ init, NotVoid st.names e) ∧
      ∃ ws, TakesIf st.names ty init init' ws ∧ st' = st.warn ws := by
  cases init with
  | none =>
    rw [initializer, runs_pure]
    constructor
    · rintro ⟨rfl, rfl⟩
      exact ⟨nofun, [], .none, by simp⟩
    · rintro ⟨-, ws, ⟨⟩, rfl⟩
      simp
  | some e =>
    have hrun : Runs (initializer name ty (some e)) st init' st' ↔ expr st.names e = .ok () ∧
        ∃ actual, e.infer st.names = .ok actual ∧ actual.isVoid = false ∧
          ∃ e', (∃ ws, Takes st.names ty e e' ws ∧ st' = st.warn ws) ∧ init' = some e' := by
      simp [initializer, runs_coerce]
    rw [hrun]
    constructor
    · rintro ⟨he, actual, hty, hvoid, e', ⟨ws, htakes, rfl⟩, rfl⟩
      refine ⟨?_, ws, .some he htakes, rfl⟩
      rintro _ ⟨⟩ ty hty'
      rwa [← Except.ok.inj (hty.symm.trans hty')]
    · rintro ⟨hvoid, ws, htakes, rfl⟩
      cases htakes with
      | some he ht =>
        obtain ⟨actual, hty⟩ : ∃ actual, e.infer st.names = .ok actual := by
          cases ht with
          | same hty | retyped hty => exact ⟨_, hty⟩
        exact ⟨he, actual, hty, hvoid e rfl actual hty, _, ⟨ws, ht, rfl⟩, rfl⟩

/-- A value is returned where the function around has something to return, and only there. -/
@[simp] theorem runs_returned {s : Span} {e e' : Option Expr} : Runs (returned s e) st e' st' ↔
    ∃ ty ws, st.returns = some ty ∧ e'.isSome = !ty.isVoid ∧ TakesIf st.names ty e e' ws ∧
      st' = st.warn ws := by
  rw [returned, runs_get_bind]
  cases hret : st.returns with
  | none => simp
  | some ty =>
    constructor
    · intro h
      cases e with
      | none =>
        obtain ⟨hvoid, rfl, rfl⟩ : ty.isVoid ∧ e' = none ∧ st' = st := by simpa using h
        exact ⟨ty, [], rfl, by simp [hvoid], .none, by simp⟩
      | some e =>
        obtain ⟨he, hvoid, v, ⟨ws, ht, rfl⟩, rfl⟩ : expr st.names e = .ok () ∧ ty.isVoid = false ∧
            ∃ v, (∃ ws, Takes st.names ty e v ws ∧ st' = st.warn ws) ∧ e' = some v := by
          simpa [runs_coerce] using h
        exact ⟨ty, ws, rfl, by simp [hvoid], .some he ht, rfl⟩
    · rintro ⟨_, ws, ⟨⟩, hsome, htakes, rfl⟩
      cases htakes with
      | none => simpa using hsome
      | some he ht => simpa [runs_coerce, he] using ⟨by simpa using hsome, ws, ht, rfl⟩

/-- What a parameter or a member is declared as. -/
def paramBinding (p : Param) : Binding Unit := .plain p.name.name p.ty ()

@[simp] theorem runs_declareParam {p : Param} {u : Unit} : Runs (declareParam p) st u st' ↔
    (st.names.findLocal? p.name.name = none ∧ Known st.names p.ty) ∧
      st' = { st with names := st.names.add (paramBinding p) } := by
  simp [declareParam, paramBinding, and_assoc]

/-- Parameters with new names and known types, each declared before the next. -/
def Admits (t : ScopeTable Unit) : List Param → Prop
  | [] => True
  | p :: ps => t.findLocal? p.name.name = none ∧ Known t p.ty ∧ Admits (t.add (paramBinding p)) ps

@[simp] theorem runs_declareParams {ps : List Param} {u : Unit} :
    Runs (forM ps declareParam) st u st' ↔
      Admits st.names ps ∧ st' = { st with names := st.names.addAll (ps.map paramBinding) } := by
  induction ps generalizing st with
  | nil => simp [Admits, ScopeTable.addAll]
  | cons p ps ih =>
    rw [List.forM_cons]
    simp [ih, Admits, ScopeTable.addAll, and_assoc]

/-- What a function is declared as. -/
def sigBinding (sig : Signature) (isExternal : Bool) : Binding Unit :=
  ⟨sig.name.name, sig.ty,
    { Attributes.none with isExternal := isExternal, isVariadic := sig.variadic }, none, ()⟩

@[simp] theorem runs_signature {sig : Signature} {isExternal : Bool} {u : Unit} :
    Runs (signature sig isExternal) st u st' ↔ (st.names.findLocal? sig.name.name = none ∧
      Known st.names sig.ret) ∧ st' =
      { st with names := st.names.add (sigBinding sig isExternal) } := by
  simp [signature, sigBinding, and_assoc]

end Parts

/-- A part of a tree, and what the check makes of it. -/
inductive Change where
  | stmt (s r : Stmt)
  | alternative (a r : Alternative)
  | stmts (ss rs : List Stmt)
  /-- Statements in a scope of their own. -/
  | body (ss rs : List Stmt)

/-- The state in which the body of a function is checked. -/
def State.inside (st : State) (sig : Signature) : State where
  names := (st.names.add (sigBinding sig false)).enter.addAll (sig.params.map paramBinding)
  returns := some sig.ret
  warnings := st.warnings

theorem inside_runs {sig : Signature} (hnew : st.names.findLocal? sig.name.name = none)
    (hret : Known st.names sig.ret)
    (hparams : Admits (st.names.add (sigBinding sig false)).enter sig.params) :
    Runs (signature sig false) st () { st with names := st.names.add (sigBinding sig false) } ∧
      Runs (sig.params.forM declareParam) { st with
        names := (st.names.add (sigBinding sig false)).enter, returns := some sig.ret } ()
        (st.inside sig) :=
  ⟨runs_signature.mpr ⟨⟨hnew, hret⟩, rfl⟩, runs_declareParams.mpr ⟨hparams, rfl⟩⟩

/-- The check makes this of a part of a tree, and leads from the one state to the other. -/
inductive Passes : State → Change → State → Prop where
  | varDef {st name ty init init' s ws} : st.names.findLocal? name.name = none → Known st.names ty →
      (∀ e ∈ init, NotVoid st.names e) → TakesIf st.names ty init init' ws →
      Passes st (.stmt (.varDef name ty init s) (.varDef name ty init' s))
        { st.warn ws with names := st.names.add (.plain name.name ty ()) }
  | structDef {st name members s outer} : st.names.findLocal? name.name = none →
      Admits (st.names.enterMarked (membersMarker name.name) ()) members →
      ((st.names.enterMarked (membersMarker name.name) ()).addAll
        (members.map paramBinding)).leave? = some outer →
      Passes st (.stmt (.structDef name members s) (.structDef name members s))
        { st with names :=
          outer.add ⟨name.name, .struct name.name 0, .none, some st.names.size, ()⟩ }
  | fnDef {st sig body body' s st₁ outer} : st.names.findLocal? sig.name.name = none →
      Known st.names sig.ret → Admits (st.names.add (sigBinding sig false)).enter sig.params →
      Passes (st.inside sig) (.stmts body body') st₁ → st₁.names.leave? = some outer →
      Passes st (.stmt (.fnDef sig body s) (.fnDef sig body' s))
        { st₁ with names := outer, returns := st.returns }
  | fnDecl {st sig s outer} : st.names.findLocal? sig.name.name = none → Known st.names sig.ret →
      Admits (st.names.add (sigBinding sig true)).enter sig.params →
      ((st.names.add (sigBinding sig true)).enter.addAll (sig.params.map paramBinding)).leave? =
        some outer →
      Passes st (.stmt (.fnDecl sig s) (.fnDecl sig s)) { st with names := outer }
  | varSet {st target e e' s b ws} : st.names.find? target.name = some b →
      expr st.names e = .ok () → Takes st.names b.ty e e' ws →
      Passes st (.stmt (.varSet target e s) (.varSet target e' s)) (st.warn ws)
  | memberSet {st target e e' s ty ws} : expr st.names target = .ok () →
      target.infer st.names = .ok ty → expr st.names e = .ok () → Takes st.names ty e e' ws →
      Passes st (.stmt (.memberSet target e s) (.memberSet target e' s)) (st.warn ws)
  | expr {st e s} : expr st.names e = .ok () → Passes st (.stmt (.expr e s) (.expr e s)) st
  | return_ {st e e' s ty ws} : st.returns = some ty → e'.isSome = !ty.isVoid →
      TakesIf st.names ty e e' ws → Passes st (.stmt (.return_ e s) (.return_ e' s)) (st.warn ws)
  | break_ {st s} : Passes st (.stmt (.break_ s) (.break_ s)) st
  | for_ {st cond body body' s st'} : expr st.names cond = .ok () →
      Passes st (.body body body') st' →
      Passes st (.stmt (.for_ cond body s) (.for_ cond body' s)) st'
  | if_ {st cond body body' otherwise otherwise' s st₁ st'} : expr st.names cond = .ok () →
      Passes st (.body body body') st₁ → Passes st₁ (.alternative otherwise otherwise') st' →
      Passes st (.stmt (.if_ cond body otherwise s) (.if_ cond body' otherwise' s)) st'
  | block {st body body' s st'} : Passes st (.body body body') st' →
      Passes st (.stmt (.block body s) (.block body' s)) st'
  | none {st} : Passes st (.alternative .none .none) st
  | else_ {st body body' st'} : Passes st (.body body body') st' →
      Passes st (.alternative (.else_ body) (.else_ body')) st'
  | elif {st cond body body' otherwise otherwise' st₁ st'} : expr st.names cond = .ok () →
      Passes st (.body body body') st₁ → Passes st₁ (.alternative otherwise otherwise') st' →
      Passes st (.alternative (.elif cond body otherwise) (.elif cond body' otherwise')) st'
  | nil {st} : Passes st (.stmts [] []) st
  | cons {st s r ss rs st₁ st'} : Passes st (.stmt s r) st₁ → Passes st₁ (.stmts ss rs) st' →
      Passes st (.stmts (s :: ss) (r :: rs)) st'
  | body {st ss rs st₁ outer} : Passes { st with names := st.names.enter } (.stmts ss rs) st₁ →
      st₁.names.leave? = some outer → Passes st (.body ss rs) { st₁ with names := outer }

section Statements

-- makes the equations here, once, which all proofs below unfold with
attribute [local simp] stmt stmts alternative

theorem Passes.of_inScope {ss rs : List Stmt} (h : Runs (inScope s (Check.stmts ss)) st rs st')
    (ih : ∀ {st st'}, Runs (Check.stmts ss) st rs st' → Passes st (.stmts ss rs) st') :
    Passes st (.body ss rs) st' := by
  obtain ⟨st₁, outer, hrun, hleave, rfl⟩ := runs_within.mp h
  exact .body (ih hrun) hleave

mutual

theorem stmt_passes (s : Stmt) {r : Stmt} {st st' : State} (h : Runs (stmt s) st r st') :
    Passes st (.stmt s r) st' := by
  match s with
  | .varDef name ty init s =>
    simp at h
    obtain ⟨hnew, hknown, init', ws, ⟨hvoid, htakes⟩, rfl, rfl⟩ := h
    exact .varDef hnew hknown hvoid htakes
  | .structDef name members s =>
    simp [runs_within] at h
    obtain ⟨hnew, outer, ⟨hmembers, hleave⟩, rfl, rfl⟩ := h
    exact .structDef hnew hmembers hleave
  | .fnDef sig body s =>
    simp [inScope, runs_within, runs_returning] at h
    obtain ⟨⟨hnew, hret⟩, body', ⟨st₁, outer, ⟨⟨hparams, hbody⟩, hleave⟩, rfl⟩, rfl⟩ := h
    exact .fnDef hnew hret hparams (stmts_passes body hbody) hleave
  | .fnDecl sig s =>
    simp [inScope, runs_within] at h
    obtain ⟨⟨hnew, hret⟩, ⟨hparams, outer, hleave, rfl⟩, rfl⟩ := h
    exact .fnDecl hnew hret hparams hleave
  | .varSet target value s =>
    cases hb : st.names.find? target.name with
    | none => simp [hb] at h
    | some b =>
      simp [hb, runs_coerce] at h
      obtain ⟨he, value', ⟨ws, htakes, rfl⟩, rfl⟩ := h
      exact .varSet hb he htakes
  | .memberSet target value s =>
    simp [runs_coerce] at h
    obtain ⟨ht, ty, hty, he, value', ⟨ws, htakes, rfl⟩, rfl⟩ := h
    exact .memberSet ht hty he htakes
  | .expr e s =>
    simp at h
    obtain ⟨⟨he, rfl⟩, rfl⟩ := h
    exact .expr he
  | .return_ value s =>
    simp at h
    obtain ⟨value', ⟨ty, hret, hsome, ws, htakes, rfl⟩, rfl⟩ := h
    exact .return_ hret hsome htakes
  | .break_ s =>
    simp at h
    obtain ⟨rfl, rfl⟩ := h
    exact .break_
  | .for_ cond body s =>
    simp at h
    obtain ⟨hcond, body', hbody, rfl⟩ := h
    exact .for_ hcond (.of_inScope hbody (stmts_passes body))
  | .if_ cond body otherwise s =>
    simp at h
    obtain ⟨hcond, body', st₁, hbody, otherwise', hother, rfl⟩ := h
    exact .if_ hcond (.of_inScope hbody (stmts_passes body)) (alternative_passes otherwise hother)
  | .block body s =>
    simp at h
    obtain ⟨body', hbody, rfl⟩ := h
    exact .block (.of_inScope hbody (stmts_passes body))

theorem alternative_passes (a : Alternative) {r : Alternative} {s : Span} {st st' : State}
    (h : Runs (alternative s a) st r st') : Passes st (.alternative a r) st' := by
  match a with
  | .none =>
    simp at h
    obtain ⟨rfl, rfl⟩ := h
    exact .none
  | .else_ body =>
    simp at h
    obtain ⟨body', hbody, rfl⟩ := h
    exact .else_ (.of_inScope hbody (stmts_passes body))
  | .elif cond body otherwise =>
    simp at h
    obtain ⟨hcond, body', st₁, hbody, otherwise', hother, rfl⟩ := h
    exact .elif hcond (.of_inScope hbody (stmts_passes body)) (alternative_passes otherwise hother)

theorem stmts_passes (ss : List Stmt) {rs : List Stmt} {st st' : State}
    (h : Runs (stmts ss) st rs st') : Passes st (.stmts ss rs) st' := by
  match ss with
  | [] =>
    simp at h
    obtain ⟨rfl, rfl⟩ := h
    exact .nil
  | s :: ss =>
    simp at h
    obtain ⟨r, st₁, hs, rs', hss, rfl⟩ := h
    exact .cons (stmt_passes s hs) (stmts_passes ss hss)

end

/-- The part of the tree is checked with this result. -/
def Change.Run (st st' : State) : Change → Prop
  | .stmt s r => Runs (Check.stmt s) st r st'
  | .alternative a r => ∀ s, Runs (Check.alternative s a) st r st'
  | .stmts ss rs => Runs (Check.stmts ss) st rs st'
  | .body ss rs => ∀ s, Runs (inScope s (Check.stmts ss)) st rs st'

theorem Passes.run {c : Change} (h : Passes st c st') : c.Run st st' := by
  induction h with unfold Change.Run
  | varDef hnew hknown hvoid htakes => simpa using ⟨hnew, hknown, _, ⟨hvoid, htakes⟩, rfl, rfl, rfl⟩
  | structDef hnew hmembers hleave => simp [runs_within, hnew, hmembers, hleave]
  | fnDef hnew hret hparams _ hleave ih =>
    simp [runs_within, runs_returning, inScope, hnew, hret, hparams]
    exact ⟨_, ⟨ih, hleave⟩, rfl⟩
  | fnDecl hnew hret hparams hleave => simp [runs_within, inScope, hnew, hret, hparams, hleave]
  | varSet hb he htakes => simpa [hb, he, runs_coerce] using ⟨_, htakes, rfl⟩
  | memberSet ht hty he htakes => simpa [ht, hty, he, runs_coerce] using ⟨_, htakes, rfl⟩
  | expr he => simp [he]
  | return_ hret hsome htakes => simpa [hret, hsome] using ⟨_, htakes, rfl⟩
  | break_ | none | nil => simp
  | for_ hcond _ ih => simpa [hcond] using ih _
  | if_ hcond _ _ ih ih' => simpa [hcond] using ⟨_, ih _, ih' _⟩
  | block _ ih => simpa using ih _
  | else_ _ ih => simpa using fun s => ih s
  | elif hcond _ _ ih ih' => simpa [hcond] using fun s => ⟨_, ih s, ih' s⟩
  | cons _ _ ih ih' => simpa using ⟨_, ih, ih'⟩
  | body _ hleave ih => exact fun _ => runs_within.mpr ⟨_, _, ih, hleave, rfl⟩

end Statements

theorem Passes.returns {c : Change} (h : Passes st c st') : st'.returns = st.returns := by
  induction h with
  | if_ _ _ _ ih ih' | elif _ _ _ ih ih' | cons _ _ ih ih' => exact ih'.trans ih
  | for_ _ _ ih | block _ ih | else_ _ ih | body _ _ ih => exact ih
  | _ => rfl

/-- What fails does so for want of a type, or because two types do not go together. -/
def Fails (t : ScopeTable Unit) (r : Except (Located CheckError) α) : Prop :=
  ∀ err, r = .error err → (∃ e, typeIn t e = .error err) ∨ ∃ l r, err.value = .invalidType l r

section Failures

variable {t : ScopeTable Unit}

theorem Fails.ok (a : α) : Fails t (.ok a) := nofun

theorem Fails.bind {x : Except (Located CheckError) α} {f : α → Except (Located CheckError) β}
    (hx : Fails t x) (hf : ∀ a, Fails t (f a)) : Fails t (x >>= f) := by
  cases x with
  | error e => exact fun err h => hx err (by cases h; rfl)
  | ok a => exact hf a

theorem typeIn_fails (e : Expr) : Fails t (typeIn t e) := fun _ h => .inl ⟨e, h⟩

theorem discard_typeIn_fails (e : Expr) : Fails t (discard (typeIn t e)) := by
  have h := @typeIn_fails t e
  revert h
  cases typeIn t e with
  | ok ty => exact fun _ => .ok ()
  | error err => exact fun h e' he => h e' (by cases he; rfl)

theorem throw_fails {l r : Ty} :
    Fails t (throw ⟨s, .invalidType l r⟩ : Except (Located CheckError) α) := by
  rintro _ ⟨⟩
  exact .inr ⟨l, r, rfl⟩

mutual

theorem expr_fails (t : ScopeTable Unit) (e : Expr) : Fails t (expr t e) := by
  match e with
  | .literal v ty s => exact .ok ()
  | .ident id => exact discard_typeIn_fails _
  | .paren inner s => exact (expr_fails t inner).bind fun _ => discard_typeIn_fails _
  | .unary op operand s => exact (expr_fails t operand).bind fun _ => discard_typeIn_fails _
  | .binary op lhs rhs s =>
    refine (expr_fails t lhs).bind fun _ => (expr_fails t rhs).bind fun _ => ?_
    cases op.isLogical with
    | true => exact discard_typeIn_fails _
    | false =>
      refine (typeIn_fails lhs).bind fun l => (typeIn_fails rhs).bind fun r => ?_
      dsimp only
      split
      · exact throw_fails.bind fun _ => discard_typeIn_fails _
      · exact discard_typeIn_fails _
  | .cast operand ty s =>
    refine (expr_fails t operand).bind fun _ => (typeIn_fails operand).bind fun actual => ?_
    split
    · exact .ok ()
    · exact throw_fails
  | .call callee args s =>
    exact (expr_fails t callee).bind fun _ => (exprs_fails t args).bind fun _ =>
      discard_typeIn_fails _
  | .member object field arrow s => exact (expr_fails t object).bind fun _ => discard_typeIn_fails _

theorem exprs_fails (t : ScopeTable Unit) (es : List Expr) : Fails t (exprs t es) := by
  match es with
  | [] => exact .ok ()
  | e :: es => exact (expr_fails t e).bind fun _ => exprs_fails t es

end

end Failures

end Check

/-- What it is that a program is checked. -/
theorem Program.check_eq_ok {p q : Program} {ws : List (Located Warning)} :
    p.check = .ok (q, ws) ↔ ∃ st, Check.Passes .start (.stmts p q) st ∧ st.warnings = ws := by
  unfold Program.check
  split
  · rename_i r st hrun
    simp only [Except.ok.injEq, Prod.mk.injEq]
    constructor
    · rintro ⟨rfl, rfl⟩
      exact ⟨st, Check.stmts_passes p hrun, rfl⟩
    · rintro ⟨st', h, rfl⟩
      obtain ⟨hr, rfl⟩ := Prod.mk.inj (hrun.symm.trans h.run)
      exact ⟨Except.ok.inj hr, rfl⟩
  · rename_i e st hrun
    simp only [reduceCtorEq, false_iff]
    rintro ⟨st', h, -⟩
    exact nomatch hrun.symm.trans h.run

end Frontend
