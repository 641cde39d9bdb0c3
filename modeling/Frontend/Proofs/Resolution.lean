import Frontend.Proofs.Balance
import Frontend.Proofs.Obligations
import Frontend.Proofs.WellTyped

/-!
Checking and lowering are two walks over one tree, each with a table of its own. Wherever the second
gets to, the first has been, and the two tables there bind the same names to the same types and lead
from structs to the same members. So the second walk never fails over a name or over the type of an
expression.
-/
namespace Frontend

/-- Where a part of a tree stands: the way to it from the root, last step first. -/
abbrev Path := List Nat

mutual

/-- Paths of the parts of an expression that stands at `p`. -/
def Expr.paths (p : Path) : Expr → List Path
  | .literal _ _ _ | .ident _ => [p]
  | .paren inner _ => p :: inner.paths (0 :: p)
  | .unary _ operand _ => p :: operand.paths (0 :: p)
  | .binary _ lhs rhs _ => p :: (lhs.paths (0 :: p) ++ rhs.paths (1 :: p))
  | .cast operand _ _ => p :: operand.paths (0 :: p)
  | .call callee args _ => p :: (callee.paths (0 :: p) ++ Expr.pathsFrom p 1 args)
  | .member object _ _ _ => p :: object.paths (0 :: p)

def Expr.pathsFrom (p : Path) (k : Nat) : List Expr → List Path
  | [] => []
  | e :: es => e.paths (k :: p) ++ Expr.pathsFrom p (k + 1) es

end

/-- What a walk gets to, in order: paths, each with the table at hand there. -/
abbrev Trail (V : Type) := List (Path × ScopeTable V)

/-- The table does not change within an expression. -/
def Expr.trail (p : Path) (t : ScopeTable V) (e : Expr) : Trail V := (e.paths p).map (·, t)

def optionalTrail (p : Path) (t : ScopeTable V) (e : Option Expr) : Trail V :=
  (e.map (·.trail p t)).getD []

/-- What follows a step, if the step succeeds. -/
def onward (o : Except ε α × σ) (next : α → σ → Trail V) : Trail V :=
  match o with
  | (.ok a, st) => next a st
  | (.error _, _) => []

theorem onward_runs {act : ExceptT ε (StateM σ) α} {st st' : σ} {a : α} (h : Runs act st a st')
    (next : α → σ → Trail V) : onward (outcome act st) next = next a st' := by
  rw [Runs] at h
  rw [h]
  rfl

/-- How a walk over the statements of a tree keeps its books. Its states have a table of names, and
between the arms of an `if` it may have something to remember. Every step goes on to what follows
it, if it succeeds. -/
structure Walker (σ τ V : Type) where
  names : σ → ScopeTable V
  enter : σ → σ
  /-- Whether it walks the bodies of loops. -/
  loops : Bool
  inside : Signature → σ → (σ → Trail V) → Trail V
  before : σ → (σ → Trail V) → Trail V
  past : Stmt → σ → (σ → Trail V) → Trail V
  openIf : σ → (τ → σ → Trail V) → Trail V
  openArm : Span → String → Expr → Alternative → τ → σ → (τ → σ → Trail V) → Trail V
  closeArm : Span → List Stmt → τ → σ → (σ → Trail V) → Trail V
  resume : String → τ → σ → (σ → Trail V) → Trail V

namespace Walker

variable {σ τ V : Type} (W : Walker σ τ V)

/-- The trail of one arm of an `if`: its condition, what is `within`, and what is left to do where
the condition fails. -/
def armTrail (p : Path) (s : Span) (label : String) (cond : Expr) (body : List Stmt)
    (otherwise : Alternative) (within : σ → Trail V) (rest : τ → σ → Trail V) (c : τ) (st : σ) :
    Trail V :=
  cond.trail (0 :: p) (W.names st) ++ W.openArm s label cond otherwise c st fun c₁ st₁ =>
    within (W.enter st₁) ++ W.closeArm s body c₁ st₁ fun st₂ => rest c₁ st₂

mutual

/-- The trail of a statement that stands at `p`. -/
def stmtTrail (p : Path) : Stmt → σ → Trail V
  | .varDef _ _ e _, st | .return_ e _, st =>
    (p, W.names st) :: optionalTrail (0 :: p) (W.names st) e
  | .structDef _ _ _, st | .fnDecl _ _, st | .break_ _, st => [(p, W.names st)]
  | .fnDef sig body _, st =>
    (p, W.names st) :: W.inside sig st fun st₁ => stmtsTrail (0 :: p) 0 body st₁
  | .varSet _ e _, st | .expr e _, st => (p, W.names st) :: e.trail (0 :: p) (W.names st)
  | .memberSet target e _, st =>
    (p, W.names st) :: (target.trail (0 :: p) (W.names st) ++ e.trail (1 :: p) (W.names st))
  | .for_ cond body _, st => (p, W.names st) :: bif W.loops then
      cond.trail (0 :: p) (W.names st) ++ stmtsTrail (1 :: p) 0 body (W.enter st) else []
  | .if_ cond body otherwise s, st => (p, W.names st) :: W.openIf st fun c st₁ =>
      W.armTrail p s "if.then" cond body otherwise (fun st₂ => stmtsTrail (1 :: p) 0 body st₂)
        (fun c₁ st₂ => alternativeTrail (2 :: p) s otherwise c₁ st₂) c st₁
  | .block body _, st => (p, W.names st) :: stmtsTrail (0 :: p) 0 body (W.enter st)

def alternativeTrail (p : Path) (s : Span) : Alternative → τ → σ → Trail V
  | .none, _, _ => []
  | .else_ body, c, st =>
    W.resume "if.else" c st fun st₁ => stmtsTrail (0 :: p) 0 body (W.enter st₁)
  | .elif cond body otherwise, c, st => W.resume "elif.cond" c st fun st₁ =>
      W.armTrail p s "elif.then" cond body otherwise (fun st₂ => stmtsTrail (1 :: p) 0 body st₂)
        (fun c₁ st₂ => alternativeTrail (2 :: p) s otherwise c₁ st₂) c st₁

/-- The trail of statements of which the first is the one numbered `k`. -/
def stmtsTrail (p : Path) (k : Nat) : List Stmt → σ → Trail V
  | [], _ => []
  | s :: ss, st => W.before st fun st₁ =>
      stmtTrail (k :: p) s st₁ ++ W.past s st₁ fun st₂ => stmtsTrail p (k + 1) ss st₂

end

/-- The trail of the top-level statements from number `k` on. -/
def topLevelTrail (k : Nat) : List Stmt → σ → Trail V
  | [], _ => []
  | s :: ss, st => W.stmtTrail [k] s st ++ W.past s st fun st₁ => topLevelTrail (k + 1) ss st₁

end Walker

namespace Check

def State.enter (st : State) : State := { st with names := st.names.enter }

/-- Checking has nothing to remember between the arms of an `if`. -/
def walker : Walker State Unit Unit where
  names := State.names
  enter := State.enter
  loops := true
  inside sig st next :=
    onward (outcome (signature sig false) st) fun _ st₁ =>
    onward (outcome (sig.params.forM declareParam)
      { st₁ with names := st₁.names.enter, returns := some sig.ret }) fun _ st₂ => next st₂
  before st next := next st
  past s st next := onward (outcome (stmt s) st) fun _ st₁ => next st₁
  openIf st next := next () st
  openArm _ _ _ _ _ st next := next () st
  closeArm s body _ st next := onward (outcome (inScope s (stmts body)) st) fun _ st₁ => next st₁
  resume _ _ st next := next st

/-- The trail of checking statements of which the first is the one numbered `k`. -/
abbrev stmtsTrail (p : Path) (k : Nat) : List Stmt → State → Trail Unit := walker.stmtsTrail p k

section

variable {st st₁ st' : State} {next : State → Trail Unit} {rest : Unit → State → Trail Unit}

theorem walker_before : walker.before st next = next st := rfl

theorem walker_openIf : walker.openIf st rest = rest () st := rfl

theorem walker_resume {label : String} : walker.resume label () st next = next st := rfl

theorem walker_inside {sig : Signature} {low : Unit} (hsig : Runs (signature sig false) st low st₁)
    (hparams : Runs (sig.params.forM declareParam)
      { st₁ with names := st₁.names.enter, returns := some sig.ret } () st') :
    walker.inside sig st next = next st' :=
  (onward_runs hsig _).trans (onward_runs hparams _)

theorem walker_past {s r : Stmt} (h : Runs (stmt s) st r st') : walker.past s st next = next st' :=
  onward_runs h _

/-- The body of an arm comes to an end. -/
theorem walker_armTrail {p : Path} {s : Span} {label : String} {cond : Expr} {body rs : List Stmt}
    {otherwise : Alternative} (h : Runs (inScope s (stmts body)) st rs st') :
    walker.armTrail p s label cond body otherwise next rest () st =
      cond.trail (0 :: p) st.names ++ (next st.enter ++ rest () st') :=
  congrArg (_ ++ ·) (congrArg (_ ++ ·) (onward_runs h _))

end

end Check

namespace Lowering

def State.enter (st : State) : State := { st with names := st.names.enter }

/-- Lowering stops at a loop. Between the arms of an `if` it has the block to join, and the block
that is next. -/
def walker : Walker State (Ir.BlockId × Ir.BlockId) Handle where
  names := State.names
  enter := State.enter
  loops := false
  inside sig st next :=
    onward (outcome (signature sig false) st) fun low st₁ =>
    onward (outcome freshId st₁) fun id st₂ =>
    onward (outcome (bindParams sig.params low.params id) { st₂ with
      names := st₂.names.enter
      enclosing := st₂.current :: st₂.enclosing
      current := .start id low.name low.params low.ret }) fun _ st₃ => next st₃
  before st next := onward (outcome reopen st) fun _ st₁ => next st₁
  past s st next := onward (outcome (stmt s) st) fun _ st₁ => next st₁
  openIf st next := onward (outcome openIf st) fun join st₁ => next (join, join) st₁
  openArm s label cond otherwise c st next :=
    onward (outcome (openArm c.1 label cond (alternative s c.1 otherwise).isSome) st)
      fun no st₁ => next (c.1, no) st₁
  closeArm s body c st next :=
    onward (outcome (inScope s (stmts body)) st) fun _ st₁ =>
    onward (outcome (terminate (.br c.1)) st₁) fun _ st₂ => next st₂
  resume label c st next := onward (outcome (startBlock c.2 label) st) fun _ st₁ => next st₁

/-- The trail of lowering the top-level statements from number `k` on. -/
abbrev topLevelTrail (k : Nat) : List Stmt → State → Trail Handle := walker.topLevelTrail k

/-- An error that is not about names and types of expressions. -/
abbrev Unrelated (e : LowerError) : Prop := e.isNaming = false

/-- Layouts are no matter of names and types of expressions. -/
theorem Unrelated.layout {t : ScopeTable Handle} {ty : Ty} :
    ∀ err, ty.Trouble t err → Unrelated err :=
  fun _ => Ty.Trouble.not_naming

theorem Safe.unrelated {st : State} {act : LowerM α} {P : α → Prop}
    (h : Consults Unrelated st.names act P) :
    Safe Unrelated act st fun a st' => P a ∧ st'.names = st.names :=
  .ofConsults (fun _ => LowerError.isNaming_of_isLimit) h

theorem signature_safe (sig : Signature) (isExternal : Bool) (st : State) :
    Safe Unrelated (signature sig isExternal) st fun low st' =>
      low.Of sig st ∧ st' = { st with names := st.names.add (low.binding sig isExternal) } := by
  refine Safe.of_runs (Q := fun _ _ => True) ?_ fun _ _ => signature_inv
  refine (Safe.unrelated (.lowerType Unrelated.layout)).bind fun _ st₁ _ => ?_
  exact (Safe.unrelated (.mapM fun _ _ => lowerParam_consults Unrelated.layout)).bind
    fun _ _ _ => trivial

open ScopeTable (Advance Extends)

/-- Where the table mirrors `t`, `act` does to it what leads from `t` to `t'`. -/
def Follows (t t' : ScopeTable Unit) (act : LowerM α) : Prop :=
  ∀ st, t.Mirrors st.names → Safe Unrelated act st fun _ st' => Advance t st.names t' st'.names

namespace Follows

variable {t t₁ t₂ : ScopeTable Unit}

theorem ofConsults {act : LowerM α} {P : α → Prop}
    (h : ∀ u : ScopeTable Handle, t.Mirrors u → Consults Unrelated u act P) : Follows t t act := by
  intro st hm
  refine (Safe.unrelated (h st.names hm)).mono fun _ st' hst => ?_
  rw [hst.2]
  exact .refl hm

theorem bind {x : LowerM α} {f : α → LowerM β} (hx : Follows t t₁ x)
    (hf : ∀ a, Follows t₁ t₂ (f a)) : Follows t t₂ (x >>= f) := by
  intro st hm
  refine (hx st hm).bind fun a st₁ h₁ => ?_
  exact (hf a st₁ h₁.mirrors).mono fun _ _ h₂ => h₁.trans h₂

end Follows

/-- The same place, with tables that agree. -/
def SamePoint (x : Path × ScopeTable Handle) (y : Path × ScopeTable Unit) : Prop :=
  x.1 = y.1 ∧ y.2.Agrees x.2

/-- One trail goes point by point with the other. -/
def Matched (xs : Trail Handle) (ys : Trail Unit) : Prop := List.Forall₂ SamePoint xs ys

/-- One trail goes point by point with the other as far as it gets. -/
def Along (xs : Trail Handle) (ys : Trail Unit) : Prop := ∃ front, front <+: ys ∧ Matched xs front

section Trails

variable {xs xs' : Trail Handle} {ys ys' : Trail Unit} {t : ScopeTable Unit} {u : ScopeTable Handle}

theorem Matched.along (h : Matched xs ys) : Along xs ys := ⟨ys, List.prefix_rfl, h⟩

theorem Along.append_right (h : Along xs ys) (zs : Trail Unit) : Along xs (ys ++ zs) := by
  obtain ⟨front, hfront, hm⟩ := h
  exact ⟨front, hfront.trans (List.prefix_append _ _), hm⟩

theorem Matched.append_along (h : Matched xs ys) (h' : Along xs' ys') :
    Along (xs ++ xs') (ys ++ ys') := by
  obtain ⟨front, hfront, hm⟩ := h'
  exact ⟨ys ++ front, List.prefix_append_right_inj ys |>.mpr hfront, List.rel_append h hm⟩

theorem Matched.point (hm : t.Mirrors u) (p : Path) : Matched [(p, u)] [(p, t)] :=
  .cons ⟨rfl, hm.agrees⟩ .nil

variable {p : Path} {e e' : Expr} {ys' zs ys : Trail Unit} {next : α → State → Trail Handle}

theorem Matched.expr (hm : t.Mirrors u) (h : e'.paths p = e.paths p) :
    Matched (e'.trail p u) (e.trail p t) := by
  rw [Expr.trail, Expr.trail, h, Matched, List.forall₂_map_left_iff, List.forall₂_map_right_iff,
    List.forall₂_same]
  exact fun _ _ => ⟨rfl, hm.agrees⟩

end Trails

/-- `act` is safe, and its trail `xs` goes with `ys`: all the way if it succeeds. -/
def Tracks (act : LowerM α) (st : State) (Q : α → State → Prop) (xs : Trail Handle)
    (ys : Trail Unit) : Prop :=
  match outcome act st with
  | (.ok a, st') => Q a st' ∧ Matched xs ys
  | (.error e, _) => e.value.isNaming = false ∧ Along xs ys

namespace Tracks

variable {act : LowerM α} {st : State} {Q : α → State → Prop} {xs : Trail Handle} {ys : Trail Unit}
  {R : β → State → Prop} {f : α → LowerM β}

theorem ofSafe (h : Safe Unrelated act st Q) (hm : Matched xs ys) : Tracks act st Q xs ys := by
  rw [Safe] at h
  rw [Tracks]
  generalize outcome act st = r at h
  obtain ⟨r, st'⟩ := r
  cases r with
  | ok a => exact ⟨h, hm⟩
  | error e => exact ⟨h, hm.along⟩

section

variable (h : Tracks act st Q xs ys)

include h

theorem safe : Safe Unrelated act st Q := by
  rw [Tracks] at h
  rw [Safe]
  generalize outcome act st = r at h
  obtain ⟨r, st'⟩ := r
  cases r with
  | ok a => exact h.1
  | error e => exact h.1

theorem along : Along xs ys := by
  rw [Tracks] at h
  split at h
  · exact h.2.along
  · exact h.2

theorem matched {a : α} {st' : State} (hrun : Runs act st a st') : Matched xs ys := by
  rw [Tracks, hrun] at h
  exact h.2

theorem mono {R : α → State → Prop} (hQ : ∀ a st', Q a st' → R a st') : Tracks act st R xs ys := by
  rw [Tracks] at h ⊢
  split at h
  · exact ⟨hQ _ _ h.1, h.2⟩
  · exact h

end

theorem prepend {xs' : Trail Handle} (hm : Matched xs' ys') (h : Tracks act st Q xs ys) :
    Tracks act st Q (xs' ++ xs) (ys' ++ ys) := by
  rw [Tracks] at h ⊢
  split at h
  · exact ⟨h.1, List.rel_append hm h.2⟩
  · exact ⟨h.1, hm.append_along h.2⟩

/-- One step after the other, and one trail after the other. -/
theorem bind (h : Tracks act st Q xs ys)
    (hf : ∀ a st', Q a st' → Tracks (f a) st' R (next a st') zs) :
    Tracks (act >>= f) st R (xs ++ onward (outcome act st) next) (ys ++ zs) := by
  rw [Tracks] at h
  cases hout : outcome act st with
  | mk r st₁ =>
    rw [hout] at h
    rw [Tracks, outcome_bind, hout]
    cases r with
    | error e =>
      refine ⟨h.1, ?_⟩
      simpa [onward] using h.2.append_right zs
    | ok a => exact (hf a st₁ h.1).prepend h.2

/-- A step that leaves no trail comes first. -/
theorem after (h : Safe Unrelated act st Q)
    (hf : ∀ a st', Q a st' → Tracks (f a) st' R (next a st') zs) :
    Tracks (act >>= f) st R (onward (outcome act st) next) zs :=
  (ofSafe h .nil).bind hf

/-- A step that leaves no trail comes last. -/
theorem before (h : Tracks act st Q xs ys) (hf : ∀ a st', Q a st' → Safe Unrelated (f a) st' R) :
    Tracks (act >>= f) st R xs ys := by
  have hbind : Tracks (act >>= f) st R (xs ++ onward (outcome act st) fun _ _ => []) (ys ++ []) :=
    h.bind fun a st' ha => ofSafe (hf a st' ha) .nil
  have hnil : onward (outcome act st) (fun _ _ => ([] : Trail Handle)) = [] := by
    unfold onward
    split <;> rfl
  simpa [hnil] using hbind

theorem within {s : Span} {enter : ScopeTable Handle → ScopeTable Handle}
    {R : α → State → Prop} (h : Tracks act { st with names := enter st.names } Q xs ys)
    (hQ : ∀ a st₁ outer, Q a st₁ → st₁.names.leave? = some outer →
      R a { st₁ with names := outer }) : Tracks (within s enter act) st R xs ys := by
  have hsafe := h.safe.within (s := s) (fun _ => rfl) hQ
  rw [Tracks]
  split
  · rename_i hrun
    obtain ⟨st₁, outer, hin, -⟩ := within_inv hrun
    exact ⟨hsafe.runs hrun, h.matched hin⟩
  · rename_i hrun
    exact ⟨hsafe.error hrun, h.along⟩

end Tracks

/-- Retyping a literal moves nothing. -/
theorem paths_coerce? {ty : Ty} (e e' : Expr) (h : e.coerce? ty = some e') (p : Path) :
    e'.paths p = e.paths p := by
  match e with
  | .literal v ty' s =>
    rw [Expr.coerce?] at h
    split at h
    · obtain rfl := Option.some.inj h
      rfl
    · split at h
      · obtain rfl := Option.some.inj h
        rfl
      · simp at h
  | .paren inner s | .unary .neg inner s =>
    obtain ⟨inner', hinner, rfl⟩ := Option.map_eq_some_iff.mp h
    simp only [Expr.paths, paths_coerce? inner inner' hinner]

theorem paths_coerced {ty : Ty} (h : Check.Coerced ty e e') (p : Path) :
    e'.paths p = e.paths p := by
  rcases h with rfl | h
  · rfl
  · exact paths_coerce? e e' h p

section Statements

variable {t t₁ t₂ : ScopeTable Unit} {ty : Ty} {s : Span} {sig : Signature}
  {ws : List (Located Warning)}

theorem variable_follows {name : Ident} {init : Option Expr}
    (h : ∀ u : ScopeTable Handle, t.Mirrors u → ∀ e ∈ init, e.TypedIn u) :
    Follows t (t.add (.plain name.name ty ())) (variable_ name ty init) := by
  refine Follows.bind (.ofConsults fun _ _ => .lowerType Unrelated.layout) fun irTy => ?_
  refine Follows.bind (.ofConsults fun _ _ => .emitReg) fun ptr => ?_
  have hinit : Follows t t (init.forM (storeAs ptr irTy)) := by
    cases init with
    | none => exact .ofConsults (P := fun _ => True) fun _ _ => .pure trivial
    | some e => exact .ofConsults fun u hu => storeAs_consults (h u hu e rfl).not_naming
  exact hinit.bind fun _ st hm => Advance.add hm ⟨rfl, rfl, rfl⟩ rfl rfl

theorem struct_follows {name : Ident} {members : List Param} {outer : ScopeTable Unit}
    (hl : ((t.enterMarked (membersMarker name.name) ()).addAll
      (members.map Check.paramBinding)).leave? = some outer) :
    Follows t (outer.add ⟨name.name, .struct name.name 0, .none, some t.size, ()⟩)
      (struct_ name members s) := by
  intro st hm
  have hmembers : List.Forall₂ Binding.Alike (members.map Check.paramBinding)
      (members.map fun m => (.plain m.name.name m.ty .member : Binding Handle)) := by
    rw [List.forall₂_map_left_iff, List.forall₂_map_right_iff, List.forall₂_same]
    exact fun _ _ => ⟨rfl, rfl, rfl⟩
  refine Safe.of_runs (Q := fun _ _ => True) ?_ fun _ st' hrun => ?_
  · refine (Safe.unrelated (.mapM fun m _ => ?_)).bind fun _ st₁ _ => ?_
    · exact (Consults.lowerType Unrelated.layout).bind fun _ _ => .pure trivial
    refine (Safe.unrelated .get).bind fun _ _ _ => ?_
    refine (Safe.within (E := Unrelated) (Q := fun _ _ => True) (R := fun _ _ => True) ?_
      (fun _ => rfl) fun _ _ _ _ _ => trivial).bind fun _ _ _ => trivial
    rw [Safe, (runs_forM_bindName (u := ())).mpr rfl]
    trivial
  · obtain ⟨fields, outer', -, hl', rfl⟩ := struct_inv hrun
    exact Advance.struct hm hmembers hl hl' ⟨rfl, rfl, rfl⟩ rfl rfl

/-- The parameters of a function are bound as they were declared. -/
theorem bindParams_follows {params : List Param} {tys : List Ir.Ty}
    (h : params.length = tys.length) (owner : Nat) :
    Follows t (t.addAll (params.map Check.paramBinding)) (bindParams params tys owner) := by
  intro st hm
  rw [Safe, (runs_bindParams (u := ())).mpr rfl]
  refine Advance.addAll hm (alike params (Ir.numbered tys) ?_)
  simpa [Ir.numbered] using h
where
  alike (params : List Param) (regs : List (Ir.Reg × Ir.Ty)) (h : params.length = regs.length) :
      List.Forall₂ (fun (b : Binding Unit) (c : Binding Handle) =>
          b.Alike c ∧ b.scope = none ∧ c.scope = none)
        (params.map Check.paramBinding)
        ((params.zip regs).map fun x =>
          .plain x.1.name.name x.1.ty (.param x.2.1 x.2.2 owner)) := by
    induction params generalizing regs with
    | nil => exact .nil
    | cons p params ih =>
      cases regs with
      | nil => simp at h
      | cons r regs =>
        refine .cons ⟨⟨rfl, rfl, rfl⟩, rfl, rfl⟩ (ih regs ?_)
        simpa using h

theorem freshId_follows : Follows t t freshId := fun _ hm => Advance.refl hm

/-- A function is bound as it was declared. -/
theorem signature_advance {isExternal : Bool} {st st' : State} {low : LoweredSig}
    (hm : t.Mirrors st.names)
    (h : low.Of sig st ∧ st' = { st with names := st.names.add (low.binding sig isExternal) }) :
    Advance t st.names (t.add (Check.sigBinding sig isExternal)) st'.names ∧
      sig.params.length = low.params.length := by
  obtain ⟨hlow, rfl⟩ := h
  exact ⟨Advance.add hm ⟨rfl, rfl, rfl⟩ rfl rfl, hlow.params.length_eq⟩

theorem fnDecl_follows
    (hl : ((t.add (Check.sigBinding sig true)).enter.addAll
      (sig.params.map Check.paramBinding)).leave? = some t₁) : Follows t t₁
      (stmt (.fnDecl sig s)) := by
  intro st hm
  unfold stmt
  refine (signature_safe sig true st).bind fun low st₁ hst₁ => ?_
  have hadv := (signature_advance hm hst₁).1
  -- the scope that the checker opened for the parameters is closed again, with nothing to see
  have hext := (Extends.addAll _ _).leave hl
  exact hadv.trans ⟨⟨_, hext⟩, ⟨_, .refl _⟩, hadv.mirrors.extend hext (.refl _) .nil⟩

/-- Where the table mirrors `t`, `act` keeps in step with a walk that leads from `t` to `t'` and has
the trail `path`. -/
def Shadows (t t' : ScopeTable Unit) (act : LowerM α) (trail : State → Trail Handle)
    (path : Trail Unit) : Prop :=
  ∀ st, t.Mirrors st.names →
    Tracks act st (fun _ st' => Advance t st.names t' st'.names) (trail st) path

namespace Shadows

variable {xs : State → Trail Handle} {ys zs : Trail Unit} {act x : LowerM α} {f : α → LowerM β}

theorem ofFollows (h : Follows t t₁ act) (hm : ∀ st, t.Mirrors st.names → Matched (xs st) ys) :
    Shadows t t₁ act xs ys :=
  fun st hst => .ofSafe (h st hst) (hm st hst)

/-- A step that leaves no trail. -/
theorem silent (h : Follows t t₁ act) : Shadows t t₁ act (fun _ => []) [] :=
  ofFollows h fun _ _ => .nil

theorem point (h : Shadows t t₁ act xs ys) (p : Path) :
    Shadows t t₁ act (fun st => (p, st.names) :: xs st) ((p, t) :: ys) :=
  fun st hst => (h st hst).prepend (.point hst p)

theorem prepend {xs' : State → Trail Handle} (hm : ∀ st, t.Mirrors st.names → Matched (xs' st) ys')
    (h : Shadows t t₁ act xs ys) : Shadows t t₁ act (fun st => xs' st ++ xs st) (ys' ++ ys) :=
  fun st hst => (h st hst).prepend (hm st hst)

theorem bind (hx : Shadows t t₁ x xs ys) (hf : ∀ a, Shadows t₁ t₂ (f a) (next a) zs) :
    Shadows t t₂ (x >>= f) (fun st => xs st ++ onward (outcome x st) next) (ys ++ zs) := by
  intro st hst
  refine (hx st hst).bind fun a st₁ h₁ => ?_
  exact (hf a st₁ h₁.mirrors).mono fun _ _ h₂ => h₁.trans h₂

theorem after (hx : Follows t t₁ x) (hf : ∀ a, Shadows t₁ t₂ (f a) (next a) zs) :
    Shadows t t₂ (x >>= f) (fun st => onward (outcome x st) next) zs :=
  (silent hx).bind hf

theorem before (hx : Shadows t t₁ x xs ys) (hf : ∀ a, Follows t₁ t₂ (f a)) :
    Shadows t t₂ (x >>= f) xs ys :=
  fun st hst => (hx st hst).before fun a st₁ h₁ =>
    (hf a st₁ h₁.mirrors).mono fun _ _ h₂ => h₁.trans h₂

theorem inScope {act : LowerM α} {s : Span} (h : Shadows t.enter t₁ act xs ys)
    (hl : t₁.leave? = some t₂) : Shadows t t₂ (inScope s act) (fun st => xs st.enter) ys :=
  fun st hst => (h st.enter hst.enter).within fun _ _ _ hin hleave => .leave hst hin hl hleave

theorem inFunction {act : LowerM α} (h : Shadows t t₁ act xs ys) (hact : Framed act) (s : Span)
    (b : Ir.Builder) : Shadows t t₁ (inFunction s b act)
      (fun st => xs { st with enclosing := st.current :: st.enclosing, current := b }) ys := by
  intro st hst
  have hbody := h { st with enclosing := st.current :: st.enclosing, current := b } hst
  rw [Tracks] at hbody ⊢
  rw [hact.outcome_inFunction]
  generalize outcome act _ = r at hbody
  obtain ⟨r, st₁⟩ := r
  cases r <;> exact hbody

end Shadows

theorem fnDef_shadows {body : List Stmt}
    (hbody : Shadows ((t.add (Check.sigBinding sig false)).enter.addAll
      (sig.params.map Check.paramBinding)) t₁ (stmts body) (walker.stmtsTrail (0 :: p) 0 body) ys)
    (hl : t₁.leave? = some t₂) :
    Shadows t t₂ (stmt (.fnDef sig body s)) (walker.stmtTrail p (.fnDef sig body s))
      ((p, t) :: ys) := by
  intro st hst
  unfold stmt Walker.stmtTrail
  refine Tracks.prepend (.point hst p) (.after (signature_safe sig false st) fun low st₁ hst₁ => ?_)
  obtain ⟨hadv, hlength⟩ := signature_advance hst hst₁
  have hin := fun id => (Shadows.after (bindParams_follows hlength id)
    fun _ => hbody).inScope (s := s) hl
  have hrest := Shadows.after freshId_follows fun id => (hin id).inFunction
    (body_framed sig low body s id) s (.start id low.name low.params low.ret)
  exact (hrest st₁ hadv.mirrors).mono fun _ _ h => hadv.trans h

/-- What is left to do where a condition has failed, if there is anything. -/
def ShadowsRest (t t' : ScopeTable Unit) (otherwise : Option (Ir.BlockId → LowerM Unit))
    (trail : Ir.BlockId → State → Trail Handle) (path : Trail Unit) : Prop :=
  match otherwise with
  | none => t' = t ∧ path = [] ∧ ∀ here st, trail here st = []
  | some act => ∀ here, Shadows t t' (act here) (trail here) path

theorem arm_shadows {join here : Ir.BlockId} {label : String} {cond : Expr} {body : List Stmt}
    {otherwise : Alternative} {within : State → Trail Handle}
    {rest : Ir.BlockId × Ir.BlockId → State → Trail Handle}
    (hcond : ∀ u : ScopeTable Handle, t.Mirrors u → cond.TypedIn u)
    (hbody : Shadows t t₁ (inScope s (stmts body)) (fun st => within st.enter) ys)
    (hother : ShadowsRest t₁ t₂ (alternative s join otherwise) (fun no => rest (join, no)) zs) :
    Shadows t t₂ (arm join label cond (inScope s (stmts body)) (alternative s join otherwise))
      (walker.armTrail p s label cond body otherwise within rest (join, here))
      (cond.trail (0 :: p) t ++ (ys ++ zs)) := by
  refine Shadows.prepend (fun _ hst => .expr hst rfl) (Shadows.after
    (.ofConsults fun u hu => openArm_consults (hcond u hu).not_naming) fun no => hbody.bind fun _ =>
    Shadows.after (.ofConsults fun _ _ => .terminate) fun _ => ?_)
  cases hnone : alternative s join otherwise with
  | none =>
    rw [hnone] at hother
    obtain ⟨rfl, rfl, hrest⟩ := hother
    refine .ofFollows (.ofConsults (P := fun _ => True) fun _ _ => .pure trivial) fun st _ => ?_
    have hnil : rest (join, no) st = [] := hrest no st
    show Matched (rest (join, no) st) []
    rw [hnil]
    exact .nil
  | some act =>
    rw [hnone] at hother
    exact hother no

theorem if_shadows {cond : Expr} {body : List Stmt} {otherwise : Alternative}
    (hcond : ∀ u : ScopeTable Handle, t.Mirrors u → cond.TypedIn u)
    (hbody : Shadows t t₁ (inScope s (stmts body))
      (fun st => walker.stmtsTrail (1 :: p) 0 body st.enter) ys)
    (hother : ∀ join, ShadowsRest t₁ t₂ (alternative s join otherwise)
      (fun no => walker.alternativeTrail (2 :: p) s otherwise (join, no)) zs) :
    Shadows t t₂ (stmt (.if_ cond body otherwise s))
      (walker.stmtTrail p (.if_ cond body otherwise s))
      ((p, t) :: (cond.trail (0 :: p) t ++ (ys ++ zs))) := by
  have harm : ∀ join, Shadows t t₂
      (do arm join "if.then" cond (inScope s (stmts body)) (alternative s join otherwise)
          startBlock join "if.end")
      (walker.armTrail p s "if.then" cond body otherwise (walker.stmtsTrail (1 :: p) 0 body)
        (walker.alternativeTrail (2 :: p) s otherwise) (join, join))
      (cond.trail (0 :: p) t ++ (ys ++ zs)) := fun join =>
    (arm_shadows hcond hbody (hother join)).before fun _ => .ofConsults fun _ _ => .startBlock
  have hrest := Shadows.after (.ofConsults fun _ _ => openIf_consults) harm
  intro st hst
  unfold stmt Walker.stmtTrail
  exact hrest.point p st hst

/-- A condition that was checked. -/
theorem checked_typed (h : Check.expr t e = .ok ()) (u : ScopeTable Handle) (hu : t.Mirrors u) :
    e.TypedIn u :=
  ⟨t, hu.agrees, h⟩

theorem takes_typed (he : Check.expr t e = .ok ()) (h : Check.Takes t ty e e' ws)
    (u : ScopeTable Handle) (hu : t.Mirrors u) : e'.TypedIn u :=
  checked_typed (Check.expr_coerced h.coerced he) u hu

theorem optional_typed {e e' : Option Expr} (h : Check.TakesIf t ty e e' ws) (u : ScopeTable Handle)
    (hu : t.Mirrors u) : ∀ a ∈ e', a.TypedIn u := by
  cases h with
  | none => simp
  | some he h =>
    rintro _ ⟨⟩
    exact takes_typed he h u hu

theorem optional_matched {e e' : Option Expr} (h : Check.TakesIf t ty e e' ws)
    {u : ScopeTable Handle}
    (hu : t.Mirrors u) (p : Path) : Matched (optionalTrail p u e') (optionalTrail p t e) := by
  cases h with
  | none => exact .nil
  | some _ h => exact .expr hu (paths_coerced h.coerced p)

/-- What cannot be lowered is as far as the walk gets. -/
theorem unsupported_shadows {what : Unsupported} (h : what ≠ .illTyped) (p : Path)
    (ys : Trail Unit) :
    Shadows t t₁ (unsupported s what : LowerM Unit) (fun st => [(p, st.names)]) ((p, t) :: ys) := by
  intro st hst
  refine ⟨?_, [(p, t)], ⟨ys, rfl⟩, .point hst p⟩
  cases what <;> first | rfl | exact absurd rfl h

/-- Lowering what was checked keeps in step with the check. -/
def Follow (cst cst' : Check.State) : Check.Change → Prop
  | .stmt s r => ∀ p,
    Shadows cst.names cst'.names (stmt r) (walker.stmtTrail p r)
      (Check.walker.stmtTrail p s cst)
  | .alternative a r => ∀ p s join, ShadowsRest cst.names cst'.names (alternative s join r)
      (fun here => walker.alternativeTrail p s r (join, here))
      (Check.walker.alternativeTrail p s a () cst)
  | .stmts ss rs => ∀ p k,
    Shadows cst.names cst'.names (stmts rs) (walker.stmtsTrail p k rs) (Check.stmtsTrail p k ss cst)
  | .body ss rs => ∀ p s, Shadows cst.names cst'.names (inScope s (stmts rs))
      (fun st => walker.stmtsTrail p 0 rs { st with names := st.names.enter })
      (Check.stmtsTrail p 0 ss { cst with names := cst.names.enter })

theorem passes_follow {c : Check.Change} {cst cst' : Check.State} (h : Check.Passes cst c cst') :
    Follow cst cst' c := by
  induction h with
  | varDef _ _ _ htakes =>
    exact fun p => Shadows.point (.ofFollows (variable_follows (optional_typed htakes))
      fun _ hst => optional_matched htakes hst (0 :: p)) p
  | structDef _ _ hleave => exact fun p => (Shadows.silent (struct_follows hleave)).point p
  | fnDef hnew hret hparams _ hleave ih =>
    intro p
    obtain ⟨hsig, hps⟩ := Check.inside_runs hnew hret hparams
    unfold Walker.stmtTrail
    rw [Check.walker_inside hsig hps]
    exact fnDef_shadows (ih (0 :: p) 0) hleave
  | fnDecl _ _ _ hleave => exact fun p => (Shadows.silent (fnDecl_follows hleave)).point p
  | varSet hb he htakes =>
    intro p
    have hfollows : Follows _ _ (assign _ _) :=
      .ofConsults fun u hu => assign_consults (takes_typed he htakes u hu).not_naming
        (checked_typed (Check.ident_checked hb) u hu).not_naming
    exact Shadows.point (.ofFollows hfollows
      fun _ hst => .expr hst (paths_coerced htakes.coerced (0 :: p))) p
  | memberSet ht _ he htakes =>
    intro p
    have hfollows : Follows _ _ (assignMember _ _) :=
      .ofConsults fun u hu => assignMember_consults (checked_typed ht u hu).not_naming
        (takes_typed he htakes u hu).not_naming
    exact Shadows.point (.ofFollows hfollows fun _ hst => List.rel_append (Matched.expr hst rfl)
      (Matched.expr hst (paths_coerced htakes.coerced (1 :: p)))) p
  | expr he =>
    exact fun p => Shadows.point (.ofFollows (.ofConsults fun u hu => effect_consults
      (checked_typed he u hu).not_naming) fun _ hst => .expr hst rfl) p
  | return_ _ _ htakes =>
    exact fun p => Shadows.point (.ofFollows (.ofConsults fun u hu => return_consults
      fun a ha => (optional_typed htakes u hu a ha).not_naming)
        fun _ hst => optional_matched htakes hst (0 :: p)) p
  | break_ | for_ => exact fun p => unsupported_shadows (by decide) p _
  | if_ hcond hbody _ ih ih' =>
    intro p
    unfold Walker.stmtTrail
    rw [Check.walker_openIf, Check.walker_armTrail (hbody.run _)]
    exact if_shadows (checked_typed hcond) (ih (1 :: p) _) (ih' (2 :: p) _)
  | block _ ih => exact fun p => (ih (0 :: p) _).point p
  | none => exact fun _ _ _ => ⟨rfl, rfl, fun _ _ => rfl⟩
  | else_ _ ih =>
    intro p s join here
    exact Shadows.after (.ofConsults fun _ _ => .startBlock) fun _ => (ih (0 :: p) s).before
      fun _ => .ofConsults fun _ _ => .terminate
  | elif hcond hbody _ ih ih' =>
    intro p s join
    unfold Walker.alternativeTrail
    rw [Check.walker_resume, Check.walker_armTrail (hbody.run _)]
    intro here
    exact Shadows.after (.ofConsults fun _ _ => .startBlock) fun _ =>
      arm_shadows (checked_typed hcond) (ih (1 :: p) s) (ih' (2 :: p) s join)
  | nil =>
    exact fun _ _ =>
      .ofFollows (.ofConsults (P := fun _ => True) fun _ _ => .pure trivial) fun _ _ => .nil
  | cons hfirst _ ih ih' =>
    intro p k
    unfold Walker.stmtsTrail
    rw [Check.walker_before, Check.walker_past hfirst.run]
    exact Shadows.after (.ofConsults fun _ _ => reopen_consults) fun _ =>
      (ih (k :: p)).bind fun _ => ih' p (k + 1)
  | body _ hleave ih => exact fun p s => (ih p 0).inScope hleave

theorem topLevel_shadows (ss : List Stmt) (cst cst' : Check.State) (ss' : List Stmt)
    (hrun : Runs (Check.stmts ss) cst ss' cst') (k : Nat) :
    Shadows cst.names cst'.names (topLevel ss') (topLevelTrail k ss')
      (Check.stmtsTrail [] k ss cst) := by
  have hpasses := Check.stmts_passes ss hrun
  induction ss generalizing cst ss' k with
  | nil =>
    cases hpasses
    exact .ofFollows (.ofConsults (P := fun _ => True) fun _ _ => .pure trivial) fun _ _ => .nil
  | cons s ss ih =>
    cases hpasses with
    | cons hs hss =>
      unfold Walker.stmtsTrail
      rw [Check.walker_before, Check.walker_past hs.run]
      exact (passes_follow hs [k]).bind fun _ => ih _ _ hss.run (k + 1) hss

/-- Both walks start with the prelude. -/
theorem start_mirrors (name : String) :
    Check.State.start.names.Mirrors (State.start name).names := by
  have hstart : Check.State.start.names = ScopeTable.empty.addAll
      (prelude.map fun f => ⟨f.name, f.ty, f.attributes, none, ()⟩) := by
    rw [ScopeTable.addAll, List.foldl_map]
    rfl
  have hempty : (ScopeTable.empty : ScopeTable Unit).Mirrors
      (ScopeTable.empty : ScopeTable Handle) := by
    refine ⟨by decide, by decide, ?_⟩
    simp [ScopeTable.visible, ScopeTable.visibleFrom, ScopeTable.empty]
  rw [hstart, start_names]
  refine (Advance.addAll hempty ?_).mirrors
  rw [List.forall₂_map_left_iff, List.forall₂_map_right_iff, List.forall₂_same]
  exact fun _ _ => ⟨⟨rfl, rfl, rfl⟩, rfl, rfl⟩

end Statements

end Lowering

open Lowering in
/-- Lowering a program that was checked fails neither over a name nor over the type of an
expression. Point by point it goes where the check went, as far as it gets and all the way if it
succeeds; at each point the two tables agree on every name, on its type and on the members it leads
to. Within an expression the table stays as it is. -/
theorem Program.lower_resolves (p q : Program) (ws : List (Located Warning)) (name : String)
    (h : p.check = .ok (q, ws)) :
    (∀ e, q.lower name = .error e → e.value.isNaming = false) ∧
    Along (topLevelTrail 0 q (.start name)) (Check.stmtsTrail [] 0 p .start) ∧
    (∀ m, q.lower name = .ok m →
      Matched (topLevelTrail 0 q (.start name)) (Check.stmtsTrail [] 0 p .start)) ∧
    ∀ (e : Expr) (st : State), (outcome (value e) st).2.names = st.names := by
  obtain ⟨cst, hrun⟩ := Program.check_inv h
  have htracks := topLevel_shadows p .start cst q hrun 0 (.start name) (start_mirrors name)
  refine ⟨fun e he => ?_, htracks.along, fun m hm => ?_, fun e st => ?_⟩
  · unfold Program.lower at he
    split at he
    · rename_i hout
      obtain rfl := Except.error.inj he
      exact htracks.safe.error hout
    · simp at he
  · unfold Program.lower at hm
    split at hm
    · simp at hm
    · rename_i hout
      exact htracks.matched hout
  · have hvalue : Consults (fun _ => True) st.names (value e) fun _ => True :=
      value_consults e fun _ _ => trivial
    exact (hvalue st rfl).1

/-- A program whose scopes the two walks number differently: only the check opens one for the
parameters of a function without a body. A literal is retyped, and members are read. -/
def norm : Program :=
  let s : Span := ⟨0, 0, .start⟩
  let v : Ident := ⟨"v", s⟩
  let member (field : String) : Expr := .member (.ident v) ⟨field, s⟩ false s
  [.fnDecl ⟨⟨"sqrt", s⟩, .i32, [⟨v, .i32⟩], false⟩ s,
    .structDef ⟨"Vec", s⟩ [⟨⟨"x", s⟩, .i32⟩, ⟨⟨"y", s⟩, .i32⟩] s,
    .fnDef ⟨⟨"norm", s⟩, .i32, [⟨v, .inst "Vec" 0⟩], false⟩
      [.varDef ⟨"scale", s⟩ .f32 (some (.literal (.int 2) .i32 s)) s,
        .return_ (some (.binary .add (member "x") (member "y") s)) s] s]

open Lowering in
theorem Program.lower_norm_resolves : ∃ q ws, norm.check = .ok (q, ws) ∧
    (∀ e, q.lower "norm" = .error e → e.value.isNaming = false) ∧
    Along (topLevelTrail 0 q (.start "norm")) (Check.stmtsTrail [] 0 norm .start) ∧
    (∀ m, q.lower "norm" = .ok m →
      Matched (topLevelTrail 0 q (.start "norm")) (Check.stmtsTrail [] 0 norm .start)) ∧
    ∀ (e : Expr) (st : State), (outcome (value e) st).2.names = st.names := by
  have hrun : norm.check.toOption.isSome = true := by decide +kernel
  cases h : norm.check with
  | error e => simp [h, Except.toOption] at hrun
  | ok r => exact ⟨r.1, r.2, rfl, lower_resolves norm r.1 r.2 "norm" h⟩

end Frontend
