import Frontend.Proofs.Balance
import Frontend.Proofs.Checking
import Frontend.Proofs.Pipeline
import Frontend.Proofs.Readers

/-!
The walks restore what they find. Whatever comes of a statement, after it is checked or lowered the
current scope, the return type and the functions under construction are what they were; no scope has
changed but the current one, by names that are bound there; and warnings, functions and structs were
only added. Who reads a statement ends in the scope where it began.
-/
namespace Frontend

open ScopeTable (Entering Extends)

namespace Check

/-- What a step may do to the state. -/
structure Restores (st st' : State) : Prop where
  names : ∃ new, st.names.Extends st'.names new
  returns : st'.returns = st.returns
  warnings : st.warnings <+: st'.warnings

theorem Restores.refl (st : State) : Restores st st := ⟨⟨[], .refl _⟩, rfl, List.prefix_rfl⟩

theorem Restores.trans {st st₁ st' : State} (h : Restores st st₁) (h' : Restores st₁ st') :
    Restores st st' := by
  obtain ⟨new, hnames⟩ := h.names
  obtain ⟨new', hnames'⟩ := h'.names
  exact ⟨⟨new' ++ new, hnames.trans hnames'⟩, h'.returns.trans h.returns,
    h.warnings.trans h'.warnings⟩

/-- From every state, whatever comes of it. -/
def Restoring (act : CheckM α) : Prop := ∀ st, Restores st (outcome act st).2

namespace Restoring

variable {act : CheckM α}

theorem pure {a : α} : Restoring (pure a) := .refl

theorem fail {s : Span} {e : CheckError} : Restoring (fail s e : CheckM α) := .refl

theorem ofExcept {r : Except (Located CheckError) α} :
    Restoring (MonadExcept.ofExcept r : CheckM α) := by
  intro st
  rw [outcome_ofExcept]
  exact .refl st

theorem bind {f : α → CheckM β} (h : Restoring act) (hf : ∀ a, Restoring (f a)) :
    Restoring (act >>= f) := by
  intro st
  have hact := h st
  rw [outcome_bind]
  generalize outcome act st = r at hact
  obtain ⟨r, st₁⟩ := r
  cases r with
  | error e => exact hact
  | ok a => exact hact.trans (hf a st₁)

theorem get_bind {f : State → CheckM α} (h : ∀ st, Restoring (f st)) : Restoring (get >>= f) :=
  fun st => h st st

theorem declare (b : Binding Unit) : Restoring (declare b) :=
  fun st => { Restores.refl st with names := ⟨[b], .add _ b⟩ }

theorem warn (ws : List (Located Warning)) :
    Restoring (modify fun st => { st with warnings := st.warnings ++ ws }) :=
  fun st => { Restores.refl st with warnings := List.prefix_append _ _ }

theorem forM {f : α → CheckM PUnit} (hf : ∀ a, Restoring (f a)) (as : List α) :
    Restoring (as.forM f) := by
  induction as with
  | nil => exact .pure
  | cons a as ih => exact .bind (hf a) fun _ => ih

theorem within {enter : ScopeTable Unit → ScopeTable Unit} (henter : Entering enter) (s : Span)
    (h : Restoring act) : Restoring (within s enter act) := by
  intro st
  have hact := h { st with names := enter st.names }
  rw [outcome_within]
  generalize outcome act { st with names := enter st.names } = r at hact
  obtain ⟨r, st₁⟩ := r
  obtain ⟨inner, hinner⟩ := hact.names
  obtain ⟨outer, new, hleave, houter⟩ := henter.closes hinner
  simp only [hleave]
  exact ⟨⟨new, houter⟩, hact.returns, hact.warnings⟩

theorem inScope (s : Span) (h : Restoring act) : Restoring (inScope s act) := within .enter s h

/-- The return type of the function around is put back. -/
theorem returning (ty : Ty) (h : Restoring act) : Restoring (returning ty act) := by
  intro st
  have hact := h { st with returns := some ty }
  exact ⟨hact.names, rfl, hact.warnings⟩

theorem checkExpr (e : Expr) : Restoring (checkExpr e) := .get_bind fun _ => .ofExcept

theorem typeOf (e : Expr) : Restoring (typeOf e) := .get_bind fun _ => .ofExcept

theorem undeclared (name : Ident) : Restoring (undeclared name) := by
  refine .get_bind fun st => ?_
  split
  · exact .fail
  · exact .pure

theorem knownType (ty : Ty) (s : Span) : Restoring (knownType ty s) := by
  unfold Check.knownType
  split
  · refine .get_bind fun st => ?_
    split
    · exact .pure
    · exact .fail
  · exact .pure

theorem coerce (expected : Ty) (e : Expr) (mismatch : Ty → Ty → CheckError) :
    Restoring (coerce expected e mismatch) := by
  refine .bind (.typeOf e) fun actual => ?_
  split
  · exact .pure
  split
  · split
    · exact .bind (.warn _) fun _ => .pure
    · exact .pure
  · exact .fail

theorem declareParam (p : Param) : Restoring (declareParam p) :=
  .bind (.undeclared _) fun _ => .bind (.knownType _ _) fun _ => .declare _

theorem initializer (name : Ident) (ty : Ty) (init : Option Expr) :
    Restoring (initializer name ty init) := by
  cases init with
  | none => exact .pure
  | some e =>
    refine .bind (.checkExpr e) fun _ => .bind (.typeOf e) fun actual => ?_
    split
    · exact .bind .fail fun _ => .bind (.coerce _ _ _) fun _ => .pure
    · exact .bind (.coerce _ _ _) fun _ => .pure

theorem returned (s : Span) (value : Option Expr) : Restoring (returned s value) := by
  refine .get_bind fun st => ?_
  split
  · exact .fail
  · split
    · exact .pure
    · exact .fail
  · refine .bind (.checkExpr _) fun _ => ?_
    split
    · exact .bind (.typeOf _) fun _ => .bind .fail fun _ => .bind (.coerce _ _ _) fun _ => .pure
    · exact .bind (.coerce _ _ _) fun _ => .pure

theorem signature (sig : Signature) (isExternal : Bool) : Restoring (signature sig isExternal) :=
  .bind (.undeclared _) fun _ => .bind (.knownType _ _) fun _ => .declare _

end Restoring

mutual

theorem stmt_restoring (s : Stmt) : Restoring (stmt s) := by
  match s with
  | .varDef name ty init s =>
    unfold stmt
    refine .bind (.undeclared _) fun _ => .bind (.knownType _ _) fun _ => ?_
    exact .bind (.initializer _ _ _) fun _ => .bind (.declare _) fun _ => .pure
  | .structDef name members s =>
    unfold stmt
    refine .bind (.undeclared _) fun _ => .get_bind fun st => ?_
    refine .bind (.within (.enterMarked _ _) s (.forM .declareParam members)) fun _ => ?_
    exact .bind (.declare _) fun _ => .pure
  | .fnDef sig body s =>
    unfold stmt
    refine .bind (.signature _ _) fun _ => .bind (.returning _ (.inScope s ?_)) fun _ => .pure
    exact .bind (.forM .declareParam _) fun _ => stmts_restoring body
  | .fnDecl sig s =>
    unfold stmt
    refine .bind (.signature _ _) fun _ => ?_
    exact .bind (.inScope s (.forM .declareParam _)) fun _ => .pure
  | .varSet target value s =>
    unfold stmt
    refine .get_bind fun st => ?_
    split
    · exact .fail
    · exact .bind (.checkExpr _) fun _ => .bind (.coerce _ _ _) fun _ => .pure
  | .memberSet target value s =>
    unfold stmt
    refine .bind (.checkExpr _) fun _ => .bind (.typeOf _) fun _ => .bind (.checkExpr _) fun _ => ?_
    exact .bind (.coerce _ _ _) fun _ => .pure
  | .expr e s =>
    unfold stmt
    exact .bind (.checkExpr _) fun _ => .pure
  | .return_ value s =>
    unfold stmt
    exact .bind (.returned _ _) fun _ => .pure
  | .break_ s =>
    unfold stmt
    exact .pure
  | .for_ cond body s =>
    unfold stmt
    refine .bind (.checkExpr _) fun _ => ?_
    exact .bind (.inScope s (stmts_restoring body)) fun _ => .pure
  | .if_ cond body otherwise s =>
    unfold stmt
    refine .bind (.checkExpr _) fun _ => .bind (.inScope s (stmts_restoring body)) fun _ => ?_
    exact .bind (alternative_restoring s otherwise) fun _ => .pure
  | .block body s =>
    unfold stmt
    exact .bind (.inScope s (stmts_restoring body)) fun _ => .pure

theorem alternative_restoring (s : Span) (a : Alternative) : Restoring (alternative s a) := by
  match a with
  | .none =>
    unfold alternative
    exact .pure
  | .else_ body =>
    unfold alternative
    exact .bind (.inScope s (stmts_restoring body)) fun _ => .pure
  | .elif cond body otherwise =>
    unfold alternative
    refine .bind (.checkExpr _) fun _ => .bind (.inScope s (stmts_restoring body)) fun _ => ?_
    exact .bind (alternative_restoring s otherwise) fun _ => .pure

theorem stmts_restoring (ss : List Stmt) : Restoring (stmts ss) := by
  match ss with
  | [] =>
    unfold stmts
    exact .pure
  | s :: ss =>
    unfold stmts
    exact .bind (stmt_restoring s) fun _ => .bind (stmts_restoring ss) fun _ => .pure

end

end Check

/-- After a statement was checked or lowered, whether that succeeds or fails, and from whatever
state, the walk is where it was: all that it leaves is names in the current scope, closed scopes,
warnings, structs, functions, and code in the function at hand. After a statement was read the
current scope is the one before. -/
theorem walks_restore :
    (∀ (s : Stmt) (st : Check.State), Check.Restores st (outcome (Check.stmt s) st).2) ∧
      (∀ (s : Stmt) (st : Lowering.State), Lowering.Restores st (outcome (Lowering.stmt s) st).2) ∧
      ∀ (env : Grammar.Env) (ts : List Token) (r : Grammar.Step ts.length (Stmt × Grammar.Names)),
        Grammar.stmt env ts = .ok r → r.value.2.current = env.scopes.current := by
  refine ⟨Check.stmt_restoring, Lowering.composed_restores.stmt, fun env ts r hr => ?_⟩
  exact ((Grammar.stmt_meets env ts).of_eq_ok hr).grows.current

/-- A function with a name that is declared twice and a `break` outside of a loop, both in a scope
of their own: it can be read, and neither checked nor lowered. -/
def brokenText : String :=
  "f : fn i32 (a: i32) \x7b P : struct \x7b n: i32; \x7d " ++
  "if a \x7b x : i8 = 1; break; x := 2.5; \x7d return a; \x7d"

theorem walks_restore_brokenText :
    ∃ ts, tokenize brokenText = .ok ts ∧ ∃ r,
      Grammar.stmt ⟨Text.endSpan brokenText, .start⟩ ts = .ok r ∧
      r.value.2.current = ScopeTable.start.current (V := Unit) ∧
      (outcome (Check.stmt r.value.1) .start).1.isOk = false ∧
      Check.Restores .start (outcome (Check.stmt r.value.1) .start).2 ∧
      (outcome (Lowering.stmt r.value.1) (.start "main")).1.isOk = false ∧
      Lowering.Restores (.start "main") (outcome (Lowering.stmt r.value.1) (.start "main")).2 := by
  have hrun : ((tokenize brokenText).toOption.any fun ts =>
      (Grammar.stmt ⟨Text.endSpan brokenText, .start⟩ ts).toOption.any fun r =>
        !(outcome (Check.stmt r.value.1) .start).1.isOk &&
          !(outcome (Lowering.stmt r.value.1) (.start "main")).1.isOk) = true := by
    decide +kernel
  obtain ⟨ts, hscan, hrun⟩ := (Option.any_eq_true _ _).mp hrun
  obtain ⟨r, hread, hrun⟩ := (Option.any_eq_true _ _).mp hrun
  simp only [Bool.and_eq_true, Bool.not_eq_true'] at hrun
  have hread := toOption_eq_some.mp hread
  obtain ⟨hcheck, hlower, hparse⟩ := walks_restore
  exact ⟨ts, toOption_eq_some.mp hscan, r, hread, hparse _ ts r hread, hrun.1, hcheck _ _,
    hrun.2, hlower _ _⟩

end Frontend
