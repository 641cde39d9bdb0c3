import Frontend.Proofs.Declarations
import Frontend.Proofs.Obligations
import Frontend.Proofs.Pipeline

/-!
Checking a second time. A checked tree is the tree that was read but for literals that were retyped
where a value is stored or returned. There every value then has the very type that is asked for, so
that a second check finds nothing to convert and nothing to warn of.
-/
namespace Frontend

/-- The expression without the value and the type of the literal that it is, if it is one but for
parentheses and negations. -/
def Expr.blank : Expr → Expr
  | .literal _ _ s => .literal (.bool false) .void s
  | .paren inner s => .paren inner.blank s
  | .unary .neg operand s => .unary .neg operand.blank s
  | e => e

mutual

/-- The statement without the literals that are stored or returned in it. -/
def Stmt.blank : Stmt → Stmt
  | .varDef name ty init s => .varDef name ty (init.map Expr.blank) s
  | .varSet target value s => .varSet target value.blank s
  | .memberSet target value s => .memberSet target value.blank s
  | .return_ value s => .return_ (value.map Expr.blank) s
  | .fnDef sig body s => .fnDef sig (Stmt.blankAll body) s
  | .for_ cond body s => .for_ cond (Stmt.blankAll body) s
  | .if_ cond body otherwise s => .if_ cond (Stmt.blankAll body) otherwise.blank s
  | .block body s => .block (Stmt.blankAll body) s
  | .structDef name members s => .structDef name members s
  | .fnDecl sig s => .fnDecl sig s
  | .expr e s => .expr e s
  | .break_ s => .break_ s

def Alternative.blank : Alternative → Alternative
  | .none => .none
  | .else_ body => .else_ (Stmt.blankAll body)
  | .elif cond body otherwise => .elif cond (Stmt.blankAll body) otherwise.blank

def Stmt.blankAll : List Stmt → List Stmt
  | [] => []
  | s :: ss => s.blank :: Stmt.blankAll ss

end

mutual

/-- Every value that is stored has the very type of the place, and every value that is returned the
type that the function around returns. -/
def Stmt.Exact (returns : Option Ty) (v : Sight) : Stmt → Prop
  | .varDef _ ty init _ => ∀ e ∈ init, e.typeIn? v = some ty
  | .varSet target value _ =>
    ∃ ty, (Expr.ident target).typeIn? v = some ty ∧ value.typeIn? v = some ty
  | .memberSet target value _ => ∃ ty, target.typeIn? v = some ty ∧ value.typeIn? v = some ty
  | .return_ value _ => ∀ e ∈ value, ∃ ty, returns = some ty ∧ e.typeIn? v = some ty
  | .fnDef sig body _ => Stmt.AllExact (some sig.ret) (sig.inside v) body
  | .for_ _ body _ => Stmt.AllExact returns v body
  | .if_ _ body otherwise _ => Stmt.AllExact returns v body ∧ otherwise.Exact returns v
  | .block body _ => Stmt.AllExact returns v body
  | .structDef .. | .fnDecl .. | .expr .. | .break_ _ => True

def Alternative.Exact (returns : Option Ty) (v : Sight) : Alternative → Prop
  | .none => True
  | .else_ body => Stmt.AllExact returns v body
  | .elif _ body otherwise => Stmt.AllExact returns v body ∧ otherwise.Exact returns v

/-- Each statement sees what those before it declare. -/
def Stmt.AllExact (returns : Option Ty) (v : Sight) : List Stmt → Prop
  | [] => True
  | s :: ss => s.Exact returns v ∧ Stmt.AllExact returns (s.declares ++ v) ss

end

/-- Retyping a literal changes its value and its type and nothing else. -/
theorem Expr.blank_coerce? {ty : Ty} {e e' : Expr} (h : e.coerce? ty = some e') :
    e'.blank = e.blank := by
  fun_induction Expr.coerce? ty e generalizing e' with
  | case1 v s =>
    obtain rfl := Option.some.inj h
    rfl
  | case2 v ty₀ s hne hc =>
    obtain rfl := Option.some.inj h
    rfl
  | case3 => simp at h
  | case4 inner s ih | case5 inner s ih =>
    obtain ⟨inner', hinner, rfl⟩ := Option.map_eq_some_iff.mp h
    rw [blank, blank, ih hinner]
  | case6 => simp at h

theorem Ty.not_isVoid_of_compatible {s t : Ty} (h : s.compatible t) : s.isVoid = false := by
  cases hvoid : s.isVoid with
  | false => rfl
  | true =>
    have hbase : s.base = .prim .void := by simp_all [isVoid]
    simp [compatible, isNumeric, isInteger, isFloat, hbase, Base.isInteger, Base.isFloat] at h

namespace Check

variable {st st' : State} {t : ScopeTable Unit} {v : Sight} {ty : Ty} {e e' : Option Expr}
  {ws : List (Located Warning)}

/-- The state with other warnings. -/
def State.warned (st : State) (ws : List (Located Warning)) : State := { st with warnings := ws }

theorem State.warned_warn (st : State) (ws ws' : List (Located Warning)) :
    (st.warn ws).warned ws' = (st.warned ws').warn [] := by
  simp [warn, warned]

theorem Takes.blank {ty : Ty} {e e' : Expr} {ws : List (Located Warning)} (h : Takes t ty e e' ws) :
    e'.blank = e.blank := by
  cases h with
  | same _ => rfl
  | retyped _ _ _ hc => exact Expr.blank_coerce? hc

theorem TakesIf.blank {ty : Ty} {e e' : Option Expr} {ws : List (Located Warning)}
    (h : TakesIf t ty e e' ws) : e'.map Expr.blank = e.map Expr.blank := by
  cases h with
  | none => rfl
  | some _ ht => exact congrArg Option.some ht.blank

theorem TakesIf.infer (h : TakesIf t ty e e' ws) :
    ∀ a ∈ e', expr t a = .ok () ∧ a.infer t = .ok ty := by
  cases h with
  | none => simp
  | some he ht =>
    intro a ha
    obtain rfl := Option.some.inj ha
    exact ⟨expr_coerced ht.coerced he, ht.infer⟩

/-- What is asked for is not void where the value is not: only numbers are converted. -/
theorem Takes.not_isVoid {e e' : Expr} (h : Takes t ty e e' ws) (hvoid : NotVoid t e) :
    ty.isVoid = false := by
  cases h with
  | same hsame => exact hvoid _ hsame
  | retyped _ _ hc _ => exact Ty.not_isVoid_of_compatible hc

/-- A value that has been taken is taken again as it is. -/
theorem TakesIf.again (h : TakesIf t ty e e' ws) : TakesIf t ty e' e' [] := by
  cases h with
  | none => exact .none
  | some he ht => exact .some (expr_coerced ht.coerced he) (.same ht.infer)

theorem TakesIf.notVoid (h : TakesIf t ty e e' ws) (hvoid : ∀ a ∈ e, NotVoid t a) :
    ∀ a ∈ e', NotVoid t a := by
  cases h with
  | none => exact nofun
  | some he ht =>
    rintro _ ⟨⟩ actual hactual
    rw [← Except.ok.inj (ht.infer.symm.trans hactual)]
    exact ht.not_isVoid (hvoid _ rfl)

/-- The part of the tree is as it was but for its literals. -/
def Change.Blank : Change → Prop
  | .stmt s r => r.blank = s.blank
  | .alternative a r => r.blank = a.blank
  | .stmts ss rs | .body ss rs => Stmt.blankAll rs = Stmt.blankAll ss

theorem Passes.blank {c : Change} (h : Passes st c st') : c.Blank := by
  induction h with simp only [Change.Blank, Stmt.blank, Stmt.blankAll, Alternative.blank] at *
  | varDef _ _ _ htakes | return_ _ _ htakes => rw [htakes.blank]
  | varSet _ _ htakes | memberSet _ _ _ htakes => rw [htakes.blank]
  | fnDef _ _ _ _ _ ih | for_ _ _ ih | block _ ih | else_ _ ih | body _ _ ih => rw [ih]
  | if_ _ _ _ ih ih' | elif _ _ _ ih ih' | cons _ _ ih ih' => rw [ih, ih']

/-- Values of the part of the tree have the types that are asked for. -/
def Change.Exact (returns : Option Ty) (v : Sight) : Change → Prop
  | .stmt _ r => r.Exact returns v
  | .alternative _ r => r.Exact returns v
  | .stmts _ rs | .body _ rs => Stmt.AllExact returns v rs

theorem Passes.exact {c : Change} (h : Passes st c st') (hv : st.names.Shows v) :
    c.Exact st.returns v := by
  induction h generalizing v with
  | varDef _ _ _ htakes => exact fun e he => hv.infer_eq_ok.mp (htakes.infer e he).2
  | structDef | fnDecl | expr | break_ | none | nil => trivial
  | fnDef _ _ _ _ _ ih => exact ih (inside_shows _ hv)
  | varSet hb _ htakes =>
    obtain ⟨x, hx, hxb⟩ := hv.lookup hb
    refine ⟨_, ?_, hv.infer_eq_ok.mp htakes.infer⟩
    rw [Expr.typeIn?, hx, hxb.ty]
    rfl
  | memberSet _ hty _ htakes => exact ⟨_, hv.infer_eq_ok.mp hty, hv.infer_eq_ok.mp htakes.infer⟩
  | return_ hret _ htakes => exact fun e he => ⟨_, hret, hv.infer_eq_ok.mp (htakes.infer e he).2⟩
  | for_ _ _ ih | block _ ih | else_ _ ih => exact ih hv
  | if_ _ hbody _ ih ih' | elif _ hbody _ ih ih' =>
    exact ⟨ih hv, hbody.returns ▸ ih' (hv.gain (hbody.gains hv.inside))⟩
  | cons hfirst _ ih ih' =>
    refine ⟨ih hv, ?_⟩
    rw [hfirst.declares, ← hfirst.returns]
    exact ih' (hv.gain (hfirst.gains hv.inside))
  | body _ _ ih => exact ih hv.enter

/-- What the check makes of a part of a tree, to be checked again. -/
def Change.again : Change → Change
  | .stmt _ r => .stmt r r
  | .alternative _ r => .alternative r r
  | .stmts _ rs => .stmts rs rs
  | .body _ rs => .body rs rs

/-- Nothing is left to convert or to warn of, whatever has been warned of. -/
theorem Passes.again {c : Change} (h : Passes st c st') (ws : List (Located Warning)) :
    Passes (st.warned ws) c.again (st'.warned ws) := by
  induction h with unfold Change.again
  | varDef hnew hknown hvoid htakes =>
    simpa [State.warned, State.warn] using
      @varDef (State.warned _ ws) _ _ _ _ _ _ hnew hknown (htakes.notVoid hvoid) htakes.again
  | structDef hnew hmembers hleave => exact .structDef hnew hmembers hleave
  | fnDef hnew hret hparams _ hleave ih =>
    exact @fnDef (State.warned _ ws) _ _ _ _ _ _ hnew hret hparams ih hleave
  | fnDecl hnew hret hparams hleave => exact .fnDecl hnew hret hparams hleave
  | varSet hb he htakes =>
    rw [State.warned_warn]
    exact .varSet hb (expr_coerced htakes.coerced he) (.same htakes.infer)
  | memberSet ht hty he htakes =>
    rw [State.warned_warn]
    exact .memberSet ht hty (expr_coerced htakes.coerced he) (.same htakes.infer)
  | expr he => exact .expr he
  | return_ hret hsome htakes =>
    rw [State.warned_warn]
    exact .return_ hret hsome htakes.again
  | break_ => exact .break_
  | for_ hcond _ ih => exact .for_ hcond ih
  | if_ hcond _ _ ih ih' => exact .if_ hcond ih ih'
  | block _ ih => exact .block ih
  | none => exact .none
  | else_ _ ih => exact .else_ ih
  | elif hcond _ _ ih ih' => exact .elif hcond ih ih'
  | nil => exact .nil
  | cons _ _ ih ih' => exact .cons ih ih'
  | body _ hleave ih => exact @body (State.warned _ ws) _ _ _ _ ih hleave

theorem stmts_settled (ss : List Stmt) {rs : List Stmt} (hv : st.names.Shows v)
    (h : Runs (stmts ss) st rs st') : Stmt.blankAll rs = Stmt.blankAll ss ∧
      Stmt.AllExact st.returns v rs ∧ (∀ ws, Runs (stmts rs) (st.warned ws) rs (st'.warned ws)) ∧
      st'.returns = st.returns := by
  have hpasses := stmts_passes ss h
  exact ⟨hpasses.blank, hpasses.exact hv, fun ws => (hpasses.again ws).run, hpasses.returns⟩

end Check

/-- A checked program is the program but for literals that are stored or returned, bare or under
parentheses and negations. Every value stored or returned in it has the very type that is asked for,
and checking it again changes nothing and warns of nothing. -/
theorem check_idempotent (p q : Program) (ws : List (Located Warning)) (h : p.check = .ok (q, ws)) :
    Stmt.blankAll q = Stmt.blankAll p ∧ Stmt.AllExact none .start q ∧ q.check = .ok (q, []) := by
  unfold Program.check at h
  split at h
  · rename_i q' st hrun
    obtain ⟨rfl, rfl⟩ := Prod.mk.inj (Except.ok.inj h)
    obtain ⟨hblank, hexact, hagain, -⟩ := Check.stmts_settled p Check.start_shows hrun
    refine ⟨hblank, hexact, ?_⟩
    have hrun' : (Check.stmts q').run Check.State.start = (.ok q', st.warned []) := hagain []
    rw [Program.check, hrun']
    rfl
  · simp at h

/-- Literals of another type at every place where a value is stored or returned. -/
def retypedText : String :=
  "P : struct \x7b a: f32; \x7d\n" ++
  "f : fn i8 (p: P) \x7b\n" ++
  "  x : i64 = -(2.5);\n" ++
  "  x = 7.25;\n" ++
  "  p.a = 3;\n" ++
  "  if x < 1 \x7b return (-4.5); \x7d\n" ++
  "  return 5;\n" ++
  "\x7d\n"

theorem check_retypedText_idempotent : ∃ ts p q ws, Accepted retypedText ts p q ws ∧ ws.length = 2 ∧
    Stmt.blankAll q = Stmt.blankAll p ∧ Stmt.AllExact none .start q ∧ q.check = .ok (q, []) := by
  have hrun : surveyed retypedText (fun _ _ ws => some ws.length) = some 2 := by
    apply surveyed_of_chars
    · repeat apply append_ofList
      rfl
    · decide +kernel
  obtain ⟨ts, p, q, ws, haccepted, hws⟩ := surveyed_eq_some hrun
  exact ⟨ts, p, q, ws, haccepted, Option.some.inj hws, check_idempotent p q ws haccepted.check⟩

end Frontend
