import Frontend.Tree

/-!
Laws for trees. A law says what literals may stand in a tree, which functions may be declared, what
types other names may be given, and where a value may be returned; a tree obeys it if all its parts
do.
-/
namespace Frontend

structure Law where
  literal : Value → Ty → Prop
  function : Signature → Prop
  /-- The type of a member, or of a variable without a value. -/
  type : Ty → Prop
  /-- The return type of the function around, and whether a value is returned. -/
  returns : Ty → Bool → Prop

mutual

/-- Every literal of the expression is as `lit` has it. -/
def Expr.Obeys (lit : Value → Ty → Prop) : Expr → Prop
  | .literal v ty _ => lit v ty
  | .ident _ => True
  | .paren e _ | .unary _ e _ | .cast e _ _ | .member e _ _ _ => e.Obeys lit
  | .binary _ l r _ => l.Obeys lit ∧ r.Obeys lit
  | .call callee args _ => callee.Obeys lit ∧ Expr.AllObey lit args

def Expr.AllObey (lit : Value → Ty → Prop) : List Expr → Prop
  | [] => True
  | e :: es => e.Obeys lit ∧ Expr.AllObey lit es

end

mutual

/-- The statement, in a function that returns `ret`, obeys the law. -/
def Stmt.Obeys (L : Law) (ret : Ty) : Stmt → Prop
  | .varDef _ ty init _ => (init = none → L.type ty) ∧ ∀ e ∈ init, e.Obeys L.literal
  | .structDef _ members _ => ∀ m ∈ members, L.type m.ty
  | .fnDecl sig _ => L.function sig
  | .break_ _ => True
  | .fnDef sig body _ => L.function sig ∧ Stmt.AllObey L sig.ret body
  | .varSet _ e _ | .expr e _ => e.Obeys L.literal
  | .memberSet target e _ => target.Obeys L.literal ∧ e.Obeys L.literal
  | .return_ e _ => L.returns ret e.isSome ∧ ∀ e' ∈ e, e'.Obeys L.literal
  | .for_ cond body _ => cond.Obeys L.literal ∧ Stmt.AllObey L ret body
  | .if_ cond body otherwise _ =>
    cond.Obeys L.literal ∧ Stmt.AllObey L ret body ∧ otherwise.Obeys L ret
  | .block body _ => Stmt.AllObey L ret body

def Alternative.Obeys (L : Law) (ret : Ty) : Alternative → Prop
  | .none => True
  | .else_ body => Stmt.AllObey L ret body
  | .elif cond body otherwise =>
    cond.Obeys L.literal ∧ Stmt.AllObey L ret body ∧ otherwise.Obeys L ret

def Stmt.AllObey (L : Law) (ret : Ty) : List Stmt → Prop
  | [] => True
  | s :: ss => s.Obeys L ret ∧ Stmt.AllObey L ret ss

end

/-- A law that asks for no more. -/
structure Law.Le (L L' : Law) : Prop where
  literal : ∀ v ty, L.literal v ty → L'.literal v ty
  function : ∀ sig, L.function sig → L'.function sig
  type : ∀ ty, L.type ty → L'.type ty
  returns : ∀ ret valued, L.returns ret valued → L'.returns ret valued

mutual

theorem Expr.Obeys.mono {lit lit' : Value → Ty → Prop} (hl : ∀ v ty, lit v ty → lit' v ty)
    (e : Expr) (h : e.Obeys lit) : e.Obeys lit' := by
  cases e with
  | literal v ty s => exact hl v ty h
  | ident id => trivial
  | paren inner s => exact Expr.Obeys.mono hl inner h
  | unary op operand s => exact Expr.Obeys.mono hl operand h
  | binary op lhs rhs s => exact ⟨Expr.Obeys.mono hl lhs h.1, Expr.Obeys.mono hl rhs h.2⟩
  | cast operand ty s => exact Expr.Obeys.mono hl operand h
  | call callee args s => exact ⟨Expr.Obeys.mono hl callee h.1, Expr.AllObey.mono hl args h.2⟩
  | member object field arrow s => exact Expr.Obeys.mono hl object h

theorem Expr.AllObey.mono {lit lit' : Value → Ty → Prop} (hl : ∀ v ty, lit v ty → lit' v ty)
    (es : List Expr) (h : Expr.AllObey lit es) : Expr.AllObey lit' es := by
  cases es with
  | nil => trivial
  | cons e es => exact ⟨Expr.Obeys.mono hl e h.1, Expr.AllObey.mono hl es h.2⟩

end

mutual

theorem Stmt.Obeys.mono {L L' : Law} (hL : L.Le L') (s : Stmt) (ret : Ty) (h : s.Obeys L ret) :
    s.Obeys L' ret := by
  cases s with
  | varDef name ty init s =>
    exact ⟨fun hinit => hL.type ty (h.1 hinit), fun e he => Expr.Obeys.mono hL.literal e (h.2 e he)⟩
  | structDef name members s => exact fun m hm => hL.type m.ty (h m hm)
  | fnDef sig body s => exact ⟨hL.function sig h.1, Stmt.AllObey.mono hL body sig.ret h.2⟩
  | fnDecl sig s => exact hL.function sig h
  | varSet target e s => exact Expr.Obeys.mono hL.literal e h
  | memberSet target e s =>
    exact ⟨Expr.Obeys.mono hL.literal target h.1, Expr.Obeys.mono hL.literal e h.2⟩
  | expr e s => exact Expr.Obeys.mono hL.literal e h
  | return_ e s =>
    exact ⟨hL.returns ret _ h.1, fun e' he => Expr.Obeys.mono hL.literal e' (h.2 e' he)⟩
  | break_ s => trivial
  | for_ cond body s =>
    exact ⟨Expr.Obeys.mono hL.literal cond h.1, Stmt.AllObey.mono hL body ret h.2⟩
  | if_ cond body otherwise s =>
    exact ⟨Expr.Obeys.mono hL.literal cond h.1, Stmt.AllObey.mono hL body ret h.2.1,
      Alternative.Obeys.mono hL otherwise ret h.2.2⟩
  | block body s => exact Stmt.AllObey.mono hL body ret h

theorem Alternative.Obeys.mono {L L' : Law} (hL : L.Le L') (a : Alternative) (ret : Ty)
    (h : a.Obeys L ret) : a.Obeys L' ret := by
  cases a with
  | none => trivial
  | else_ body => exact Stmt.AllObey.mono hL body ret h
  | elif cond body otherwise =>
    exact ⟨Expr.Obeys.mono hL.literal cond h.1, Stmt.AllObey.mono hL body ret h.2.1,
      Alternative.Obeys.mono hL otherwise ret h.2.2⟩

theorem Stmt.AllObey.mono {L L' : Law} (hL : L.Le L') (ss : List Stmt) (ret : Ty)
    (h : Stmt.AllObey L ret ss) : Stmt.AllObey L' ret ss := by
  cases ss with
  | nil => trivial
  | cons s ss => exact ⟨Stmt.Obeys.mono hL s ret h.1, Stmt.AllObey.mono hL ss ret h.2⟩

end

/-- The law that every tree obeys. -/
def Law.none : Law := ⟨fun _ _ => True, fun _ => True, fun _ => True, fun _ _ => True⟩

mutual

theorem Expr.obeys_true (e : Expr) : e.Obeys fun _ _ => True := by
  cases e with
  | literal v ty s => trivial
  | ident id => trivial
  | paren inner s => exact inner.obeys_true
  | unary op operand s => exact operand.obeys_true
  | binary op lhs rhs s => exact ⟨lhs.obeys_true, rhs.obeys_true⟩
  | cast operand ty s => exact operand.obeys_true
  | call callee args s => exact ⟨callee.obeys_true, Expr.allObey_true args⟩
  | member object field arrow s => exact object.obeys_true

theorem Expr.allObey_true (es : List Expr) : Expr.AllObey (fun _ _ => True) es := by
  cases es with
  | nil => trivial
  | cons e es => exact ⟨e.obeys_true, Expr.allObey_true es⟩

end

mutual

theorem Stmt.obeys_none (s : Stmt) (ret : Ty) : s.Obeys .none ret := by
  cases s with
  | varDef name ty init s => exact ⟨fun _ => trivial, fun e _ => e.obeys_true⟩
  | structDef name members s => exact fun _ _ => trivial
  | fnDef sig body s => exact ⟨trivial, Stmt.allObey_none body sig.ret⟩
  | fnDecl sig s => trivial
  | varSet target e s => exact e.obeys_true
  | memberSet target e s => exact ⟨target.obeys_true, e.obeys_true⟩
  | expr e s => exact e.obeys_true
  | return_ e s => exact ⟨trivial, fun e' _ => e'.obeys_true⟩
  | break_ s => trivial
  | for_ cond body s => exact ⟨cond.obeys_true, Stmt.allObey_none body ret⟩
  | if_ cond body otherwise s =>
    exact ⟨cond.obeys_true, Stmt.allObey_none body ret, otherwise.obeys_none ret⟩
  | block body s => exact Stmt.allObey_none body ret

theorem Alternative.obeys_none (a : Alternative) (ret : Ty) : a.Obeys .none ret := by
  cases a with
  | none => trivial
  | else_ body => exact Stmt.allObey_none body ret
  | elif cond body otherwise =>
    exact ⟨cond.obeys_true, Stmt.allObey_none body ret, otherwise.obeys_none ret⟩

theorem Stmt.allObey_none (ss : List Stmt) (ret : Ty) : Stmt.AllObey .none ret ss := by
  cases ss with
  | nil => trivial
  | cons s ss => exact ⟨s.obeys_none ret, Stmt.allObey_none ss ret⟩

end

end Frontend
