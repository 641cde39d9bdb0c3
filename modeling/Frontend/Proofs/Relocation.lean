import Frontend.Check
import Frontend.Lowering.Basic
import Frontend.Proofs.Reading
import Mathlib.Tactic.Tauto

/-!
Moving the spans of a tree. No type of an expression depends on where the expression stands. A span
that every function keeps which keeps the spans of a tree is one of them, so that whatever commutes
with moving spans has none of its own.
-/
namespace Frontend

def Located.relocate (f : Span → Span) (x : Located α) : Located α := ⟨f x.span, x.value⟩

/-- What a step gives, with the spans moved: those of an error, and by `g` those of a result. -/
def relocated (f : Span → Span) (g : α → β) (r : Except (Located ε) α) : Except (Located ε) β :=
  (r.map g).mapError (·.relocate f)

@[simp] theorem relocated_ok (f : Span → Span) (g : α → β) (a : α) :
    relocated f g (.ok a : Except (Located ε) α) = .ok (g a) := rfl

@[simp] theorem relocated_error (f : Span → Span) (g : α → β) (e : Located ε) :
    relocated f g (.error e) = .error (e.relocate f) := rfl

theorem relocated_bind {f : Span → Span} {g : α → β} {g' : γ → δ} {x : Except (Located ε) α}
    {k : α → Except (Located ε) γ} {k' : β → Except (Located ε) δ}
    (hk : ∀ a, k' (g a) = relocated f g' (k a)) :
    (relocated f g x >>= k') = relocated f g' (x >>= k) := by
  cases x with
  | error e => rfl
  | ok a => exact hk a

/-- Where all spans may be moved to. -/
def Span.nowhere : Span := ⟨0, 0, .start⟩

/-- A span that is kept by every function that keeps those of a list is in the list. -/
theorem Span.mem_of_fixed {s : Span} {ss : List Span}
    (h : ∀ f : Span → Span, (∀ t ∈ ss, f t = t) → f s = s) : s ∈ ss := by
  by_contra hs
  have hmoved := h (fun t => if t = s then ⟨t.lo + 1, t.len, t.pos⟩ else t) fun t ht => by
    have hne : t ≠ s := fun heq => hs (heq ▸ ht)
    simp [hne]
  have hlo := congrArg Span.lo hmoved
  simp at hlo

section Trees

variable (f : Span → Span)

def Ident.relocate (id : Ident) : Ident := ⟨id.name, f id.span⟩

def Param.relocate (p : Param) : Param := ⟨p.name.relocate f, p.ty⟩

def Signature.relocate (sig : Signature) : Signature :=
  ⟨sig.name.relocate f, sig.ret, sig.params.map (·.relocate f), sig.variadic⟩

mutual

def Expr.relocate : Expr → Expr
  | .literal v ty s => .literal v ty (f s)
  | .ident id => .ident (id.relocate f)
  | .paren inner s => .paren inner.relocate (f s)
  | .unary op operand s => .unary op operand.relocate (f s)
  | .binary op lhs rhs s => .binary op lhs.relocate rhs.relocate (f s)
  | .cast operand ty s => .cast operand.relocate ty (f s)
  | .call callee args s => .call callee.relocate (Expr.relocateAll args) (f s)
  | .member object field arrow s => .member object.relocate (field.relocate f) arrow (f s)

def Expr.relocateAll : List Expr → List Expr
  | [] => []
  | e :: es => e.relocate :: Expr.relocateAll es

end

mutual

def Stmt.relocate : Stmt → Stmt
  | .varDef name ty init s => .varDef (name.relocate f) ty (init.map (·.relocate f)) (f s)
  | .structDef name members s =>
    .structDef (name.relocate f) (members.map (·.relocate f)) (f s)
  | .fnDef sig body s => .fnDef (sig.relocate f) (Stmt.relocateAll body) (f s)
  | .fnDecl sig s => .fnDecl (sig.relocate f) (f s)
  | .varSet target value s => .varSet (target.relocate f) (value.relocate f) (f s)
  | .memberSet target value s => .memberSet (target.relocate f) (value.relocate f) (f s)
  | .expr e s => .expr (e.relocate f) (f s)
  | .return_ value s => .return_ (value.map (·.relocate f)) (f s)
  | .break_ s => .break_ (f s)
  | .for_ cond body s => .for_ (cond.relocate f) (Stmt.relocateAll body) (f s)
  | .if_ cond body otherwise s =>
    .if_ (cond.relocate f) (Stmt.relocateAll body) otherwise.relocate (f s)
  | .block body s => .block (Stmt.relocateAll body) (f s)

def Alternative.relocate : Alternative → Alternative
  | .none => .none
  | .else_ body => .else_ (Stmt.relocateAll body)
  | .elif cond body otherwise =>
    .elif (cond.relocate f) (Stmt.relocateAll body) otherwise.relocate

def Stmt.relocateAll : List Stmt → List Stmt
  | [] => []
  | s :: ss => s.relocate :: Stmt.relocateAll ss

end

end Trees

mutual

/-- The spans of the nodes and names of an expression. -/
def Expr.spans : Expr → List Span
  | .literal _ _ s => [s]
  | .ident id => [id.span]
  | .paren inner s => s :: inner.spans
  | .unary _ operand s => s :: operand.spans
  | .binary _ lhs rhs s => s :: (lhs.spans ++ rhs.spans)
  | .cast operand _ s => s :: operand.spans
  | .call callee args s => s :: (callee.spans ++ Expr.allSpans args)
  | .member object field _ s => s :: (object.spans ++ [field.span])

def Expr.allSpans : List Expr → List Span
  | [] => []
  | e :: es => e.spans ++ Expr.allSpans es

end

def Signature.spans (sig : Signature) : List Span :=
  sig.name.span :: sig.params.map (·.name.span)

mutual

def Stmt.spans : Stmt → List Span
  | .varDef name _ init s => s :: name.span :: (init.map Expr.spans).getD []
  | .structDef name members s => s :: name.span :: members.map (·.name.span)
  | .fnDef sig body s => s :: (sig.spans ++ Stmt.allSpans body)
  | .fnDecl sig s => s :: sig.spans
  | .varSet target value s => s :: target.span :: value.spans
  | .memberSet target value s => s :: (target.spans ++ value.spans)
  | .expr e s => s :: e.spans
  | .return_ value s => s :: (value.map Expr.spans).getD []
  | .break_ s => [s]
  | .for_ cond body s => s :: (cond.spans ++ Stmt.allSpans body)
  | .if_ cond body otherwise s => s :: (cond.spans ++ Stmt.allSpans body ++ otherwise.spans)
  | .block body s => s :: Stmt.allSpans body

def Alternative.spans : Alternative → List Span
  | .none => []
  | .else_ body => Stmt.allSpans body
  | .elif cond body otherwise => cond.spans ++ Stmt.allSpans body ++ otherwise.spans

def Stmt.allSpans : List Stmt → List Span
  | [] => []
  | s :: ss => s.spans ++ Stmt.allSpans ss

end

section Kept

variable {f : Span → Span}

theorem Ident.relocate_eq_self {id : Ident} : id.relocate f = id ↔ f id.span = id.span := by
  cases id
  simp [relocate]

theorem Param.relocate_eq_self {p : Param} :
    p.relocate f = p ↔ f p.name.span = p.name.span := by
  cases p
  simp [relocate, Ident.relocate_eq_self]

theorem Param.map_relocate_eq_self {ps : List Param} :
    ps.map (·.relocate f) = ps ↔ ∀ s ∈ ps.map (·.name.span), f s = s := by
  induction ps with
  | nil => simp
  | cons p ps ih =>
    simp only [List.map_cons, List.cons.injEq, ih, List.forall_mem_cons, Param.relocate_eq_self]

theorem Signature.relocate_eq_self {sig : Signature} :
    sig.relocate f = sig ↔ ∀ s ∈ sig.spans, f s = s := by
  cases sig
  simp only [relocate, spans, Signature.mk.injEq, Ident.relocate_eq_self,
    Param.map_relocate_eq_self, List.forall_mem_cons, and_true, true_and]

mutual

/-- A tree is kept as it is just if all its spans are. -/
theorem Expr.relocate_eq_self (e : Expr) : e.relocate f = e ↔ ∀ s ∈ e.spans, f s = s := by
  match e with
  | .literal v ty s => simp [Expr.relocate, Expr.spans]
  | .ident id => simp [Expr.relocate, Expr.spans, Ident.relocate_eq_self]
  | .paren inner s =>
    simp [Expr.relocate, Expr.spans, Expr.relocate_eq_self inner, and_comm]
  | .unary op operand s =>
    simp [Expr.relocate, Expr.spans, Expr.relocate_eq_self operand, and_comm]
  | .binary op lhs rhs s =>
    simp only [Expr.relocate, Expr.spans, Expr.binary.injEq, Expr.relocate_eq_self lhs,
      Expr.relocate_eq_self rhs, List.forall_mem_cons, List.forall_mem_append, true_and]
    tauto
  | .cast operand ty s =>
    simp [Expr.relocate, Expr.spans, Expr.relocate_eq_self operand, and_comm]
  | .call callee args s =>
    simp only [Expr.relocate, Expr.spans, Expr.call.injEq, Expr.relocate_eq_self callee,
      Expr.relocateAll_eq_self args, List.forall_mem_cons, List.forall_mem_append]
    tauto
  | .member object field arrow s =>
    simp only [Expr.relocate, Expr.spans, Expr.member.injEq, Expr.relocate_eq_self object,
      Ident.relocate_eq_self, List.forall_mem_cons, List.forall_mem_append, true_and]
    simp only [List.not_mem_nil, false_implies, implies_true, and_true]
    tauto

theorem Expr.relocateAll_eq_self (es : List Expr) :
    Expr.relocateAll f es = es ↔ ∀ s ∈ Expr.allSpans es, f s = s := by
  match es with
  | [] => simp [Expr.relocateAll, Expr.allSpans]
  | e :: es =>
    simp only [Expr.relocateAll, Expr.allSpans, List.cons.injEq, Expr.relocate_eq_self e,
      Expr.relocateAll_eq_self es, List.forall_mem_append]

end

theorem Expr.map_relocate_eq_self {e : Option Expr} :
    e.map (·.relocate f) = e ↔ ∀ s ∈ (e.map Expr.spans).getD [], f s = s := by
  cases e <;> simp [Expr.relocate_eq_self]

mutual

theorem Stmt.relocate_eq_self (s : Stmt) : s.relocate f = s ↔ ∀ t ∈ s.spans, f t = t := by
  match s with
  | .varDef name ty init s =>
    simp only [Stmt.relocate, Stmt.spans, Stmt.varDef.injEq, Ident.relocate_eq_self,
      Expr.map_relocate_eq_self, List.forall_mem_cons, true_and]
    tauto
  | .structDef name members s =>
    simp only [Stmt.relocate, Stmt.spans, Stmt.structDef.injEq, Ident.relocate_eq_self,
      Param.map_relocate_eq_self, List.forall_mem_cons]
    tauto
  | .fnDef sig body s =>
    simp only [Stmt.relocate, Stmt.spans, Stmt.fnDef.injEq, Signature.relocate_eq_self,
      Stmt.relocateAll_eq_self body, List.forall_mem_cons, List.forall_mem_append]
    tauto
  | .fnDecl sig s =>
    simp only [Stmt.relocate, Stmt.spans, Stmt.fnDecl.injEq, Signature.relocate_eq_self,
      List.forall_mem_cons]
    tauto
  | .varSet target value s =>
    simp only [Stmt.relocate, Stmt.spans, Stmt.varSet.injEq, Ident.relocate_eq_self,
      Expr.relocate_eq_self, List.forall_mem_cons]
    tauto
  | .memberSet target value s =>
    simp only [Stmt.relocate, Stmt.spans, Stmt.memberSet.injEq, Expr.relocate_eq_self,
      List.forall_mem_cons, List.forall_mem_append]
    tauto
  | .expr e s =>
    simp only [Stmt.relocate, Stmt.spans, Stmt.expr.injEq, Expr.relocate_eq_self,
      List.forall_mem_cons]
    tauto
  | .return_ value s =>
    simp only [Stmt.relocate, Stmt.spans, Stmt.return_.injEq, Expr.map_relocate_eq_self,
      List.forall_mem_cons]
    tauto
  | .break_ s => simp [Stmt.relocate, Stmt.spans]
  | .for_ cond body s =>
    simp only [Stmt.relocate, Stmt.spans, Stmt.for_.injEq, Expr.relocate_eq_self,
      Stmt.relocateAll_eq_self body, List.forall_mem_cons, List.forall_mem_append]
    tauto
  | .if_ cond body otherwise s =>
    simp only [Stmt.relocate, Stmt.spans, Stmt.if_.injEq, Expr.relocate_eq_self,
      Stmt.relocateAll_eq_self body, Alternative.relocate_eq_self otherwise, List.forall_mem_cons,
      List.forall_mem_append]
    tauto
  | .block body s =>
    simp only [Stmt.relocate, Stmt.spans, Stmt.block.injEq, Stmt.relocateAll_eq_self body,
      List.forall_mem_cons]
    tauto

theorem Alternative.relocate_eq_self (a : Alternative) :
    a.relocate f = a ↔ ∀ t ∈ a.spans, f t = t := by
  match a with
  | .none => simp [Alternative.relocate, Alternative.spans]
  | .else_ body =>
    simp only [Alternative.relocate, Alternative.spans, Alternative.else_.injEq,
      Stmt.relocateAll_eq_self body]
  | .elif cond body otherwise =>
    simp only [Alternative.relocate, Alternative.spans, Alternative.elif.injEq,
      Expr.relocate_eq_self, Stmt.relocateAll_eq_self body,
      Alternative.relocate_eq_self otherwise, List.forall_mem_append, and_assoc]

theorem Stmt.relocateAll_eq_self (ss : List Stmt) :
    Stmt.relocateAll f ss = ss ↔ ∀ t ∈ Stmt.allSpans ss, f t = t := by
  match ss with
  | [] => simp [Stmt.relocateAll, Stmt.allSpans]
  | s :: ss =>
    simp only [Stmt.relocateAll, Stmt.allSpans, List.cons.injEq, Stmt.relocate_eq_self s,
      Stmt.relocateAll_eq_self ss, List.forall_mem_append]

end

end Kept

section Types

variable (f : Span → Span)

@[simp] theorem Expr.span_relocate (e : Expr) : (e.relocate f).span = f e.span := by
  cases e <;> rfl

def InferError.relocate : InferError → InferError
  | .unknownIdentifier id => .unknownIdentifier (id.relocate f)
  | .unknownMember id => .unknownMember (id.relocate f)
  | .notCallable ty => .notCallable ty
  | .notAStruct ty => .notAStruct ty
  | .breach b => .breach b

theorem CheckError.ofInfer_relocate (whole : Span) (err : InferError) :
    CheckError.ofInfer (f whole) (err.relocate f) = (CheckError.ofInfer whole err).relocate f := by
  cases err <;> rfl

theorem LowerError.ofInfer_relocate (whole : Span) (err : InferError) :
    LowerError.ofInfer (f whole) (err.relocate f) = (LowerError.ofInfer whole err).relocate f := by
  cases err <;> rfl

theorem ParseError.ofInfer_relocate (whole : Span) (err : InferError) :
    ParseError.ofInfer (f whole) (err.relocate f) = (ParseError.ofInfer whole err).relocate f := by
  cases err <;> rfl

/-- Operators and joins of types speak of no place. -/
theorem mapError_relocate_of_placeless {r : Except InferError Ty}
    (h : ∀ err, r = .error err → err.relocate f = err) : r.mapError (·.relocate f) = r := by
  cases r with
  | ok ty => rfl
  | error err => exact congrArg Except.error (h err rfl)

theorem UnaryOp.infer_relocate (op : UnaryOp) (ty : Ty) :
    (op.infer ty).mapError (·.relocate f) = op.infer ty := by
  refine mapError_relocate_of_placeless f fun err herr => ?_
  cases op with
  | deref =>
    simp only [UnaryOp.infer] at herr
    split at herr
    · obtain rfl := Except.error.inj herr
      rfl
    · cases herr
  | _ => cases herr

theorem BinaryOp.infer_relocate (op : BinaryOp) (l r : Ty) :
    (op.infer l r).mapError (·.relocate f) = op.infer l r := by
  refine mapError_relocate_of_placeless f fun err herr => ?_
  unfold BinaryOp.infer at herr
  split at herr
  · cases herr
  · cases hjoin : l.join r with
    | ok ty =>
      rw [hjoin] at herr
      cases herr
    | error b =>
      rw [hjoin] at herr
      obtain rfl := Except.error.inj herr
      rfl

/-- A tree that is moved has the same type, or lacks one for the same reason. -/
theorem Expr.infer_relocate (t : ScopeTable V) (e : Expr) :
    (e.relocate f).infer t = (e.infer t).mapError (·.relocate f) := by
  match e with
  | .literal v ty s => rfl
  | .cast operand ty s => rfl
  | .ident id =>
    simp only [Expr.relocate, Expr.infer, Ident.relocate]
    cases t.find? id.name <;> rfl
  | .paren inner s => exact Expr.infer_relocate t inner
  | .unary op operand s =>
    simp only [Expr.relocate, Expr.infer, Expr.infer_relocate t operand]
    cases operand.infer t with
    | error err => rfl
    | ok ty => exact (op.infer_relocate f ty).symm
  | .binary op lhs rhs s =>
    simp only [Expr.relocate, Expr.infer, Expr.infer_relocate t lhs, Expr.infer_relocate t rhs]
    cases lhs.infer t with
    | error err => rfl
    | ok l =>
      cases rhs.infer t with
      | error err => rfl
      | ok r => exact (op.infer_relocate f l r).symm
  | .call callee args s =>
    simp only [Expr.relocate, Expr.infer, Expr.infer_relocate t callee]
    cases callee.infer t with
    | error err => rfl
    | ok ty =>
      simp only [Except.mapError, Bind.bind, Except.bind]
      cases ty.return? <;> rfl
  | .member object field arrow s =>
    simp only [Expr.relocate, Expr.infer, Expr.infer_relocate t object]
    cases object.infer t with
    | error err => rfl
    | ok ty =>
      simp only [Except.mapError, Bind.bind, Except.bind]
      cases t.membersOf? ty arrow with
      | none => rfl
      | some members =>
        simp only [Ident.relocate]
        cases t.findIn? members field.name <;> rfl

theorem Expr.coerce?_relocate (ty : Ty) (e : Expr) :
    (e.relocate f).coerce? ty = (e.coerce? ty).map (·.relocate f) := by
  fun_induction Expr.coerce? ty e with
  | case1 v s => simp [Expr.relocate, Expr.coerce?]
  | case2 v ty₀ s hne hc => simp [Expr.relocate, Expr.coerce?, hne, hc]
  | case3 v ty₀ s hne hc => simp [Expr.relocate, Expr.coerce?, hne, hc]
  | case4 inner s ih | case5 inner s ih =>
    simp only [Expr.relocate, Expr.coerce?, ih, Option.map_map]
    rfl
  | case6 e hlit hparen hneg =>
    cases e with
    | literal v ty₀ s => exact absurd rfl (hlit v ty₀ s)
    | paren inner s => exact absurd rfl (hparen inner s)
    | unary op operand s =>
      cases op with
      | neg => exact absurd rfl (hneg operand s)
      | _ => rfl
    | _ => rfl

theorem Expr.coerce?_relocate_if (c : Prop) [Decidable c] (ty : Ty) (e : Expr) :
    (if c then (e.relocate f).coerce? ty else none) =
      (if c then e.coerce? ty else none).map (·.relocate f) := by
  split
  · exact Expr.coerce?_relocate f ty e
  · rfl

end Types

end Frontend
