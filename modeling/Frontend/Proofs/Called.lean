import Frontend.Proofs.Everywhere
import Frontend.Proofs.Tiling
import Frontend.Proofs.Yields

/-!
No function is left uncalled. The reader adds a call to every chain that stands for a function, so
in a program that was read a name bound to a function is followed by arguments or by a member.
-/
namespace Frontend

mutual

/-- A name that stands for a function is followed by arguments or by a member. A chain of those goes
on unless it `ends` here. -/
def Expr.Called (v : Sight) (ends : Bool) : Expr → Prop
  | .literal _ _ _ => True
  | .ident id => ends → ∀ ret n, (Expr.ident id).typeIn? v = some (.fn ret n) → 0 < n
  | .paren e _ | .unary _ e _ | .cast e _ _ => e.Called v true
  | .binary _ lhs rhs _ => lhs.Called v true ∧ rhs.Called v true
  | .call callee args _ => callee.Called v false ∧ Expr.AllCalled v args
  | .member object _ _ _ => object.Called v false

def Expr.AllCalled (v : Sight) : List Expr → Prop
  | [] => True
  | e :: es => e.Called v true ∧ Expr.AllCalled v es

end

namespace Expr

variable {v : Sight} {ends : Bool} {e e' : Expr}

theorem Called.coerce? {ty : Ty} (hc : e.coerce? ty = some e') (h : e.Called v ends) :
    e'.Called v ends := by
  fun_induction Expr.coerce? ty e generalizing e' ends with
  | case1 v s =>
    obtain rfl := Option.some.inj hc
    trivial
  | case2 v ty s hne hcompat =>
    obtain rfl := Option.some.inj hc
    trivial
  | case3 v ty s hne hcompat => simp at hc
  | case4 inner s ih | case5 inner s ih =>
    obtain ⟨inner', hi, rfl⟩ := Option.map_eq_some_iff.mp hc
    exact (ih hi h : inner'.Called v true)
  | case6 => simp at hc

variable {env : Grammar.Env}

/-- A call is added where a name of a function would be left. -/
theorem Called.close (hv : env.scopes.Shows v) (h : e.Called v false) :
    (withCalls.close env ends e).Called v ends := by
  unfold withCalls.close
  split
  · exact ⟨h, trivial⟩
  · rename_i hopen
    cases e with
    | ident id =>
      intro hends ret n hty
      by_contra hn
      refine hopen (Bool.and_eq_true_iff.mpr ⟨hends, ?_⟩)
      simp only [Grammar.isFunction, hv.infer_eq_ok.mpr hty]
      exact Ty.isFunction_fn.mpr (Int.not_lt.mp hn)
    | _ => exact h

mutual

theorem withCalls_called (hv : env.scopes.Shows v) (ends : Bool) (e : Expr) :
    (e.withCalls env ends).Called v ends := by
  cases e with
  | literal val ty s => exact .close (e := .literal val ty s) hv trivial
  | ident id => exact .close (e := .ident id) hv nofun
  | paren inner s => exact .close (e := .paren _ s) hv (withCalls_called hv true inner)
  | unary op operand s => exact withCalls_called hv true operand
  | binary op lhs rhs s => exact ⟨withCalls_called hv true lhs, withCalls_called hv true rhs⟩
  | cast operand ty s => exact withCalls_called hv true operand
  | call callee args s =>
    exact .close (e := .call _ _ s) hv ⟨withCalls_called hv false callee,
      allWithCalls_called hv args⟩
  | member object field arrow s =>
    exact .close (e := .member _ field arrow s) hv (withCalls_called hv false object)

theorem allWithCalls_called (hv : env.scopes.Shows v) (es : List Expr) :
    AllCalled v (allWithCalls env es) := by
  cases es with
  | nil => trivial
  | cons e es => exact ⟨withCalls_called hv true e, allWithCalls_called hv es⟩

end

theorem AllCalled.mem {es : List Expr} (h : AllCalled v es) : ∀ e ∈ es, e.Called v true := by
  induction es with
  | nil => exact nofun
  | cons e es ih =>
    intro a ha
    rcases List.mem_cons.mp ha with rfl | ha
    · exact h.1
    · exact ih h.2 a ha

end Expr

/-- Every function is called where its name is read, and stays so. -/
theorem Grammar.called_lasts {src : String} {ts : List Token} (h : tokenize src = .ok ts) :
    Lasts ts fun v e => e.Called v true where
  read := by
    intro env ts' e rest v hts hread hv
    have horder : InOrder ts' := InOrder.suffix (tokenize_tiles h).apart hts
    obtain ⟨e₀, he, -⟩ := expr_yields hread horder
    rw [he]
    exact Expr.withCalls_called hv true e₀
  coerce := Expr.Called.coerce?

end Frontend
