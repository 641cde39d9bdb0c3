import Frontend.Proofs.Declarations
import Frontend.Proofs.Linkage
import Frontend.Proofs.WellTyped
import Frontend.Proofs.Obligations

/-!
Places in a program where a value meets a type: as the right operand of an operator, which is taken
as the left one is, as an argument, in a cast, and where it is stored or returned. What counts is by
how many pointers the two are apart. The check compares them, but for operands, where the base is
all that it asks for, and for arguments, where it asks for nothing.
-/
namespace Frontend

/-- How many pointers there are in the type of a register with a value of the type. A string is an
address, and a struct is known by its address. -/
def Ty.rank : Ty → Nat
  | .prim .string n => n.toNat + 1
  | .prim _ n | .fn _ n => n.toNat
  | .struct _ n | .inst _ n => max 1 n.toNat

structure Junction where
  expected : Ty
  given : Ty
  /-- Whether the check has compared the two. -/
  checked : Bool
  deriving DecidableEq, Repr

namespace Junction

/-- As many pointers are given as are expected. -/
def isLevel (j : Junction) : Bool := j.given.rank = j.expected.rank

/-- One pointer more is given than is expected. -/
def isDeep (j : Junction) : Bool := j.given.rank = j.expected.rank + 1

/-- The junction of two types, if both are there. -/
def between (checked : Bool) (expected given : Option Ty) : List Junction :=
  (expected.bind fun x => given.map fun y => ⟨x, y, checked⟩).toList

end Junction

/-- The types of the parameters of the function that is the value of an expression. The name of a
function tells; the type of a function says nothing of them. -/
def Expr.parameters (o : Outlook) : Expr → List Ty
  | .ident id => (o.routine? (.ident id)).elim [] (·.params)
  | .paren e _ => e.parameters o
  | _ => []

mutual

/-- The same whether the value or the address of an expression is asked for. -/
def Expr.junctions (w : Vantage) : Expr → List Junction
  | .literal _ _ _ | .ident _ => []
  | .paren e _ | .unary _ e _ | .member e _ _ _ => e.junctions w
  | .binary op lhs rhs _ =>
    lhs.junctions w ++ (rhs.junctions w ++
      if op.isLogical then []
      else Junction.between false (lhs.typeIn? w.sight) (rhs.typeIn? w.sight))
  | .cast e ty _ => e.junctions w ++ Junction.between true ty (e.typeIn? w.sight)
  | .call callee args _ =>
    callee.junctions w ++ Expr.allJunctions w (callee.parameters w.outlook) args

/-- Those of arguments for parameters of these types. -/
def Expr.allJunctions (w : Vantage) (params : List Ty) : List Expr → List Junction
  | [] => []
  | e :: es =>
    e.junctions w ++ (Junction.between false params.head? (e.typeIn? w.sight) ++
      Expr.allJunctions w params.tail es)

end

/-- Those of an expression whose value goes to where a `ty` is. -/
def Expr.junctionsAs (w : Vantage) (ty : Option Ty) (e : Expr) : List Junction :=
  e.junctions w ++ Junction.between true ty (e.typeIn? w.sight)

mutual

/-- The junctions of a statement in a function that returns `ret`, those of the functions in it
included. -/
def Stmt.junctions (ret : Ty) (w : Vantage) : Stmt → List Junction
  | .varDef _ ty e _ => e.elim [] (·.junctionsAs w ty)
  | .varSet target e _ => e.junctionsAs w ((w.sight.lookup? target.name).map (·.ty))
  | .memberSet target e _ => target.junctions w ++ e.junctionsAs w (target.typeIn? w.sight)
  | .return_ e _ => e.elim [] (·.junctionsAs w ret)
  | .expr e _ => e.junctions w
  | .for_ cond body _ => cond.junctions w ++ Stmt.allJunctions ret w body
  | .if_ cond body otherwise _ =>
    cond.junctions w ++ (Stmt.allJunctions ret w body ++ otherwise.junctions ret (w.past body))
  | .block body _ => Stmt.allJunctions ret w body
  | .fnDef sig body _ => Stmt.allJunctions sig.ret (w.inside sig) body
  | .structDef .. | .fnDecl .. | .break_ _ => []

def Alternative.junctions (ret : Ty) (w : Vantage) : Alternative → List Junction
  | .none => []
  | .else_ body => Stmt.allJunctions ret w body
  | .elif cond body otherwise =>
    cond.junctions w ++ (Stmt.allJunctions ret w body ++ otherwise.junctions ret (w.past body))

def Stmt.allJunctions (ret : Ty) (w : Vantage) : List Stmt → List Junction
  | [] => []
  | s :: ss => s.junctions ret w ++ Stmt.allJunctions ret (w.after s) ss

end

def Program.junctions (p : Program) : List Junction := Stmt.allJunctions .void .start p

variable {ty : Ty}

theorem Ty.levels_of_isNumeric (h : ty.isNumeric) : ty.levels = 0 := by
  rcases Bool.or_eq_true_iff.mp h with h | h
  all_goals exact of_decide_eq_true (Bool.and_eq_true_iff.mp h).1

/-- Numbers are no addresses. -/
theorem Ty.rank_of_isNumeric (h : ty.isNumeric) : ty.rank = 0 := by
  have hlevels := levels_of_isNumeric h
  cases ty with
  | prim p n =>
    obtain rfl : n = 0 := hlevels
    cases p <;> first | rfl | exact absurd h (by decide)
  | _ => simp [isNumeric, isInteger, isFloat, base, Base.isInteger, Base.isFloat] at h

theorem Ty.Grounded.of_isNumeric (h : ty.isNumeric) : ty.Grounded := by
  have hlevels := levels_of_isNumeric h
  cases ty with
  | prim p n => exact Int.le_of_eq hlevels.symm
  | _ => simp [isNumeric, isInteger, isFloat, base, Base.isInteger, Base.isFloat] at h

/-- Operands meet in a type of the rank of the left one. -/
theorem Ty.rank_join {l r : Ty} (h : l.join r = .ok ty) : ty.rank = l.rank := by
  by_cases hbase : l.base = r.base
  · rw [join, if_pos hbase] at h
    rw [Except.ok.inj h]
  · have hnumbers : l.isNumeric ∧ r.isNumeric := by
      rw [join, if_neg hbase] at h
      unfold isNumeric
      repeat' split at h
      all_goals simp_all
    have hl := rank_of_isNumeric hnumbers.1
    rcases join_eq h with rfl | rfl
    · rfl
    · rw [hl, rank_of_isNumeric hnumbers.2]

theorem Value.Matches.grounded {v : Value} (h : v.Matches ty) : ty.Grounded := by
  cases v with
  | int n => exact .of_isNumeric (by simp [Ty.isNumeric, show ty.isInteger from h])
  | float x => exact .of_isNumeric (by simp [Ty.isNumeric, show ty.isFloat from h])
  | str s =>
    obtain rfl : ty = .string := h
    exact Int.le_refl 0
  | bool b =>
    obtain rfl : ty = .bool := h
    exact Int.le_refl 0

/-- The types of what is in sight are grounded. -/
def Sight.Grounded (v : Sight) : Prop :=
  ∀ x ∈ v, x.ty.Grounded ∧ ∀ ms ∈ x.members, ∀ m ∈ ms, m.ty.Grounded

namespace Sight.Grounded

variable {v new : Sight}

theorem start : Sight.start.Grounded := by
  intro x hx
  obtain rfl := List.mem_singleton.mp hx
  exact ⟨⟨Int.le_refl 0, Int.le_refl 0⟩, nofun⟩

theorem append (hnew : Sight.Grounded new) (h : v.Grounded) : Sight.Grounded (new ++ v) := by
  intro x hx
  exact (List.mem_append.mp hx).elim (hnew x) (h x)

theorem inside (h : v.Grounded) {sig : Signature} (hsig : sig.Grounded) :
    Sight.Grounded (sig.inside v) := by
  intro x hx
  rcases List.mem_append.mp hx with hx | hx
  · obtain ⟨p, hp, rfl⟩ := List.mem_map.mp (List.mem_reverse.mp hx)
    exact ⟨hsig.2 p hp, nofun⟩
  · rcases List.mem_cons.mp hx with rfl | hx
    · exact ⟨⟨Int.le_refl 0, hsig.1⟩, nofun⟩
    · exact h x hx

end Sight.Grounded

theorem Expr.Checked.typeIn? {u : ScopeTable Unit} {v : Sight} (hu : u.Shows v) {e : Expr}
    (h : e.Checked u) : ∃ ty, e.typeIn? v = some ty := by
  obtain ⟨ty, hty⟩ := h.typed.infers
  exact ⟨ty, hu.infer_eq_ok.mp hty⟩

/-- The types of expressions are grounded. -/
theorem Expr.Checked.grounded {u : ScopeTable Unit} {v : Sight} (hu : u.Shows v) (hv : v.Grounded)
    (e : Expr) (h : e.Checked u) {ty : Ty} (hty : e.typeIn? v = some ty) : ty.Grounded := by
  match e with
  | .literal value ty' s =>
    obtain rfl := Option.some.inj hty
    exact Value.Matches.grounded (show value.Matches ty' from h.fitted)
  | .ident id =>
    obtain ⟨x, hx, rfl⟩ := Option.map_eq_some_iff.mp hty
    exact (hv x (List.mem_of_find?_eq_some hx)).1
  | .paren inner s => exact grounded hu hv inner h.paren hty
  | .unary op operand s =>
    obtain ⟨ty₀, hty₀, hop⟩ := Option.bind_eq_some_iff.mp hty
    have hground := grounded hu hv operand h.unary hty₀
    cases op with
    | not =>
      obtain rfl := Option.some.inj hop
      exact Int.le_refl 0
    | neg | bitNot =>
      obtain rfl := Option.some.inj hop
      exact hground
    | addressOf =>
      obtain rfl := Option.some.inj hop
      exact hground.addressed
    | deref =>
      simp only [UnaryOp.infer] at hop
      split at hop
      · simp [Except.toOption] at hop
      · rename_i hlevels
        obtain rfl := Option.some.inj hop
        exact hground.withLevels (by simpa [Ty.addLevels] using hlevels)
  | .binary op lhs rhs s =>
    obtain rfl | hl | hr := typeIn?_binary hty
    · exact Int.le_refl 0
    · exact grounded hu hv lhs h.lhs hl
    · exact grounded hu hv rhs h.rhs hr
  | .cast operand ty' s =>
    obtain rfl := Option.some.inj hty
    obtain ⟨actual, hactual, rfl | hc⟩ := h.typed.castType
    · exact grounded hu hv operand h.cast (hu.infer_eq_ok.mp hactual)
    · exact .of_isNumeric (Bool.and_eq_true_iff.mp hc).1
  | .call callee args s =>
    obtain ⟨f, hf, hret⟩ := Option.bind_eq_some_iff.mp hty
    have hground := grounded hu hv callee h.callee hf
    cases f with
    | fn ret n =>
      obtain rfl := Option.some.inj hret
      exact hground.2
    | _ => simp [Ty.return?] at hret
  | .member object field arrow s =>
    obtain ⟨x, hx, members, hmembers, m, hm, rfl⟩ := typeIn?_member hty
    exact (hv x hx).2 members hmembers m hm

/-- What a checked statement declares is grounded. -/
theorem Check.Passes.grounded {s r : Stmt} {st st' : Check.State} {v : Sight} {ret : Ty}
    (h : Passes st (.stmt s r) st') (hs : st.names.Shows v) (hv : v.Grounded)
    (ho : r.Obeys .checked ret) : Sight.Grounded (r.declares ++ v) := by
  refine Sight.Grounded.append ?_ hv
  cases h with
  | varDef _ _ _ htakes =>
    intro x hx
    obtain rfl := List.mem_singleton.mp hx
    refine ⟨?_, nofun⟩
    cases htakes with
    | none => exact ho.1 rfl
    | some hexpr htakes =>
      have hchecked := Expr.Checked.intro (expr_coerced htakes.coerced hexpr) (ho.2 _ rfl)
      exact hchecked.grounded hs hv _ (hs.infer_eq_ok.mp htakes.infer)
  | structDef =>
    intro x hx
    rcases List.mem_cons.mp hx with rfl | hx
    · refine ⟨Int.le_refl 0, ?_⟩
      rintro _ ⟨⟩
      exact ho
    · obtain rfl := List.mem_singleton.mp hx
      exact ⟨Int.le_refl 0, nofun⟩
  | fnDef =>
    intro x hx
    obtain rfl := List.mem_singleton.mp hx
    exact ⟨⟨Int.le_refl 0, ho.1.1⟩, nofun⟩
  | fnDecl =>
    intro x hx
    obtain rfl := List.mem_singleton.mp hx
    exact ⟨⟨Int.le_refl 0, ho.1⟩, nofun⟩
  | _ => exact nofun

end Frontend
