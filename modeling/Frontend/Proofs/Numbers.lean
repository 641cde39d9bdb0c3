import Frontend.Proofs.Idempotence
import Frontend.Proofs.Spelling

/-!
Number types. Operators on numbers have the type of the first float among their operands, or of the
first operand where there is none; a literal takes the number type that is asked for, or is left as
it is.
-/
namespace Frontend

namespace Ty

theorem isNumeric_inv {ty : Ty} (h : ty.isNumeric) :
    ty.isInteger = !ty.isFloat ∧ ty.levels = 0 := by
  cases ty with
  | prim p n =>
    cases p <;> simp [isNumeric, isInteger, isFloat, base, Base.isInteger, Base.isFloat,
      levels] at h ⊢
    all_goals exact ⟨h, of_decide_eq_true h⟩
  | _ => simp [isNumeric, isInteger, isFloat, base, Base.isInteger, Base.isFloat] at h

/-- Numbers meet in the left type, unless only the right one is a float. -/
theorem join_numeric {s t : Ty} (hs : s.isNumeric) (ht : t.isNumeric) :
    s.join t = .ok (if s.isFloat then s else if t.isFloat then t else s) := by
  obtain ⟨hs, hslevels⟩ := isNumeric_inv hs
  obtain ⟨ht, htlevels⟩ := isNumeric_inv ht
  unfold join
  split
  · rename_i hbase
    have hsame : s.isFloat = t.isFloat := by rw [isFloat, isFloat, hbase, hslevels, htlevels]
    cases hf : t.isFloat <;> simp [hsame, hf]
  · cases hsf : s.isFloat <;> cases htf : t.isFloat <;> simp [hs, ht, hsf, htf]

/-- The first float, or the first type if there is none. -/
def leading (tys : List Ty) : Option Ty := (tys.find? isFloat).or tys.head?

/-- A leading type that is no float is the first, and there are no floats. -/
theorem leading_inv {tys : List Ty} {ty : Ty} (h : leading tys = some ty) :
    tys.find? isFloat = (if ty.isFloat then some ty else none) ∧
      (ty.isFloat = false → tys.head? = some ty) := by
  rcases Option.or_eq_some_iff.mp h with h | ⟨hnone, h⟩
  · simp [h, List.find?_some h]
  · have hnot := List.find?_eq_none.mp hnone ty (List.mem_of_mem_head? h)
    simp [hnone, h, hnot]

/-- Two stretches have the leading type that their leading types have. -/
theorem leading_append {ls rs : List Ty} {l r : Ty} (hl : leading ls = some l)
    (hr : leading rs = some r) :
    leading (ls ++ rs) = some (if l.isFloat then l else if r.isFloat then r else l) := by
  obtain ⟨hlfind, hlhead⟩ := leading_inv hl
  obtain ⟨hrfind, -⟩ := leading_inv hr
  rw [leading, List.find?_append, List.head?_append, hlfind, hrfind]
  cases hlf : l.isFloat with
  | true => rfl
  | false => cases hrf : r.isFloat <;> simp [hlhead hlf]

end Ty

/-- An arithmetic, bitwise or shift operator. -/
def BinaryOp.isArithmetic : BinaryOp → Bool
  | .add | .sub | .mul | .div | .rem | .shl | .shr | .bitAnd | .bitOr | .bitXor => true
  | _ => false

theorem BinaryOp.infer_arithmetic {op : BinaryOp} (h : op.isArithmetic) (l r : Ty) :
    op.infer l r = (l.join r).mapError .breach := by
  cases op <;> first | rfl | cases h

/-- The expression is put together by parentheses and operators on numbers from leaves that have
these types, told from left to right. -/
inductive Expr.Computes (t : ScopeTable V) : Expr → List Ty → Prop where
  | leaf {e ty} : e.infer t = .ok ty → ty.isNumeric → Computes t e [ty]
  | paren {e tys s} : Computes t e tys → Computes t (.paren e s) tys
  | unary {op e tys s} : op = .neg ∨ op = .bitNot → Computes t e tys →
      Computes t (.unary op e s) tys
  | binary {op l r ltys rtys s} : op.isArithmetic → Computes t l ltys → Computes t r rtys →
      Computes t (.binary op l r s) (ltys ++ rtys)

theorem Expr.Computes.infer {t : ScopeTable V} {e : Expr} {tys : List Ty} (h : e.Computes t tys) :
    ∃ ty, Ty.leading tys = some ty ∧ ty.isNumeric ∧ e.infer t = .ok ty := by
  induction h with
  | @leaf e ty hty hnumeric =>
    refine ⟨ty, ?_, hnumeric, hty⟩
    cases hf : ty.isFloat <;> simp [Ty.leading, hf]
  | paren _ ih => exact ih
  | @unary op e tys s hop _ ih =>
    obtain ⟨ty, hleading, hnumeric, hty⟩ := ih
    refine ⟨ty, hleading, hnumeric, bind_eq_ok.mpr ⟨ty, hty, ?_⟩⟩
    rcases hop with rfl | rfl <;> rfl
  | @binary op l r ltys rtys s hop _ _ ihl ihr =>
    obtain ⟨lty, hllead, hlnum, hl⟩ := ihl
    obtain ⟨rty, hrlead, hrnum, hr⟩ := ihr
    refine ⟨_, Ty.leading_append hllead hrlead, ?_,
      bind_eq_ok.mpr ⟨lty, hl, bind_eq_ok.mpr ⟨rty, hr, ?_⟩⟩⟩
    · split
      · exact hlnum
      · split
        · exact hrnum
        · exact hlnum
    · rw [BinaryOp.infer_arithmetic hop, Ty.join_numeric hlnum hrnum]
      rfl

/-- Operators on numbers have the type of the leftmost float, or of the leftmost leaf if none is a
float; so it is all one how the leaves are bracketed. -/
theorem arithmetic_infers_leading (t : ScopeTable V) (tys : List Ty) :
    (∀ e : Expr, e.Computes t tys → ∃ ty, e.infer t = .ok ty ∧
      (tys.find? Ty.isFloat = some ty ∨ tys.find? Ty.isFloat = none ∧ tys.head? = some ty)) ∧
    ∀ e e' : Expr, e.Computes t tys → e'.Computes t tys → e.infer t = e'.infer t := by
  refine ⟨fun e he => ?_, fun e e' he he' => ?_⟩
  · obtain ⟨ty, hleading, -, hty⟩ := he.infer
    exact ⟨ty, hty, Option.or_eq_some_iff.mp hleading⟩
  · obtain ⟨ty, hleading, -, hty⟩ := he.infer
    obtain ⟨ty', hleading', -, hty'⟩ := he'.infer
    rw [hty, hty', Option.some.inj (hleading.symm.trans hleading')]

/-- `a - (b * c)` and `(a - b) * c`, of an integer and two floats. -/
theorem arithmetic_infers_leading_sample :
    let s : Span := ⟨0, 0, .start⟩
    let a : Expr := .literal (.int 1) .i32 s
    let b : Expr := .literal (.float 0.5) (.prim .f64 0) s
    let c : Expr := .unary .neg (.literal (.float 2) .f32 s) s
    ∀ e ∈ [Expr.binary .sub a (.paren (.binary .mul b c s) s) s,
        .binary .mul (.paren (.binary .sub a b s) s) c s],
      e.infer (.empty : ScopeTable Unit) = .ok (.prim .f64 0) := by
  intro s a b c e he
  have ha : a.Computes (.empty : ScopeTable Unit) [.i32] := .leaf rfl rfl
  have hb : b.Computes (.empty : ScopeTable Unit) [.prim .f64 0] := .leaf rfl rfl
  have hc : c.Computes (.empty : ScopeTable Unit) [.f32] := .unary (.inl rfl) (.leaf rfl rfl)
  have hcomputes : e.Computes (.empty : ScopeTable Unit) [.i32, .prim .f64 0, .f32] := by
    rcases List.mem_pair.mp he with rfl | rfl
    · exact .binary rfl ha (.paren (.binary rfl hb hc))
    · exact .binary rfl (.paren (.binary rfl ha hb)) hc
  obtain ⟨ty, hty, hfloat | ⟨hnone, -⟩⟩ := (arithmetic_infers_leading _ _).1 e hcomputes
  · cases hfloat
    exact hty
  · cases hnone

namespace Expr

/-- Only literals can be retyped: for their own type, or for a number type if they have one. -/
theorem coerce?_isSome (target : Ty) (e : Expr) : (e.coerce? target).isSome ↔
    ∃ v ty s, e.literal? = some (v, ty, s) ∧ (ty = target ∨ ty.isNumeric ∧ target.isNumeric) := by
  fun_induction coerce? target e with
  | case1 v s => simp [literal?]
  | case2 v ty s hne hc => simpa [literal?, hne, Ty.compatible, and_comm] using hc
  | case3 v ty s hne hc => simpa [literal?, hne, Ty.compatible, and_comm] using hc
  | case4 inner s ih | case5 inner s ih => simpa [literal?] using ih
  | case6 e hlit hparen hneg =>
    cases e with
    | literal v ty s => exact (hlit v ty s rfl).elim
    | paren inner s => exact (hparen inner s rfl).elim
    | unary op inner s => cases op <;> simp_all [literal?]
    | _ => simp [literal?]

/-- A literal that has the type already stays as it is. -/
theorem coerce?_self {e : Expr} {v : Value} {ty : Ty} {s : Span}
    (h : e.literal? = some (v, ty, s)) : e.coerce? ty = some e := by
  fun_induction literal? e with
  | case1 v' ty' s' =>
    obtain ⟨-, rfl, -⟩ := Prod.mk.inj (Option.some.inj h)
    simp [coerce?]
  | case2 e s ih | case3 e s ih => simp [coerce?, ih h]
  | case4 => simp at h

end Expr

/-- A coercion is all or nothing. It is made of literals only, and of them for their own type or
from one number type to another. Where it is not made, those who ask for it go on with the
expression as it is, or not at all; where it is, only the literal's value and type change, and the
type is the one that was asked for, so that nothing is left to do a second time. -/
theorem coercion_all_or_nothing (target : Ty) (e : Expr) :
    ((e.coerce? target).isSome ↔ ∃ v ty s, e.literal? = some (v, ty, s) ∧
      (ty = target ∨ ty.isNumeric ∧ target.isNumeric)) ∧
    (e.coerce? target = none →
      (∀ env id b e', env.scopes.find? id.name = some b → b.ty = target →
        Grammar.assigned env id e = .ok e' → e' = e) ∧
      ∀ mismatch st st' e', Runs (Check.coerce target e mismatch) st e' st' → e' = e ∧ st' = st) ∧
    ∀ e', e.coerce? target = some e' →
      e'.blank = e.blank ∧ (∀ (V : Type) (t : ScopeTable V), e'.infer t = .ok target) ∧
        (e.Fitted → e'.Fitted) ∧ e'.coerce? target = some e' := by
  refine ⟨e.coerce?_isSome target, fun hnone => ⟨?_, ?_⟩, fun e' hsome => ?_⟩
  · intro env id b e' hfind hty h
    subst hty
    simp only [Grammar.assigned, hfind] at h
    obtain ⟨actual, -, h⟩ := bind_eq_ok.mp h
    simp only [hnone, ite_self] at h
    split at h
    · exact (Except.ok.inj h).symm
    · cases h
  · intro mismatch st st' e' h
    obtain ⟨ws, htakes, rfl⟩ := Check.runs_coerce.mp h
    cases htakes with
    | same => exact ⟨rfl, by simp⟩
    | retyped _ _ _ hc => simp [hnone] at hc
  · have hlit : ∃ v s, e'.literal? = some (v, target, s) := by
      obtain ⟨v, ty, s, hlit, -, ⟨rfl, rfl⟩ | hlit'⟩ := Expr.literal?_coerce? hsome
      · exact ⟨v, s, hlit⟩
      · exact ⟨_, s, hlit'⟩
    obtain ⟨v, s, hlit⟩ := hlit
    exact ⟨Expr.blank_coerce? hsome, fun V t => Expr.infer_of_literal? t hlit,
      fun hfitted => hfitted.coerce? hsome, Expr.coerce?_self hlit⟩

/-- `(-2)` is taken for a float, and a text is not taken for an integer. -/
theorem coercion_all_or_nothing_sample :
    let s : Span := ⟨0, 0, .start⟩
    let number : Expr := .paren (.unary .neg (.literal (.int 2) .i32 s) s) s
    let text : Expr := .literal (.str "2") .string s
    (∃ e', number.coerce? .f32 = some e' ∧ e'.blank = number.blank ∧
      (∀ (V : Type) (t : ScopeTable V), e'.infer t = .ok .f32) ∧ e'.Fitted ∧
      e'.coerce? .f32 = some e') ∧
    text.coerce? .i32 = none := by
  intro s number text
  obtain ⟨hnumber, -, htaken⟩ := coercion_all_or_nothing .f32 number
  have hsome : (number.coerce? .f32).isSome := hnumber.mpr ⟨.int 2, .i32, s, rfl, .inr ⟨rfl, rfl⟩⟩
  obtain ⟨e', he'⟩ := Option.isSome_iff_exists.mp hsome
  obtain ⟨hblank, hty, hfitted, hagain⟩ := htaken e' he'
  refine ⟨⟨e', he', hblank, hty, hfitted rfl, hagain⟩, Option.not_isSome_iff_eq_none.mp fun h => ?_⟩
  obtain ⟨v, ty, s', hlit, hcase⟩ := (coercion_all_or_nothing .i32 text).1.mp h
  obtain ⟨-, rfl, -⟩ := Prod.mk.inj (Option.some.inj hlit)
  rcases hcase with hty | ⟨hty, -⟩ <;> cases hty

end Frontend
