import Frontend.Proofs.Called
import Frontend.Proofs.Inventory
import Mathlib.Algebra.Group.Int.Defs

/-!
The literals of a program. A literal has a value of its type, and an integer is a signed 64-bit
word: so it is read, and so it stays when it is retyped, where a float is cut to such a word.
-/
namespace Frontend

/-- The integer is a signed one of so many bits. -/
def Signed (bits : Nat) (n : Int) : Prop := -2 ^ (bits - 1) ≤ n ∧ n < 2 ^ (bits - 1)

instance (bits : Nat) (n : Int) : Decidable (Signed bits n) := inferInstanceAs (Decidable (_ ∧ _))

theorem signed_zero (bits : Nat) : Signed bits 0 := by
  have hpos : (0 : Int) < 2 ^ (bits - 1) := Int.pow_pos (by decide)
  exact ⟨by omega, hpos⟩

theorem signed_word {n : Int} : Signed 64 n ↔ Decimal.leastWord ≤ n ∧ n ≤ Decimal.greatestWord := by
  have hpow : (2 : Int) ^ (64 - 1) = 9223372036854775808 := by decide
  unfold Signed Decimal.leastWord Decimal.greatestWord
  rw [hpow]
  omega

/-- Only integers are limited. -/
def Value.InWord : Value → Prop
  | .int n => Signed 64 n
  | _ => True

/-- What holds of a literal with its type as it is read. -/
structure Value.Apt (v : Value) (ty : Ty) : Prop where
  ofType : v.Matches ty
  inWord : v.InWord

/-- A double is cut to an integer within a word. -/
theorem Decimal.Double.toInteger_signed (d : Decimal.Double) : Signed 64 d.toInteger := by
  rw [signed_word]
  have hends : leastWord ≤ 0 ∧ 0 ≤ greatestWord := by decide
  unfold Double.toInteger
  split
  · exact hends
  · split <;> omega
  · rename_i negative m e
    dsimp only
    generalize m * pow2 e.toNat / pow2 (-e).toNat = size
    split <;> omega

theorem Value.InWord.convert {v : Value} (h : v.InWord) (toFloat : Bool) :
    (v.convert toFloat).InWord := by
  cases v with
  | int n =>
    cases toFloat with
    | true => trivial
    | false => exact h
  | float x =>
    cases toFloat with
    | true => trivial
    | false => exact Decimal.Double.toInteger_signed _
  | str | bool => trivial

theorem Grammar.numberLiteral?_inWord {text : String} {v : Value} {ty : Ty}
    (h : numberLiteral? text = some (v, ty)) : v.InWord := by
  unfold numberLiteral? at h
  dsimp only at h
  split at h
  · obtain ⟨d, -, heq⟩ := Option.map_eq_some_iff.mp h
    obtain ⟨rfl, rfl⟩ := Prod.mk.inj heq
    trivial
  · split at h
    · rename_i hle
      obtain ⟨rfl, rfl⟩ := Prod.mk.inj (Option.some.inj h)
      have hnonneg : Decimal.leastWord ≤ 0 := by decide
      exact signed_word.mpr ⟨by omega, hle⟩
    · cases h

theorem Lexeme.Means.apt {l : Lexeme} {v : Value} {ty : Ty} (h : l.Means v ty) : v.Apt ty := by
  unfold Lexeme.Means at h
  split at h
  · exact ⟨Grammar.numberLiteral?_matches h, Grammar.numberLiteral?_inWord h⟩
  · obtain ⟨rfl, rfl⟩ := h
    exact ⟨rfl, trivial⟩
  · obtain ⟨rfl, rfl⟩ := h
    exact ⟨rfl, trivial⟩
  · obtain ⟨rfl, rfl⟩ := h
    exact ⟨rfl, trivial⟩
  · cases h

def Item.Apt : Item → Prop
  | .literal v ty => v.Apt ty
  | _ => True

namespace Expr

theorem items_close (env : Grammar.Env) (ends : Bool) (e : Expr) :
    (withCalls.close env ends e).items = e.items := by
  unfold withCalls.close
  split
  · simp [Expr.items, Expr.allItems]
  · rfl

mutual

theorem items_withCalls (env : Grammar.Env) (ends : Bool) (e : Expr) :
    (e.withCalls env ends).items = e.items := by
  cases e with
  | literal | ident => exact items_close env ends _
  | paren inner s => exact (items_close env ends _).trans (items_withCalls env true inner)
  | unary op operand s => exact items_withCalls env true operand
  | binary op lhs rhs s =>
    exact congrArg₂ _ (items_withCalls env true lhs) (items_withCalls env true rhs)
  | cast operand ty s => exact items_withCalls env true operand
  | call callee args s =>
    exact (items_close env ends _).trans
      (congrArg₂ _ (items_withCalls env false callee) (allItems_allWithCalls env args))
  | member object field arrow s =>
    exact (items_close env ends _).trans (items_withCalls env false object)

theorem allItems_allWithCalls (env : Grammar.Env) (es : List Expr) :
    Expr.allItems (allWithCalls env es) = Expr.allItems es := by
  cases es with
  | nil => rfl
  | cons e es => exact congrArg₂ _ (items_withCalls env true e) (allItems_allWithCalls env es)

end

mutual

/-- Literals that are read as their tokens say are apt. -/
theorem Stands.apt {e : Expr} {ts rest : List Token} (h : e.Stands .read ts rest) :
    ∀ x ∈ e.items, x.Apt := by
  cases e with
  | literal v ty s =>
    obtain ⟨t, -, hlit, -⟩ := h
    intro x hx
    obtain rfl := List.mem_singleton.mp hx
    exact Lexeme.Means.apt hlit
  | ident => exact nofun
  | paren inner s =>
    obtain ⟨l, r, mid, -, -, hinner, -⟩ := h
    exact hinner.apt
  | unary op operand s =>
    obtain ⟨t, mid, -, -, hoperand, -⟩ := h
    exact hoperand.apt
  | binary op lhs rhs s =>
    obtain ⟨t, mid, hlhs, -, hrhs, -⟩ := h
    exact List.forall_mem_append.mpr ⟨hlhs.apt, hrhs.apt⟩
  | cast operand ty s =>
    obtain ⟨t, mid, hoperand, -⟩ := h
    exact hoperand.apt
  | call callee args s =>
    obtain ⟨l, r, mid, hcallee, -, hargs, -⟩ | ⟨rfl, hcallee, -⟩ := h
    · exact List.forall_mem_append.mpr ⟨hcallee.apt, hargs.apt⟩
    · exact List.forall_mem_append.mpr ⟨hcallee.apt, nofun⟩
  | member object field arrow s =>
    obtain ⟨t, i, hobject, -⟩ := h
    exact hobject.apt

theorem AllStand.apt {es : List Expr} {ts rest : List Token} (h : AllStand .read es ts rest) :
    ∀ x ∈ Expr.allItems es, x.Apt := by
  cases es with
  | nil => exact nofun
  | cons e es =>
    obtain ⟨rfl, he⟩ | ⟨c, mid, he, -, hes⟩ := h
    · exact List.forall_mem_append.mpr ⟨he.apt, nofun⟩
    · exact List.forall_mem_append.mpr ⟨he.apt, hes.apt⟩

end

theorem coerce?_apt {ty : Ty} {e e' : Expr} (hc : e.coerce? ty = some e')
    (h : ∀ x ∈ e.items, x.Apt) : ∀ x ∈ e'.items, x.Apt := by
  fun_induction Expr.coerce? ty e generalizing e' with
  | case1 v s =>
    obtain rfl := Option.some.inj hc
    exact h
  | case2 v ty s hne hcompat =>
    obtain rfl := Option.some.inj hc
    intro x hx
    obtain rfl := List.mem_singleton.mp hx
    have hv : v.Apt ty := h _ (List.mem_singleton.mpr rfl)
    exact ⟨hv.ofType.convert hcompat, hv.inWord.convert _⟩
  | case3 => cases hc
  | case4 inner s ih | case5 inner s ih =>
    obtain ⟨inner', hi, rfl⟩ := Option.map_eq_some_iff.mp hc
    exact (ih hi h : ∀ x ∈ inner'.items, x.Apt)
  | case6 => cases hc

end Expr

theorem Grammar.apt_lasts {src : String} {ts : List Token} (h : tokenize src = .ok ts) :
    Lasts ts fun _ e => ∀ x ∈ e.items, x.Apt where
  read := by
    intro env ts' e rest v hts hread _
    have horder : InOrder ts' := InOrder.suffix (tokenize_tiles h).apart hts
    obtain ⟨e₀, he, -, -, hstands⟩ := expr_yields hread horder
    rw [he, Expr.items_withCalls]
    exact hstands.apt
  coerce := Expr.coerce?_apt

mutual

theorem Stmt.Throughout.apt {v : Sight} {s : Stmt}
    (h : s.Throughout (.each fun _ e => ∀ x ∈ e.items, x.Apt) v) : ∀ x ∈ s.items, x.Apt := by
  cases s with
  | varDef name ty init s =>
    refine List.forall_mem_cons.mpr ⟨trivial, ?_⟩
    cases init with
    | none => exact nofun
    | some e => exact h e rfl
  | structDef | fnDecl =>
    intro x hx
    obtain ⟨d, -, rfl⟩ := List.mem_map.mp hx
    trivial
  | fnDef sig body s =>
    refine List.forall_mem_append.mpr ⟨?_, Stmt.AllThroughout.apt h.2⟩
    intro x hx
    obtain ⟨d, -, rfl⟩ := List.mem_map.mp hx
    trivial
  | varSet | expr => exact h
  | memberSet target e s => exact List.forall_mem_append.mpr h
  | return_ e s =>
    cases e with
    | none => exact nofun
    | some e => exact h e rfl
  | break_ => exact nofun
  | for_ cond body s =>
    obtain ⟨-, hcond, hbody⟩ := h
    exact List.forall_mem_append.mpr ⟨hcond, Stmt.AllThroughout.apt hbody⟩
  | if_ cond body otherwise s =>
    obtain ⟨-, hcond, hbody, hotherwise⟩ := h
    have hrest := List.forall_mem_append.mpr
      ⟨Stmt.AllThroughout.apt hbody, Alternative.Throughout.apt hotherwise⟩
    exact List.forall_mem_append.mpr ⟨hcond, hrest⟩
  | block body s => exact Stmt.AllThroughout.apt h.2

theorem Alternative.Throughout.apt {v : Sight} {a : Alternative}
    (h : a.Throughout (.each fun _ e => ∀ x ∈ e.items, x.Apt) v) : ∀ x ∈ a.items, x.Apt := by
  cases a with
  | none => exact nofun
  | else_ body => exact Stmt.AllThroughout.apt h
  | elif cond body otherwise =>
    obtain ⟨hcond, hbody, hotherwise⟩ := h
    have hrest := List.forall_mem_append.mpr
      ⟨Stmt.AllThroughout.apt hbody, Alternative.Throughout.apt hotherwise⟩
    exact List.forall_mem_append.mpr ⟨hcond, hrest⟩

theorem Stmt.AllThroughout.apt {v : Sight} {ss : List Stmt}
    (h : Stmt.AllThroughout (.each fun _ e => ∀ x ∈ e.items, x.Apt) v ss) :
    ∀ x ∈ Stmt.allItems ss, x.Apt := by
  cases ss with
  | nil => exact nofun
  | cons s ss =>
    exact List.forall_mem_append.mpr ⟨Stmt.Throughout.apt h.1, Stmt.AllThroughout.apt h.2⟩

end

theorem Accepted.items_apt {src : String} {ts : List Token} {p q : Program}
    {ws : List (Located Warning)} (h : Accepted src ts p q ws) : ∀ x ∈ q.items, x.Apt := by
  refine List.forall_mem_append.mpr ⟨fun x hx => ?_,
    (h.each_checked (Grammar.apt_lasts h.scan)).apt⟩
  obtain ⟨g, -, hg⟩ := List.mem_flatMap.mp hx
  obtain ⟨d, -, rfl⟩ := List.mem_map.mp hg
  trivial

end Frontend
