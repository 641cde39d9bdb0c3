import Frontend.Proofs.Phrases
import Frontend.Proofs.Trees

/-!
What holds of every tree that is read from tokens: a literal is of the class that its type names,
and types that are written have no negative levels. Coercions keep the first.
-/
namespace Frontend

/-- The value is of the class that the type names. -/
def Value.Matches (ty : Ty) : Value → Prop
  | .int _ => ty.isInteger
  | .float _ => ty.isFloat
  | .str _ => ty = .string
  | .bool _ => ty = .bool

/-- Every literal has a value of its type. -/
abbrev Expr.Fitted (e : Expr) : Prop := e.Obeys fun v ty => v.Matches ty

namespace Ty

/-- Levels are not negative, neither those of the type nor those of what it returns. -/
def Grounded : Ty → Prop
  | .prim _ n | .struct _ n | .inst _ n => 0 ≤ n
  | .fn ret n => 0 ≤ n ∧ ret.Grounded

theorem Grounded.levels {ty : Ty} (h : ty.Grounded) : 0 ≤ ty.levels := by
  cases ty with
  | fn ret n => exact h.1
  | _ => exact h

theorem Grounded.withLevels {ty : Ty} (h : ty.Grounded) {n : Int} (hn : 0 ≤ n) :
    (ty.withLevels n).Grounded := by
  cases ty with
  | fn ret _ => exact ⟨hn, h.2⟩
  | _ => exact hn

theorem Grounded.addressed {ty : Ty} (h : ty.Grounded) : (ty.addLevels 1).Grounded := by
  refine h.withLevels ?_
  have hlevels := h.levels
  rw [clampLevels]
  omega

end Ty

/-- The types in a signature are grounded. -/
def Signature.Grounded (sig : Signature) : Prop :=
  sig.ret.Grounded ∧ ∀ p ∈ sig.params, p.ty.Grounded

/-- The law of reading. -/
def Law.read : Law where
  literal := fun v ty => v.Matches ty
  function := Signature.Grounded
  type := Ty.Grounded
  returns := fun _ _ => True

variable {v : Value} {ty target : Ty}

theorem Value.Matches.numeric (h : v.Matches ty) (hn : ty.isNumeric) :
    (∃ n, v = .int n) ∨ ∃ x, v = .float x := by
  cases v with
  | int n => exact .inl ⟨n, rfl⟩
  | float x => exact .inr ⟨x, rfl⟩
  | str s =>
    obtain rfl : ty = .string := h
    simp [Ty.isNumeric, Ty.isInteger, Ty.isFloat, Ty.string, Ty.base, Ty.levels, Base.isInteger,
      Base.isFloat] at hn
  | bool b =>
    obtain rfl : ty = .bool := h
    simp [Ty.isNumeric, Ty.isInteger, Ty.isFloat, Ty.bool, Ty.base, Ty.levels, Base.isInteger,
      Base.isFloat] at hn

/-- A number that is converted for a number type is of that type. -/
theorem Value.Matches.convert (h : v.Matches ty) (hc : target.compatible ty) :
    (v.convert target.isFloat).Matches target := by
  obtain ⟨ht, hty⟩ : target.isNumeric ∧ ty.isNumeric := by simpa [Ty.compatible] using hc
  have hint : target.isFloat = false → target.isInteger := by
    intro hf
    simpa [Ty.isNumeric, hf] using ht
  cases hf : target.isFloat with
  | true => rcases h.numeric hty with ⟨n, rfl⟩ | ⟨x, rfl⟩ <;> exact hf
  | false => rcases h.numeric hty with ⟨n, rfl⟩ | ⟨x, rfl⟩ <;> exact hint hf

theorem Expr.Fitted.coerce? : ∀ {e e' : Expr}, e.Fitted →
    e.coerce? target = some e' → e'.Fitted := by
  intro e e' he h
  fun_induction Expr.coerce? target e generalizing e' with
  | case1 v s =>
    obtain rfl := Option.some.inj h
    exact he
  | case2 v ty s hne hc =>
    obtain rfl := Option.some.inj h
    exact Value.Matches.convert he hc
  | case3 v ty s hne hc => simp at h
  | case4 inner s ih | case5 inner s ih =>
    obtain ⟨inner', hi, rfl⟩ := Option.map_eq_some_iff.mp h
    have : inner'.Fitted := ih he hi
    exact this
  | case6 => simp at h

theorem Grammar.numberLiteral?_matches {text : String}
    (h : Grammar.numberLiteral? text = some (v, ty)) : v.Matches ty := by
  unfold Grammar.numberLiteral? at h
  dsimp only at h
  split at h
  · obtain ⟨d, _, heq⟩ := Option.map_eq_some_iff.mp h
    obtain ⟨rfl, rfl⟩ := Prod.mk.inj heq
    rfl
  · split at h
    · obtain ⟨rfl, rfl⟩ := Prod.mk.inj (Option.some.inj h)
      rfl
    · simp at h

theorem Lexeme.Means.matches {l : Lexeme} (h : l.Means v ty) : v.Matches ty := by
  unfold Lexeme.Means at h
  split at h
  · exact Grammar.numberLiteral?_matches h
  · obtain ⟨rfl, rfl⟩ := h
    rfl
  · obtain ⟨rfl, rfl⟩ := h
    rfl
  · obtain ⟨rfl, rfl⟩ := h
    rfl
  · exact h.elim

namespace Grammar

theorem applyOperators_fitted (ops : List (UnaryOp × Span)) {e : Expr} (he : e.Fitted) :
    (applyOperators ops e).Fitted := by
  induction ops with
  | nil => exact he
  | cons op ops ih => exact ih

section Readers

variable {env : Env} {ts rest : List Token} {names : Names}

theorem Builds.fitted {x : Form} (h : Builds env ts x rest) :
    x.Each Expr.Fitted (Expr.AllObey fun v ty => v.Matches ty) := by
  induction h with
  | expr _ _ ih ih' => exact ih' ih
  | noOperator | noCast => exact id
  | operator _ _ _ _ ih ih' => exact fun hl => ih' ⟨hl, ih⟩
  | operand _ _ _ ih ih' ih'' =>
    exact applyOperators_fitted _ (ih'' (applyOperators_fitted _ (ih' ih)))
  | ident => trivial
  | literal h => exact h.matches
  | paren _ _ ih => exact ih
  | @noSuffix e _ _ =>
    intro he
    show Expr.Fitted (if isFunction env e then .call e [] e.span else e)
    split
    · exact ⟨he, trivial⟩
    · exact he
  | call _ _ ih ih' => exact fun he => ih' ⟨he, ih⟩
  | member _ ih | cast _ _ _ ih => exact fun he => ih he
  | noArgument => trivial
  | lastArgument _ _ _ ih => exact ⟨ih, trivial⟩
  | argument _ _ _ ih ih' => exact ⟨ih, ih'⟩

theorem expr_fitted {e : Expr} (h : Gives (expr env ts) e rest) : e.Fitted :=
  (exprAt_builds env 0 ts h).fitted

theorem typeExpr_grounded {eof last : Span} {ty : Ty}
    (h : Gives (typeExpr eof ts) (ty, last) rest) : ty.Grounded := by
  have hspelled := (typeExpr_spelled h).1
  clear h
  induction hspelled with
  | prim | named => exact Int.le_refl 0
  | star _ _ ih => exact ih.addressed
  | fn _ _ ih => exact ⟨Int.le_refl 0, ih⟩
  | procedure => exact ⟨Int.le_refl 0, Int.le_refl 0⟩

theorem param_grounded {p : Param} (h : Gives (param env ts) p rest) : p.ty.Grounded := by
  obtain ⟨_, _, _, -, hty⟩ := param_inv h
  exact typeExpr_grounded hty

theorem ParsesMembers.grounded {ps : List Param} (h : ParsesMembers env ts ps names rest) :
    ∀ p ∈ ps, p.ty.Grounded := by
  induction h with
  | nil => simp
  | cons hp _ ih => exact List.forall_mem_cons.mpr ⟨param_grounded hp, ih⟩

theorem ParsesParams.grounded {ps : List Param} {more : Bool}
    (h : ParsesParams env ts ps more names rest) : ∀ p ∈ ps, p.ty.Grounded := by
  induction h with
  | nil | variadic => simp
  | last hp _ => simpa using param_grounded hp
  | cons hp _ ih => exact List.forall_mem_cons.mpr ⟨param_grounded hp, ih⟩

theorem ParsesSignature.grounded {sig : Signature} (h : ParsesSignature env ts sig names rest) :
    sig.Grounded := by
  obtain ⟨hret, hps⟩ := h
  constructor
  · obtain ⟨_, hty⟩ | ⟨-, rfl, -⟩ := returnType_inv hret
    · exact typeExpr_grounded hty
    · exact Int.le_refl 0
  · cases hps with
    | none => simp
    | parens hps => exact hps.grounded

theorem assigned_fitted {target : Ident} {value value' : Expr} (hv : value.Fitted)
    (h : assigned env target value = .ok value') : value'.Fitted := by
  obtain ⟨b, -, ⟨rfl, -⟩ | hc⟩ := assigned_inv h
  · exact hv
  · exact hv.coerce? hc

theorem Parses.obeys {x : Phrase} (h : Parses env ts x names rest) (ret : Ty) :
    x.Each (·.Obeys .read ret) (Stmt.AllObey .read ret) (·.Obeys .read ret) := by
  induction h generalizing ret with
  | structDef hms _ => exact hms.grounded
  | fnDecl hsig _ => exact hsig.grounded
  | fnDef hsig _ _ ih => exact ⟨hsig.grounded, ih _⟩
  | varDef _ hty => exact ⟨fun _ => typeExpr_grounded hty, nofun⟩
  | varInit _ _ he | quickDef he _ =>
    refine ⟨nofun, ?_⟩
    rintro _ ⟨⟩
    exact expr_fitted he
  | expr he => exact expr_fitted he
  | varSet _ he he' => exact assigned_fitted (expr_fitted he) he'
  | memberSet ht he => exact ⟨expr_fitted ht, expr_fitted he⟩
  | return_ => exact ⟨trivial, nofun⟩
  | returnValue he =>
    refine ⟨trivial, ?_⟩
    rintro _ ⟨⟩
    exact expr_fitted he
  | break_ | none | nil => trivial
  | for_ hcond _ ih => exact ⟨expr_fitted hcond, ih ret⟩
  | if_ hcond _ _ ih ih' | elif hcond _ _ ih ih' => exact ⟨expr_fitted hcond, ih ret, ih' ret⟩
  | else_ _ ih | braces _ _ ih | block _ _ ih => exact ih ret
  | cons _ _ _ ih ih' => exact ⟨ih ret, ih' ret⟩

end Readers

theorem program_obeys (env : Env) (ts : List Token) (p : Program) (h : program env ts = .ok p)
    (ret : Ty) : Stmt.AllObey .read ret p := by
  obtain ⟨names, hp⟩ := program_parses env ts h
  exact hp.obeys ret

end Grammar

end Frontend
