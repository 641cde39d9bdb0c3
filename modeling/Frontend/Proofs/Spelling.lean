import Frontend.Proofs.Reading
import Frontend.Proofs.Tiling

/-!
Where literals come from. A number token keeps the text that stands at its span, and a literal keeps
the span of its token; so a literal that has just been read is a float where the source has a
decimal point and an integer where it has none.
-/
namespace Frontend

/-- If the token is a number, it stands so in the text. -/
def Token.StandsIn (src : String) (t : Token) : Prop :=
  ∀ text, t.lexeme = .number text → t.span.text? src = some text

variable {ts : List Token} {e : Expr} {ty : Ty}

theorem tokenize_stands {src : String} (h : tokenize src = .ok ts) : ∀ t ∈ ts, t.StandsIn src := by
  intro t ht text htext
  have hsrc : src.toList = [] ++ src.toList := rfl
  obtain ⟨text', htext', hspells⟩ := ((tokenize_tiles h).placed hsrc rfl t ht).text
  rw [htext] at hspells
  rw [htext', String.toList_injective hspells.1]

/-- The literal that an expression is, under parentheses and negations. -/
def Expr.literal? : Expr → Option (Value × Ty × Span)
  | .literal v ty s => some (v, ty, s)
  | .paren e _ | .unary .neg e _ => e.literal?
  | _ => none

/-- A literal has its type in every table. -/
theorem Expr.infer_of_literal? (t : ScopeTable V) {v : Value} {s : Span}
    (h : e.literal? = some (v, ty, s)) : e.infer t = .ok ty := by
  fun_induction Expr.literal? e with
  | case1 v ty s =>
    obtain ⟨-, rfl, -⟩ := Prod.mk.inj (Option.some.inj h)
    rfl
  | case2 e s ih => exact ih h
  | case3 e s ih => exact bind_eq_ok.mpr ⟨ty, ih h, rfl⟩
  | case4 => simp at h

/-- What can be retyped is a literal. It stays where it is, and its value is converted if its type
changes. -/
theorem Expr.literal?_coerce? {e' : Expr} (h : e.coerce? ty = some e') :
    ∃ v ty₀ s, e.literal? = some (v, ty₀, s) ∧ e'.span = e.span ∧
      (ty₀ = ty ∧ e' = e ∨ e'.literal? = some (v.convert ty.isFloat, ty, s)) := by
  fun_induction Expr.coerce? ty e generalizing e' with
  | case1 v s =>
    obtain rfl := Option.some.inj h
    exact ⟨v, ty, s, rfl, rfl, .inl ⟨rfl, rfl⟩⟩
  | case2 v ty₀ s hne hc =>
    obtain rfl := Option.some.inj h
    exact ⟨v, ty₀, s, rfl, rfl, .inr rfl⟩
  | case3 => simp at h
  | case4 inner s ih | case5 inner s ih =>
    obtain ⟨inner', hinner, rfl⟩ := Option.map_eq_some_iff.mp h
    obtain ⟨v, ty₀, s', hlit, -, hcase⟩ := ih hinner
    refine ⟨v, ty₀, s', hlit, rfl, hcase.imp_left ?_⟩
    rintro ⟨rfl, rfl⟩
    exact ⟨rfl, rfl⟩
  | case6 => simp at h

/-- Whether the source has a decimal point at the span. -/
def Span.hasPoint (src : String) (s : Span) : Bool := (s.text? src).any (·.toList.contains '.')

/-- A value as it is first read: of a number, the decimal point tells the class of its type. -/
def Value.ReadAs (ty : Ty) (point : Bool) : Value → Prop
  | .int _ => ty.isInteger ∧ point = false
  | .float _ => ty.isFloat ∧ point = true
  | .str _ | .bool _ => ty.isNumeric = false

/-- If the expression is a literal, it is as it was first read. -/
def Expr.AsRead (src : String) (e : Expr) : Prop :=
  ∀ v ty s, e.literal? = some (v, ty, s) → v.ReadAs ty (s.hasPoint src)

namespace Grammar

variable {src : String}

theorem numberLiteral?_readAs {text : String} {v : Value} (h : numberLiteral? text = some (v, ty)) :
    v.ReadAs ty (text.toList.contains '.') := by
  unfold numberLiteral? at h
  dsimp only at h
  split at h
  · rename_i hpoint
    obtain ⟨d, _, heq⟩ := Option.map_eq_some_iff.mp h
    obtain ⟨rfl, rfl⟩ := Prod.mk.inj heq
    exact ⟨rfl, hpoint⟩
  · rename_i hpoint
    split at h
    · obtain ⟨rfl, rfl⟩ := Prod.mk.inj (Option.some.inj h)
      exact ⟨rfl, by simpa using hpoint⟩
    · simp at h

theorem applyOperators_asRead (ops : List (UnaryOp × Span)) (he : e.AsRead src) :
    (applyOperators ops e).AsRead src := by
  induction ops with
  | nil => exact he
  | cons op ops ih =>
    obtain ⟨op, s⟩ := op
    cases op with
    | neg => exact ih
    | _ => exact nofun

theorem Builds.asRead {env : Env} {rest : List Token} {x : Form} (h : Builds env ts x rest)
    (hts : ∀ t ∈ ts, t.StandsIn src) : x.Each (Expr.AsRead src) fun _ => True := by
  induction h with
  | expr h _ ih ih' => exact ih' (fun t ht => hts t (h.rest.subset ht)) (ih hts)
  | noOperator | noCast => exact id
  | operator _ _ h _ _ ih =>
    exact fun _ => ih (fun t ht => hts t (List.mem_cons_of_mem _ (h.rest.subset ht))) nofun
  | @operand _ _ _ ts _ _ _ h h' _ ih ih' ih'' =>
    have hfront := (operators_rest addressOp? rfl _).trans (operators_rest signOp? rfl ts)
    have hmid := h.rest.trans hfront
    have hhead := ih fun t ht => hts t (hfront.subset ht)
    have hchain := ih' (fun t ht => hts t (hmid.subset ht)) hhead
    exact applyOperators_asRead _ (ih'' (fun t ht => hts t ((h'.rest.trans hmid).subset ht))
      (applyOperators_asRead _ hchain))
  | ident => exact nofun
  | @literal t v ty _ hmeans =>
    rintro _ _ _ ⟨⟩
    cases hl : t.lexeme <;> rw [hl] at hmeans
    case number text =>
      rw [Span.hasPoint, hts t List.mem_cons_self text hl]
      exact numberLiteral?_readAs hmeans
    case string =>
      obtain ⟨rfl, rfl⟩ := hmeans
      rfl
    case keyword k =>
      cases k <;> first | exact hmeans.elim | (obtain ⟨rfl, rfl⟩ := hmeans; rfl)
    all_goals exact hmeans.elim
  | paren _ _ ih => exact ih fun t ht => hts t (List.mem_cons_of_mem _ ht)
  | @noSuffix e _ _ =>
    intro he
    show Expr.AsRead src (if isFunction env e then .call e [] e.span else e)
    split
    · exact nofun
    · exact he
  | @call _ _ _ _ _ _ mid _ h _ _ ih =>
    have hmid := (List.suffix_cons _ mid).trans h.rest
    exact fun _ => ih (fun t ht => hts t (List.mem_cons_of_mem _ (hmid.subset ht))) nofun
  | member _ ih => exact fun _ => ih (fun t ht => hts t (by simp [ht])) nofun
  | cast _ hty _ ih =>
    have hmid := (typeExpr_spelled hty).1.rest
    exact fun _ => ih (fun t ht => hts t (List.mem_cons_of_mem _ (hmid.subset ht))) nofun
  | noArgument | lastArgument | argument => trivial

/-- A literal is read with the class that its spelling gives it. -/
theorem expr_asRead {env : Env} {rest : List Token} (h : Gives (expr env ts) e rest)
    (hts : ∀ t ∈ ts, t.StandsIn src) : e.AsRead src :=
  (exprAt_builds env 0 ts h).asRead hts

end Grammar

end Frontend
