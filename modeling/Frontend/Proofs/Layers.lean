import Frontend.Proofs.Derivations
import Frontend.Proofs.Pipeline
import Frontend.Proofs.Rereading

/-!
Expressions are read as their grammar has them, each as its one tree. Tokens are read as an
expression just when they derive from the grammar. Where no type has more stars than a type has
levels, the tree that is read is layered and its yield is the tokens, and every layered tree with
this yield is the one that is read, wherever its nodes are said to stand.
-/
namespace Frontend

/-- The tree without its places. -/
def Expr.unplaced (e : Expr) : Expr := e.relocate fun _ => .nowhere

/-- How many stars the tokens begin with. -/
def leadingStars : List Token → Nat
  | [] => 0
  | t :: ts => if t.lexeme = .punct .star then leadingStars ts + 1 else 0

/-- No type begins with more stars than a type has levels. Types stand after `as`, and as return
types after `fn`. -/
def FewStars : List Token → Prop
  | [] => True
  | t :: ts =>
    (t.lexeme = .keyword .as_ ∨ t.lexeme = .keyword .fn → leadingStars ts ≤ 127) ∧ FewStars ts

instance : (ts : List Token) → Decidable (FewStars ts)
  | [] => inferInstanceAs (Decidable True)
  | _ :: ts =>
    have : Decidable (FewStars ts) := instDecidableFewStars ts
    inferInstanceAs (Decidable (_ ∧ _))

/-- As it is written: every star is a level, whatever the spans, and no calls but those that stand
there. -/
def Manner.written : Manner where
  __ := Manner.loose
  type := Ty.Spelled fun ty => ty.withLevels (ty.levels + 1)
  type_rest h := h.rest

theorem FewStars.suffix {ts rest : List Token} (h : FewStars ts) (hrest : rest <:+ ts) :
    FewStars rest := by
  induction ts with
  | nil =>
    obtain rfl := List.suffix_nil.mp hrest
    exact h
  | cons t ts ih =>
    obtain rfl | hrest := List.suffix_cons_iff.mp hrest
    · exact h
    · exact ih h.2 hrest

/-- While a type has few stars, it does not matter what becomes of levels beyond the last. -/
theorem Ty.Spelled.change {raise raise' : Ty → Ty}
    (hraise : ∀ ty : Ty, 0 ≤ ty.levels → ty.levels < 127 → raise ty = raise' ty)
    (hlevels : ∀ ty : Ty, 0 ≤ ty.levels → ty.levels < 127 → (raise ty).levels = ty.levels + 1)
    {ty : Ty} {ts rest : List Token} (h : Ty.Spelled raise ty ts rest) (hfew : FewStars ts)
    (hstars : leadingStars ts ≤ 127) :
    ty.levels = leadingStars ts ∧ Ty.Spelled raise' ty ts rest := by
  induction h with
  | prim ht hp => exact ⟨by simp [Ty.levels, leadingStars, ht], .prim ht hp⟩
  | named ht => exact ⟨by simp [Ty.levels, leadingStars, ht], .named ht⟩
  | @star t ty ts rest ht _ ih =>
    rw [leadingStars, if_pos ht] at hstars ⊢
    obtain ⟨hty, hspelled⟩ := ih hfew.2 (by omega)
    have h₀ : 0 ≤ ty.levels := by omega
    have h₁ : ty.levels < 127 := by omega
    refine ⟨by rw [hlevels ty h₀ h₁]; omega, ?_⟩
    rw [hraise ty h₀ h₁]
    exact .star ht hspelled
  | fn ht _ ih =>
    obtain ⟨-, hspelled⟩ := ih hfew.2 (hfew.1 (.inr ht))
    exact ⟨by simp [Ty.levels, leadingStars, ht], .fn ht hspelled⟩
  | procedure ht hnext => exact ⟨by simp [Ty.levels, leadingStars, ht], .procedure ht hnext⟩

theorem Ty.addLevels_one {ty : Ty} (h₀ : 0 ≤ ty.levels) (h₁ : ty.levels < 127) :
    ty.addLevels 1 = ty.withLevels (ty.levels + 1) := by
  rw [Ty.addLevels, clampLevels, show max (-128) (min 127 (ty.levels + 1)) = ty.levels + 1 by omega]

namespace Manner

variable {all : List Token}

theorem read_within_loose : Manner.read.Within .loose all where
  literal := id
  type _ _ := id
  span _ := trivial
  added := id

theorem read_within_written (hfew : FewStars all) : Manner.read.Within .written all where
  literal := id
  type hts ht hty := by
    obtain ⟨hstars, hfew⟩ := hfew.suffix hts
    refine (Ty.Spelled.change (fun ty => Ty.addLevels_one) ?_ hty hfew (hstars (.inl ht))).2
    intro ty h₀ h₁
    rw [Ty.addLevels_one h₀ h₁, Ty.levels_withLevels]
  span _ := trivial
  added := id

theorem written_within_loose (hfew : FewStars all) : Manner.written.Within .loose all where
  literal := id
  type hts ht hty := by
    obtain ⟨hstars, hfew⟩ := hfew.suffix hts
    exact (Ty.Spelled.change (fun ty h₀ h₁ => (Ty.addLevels_one h₀ h₁).symm)
      (fun ty _ _ => Ty.levels_withLevels _ ty) hty hfew (hstars (.inl ht))).2
  span _ := trivial
  added := id

end Manner

theorem Ty.Spelled.last {raise : Ty → Ty} {ty : Ty} {ts rest : List Token}
    (h : Ty.Spelled raise ty ts rest) : ∃ last, last :: rest <:+ ts := by
  induction h with
  | @prim t | @named t | @procedure t => exact ⟨t, List.suffix_rfl⟩
  | star _ _ ih | fn _ _ ih =>
    obtain ⟨last, hlast⟩ := ih
    exact ⟨last, hlast.trans (List.suffix_cons _ _)⟩

namespace Expr

@[simp] theorem tier_relocate (f : Span → Span) (e : Expr) : (e.relocate f).tier = e.tier := by
  cases e <;> rfl

mutual

theorem layered_relocate (f : Span → Span) (e : Expr) : (e.relocate f).Layered ↔ e.Layered := by
  cases e with
  | literal | ident => exact Iff.rfl
  | paren inner => exact layered_relocate f inner
  | unary op operand => simp only [relocate, Layered, tier_relocate, layered_relocate f operand]
  | binary op lhs rhs =>
    simp only [relocate, Layered, tier_relocate, layered_relocate f lhs, layered_relocate f rhs]
  | cast operand => simp only [relocate, Layered, tier_relocate, layered_relocate f operand]
  | call callee args =>
    simp only [relocate, Layered, tier_relocate, layered_relocate f callee,
      allLayered_relocate f args]
  | member object => simp only [relocate, Layered, tier_relocate, layered_relocate f object]

theorem allLayered_relocate (f : Span → Span) (es : List Expr) :
    AllLayered (relocateAll f es) ↔ AllLayered es := by
  cases es with
  | nil => exact Iff.rfl
  | cons e es =>
    simp only [relocateAll, AllLayered, layered_relocate f e, allLayered_relocate f es]

end

theorem Layered.of_unplaced {e e' : Expr} (h : e.Layered) (heq : e'.unplaced = e.unplaced) :
    e'.Layered := by
  have hsame : e'.relocate (fun _ => .nowhere) = e.relocate fun _ => .nowhere := heq
  rw [← layered_relocate fun _ => .nowhere] at h ⊢
  rwa [hsame]

theorem close_relocate (f : Span → Span) (env : Grammar.Env) (ends : Bool) (e : Expr) :
    (withCalls.close env ends e).relocate f = withCalls.close env ends (e.relocate f) := by
  have hsame : Grammar.isFunction env (e.relocate f) = Grammar.isFunction env e :=
    Grammar.isFunction_relocate (f := f) env e
  unfold withCalls.close
  rw [hsame, span_relocate]
  split <;> rfl

mutual

/-- Whether a call is added does not hang on places. -/
theorem withCalls_relocate (f : Span → Span) (env : Grammar.Env) (ends : Bool) (e : Expr) :
    (e.withCalls env ends).relocate f = (e.relocate f).withCalls env ends := by
  cases e with
  | literal | ident => exact close_relocate f env ends _
  | paren inner =>
    simp only [withCalls, relocate, close_relocate, withCalls_relocate f env true inner]
  | unary op operand => simp only [withCalls, relocate, withCalls_relocate f env true operand]
  | binary op lhs rhs =>
    simp only [withCalls, relocate, withCalls_relocate f env true lhs,
      withCalls_relocate f env true rhs]
  | cast operand => simp only [withCalls, relocate, withCalls_relocate f env true operand]
  | call callee args =>
    simp only [withCalls, relocate, close_relocate, withCalls_relocate f env false callee,
      allWithCalls_relocate f env args]
  | member object =>
    simp only [withCalls, relocate, close_relocate, withCalls_relocate f env false object]

theorem allWithCalls_relocate (f : Span → Span) (env : Grammar.Env) (es : List Expr) :
    relocateAll f (allWithCalls env es) = allWithCalls env (relocateAll f es) := by
  cases es with
  | nil => rfl
  | cons e es =>
    simp only [allWithCalls, relocateAll, withCalls_relocate f env true e,
      allWithCalls_relocate f env es]

end

mutual

/-- Spans can be given to a tree that stands somewhere, each from the first to the last token. -/
theorem Stands.respan {e : Expr} {ts rest : List Token} (hts : InOrder ts)
    (h : e.Stands .loose ts rest) :
    ∃ e' : Expr, e'.unplaced = e.unplaced ∧ e'.Stands .read ts rest := by
  cases e with
  | literal v ty =>
    obtain ⟨t, rfl, hlit, -⟩ := h
    exact ⟨.literal v ty t.span, rfl, t, rfl, hlit, .token t rest⟩
  | ident id =>
    obtain ⟨t, rfl, ht, -⟩ := h
    exact ⟨.ident ⟨id.name, t.span⟩, rfl, t, rfl, ht, .token t rest⟩
  | paren inner =>
    obtain ⟨l, r, mid, rfl, hl, hinner, hr, -⟩ := h
    obtain ⟨inner', heq, hinner'⟩ := hinner.respan (hts.suffix (List.suffix_cons l mid))
    refine ⟨.paren inner' (l.span.through r.span), ?_, l, r, mid, rfl, hl, hinner', hr,
      (Span.Stretches.token l mid).through hts hinner'.rest rfl⟩
    simpa only [unplaced, relocate, paren.injEq, and_true] using heq
  | unary op operand =>
    obtain ⟨t, mid, rfl, ht, hoperand, -⟩ := h
    obtain ⟨operand', heq, hoperand'⟩ := hoperand.respan (hts.suffix (List.suffix_cons t mid))
    obtain ⟨last, hlast, hhi⟩ := hoperand'.span.last_suffix
    refine ⟨.unary op operand' (t.span.through operand'.span), ?_, t, mid, rfl, ht, hoperand',
      (Span.Stretches.token t mid).through hts hlast hhi⟩
    simpa only [unplaced, relocate, unary.injEq, true_and, and_true] using heq
  | binary op lhs rhs =>
    obtain ⟨t, mid, hlhs, ht, hrhs, -⟩ := h
    have hmid := List.suffix_cons t mid
    obtain ⟨lhs', heq, hlhs'⟩ := hlhs.respan hts
    obtain ⟨rhs', heq', hrhs'⟩ := hrhs.respan ((hts.suffix hlhs.rest).suffix hmid)
    obtain ⟨last, hlast, hhi⟩ := hrhs'.span.last_suffix
    refine ⟨.binary op lhs' rhs' (lhs'.span.through rhs'.span), ?_, t, mid, hlhs', ht, hrhs',
      hlhs'.span.through hts (hlast.trans hmid) hhi⟩
    simpa only [unplaced, relocate, binary.injEq, true_and, and_true] using And.intro heq heq'
  | cast operand ty =>
    obtain ⟨t, mid, hoperand, ht, hty, -⟩ := h
    obtain ⟨operand', heq, hoperand'⟩ := hoperand.respan hts
    obtain ⟨last, hlast⟩ := Ty.Spelled.last hty
    refine ⟨.cast operand' ty (operand'.span.through last.span), ?_, t, mid, hoperand', ht, hty,
      hoperand'.span.through hts (hlast.trans (List.suffix_cons t mid)) rfl⟩
    simpa only [unplaced, relocate, cast.injEq, and_true] using heq
  | call callee args =>
    obtain ⟨l, r, mid, hcallee, hl, hargs, hr, -⟩ | ⟨-, -, hadded⟩ := h
    · have hmid := List.suffix_cons l mid
      obtain ⟨callee', heq, hcallee'⟩ := hcallee.respan hts
      obtain ⟨args', heq', hargs'⟩ := hargs.respan ((hts.suffix hcallee.rest).suffix hmid)
      refine ⟨.call callee' args' (callee'.span.through r.span), ?_, .inl ⟨l, r, mid, hcallee', hl,
        hargs', hr, hcallee'.span.through hts (hargs.rest.trans hmid) rfl⟩⟩
      simpa only [unplaced, relocate, call.injEq, and_true] using And.intro heq heq'
    · exact hadded.elim
  | member object field arrow =>
    obtain ⟨t, i, hobject, ht, hi, -⟩ := h
    obtain ⟨object', heq, hobject'⟩ := hobject.respan hts
    refine ⟨.member object' ⟨field.name, i.span⟩ arrow (object'.span.through i.span), ?_, t, i,
      hobject', ht, hi, .token i rest, hobject'.span.through hts (List.suffix_cons t _) rfl⟩
    simpa only [unplaced, relocate, member.injEq, Ident.relocate, and_true] using heq

theorem AllStand.respan {es : List Expr} {ts rest : List Token} (hts : InOrder ts)
    (h : AllStand .loose es ts rest) : ∃ es', relocateAll (fun _ => .nowhere) es' =
      relocateAll (fun _ => .nowhere) es ∧ AllStand .read es' ts rest := by
  cases es with
  | nil => exact ⟨[], rfl, h⟩
  | cons e es =>
    obtain ⟨rfl, he⟩ | ⟨c, mid, he, hc, hes⟩ := h
    · obtain ⟨e', heq, he'⟩ := he.respan hts
      exact ⟨[e'], congrArg (· :: []) heq, .inl ⟨rfl, he'⟩⟩
    · obtain ⟨e', heq, he'⟩ := he.respan hts
      obtain ⟨es', heq', hes'⟩ := hes.respan ((hts.suffix he.rest).suffix (List.suffix_cons c mid))
      exact ⟨e' :: es', congrArg₂ List.cons heq heq', .inr ⟨c, mid, he', hc, hes'⟩⟩

end

end Expr

namespace Grammar

variable {env : Env} {ts : List Token} {e : Expr}

/-- The tokens as one expression, whatever is declared. -/
def whole (env : Env) (ts : List Token) : Parse Expr := do
  let e ← expr env ts
  expectEnd e.rest
  return e.value

theorem ofTokens_eq_whole (eof : Span) (ts : List Token) :
    Expr.ofTokens eof ts = whole ⟨eof, .start⟩ ts := rfl

theorem whole_eq_ok : whole env ts = .ok e ↔ Gives (exprAt env 0 ts) e [] := by
  unfold whole
  constructor
  · intro h
    obtain ⟨r, hr, h₁⟩ := bind_eq_ok.mp h
    obtain ⟨_, hend, h₂⟩ := bind_eq_ok.mp h₁
    refine ⟨r, hr, Except.ok.inj h₂, ?_⟩
    cases hrest : r.rest with
    | nil => rfl
    | cons t ts =>
      rw [hrest] at hend
      exact nomatch hend
  · rintro ⟨r, hr, rfl, hrest⟩
    refine bind_eq_ok.mpr ⟨r, hr, ?_⟩
    rw [hrest]
    rfl

/-- What is read stands there, layered, but for the calls that are added. -/
theorem whole_stands (hts : InOrder ts) (h : whole env ts = .ok e) :
    ∃ e₀ : Expr, e = e₀.withCalls env true ∧ e₀.Layered ∧ e₀.Stands .read ts [] := by
  obtain ⟨e₀, he, -, hlayered, hstands⟩ := expr_yields (whole_eq_ok.mp h) hts
  exact ⟨e₀, he, hlayered, hstands⟩

/-- What stands there, layered, is read, but for its places and the calls that are added. -/
theorem whole_of_stands (env : Env) (hts : InOrder ts) (hlayered : e.Layered)
    (h : e.Stands .loose ts []) :
    ∃ e', whole env ts = .ok e' ∧ e'.unplaced = (e.withCalls env true).unplaced := by
  obtain ⟨e₁, heq, hstands⟩ := h.respan hts
  refine ⟨e₁.withCalls env true, whole_eq_ok.mpr
    ((reread env hts (hlayered.of_unplaced heq) hstands).whole .nil).given, ?_⟩
  rw [Expr.unplaced, Expr.unplaced, Expr.withCalls_relocate, Expr.withCalls_relocate]
  exact congrArg (Expr.withCalls env true) heq

/-- The tokens of a text are read as one expression just when they derive from the grammar. If types
have no more stars than levels, what is read is layered and stands there as it is written, with
calls added where it names functions; and whatever stands there so is what is read. -/
theorem whole_reads_one_tree (src : String) (ts : List Token) (h : tokenize src = .ok ts)
    (env : Env) : ((∃ e, whole env ts = .ok e) ↔ Derives .expr ts []) ∧
    (FewStars ts →
      (∀ e, whole env ts = .ok e → e.Layered ∧
        ∃ e₀ : Expr, e = e₀.withCalls env true ∧ e₀.Layered ∧ e₀.Stands .written ts []) ∧
      ∀ e₀ : Expr, e₀.Layered → e₀.Stands .written ts [] →
        ∃ e, whole env ts = .ok e ∧ e.unplaced = (e₀.withCalls env true).unplaced) := by
  have htiles := tokenize_tiles h
  have hsrc : src.toList = [] ++ src.toList := rfl
  have hts : InOrder ts := htiles.apart
  refine ⟨⟨?_, ?_⟩, fun hfew => ⟨?_, ?_⟩⟩
  · rintro ⟨e, he⟩
    obtain ⟨e₀, -, hlayered, hstands⟩ := whole_stands hts he
    exact ((hstands.mono Manner.read_within_loose List.suffix_rfl).derives hlayered).loosen
      (Nat.zero_le _)
  · intro hderives
    have hspelled : ∀ t ∈ ts, ∃ cs, t.lexeme.Spells cs := by
      intro t ht
      obtain ⟨text, -, hspells⟩ := (htiles.placed hsrc rfl t ht).text
      exact ⟨text.toList, hspells⟩
    obtain ⟨e, -, hlayered, hstands⟩ := hderives.written hspelled List.suffix_rfl
    obtain ⟨e', he', -⟩ := whole_of_stands env hts hlayered hstands
    exact ⟨e', he'⟩
  · intro e he
    obtain ⟨e₀, rfl, hlayered, hstands⟩ := whole_stands hts he
    exact ⟨hlayered.withCalls env true, e₀, rfl, hlayered,
      hstands.mono (Manner.read_within_written hfew) List.suffix_rfl⟩
  · intro e₀ hlayered hstands
    exact whole_of_stands env hts hlayered
      (hstands.mono (Manner.written_within_loose hfew) List.suffix_rfl)

/-- Every layer once, a bare function name and a comma too many. -/
def layersText : String := "-p as **fn + f * 2 << g(@x.y, (2.5),)->z || !*q as bool"

theorem whole_reads_layersText : ∃ (env : Env) (ts : List Token) (e : Expr),
    tokenize layersText = .ok ts ∧ FewStars ts ∧ whole env ts = .ok e ∧ Derives .expr ts [] ∧
    e.Layered ∧ ∃ e₀ : Expr, e = e₀.withCalls env true ∧ e₀.Layered ∧ e₀.Stands .written ts [] := by
  let env : Env := Env.add ⟨Text.endSpan layersText, .start⟩ "f" (.fn .i32 0)
  have hrun : ((tokenize layersText).toOption.filter fun ts =>
      decide (FewStars ts) && (whole env ts).toOption.isSome).isSome := by
    decide +kernel
  obtain ⟨ts, hts⟩ := Option.isSome_iff_exists.mp hrun
  obtain ⟨hok, hboth⟩ := Option.filter_eq_some_iff.mp hts
  obtain ⟨hfew, hread⟩ := Bool.and_eq_true_iff.mp hboth
  obtain ⟨e, he⟩ := Option.isSome_iff_exists.mp hread
  rw [toOption_eq_some] at hok he
  obtain ⟨hderives, hone⟩ := whole_reads_one_tree layersText ts hok env
  obtain ⟨htree, -⟩ := hone (of_decide_eq_true hfew)
  exact ⟨env, ts, e, hok, of_decide_eq_true hfew, he, hderives.mp ⟨e, he⟩, htree e he⟩

end Grammar

end Frontend
