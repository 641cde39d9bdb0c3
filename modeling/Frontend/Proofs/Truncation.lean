import Frontend.Proofs.Declarations
import Frontend.Proofs.Pipeline
import Frontend.Proofs.Spelling

/-!
Which float literals are reported as cut to integers. Literals are retyped in two places: in the
value of a variable while the text is read, without a word, and wherever else a value is put while
the tree is checked. So the warnings are told by the checked tree and the text: one for each
initializer, value of a member and returned value that is an integer there and has a decimal point
here.
-/
namespace Frontend

open List (Forall₂)

/-- If the expression is a literal, it is of this type. -/
def Expr.Settled (ty : Ty) (e : Expr) : Prop :=
  ∀ v ty₀ s, e.literal? = some (v, ty₀, s) → ty₀ = ty

/-- What reading leaves of the literals: the value of a variable has the variable's type, all else
is as it was read. -/
def Rule.asRead (src : String) : Rule where
  stmt v
    | .varDef _ _ init _ => ∀ e ∈ init, e.AsRead src
    | .varSet target value _ => ∃ x, v.lookup? target.name = some x ∧ value.Settled x.ty
    | .memberSet _ value _ => value.AsRead src
    | .return_ value _ => ∀ e ∈ value, e.AsRead src
    | _ => True
  cond _ _ := True

namespace Grammar

variable {src : String} {env : Env} {ts rest : List Token} {names : Names} {v : Sight}

theorem ParsesMembers.gains {ps : List Param} (h : ParsesMembers env ts ps names rest) :
    env.scopes.Gains names (ps.map Param.sighting).reverse := by
  induction h with
  | nil => exact .refl _
  | cons _ _ ih =>
    rw [List.map_cons, List.reverse_cons]
    exact (ScopeTable.Gains.add _ (.plain rfl rfl trivial rfl rfl)).trans ih

theorem ParsesParams.gains {ps : List Param} {more : Bool}
    (h : ParsesParams env ts ps more names rest) :
    env.scopes.Gains names (ps.map Param.sighting).reverse := by
  induction h with
  | nil | variadic => exact .refl _
  | last => exact .add _ (.plain rfl rfl trivial rfl rfl)
  | cons _ _ ih =>
    rw [List.map_cons, List.reverse_cons]
    exact (ScopeTable.Gains.add _ (.plain rfl rfl trivial rfl rfl)).trans ih

/-- A function is in sight before its parameters are, which are in a scope of their own. -/
theorem ParsesSignature.gains {sig : Signature} (h : ParsesSignature env ts sig names rest)
    (isExternal : Bool) :
    env.scopes.Gains (env.add sig.name.name sig.ty).scopes [sig.sighting isExternal] ∧
      (env.add sig.name.name sig.ty).scopes.enter.Gains names
      (sig.params.map Param.sighting).reverse := by
  obtain ⟨-, hps⟩ := h
  refine ⟨.add _ (.plain rfl rfl trivial rfl rfl), ?_⟩
  cases hps with
  | none => exact .refl _
  | parens hps => exact hps.gains

theorem ParsesSignature.leave {sig : Signature} {inner outer : Names} {new : Sight}
    (h : ParsesSignature env ts sig names rest) (isExternal : Bool) (hbody : names.Gains inner new)
    (hl : inner.leave? = some outer) : env.scopes.Gains outer [sig.sighting isExternal] := by
  obtain ⟨hself, hparams⟩ := h.gains isExternal
  exact hself.trans ((hparams.trans hbody).leave hl)

/-- The names that a phrase leaves, when `t` was known before it. -/
def Phrase.Gains (t t' : Names) : Phrase → Prop
  | .stmt s => t.Gains t' s.declares
  | .stmts _ => ∃ new, t.Gains t' new
  | .block .. | .alternative .. => t.Gains t' []

theorem Parses.gains {x : Phrase} (h : Parses env ts x names rest)
    (hin : env.scopes.current < env.scopes.size) : x.Gains env.scopes names := by
  induction h with
  | structDef hms hl => exact .struct hin hms.gains hl trivial trivial
  | fnDecl hsig hl => exact hsig.leave _ (.refl _) hl
  | fnDef hsig _ hl ih =>
    obtain ⟨new, hbody⟩ := ih ((hsig.gains false).2.inside (by simp))
    exact hsig.leave _ hbody hl
  | varDef | varInit | quickDef => exact .add _ (.plain rfl rfl trivial rfl rfl)
  | expr | varSet | memberSet | return_ | returnValue | break_ | none => exact .refl _
  | for_ _ _ ih | else_ _ ih => exact ih hin
  | if_ _ _ _ ih ih' | elif _ _ _ ih ih' => exact (ih hin).trans (ih' ((ih hin).inside hin))
  | braces _ hl ih | block _ hl ih =>
    obtain ⟨new, hbody⟩ := ih (by simp)
    exact hbody.leave hl
  | nil => exact ⟨[], .refl _⟩
  | cons _ _ _ ih ih' =>
    obtain ⟨new, hothers⟩ := ih' ((ih hin).inside hin)
    exact ⟨_, (ih hin).trans hothers⟩

/-- The rule holds of what is read from these tokens, with what is in sight where it is read. -/
structure Keeps (all : List Token) (R : Rule) : Prop where
  stmt : ∀ {env ts s names rest v}, ts <:+ all → Parses env ts (.stmt s) names rest →
    env.scopes.Shows v → R.stmt v s
  cond : ∀ {env ts e rest v}, ts <:+ all → Gives (expr env ts) e rest →
    env.scopes.Shows v → R.cond v e

/-- Such a rule holds throughout. -/
theorem Parses.throughout {R : Rule} {all : List Token} (hR : Keeps all R) {x : Phrase}
    (h : Parses env ts x names rest) (hts : ts <:+ all) (hv : env.scopes.Shows v) :
    x.Each (·.Throughout R v) (Stmt.AllThroughout R v) (·.Throughout R v) := by
  induction h generalizing v with
  | structDef hms hl => exact hR.stmt hts (.structDef hms hl) hv
  | fnDecl hsig hl => exact hR.stmt hts (.fnDecl hsig hl) hv
  | fnDef hsig hbody hl ih =>
    refine ⟨hR.stmt hts (.fnDef hsig hbody hl) hv, ih ?_ ?_⟩
    · exact (List.suffix_cons _ _).trans (hsig.local.suffix.trans (.trans ⟨[_, _, _], rfl⟩ hts))
    · obtain ⟨hself, hparams⟩ := hsig.gains false
      exact (hv.gain hself).enter.gain hparams
  | varDef hfn hty => exact hR.stmt hts (.varDef hfn hty) hv
  | varInit hfn hty he => exact hR.stmt hts (.varInit hfn hty he) hv
  | quickDef he hty => exact hR.stmt hts (.quickDef he hty) hv
  | expr he => exact hR.stmt hts (.expr he) hv
  | varSet htarget he hset => exact hR.stmt hts (.varSet htarget he hset) hv
  | memberSet htarget he => exact hR.stmt hts (.memberSet htarget he) hv
  | return_ => exact hR.stmt hts .return_ hv
  | returnValue he => exact hR.stmt hts (.returnValue he) hv
  | break_ => exact hR.stmt hts .break_ hv
  | for_ he hbody ih =>
    have htail := (List.suffix_cons _ _).trans hts
    exact ⟨hR.stmt hts (.for_ he hbody) hv, hR.cond htail he hv, ih ((expr_rest he).trans htail) hv⟩
  | if_ he hbody halt ih ih' =>
    have htail := (List.suffix_cons _ _).trans hts
    have hmid := (expr_rest he).trans htail
    exact ⟨hR.stmt hts (.if_ he hbody halt) hv, hR.cond htail he hv, ih hmid hv,
      ih' (hbody.rest.trans hmid) (hv.gain (hbody.gains hv.inside))⟩
  | braces hbody hl ih =>
    exact ⟨hR.stmt hts (.braces hbody hl) hv, ih ((List.suffix_cons _ _).trans hts) hv.enter⟩
  | none | nil => trivial
  | else_ _ ih => exact ih ((List.suffix_cons _ _).trans hts) hv
  | elif he hbody _ ih ih' =>
    have htail := (List.suffix_cons _ _).trans hts
    have hmid := (expr_rest he).trans htail
    exact ⟨hR.cond htail he hv, ih hmid hv,
      ih' (hbody.rest.trans hmid) (hv.gain (hbody.gains hv.inside))⟩
  | block _ _ ih => exact ih ((List.suffix_cons _ _).trans hts) hv.enter
  | cons _ hs _ ih ih' =>
    exact ⟨ih hts hv, ih' (hs.rest.trans hts) (hv.gain (hs.gains hv.inside))⟩

theorem program_throughout {R : Rule} {p : Program} (hR : Keeps ts R) (h : program env ts = .ok p)
    (hv : env.scopes.Shows v) : Stmt.AllThroughout R v p := by
  obtain ⟨names, hp⟩ := program_parses env ts h
  exact hp.throughout hR List.suffix_rfl hv

/-- The value of a variable is retyped as it is read. -/
theorem assigned_settled {target : Ident} {e e' : Expr} (h : assigned env target e = .ok e')
    (hv : env.scopes.Shows v) : ∃ x, v.lookup? target.name = some x ∧ e'.Settled x.ty := by
  obtain ⟨b, hb, hcase⟩ := assigned_inv h
  obtain ⟨x, hx, hxb⟩ := hv.lookup hb
  refine ⟨x, hx, ?_⟩
  rw [← hxb.ty]
  intro v₁ ty₁ s₁ hlit₁
  obtain ⟨rfl, hinfer⟩ | hc := hcase
  · rw [Expr.infer_of_literal? _ hlit₁] at hinfer
    exact Except.ok.inj hinfer
  · obtain ⟨v₀, ty₀, s₀, hlit, -, ⟨rfl, rfl⟩ | hlit'⟩ := Expr.literal?_coerce? hc
    · rw [hlit] at hlit₁
      cases hlit₁
      rfl
    · rw [hlit'] at hlit₁
      cases hlit₁
      rfl

theorem keeps_asRead (hts : ∀ t ∈ ts, t.StandsIn src) : Keeps ts (.asRead src) where
  cond _ _ _ := trivial
  stmt {env us s names rest v} hus h hv := by
    have hread {env us rest e} (hus : us <:+ ts) (he : Gives (expr env us) e rest) : e.AsRead src :=
      expr_asRead he fun t ht => hts t (hus.subset ht)
    cases h with
    | varInit _ hty he =>
      rintro _ ⟨⟩
      exact hread ((List.suffix_cons _ _).trans
        ((typeExpr_spelled hty).1.rest.trans (.trans ⟨[_, _], rfl⟩ hus))) he
    | quickDef he _ =>
      rintro _ ⟨⟩
      exact hread (.trans ⟨[_, _], rfl⟩ hus) he
    | varSet _ _ hset => exact assigned_settled hset hv
    | memberSet htarget he =>
      exact hread ((List.suffix_cons _ _).trans ((expr_rest htarget).trans hus)) he
    | returnValue he =>
      rintro _ ⟨⟩
      exact hread ((List.suffix_cons _ _).trans hus) he
    | varDef | return_ => rintro _ ⟨⟩
    | _ => trivial

end Grammar

/-- Where a value is put. -/
inductive Use where
  | initial
  /-- Into a variable that there is already. -/
  | variable_
  | member
  | returned
  deriving DecidableEq, Repr

mutual

/-- The values that a statement puts somewhere, in the order of the source. -/
def Stmt.uses : Stmt → List (Use × Expr)
  | .varDef _ _ init _ => init.toList.map (.initial, ·)
  | .varSet _ value _ => [(.variable_, value)]
  | .memberSet _ value _ => [(.member, value)]
  | .return_ value _ => value.toList.map (.returned, ·)
  | .fnDef _ body _ | .for_ _ body _ | .block body _ => Stmt.allUses body
  | .if_ _ body otherwise _ => Stmt.allUses body ++ otherwise.uses
  | .structDef .. | .fnDecl .. | .expr .. | .break_ .. => []

def Alternative.uses : Alternative → List (Use × Expr)
  | .none => []
  | .else_ body => Stmt.allUses body
  | .elif _ body otherwise => Stmt.allUses body ++ otherwise.uses

def Stmt.allUses : List Stmt → List (Use × Expr)
  | [] => []
  | s :: ss => s.uses ++ Stmt.allUses ss

end

/-- A literal that is an integer, but has a decimal point in the source, was cut. -/
def Expr.truncation? (src : String) (e : Expr) : Option (Located Warning) :=
  match e.literal? with
  | some (.int _, ty, s) => if s.hasPoint src then some ⟨e.span, .truncatedFloat ty⟩ else none
  | _ => none

/-- What is said of a value: nothing where it is put into a variable, for it was cut unseen. -/
def Use.warning? (src : String) : Use × Expr → Option (Located Warning)
  | (.variable_, _) => none
  | (_, e) => e.truncation? src

namespace Check

variable {src : String} {t : ScopeTable Unit} {ty : Ty} {ws : List (Located Warning)}

theorem isFloat_of_isInteger (h : ty.isInteger) : ty.isFloat = false := by
  cases ty with
  | prim p n =>
    cases p <;> simp_all [Ty.isInteger, Ty.isFloat, Ty.base, Base.isInteger, Base.isFloat]
  | _ => simp [Ty.isFloat, Ty.base, Base.isFloat]

/-- A value that is as it was read is reported if, and only if, it is cut. -/
theorem Takes.warnings {e e' : Expr} (h : Takes t ty e e' ws) (he : e.AsRead src) :
    ws = (e'.truncation? src).toList := by
  cases h with
  | same _ =>
    unfold Expr.truncation?
    split
    · rename_i hlit
      have hread : _ ∧ _ := he _ _ _ hlit
      simp [hread.2]
    · rfl
  | @retyped actual _ hinfer hne hcompatible hc =>
    obtain ⟨v, ty₀, s, hlit, hspan, hcase⟩ := Expr.literal?_coerce? hc
    obtain rfl : ty₀ = actual := by
      rw [Expr.infer_of_literal? t hlit] at hinfer
      exact Except.ok.inj hinfer
    have hlit' : e'.literal? = some (v.convert ty.isFloat, ty, s) :=
      hcase.resolve_left fun heq => hne heq.1
    have hread := he v ty₀ s hlit
    have hnumbers : ty.isNumeric ∧ ty₀.isNumeric := by simpa [Ty.compatible] using hcompatible
    unfold Expr.truncation?
    rw [hlit', hspan]
    cases v with
    | int n =>
      obtain ⟨hint, hpoint⟩ := hread
      rw [isFloat_of_isInteger hint]
      cases ty.isFloat <;> simp [Value.convert, hpoint]
    | float x =>
      obtain ⟨hfloat, hpoint⟩ := hread
      cases hty : ty.isFloat with
      | true =>
        have hnot : ty.isInteger = false := by
          cases hint : ty.isInteger with
          | false => rfl
          | true => simp [isFloat_of_isInteger hint] at hty
        simp [Value.convert, hnot]
      | false =>
        have hint : ty.isInteger := by simpa [Ty.isNumeric, hty] using hnumbers.1
        simp [Value.convert, hfloat, hint, hpoint]
    | str _ | bool _ =>
      have hother : ty₀.isNumeric = false := hread
      simp [hother] at hnumbers

/-- A value that has its type already is not reported. -/
theorem Takes.quiet {e e' : Expr} (h : Takes t ty e e' ws) (he : e.Settled ty) : ws = [] := by
  cases h with
  | same _ => rfl
  | retyped hinfer hne _ hc =>
    obtain ⟨v, ty₀, s, hlit, -⟩ := Expr.literal?_coerce? hc
    rw [Expr.infer_of_literal? t hlit, he v ty₀ s hlit] at hinfer
    exact absurd (Except.ok.inj hinfer).symm hne

theorem TakesIf.warnings {e e' : Option Expr} (h : TakesIf t ty e e' ws)
    (he : ∀ x ∈ e, x.AsRead src) : ws = e'.toList.filterMap (·.truncation? src) := by
  cases h with
  | none => rfl
  | some _ htakes =>
    rw [htakes.warnings (he _ rfl), Option.toList_some, List.filterMap_cons]
    cases Expr.truncation? src _ <;> rfl

/-- A step warns of these values as it should. -/
def Warns (src : String) (st st' : State) (uses : List (Use × Expr)) : Prop :=
  st'.warnings = st.warnings ++ uses.filterMap (Use.warning? src)

namespace Warns

variable {st st₁ st₂ : State} {uses uses' : List (Use × Expr)}

theorem refl (st : State) : Warns src st st [] := (List.append_nil _).symm

theorem trans (h : Warns src st st₁ uses) (h' : Warns src st₁ st₂ uses') :
    Warns src st st₂ (uses ++ uses') := by
  rw [Warns] at h h' ⊢
  rw [h', h, List.filterMap_append, List.append_assoc]

/-- A value that may be left out, and is no variable's. -/
theorem takesIf (use : Use) (huse : use ≠ .variable_) {e e' : Option Expr}
    (h : TakesIf st.names ty e e' ws) (he : ∀ x ∈ e, x.AsRead src) :
    Warns src st (st.warn ws) (e'.toList.map (use, ·)) := by
  have hwarning : (Use.warning? src ∘ fun x => (use, x)) = (·.truncation? src) := by
    funext x
    cases use <;> simp_all [Use.warning?]
  rw [Warns, State.warn, h.warnings he, List.filterMap_map, hwarning]

end Warns

/-- What is warned of is what is done with the values of the part of the tree. -/
def Change.Warns (src : String) (v : Sight) (st st' : State) : Change → Prop
  | .stmt s r => s.Throughout (.asRead src) v → Check.Warns src st st' r.uses
  | .alternative a r => a.Throughout (.asRead src) v → Check.Warns src st st' r.uses
  | .stmts ss rs | .body ss rs =>
    Stmt.AllThroughout (.asRead src) v ss → Check.Warns src st st' (Stmt.allUses rs)

theorem Passes.warns {v : Sight} {st st' : State} {c : Change} (h : Passes st c st')
    (hv : st.names.Shows v) : c.Warns src v st st' := by
  induction h generalizing v with
  | varDef _ _ _ htakes => exact Warns.takesIf .initial nofun htakes
  | structDef | fnDecl | expr | break_ | none | nil => exact fun _ => .refl _
  | fnDef _ _ _ _ _ ih => exact fun hs => ih (inside_shows _ hv) hs.2
  | varSet hb _ htakes =>
    rintro ⟨x, hx, hsettled⟩
    obtain ⟨x', hx', hxb⟩ := hv.lookup hb
    obtain rfl := Option.some.inj (hx.symm.trans hx')
    rw [htakes.quiet (hxb.ty ▸ hsettled)]
    simp [Check.Warns, Stmt.uses, Use.warning?]
  | memberSet _ _ hexpr htakes =>
    intro hs
    refine Warns.takesIf .member nofun (.some hexpr htakes) ?_
    rintro _ ⟨⟩
    exact hs
  | return_ _ _ htakes => exact Warns.takesIf .returned nofun htakes
  | for_ _ _ ih => exact fun hs => ih hv hs.2.2
  | if_ _ hbody _ ih ih' =>
    exact fun hs => (ih hv hs.2.2.1).trans (ih' (hv.gain (hbody.gains hv.inside)) hs.2.2.2)
  | block _ ih => exact fun hs => ih hv hs.2
  | else_ _ ih => exact ih hv
  | elif _ hbody _ ih ih' =>
    exact fun ha => (ih hv ha.2.1).trans (ih' (hv.gain (hbody.gains hv.inside)) ha.2.2)
  | cons hfirst _ ih ih' =>
    exact fun hss => (ih hv hss.1).trans (ih' (hv.gain (hfirst.gains hv.inside)) hss.2)
  | body _ _ ih => exact ih hv.enter

end Check

/-- The warnings of a text that is accepted. -/
theorem Accepted.warnings {src : String} {ts : List Token} {p q : Program}
    {ws : List (Located Warning)} (h : Accepted src ts p q ws) :
    ws = (Stmt.allUses q).filterMap (Use.warning? src) := by
  have hstart : ScopeTable.start.Shows .start := Check.start_shows
  have hread := Grammar.program_throughout (Grammar.keeps_asRead (tokenize_stands h.scan)) h.read
    hstart
  obtain ⟨st, hpasses, rfl⟩ := Program.check_eq_ok.mp h.check
  have hwarns : st.warnings = _ := hpasses.warns hstart hread
  simpa [Check.State.start] using hwarns

/-- Whether the tree or the module is written, the warnings are, in the order of the source, one for
each initializer, value of a member and returned value that is an integer literal in the checked
tree and has a decimal point in the source. Each stands at its value and names the integer type. Of
the values of variables none is reported. -/
theorem compile_warnings (file src : String) (emit : Emit) (out : Output) (hemit : emit ≠ .tokens)
    (h : compile file emit src = .ok out) :
    ∃ ts p q ws, Accepted src ts p q ws ∧ (emit = .tree → q.outline = some out.artifact) ∧
      ws = (Stmt.allUses q).filterMap (Use.warning? src) ∧
      out.warnings = ws.map Warning.diagnostic := by
  obtain ⟨ts, p, q, ws, haccepted, hwarnings, htree, -⟩ := compile_inv hemit h
  exact ⟨ts, p, q, ws, haccepted, htree, haccepted.warnings, hwarnings⟩

/-- Values of every use, cut and not cut. -/
def cutText : String :=
  "P : struct \x7b a: i32; \x7d\n" ++
  "f : fn i32 (p: P) \x7b\n" ++
  "  x : i8 = -(2.5);\n" ++
  "  y : f64 = 3;\n" ++
  "  x = 4.5;\n" ++
  "  p.a = 1.5;\n" ++
  "  if x < 1 \x7b return 6; \x7d else \x7b return (7.25); \x7d\n" ++
  "\x7d\n"

theorem compile_cutText_warnings : ∃ out, compile "main.tv" .ir cutText = .ok out ∧
    out.warnings.length = 3 ∧
    ∃ ts p q ws, Accepted cutText ts p q ws ∧ (Emit.ir = .tree → q.outline = some out.artifact) ∧
      ws = (Stmt.allUses q).filterMap (Use.warning? cutText) ∧
      out.warnings = ws.map Warning.diagnostic := by
  have hrun : (compile "main.tv" .ir cutText).toOption.map (·.warnings.length) = some 3 := by
    decide +kernel
  obtain ⟨out, hout, hlength⟩ := Option.map_eq_some_iff.mp hrun
  rw [toOption_eq_some] at hout
  exact ⟨out, hout, hlength, compile_warnings "main.tv" cutText .ir out nofun hout⟩

/-- It is not so that every value that is cut is reported. -/
theorem compile_warnings_incomplete : ¬ ∀ file src emit out, emit ≠ Emit.tokens →
    compile file emit src = .ok out → ∃ ts p q ws, Accepted src ts p q ws ∧
      ws = (Stmt.allUses q).filterMap (·.2.truncation? src) ∧
      out.warnings = ws.map Warning.diagnostic := by
  intro h
  have hrun : (compile "main.tv" .tree "x : i32; x = 2.9;").toOption.map (·.warnings) =
      some [] := by
    decide +kernel
  obtain ⟨out, hout, hquiet⟩ := Option.map_eq_some_iff.mp hrun
  obtain ⟨ts, p, q, ws, haccepted, hws, hwarnings⟩ :=
    h "main.tv" _ .tree out nofun (toOption_eq_some.mp hout)
  have hcut : surveyed "x : i32; x = 2.9;" (fun _ q _ =>
      ((Stmt.allUses q).filterMap (·.2.truncation? "x : i32; x = 2.9;")).head?.map (·.value)) =
      some (.truncatedFloat .i32) := by
    decide +kernel
  rw [haccepted.surveyed, ← hws] at hcut
  have hnone : ws = [] := by simpa [hquiet] using hwarnings.symm
  simp [hnone] at hcut

end Frontend
