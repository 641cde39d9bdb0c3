import Frontend.Proofs.Truncation
import Frontend.Proofs.WellTyped

/-!
What holds of all expressions of a program. A property that expressions have as they are read, with
the names that are in sight there, and that no coercion takes from them, is one that all expressions
of a program have, before the check and after it.
-/
namespace Frontend

/-- The property holds of every expression, with what is in sight where it stands. -/
def Rule.each (C : Sight → Expr → Prop) : Rule where
  stmt v
    | .varDef _ _ init _ => ∀ e ∈ init, C v e
    | .varSet _ e _ | .expr e _ => C v e
    | .memberSet target e _ => C v target ∧ C v e
    | .return_ e _ => ∀ a ∈ e, C v a
    | _ => True
  cond := C

variable {C : Sight → Expr → Prop}

namespace Grammar

/-- Expressions have the property as they are read from these tokens, and literals keep it when they
are retyped. -/
structure Lasts (all : List Token) (C : Sight → Expr → Prop) : Prop where
  read : ∀ {env ts e rest v}, ts <:+ all → Gives (expr env ts) e rest → env.scopes.Shows v → C v e
  coerce : ∀ {v ty e e'}, e.coerce? ty = some e' → C v e → C v e'

theorem Lasts.keeps {all : List Token} (hC : Lasts all C) : Keeps all (.each C) where
  cond := hC.read
  stmt {env ts s names rest v} hts h hv := by
    cases h with
    | varInit _ hty he =>
      rintro _ ⟨⟩
      exact hC.read ((List.suffix_cons _ _).trans
        ((typeExpr_spelled hty).1.rest.trans (.trans ⟨[_, _], rfl⟩ hts))) he hv
    | quickDef he _ =>
      rintro _ ⟨⟩
      exact hC.read (.trans ⟨[_, _], rfl⟩ hts) he hv
    | expr he => exact hC.read hts he hv
    | varSet htarget he hset =>
      have he := hC.read ((List.suffix_cons _ _).trans ((expr_rest htarget).trans hts)) he hv
      obtain ⟨b, -, ⟨rfl, -⟩ | hc⟩ := assigned_inv hset
      · exact he
      · exact hC.coerce hc he
    | memberSet htarget he =>
      exact ⟨hC.read hts htarget hv,
        hC.read ((List.suffix_cons _ _).trans ((expr_rest htarget).trans hts)) he hv⟩
    | returnValue he =>
      rintro _ ⟨⟩
      exact hC.read ((List.suffix_cons _ _).trans hts) he hv
    | varDef | return_ => rintro _ ⟨⟩
    | _ => trivial

end Grammar

namespace Check

variable {v : Sight} {st st' : State} {all : List Token}

theorem Coerced.each (hC : Grammar.Lasts all C) {ty : Ty} {e e' : Expr} (h : Coerced ty e e')
    (he : C v e) : C v e' := by
  rcases h with rfl | h
  · exact he
  · exact hC.coerce h he

theorem TakesIf.each (hC : Grammar.Lasts all C) {t : ScopeTable Unit} {ty : Ty} {e e' : Option Expr}
    {ws : List (Located Warning)} (h : TakesIf t ty e e' ws) (he : ∀ a ∈ e, C v a) :
    ∀ a ∈ e', C v a := by
  cases h with
  | none => exact nofun
  | some _ h =>
    rintro _ ⟨⟩
    exact h.coerced.each hC (he _ rfl)

/-- What holds of all expressions holds of those that the check makes. -/
def Change.Each (C : Sight → Expr → Prop) : Change → Prop
  | .stmt s r => ∀ v, s.Throughout (.each C) v → r.Throughout (.each C) v
  | .alternative a r => ∀ v, a.Throughout (.each C) v → r.Throughout (.each C) v
  | .stmts ss rs | .body ss rs =>
    ∀ v, Stmt.AllThroughout (.each C) v ss → Stmt.AllThroughout (.each C) v rs

theorem Passes.each (hC : Grammar.Lasts all C) {c : Change} (h : Passes st c st') : c.Each C := by
  induction h with
  | varDef _ _ _ htakes | return_ _ _ htakes => exact fun _ => htakes.each hC
  | structDef | fnDecl | break_ | none | nil => exact fun _ _ => trivial
  | fnDef _ _ _ _ _ ih => exact fun _ hs => ⟨trivial, ih _ hs.2⟩
  | varSet _ _ htakes => exact fun v => htakes.coerced.each hC (v := v)
  | memberSet _ _ _ htakes => exact fun _ hs => ⟨hs.1, htakes.coerced.each hC hs.2⟩
  | expr => exact fun _ => id
  | for_ _ _ ih => exact fun _ hs => ⟨trivial, hs.2.1, ih _ hs.2.2⟩
  | if_ _ _ _ ih ih' => exact fun _ hs => ⟨trivial, hs.2.1, ih _ hs.2.2.1, ih' _ hs.2.2.2⟩
  | block _ ih => exact fun _ hs => ⟨trivial, ih _ hs.2⟩
  | else_ _ ih | body _ _ ih => exact ih
  | elif _ _ _ ih ih' => exact fun _ ha => ⟨ha.1, ih _ ha.2.1, ih' _ ha.2.2⟩
  | cons hfirst _ ih ih' =>
    intro v hs
    refine ⟨ih v hs.1, ?_⟩
    rw [hfirst.declares]
    exact ih' _ hs.2

end Check

section Accepted

variable {src : String} {ts : List Token} {p q : Program} {ws : List (Located Warning)}

/-- All expressions of a program that was read have the property. -/
theorem Accepted.each_read (h : Accepted src ts p q ws) (hC : Grammar.Lasts ts C) :
    Stmt.AllThroughout (.each C) .start p :=
  Grammar.program_throughout hC.keeps h.read Check.start_shows

/-- So have those of the checked program. -/
theorem Accepted.each_checked (h : Accepted src ts p q ws) (hC : Grammar.Lasts ts C) :
    Stmt.AllThroughout (.each C) .start q := by
  obtain ⟨st, hpasses, -⟩ := Program.check_eq_ok.mp h.check
  exact hpasses.each hC _ (h.each_read hC)

end Accepted

end Frontend
