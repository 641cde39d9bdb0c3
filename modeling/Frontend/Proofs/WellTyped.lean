import Frontend.Proofs.Checking
import Frontend.Proofs.Pipeline
import Frontend.Proofs.Reading
import Frontend.Proofs.WellFormed

/-!
Modules of programs that were read and checked are typed throughout. Reading gives every literal a
value of its type and checking keeps that; checking lets a value be returned only where there is one
to return. What lowering adds to this is typed whatever the program.
-/
namespace Frontend

/-- The law of checked programs. -/
def Law.checked : Law where
  literal := fun v ty => v.Matches ty
  function := Signature.Grounded
  type := Ty.Grounded
  returns := fun ret valued => 0 ≤ ret.levels ∧ valued = !ret.isVoid

variable {ty ret : Ty} {ws : List (Located Warning)}

namespace Check

theorem Coerced.fitted {e e' : Expr} (h : Coerced ty e e') (he : e.Fitted) : e'.Fitted := by
  rcases h with rfl | h
  · exact he
  · exact he.coerce? h

theorem TakesIf.fitted {t : ScopeTable Unit} {e e' : Option Expr} (h : TakesIf t ty e e' ws)
    (he : ∀ a ∈ e, a.Fitted) : ∀ a ∈ e', a.Fitted := by
  cases h with
  | none => simp
  | some _ h =>
    rintro _ ⟨⟩
    exact h.coerced.fitted (he _ rfl)

/-- The function around, if there is one, returns `ret`. -/
def Around (ret : Ty) (st : State) : Prop := ∀ ty ∈ st.returns, ty = ret ∧ 0 ≤ ret.levels

theorem Around.congr {st st' : State} (h : Around ret st) (hr : st'.returns = st.returns) :
    Around ret st' := by
  intro ty hty
  rw [hr] at hty
  exact h ty hty

/-- What was read as it should is checked as it should. -/
def Change.Checked (ret : Ty) : Change → Prop
  | .stmt s r => s.Obeys .read ret → r.Obeys .checked ret
  | .alternative a r => a.Obeys .read ret → r.Obeys .checked ret
  | .stmts ss rs | .body ss rs => Stmt.AllObey .read ret ss → Stmt.AllObey .checked ret rs

theorem Passes.checked {c : Change} {st st' : State} (h : Passes st c st') (ha : Around ret st) :
    c.Checked ret := by
  induction h generalizing ret with
  | varDef _ _ _ htakes =>
    rintro ⟨htype, hinit⟩
    refine ⟨fun hnone => htype ?_, htakes.fitted hinit⟩
    cases htakes with
    | none => rfl
    | some => cases hnone
  | structDef | fnDecl | expr => exact id
  | fnDef _ _ _ _ _ ih =>
    rintro ⟨hsig, hbody⟩
    refine ⟨hsig, ih ?_ hbody⟩
    rintro _ ⟨⟩
    exact ⟨rfl, hsig.1.levels⟩
  | varSet _ _ htakes => exact htakes.coerced.fitted
  | memberSet _ _ _ htakes => exact fun hs => ⟨hs.1, htakes.coerced.fitted hs.2⟩
  | return_ hret hsome htakes =>
    intro hs
    obtain ⟨rfl, hlevels⟩ := ha _ hret
    exact ⟨⟨hlevels, hsome⟩, htakes.fitted hs.2⟩
  | break_ | none | nil => exact fun _ => trivial
  | for_ _ _ ih => exact fun hs => ⟨hs.1, ih ha hs.2⟩
  | if_ _ hbody _ ih ih' | elif _ hbody _ ih ih' =>
    exact fun hs => ⟨hs.1, ih ha hs.2.1, ih' (ha.congr hbody.returns) hs.2.2⟩
  | block _ ih | else_ _ ih => exact ih ha
  | cons hfirst _ ih ih' => exact fun hs => ⟨ih ha hs.1, ih' (ha.congr hfirst.returns) hs.2⟩
  | body _ _ ih => exact ih (ha.congr rfl)

theorem stmts_checked (ss : List Stmt) (ret : Ty) (st st' : State) (ss' : List Stmt)
    (hrun : Runs (stmts ss) st ss' st') (hs : Stmt.AllObey .read ret ss) (ha : Around ret st) :
    Stmt.AllObey .checked ret ss' ∧ st'.returns = st.returns := by
  have hpasses := stmts_passes ss hrun
  exact ⟨hpasses.checked ha hs, hpasses.returns⟩

end Check

/-- A successful check is a run of the checking steps. -/
theorem Program.check_inv {p q : Program} (h : p.check = .ok (q, ws)) :
    ∃ st, Runs (Check.stmts p) .start q st := by
  obtain ⟨st, hpasses, -⟩ := Program.check_eq_ok.mp h
  exact ⟨st, hpasses.run⟩

/-- A checked program obeys the law of checked programs. -/
theorem Program.check_obeys {p q : Program} (h : p.check = .ok (q, ws))
    (hp : Stmt.AllObey .read .void p) : Stmt.AllObey .checked .void q := by
  obtain ⟨st, hrun⟩ := Program.check_inv h
  exact (Check.stmts_checked p .void _ _ _ hrun hp (by rintro _ ⟨⟩)).1

/-- Constants of number types and of booleans and texts have values of their class. -/
theorem Value.Matches.fits {v : Value} (h : v.Matches ty) {names : ScopeTable Handle} {t : Ir.Ty}
    (ht : ty.lower names = .ok t) : v.constant.Fits t := by
  cases v with
  | int n =>
    obtain ⟨hn, hb⟩ : ty.levels = 0 ∧ ty.base.isInteger := by
      simpa [Value.Matches, Ty.isInteger] using h
    cases ty with
    | prim p levels =>
      obtain rfl : levels = 0 := hn
      cases p <;> simp_all [Ty.base, Base.isInteger, Ty.lower, Prim.lower?, Ir.Ty.ptrs] <;>
        subst ht <;> rfl
    | _ => simp [Ty.base, Base.isInteger] at hb
  | float x =>
    obtain ⟨hn, hb⟩ : ty.levels = 0 ∧ ty.base.isFloat := by
      simpa [Value.Matches, Ty.isFloat] using h
    cases ty with
    | prim p levels =>
      obtain rfl : levels = 0 := hn
      cases p <;> simp_all [Ty.base, Base.isFloat, Ty.lower, Prim.lower?, Ir.Ty.ptrs] <;>
        subst ht <;> rfl
    | _ => simp [Ty.base, Base.isFloat] at hb
  | str s =>
    obtain rfl : ty = .string := h
    obtain rfl := Except.ok.inj ht
    rfl
  | bool b =>
    obtain rfl : ty = .bool := h
    obtain rfl := Except.ok.inj ht
    rfl

/-- A type that is not `void` is not lowered to it. -/
theorem Ty.LowersTo.void_iff {t : Ir.Ty} (h : ty.LowersTo t) (hn : 0 ≤ ty.levels) :
    t = .void ↔ ty.isVoid := by
  obtain ⟨names, hlaid, ht⟩ := h
  have hptrs : ∀ (u : Ir.Ty) (n : Nat), u.ptrs n = .void ↔ u = .void ∧ n = 0 := by
    intro u n
    cases n <;> simp [Ir.Ty.ptrs]
  have hlayout : ∀ s u, names.layout? s = some u → u ≠ .void := by
    rintro s u hu rfl
    simpa [Ir.Ty.isAggregate] using hlaid.isAggregate hu
  cases ty with
  | prim p levels =>
    have hlevels : levels.toNat = 0 ↔ levels = 0 := by
      have : 0 ≤ levels := hn
      omega
    cases p with
    | void =>
      obtain rfl := Except.ok.inj ht
      have hvoid : (Ty.prim .void levels).isVoid = decide (levels = 0) := rfl
      rw [hptrs, hlevels, hvoid, decide_eq_true_iff]
      exact and_iff_right rfl
    | any => simp [Ty.lower, Prim.lower?] at ht
    | scope => simp [Ty.lower, Prim.lower?] at ht
    | _ =>
      obtain rfl := Except.ok.inj ht
      simp [hptrs, Ty.isVoid, Ty.base]
  | struct s levels | inst s levels =>
    simp only [Ty.lower] at ht
    split at ht
    · rename_i u hu
      obtain rfl := Except.ok.inj ht
      simp [hptrs, hlayout s u hu, Ty.isVoid, Ty.base]
    · simp at ht
  | fn r levels =>
    obtain ⟨u, _, hu⟩ := bind_eq_ok.mp ht
    obtain rfl := Except.ok.inj hu
    simp [hptrs, Ty.isVoid, Ty.base]

/-- What is checked is what the typing rules ask for. -/
theorem Law.checked_le_strict : Law.checked.Le Ir.Policy.strict.law where
  literal := fun _ _ h _ _ ht => h.fits ht
  function := fun _ _ => trivial
  type := fun _ _ => trivial
  returns := by
    rintro ret valued ⟨hlevels, rfl⟩ t ht
    have hiff := ht.void_iff hlevels
    show _ = Ir.callResult t
    cases hv : ret.isVoid <;> simp_all [Ir.callResult]

/-- In the module of a program that was read and checked, the registers of every function with a
body have types with which each of its instructions and terminators is typed; constants fit their
types, calls pass what is declared, and functions return what they are declared to. -/
theorem Program.lower_wellTyped (eof : Span) (ts : List Token) (p q : Program)
    (ws : List (Located Warning)) (name : String) (m : Ir.Module)
    (hread : Program.ofTokens eof ts = .ok p) (hcheck : p.check = .ok (q, ws))
    (hlower : q.lower name = .ok m) :
    ∀ f ∈ m.funcs, f.isExternal = false → ∃ Γ, f.WellTyped .strict m.Declares Γ := by
  intro f hf hext
  obtain ⟨st, hrun⟩ := Program.check_inv hcheck
  have hp := Grammar.program_obeys _ ts p hread .void
  have hq := (Check.stmts_checked p .void _ _ _ hrun hp (by rintro _ ⟨⟩)).1
  exact (lower_funcs (Stmt.AllObey.mono Law.checked_le_strict q .void hq) hlower hf hext).2

/-- A text with literals to be converted, an operator over two types and a return in an arm. -/
def blendText : String :=
  "blend: fn f64 (n: i32) \x7b x: f64 = 1; if n > 2 \x7b x = 3; return x; \x7d return x * n; \x7d"

theorem blend_lowers : ∃ ts p q ws m, Accepted blendText ts p q ws ∧ q.lower "blend" = .ok m ∧
    m.funcs.map (·.isExternal) = [true, false] :=
  surveyed_lower (f := fun _ m => m.funcs.map (·.isExternal)) (by decide +kernel)

theorem Program.lower_blend_wellTyped : ∃ ts p q ws m, tokenize blendText = .ok ts ∧
    Program.ofTokens (Text.endSpan blendText) ts = .ok p ∧ p.check = .ok (q, ws) ∧
    q.lower "blend" = .ok m ∧ (∃ f ∈ m.funcs, f.isExternal = false) ∧
    ∀ f ∈ m.funcs, f.isExternal = false → ∃ Γ, f.WellTyped .strict m.Declares Γ := by
  obtain ⟨ts, p, q, ws, m, ⟨hts, hp, hq⟩, hm, hfuncs⟩ := blend_lowers
  have hmem : false ∈ m.funcs.map (·.isExternal) := by simp [hfuncs]
  obtain ⟨f, hf, hext⟩ := List.mem_map.mp hmem
  exact ⟨ts, p, q, ws, m, hts, hp, hq, hm, ⟨f, hf, hext⟩,
    lower_wellTyped (Text.endSpan blendText) ts p q ws "blend" m hp hq hm⟩

end Frontend
