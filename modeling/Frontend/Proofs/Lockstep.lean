import Frontend.Proofs.Idempotence
import Frontend.Proofs.Unmarked
import Frontend.Proofs.Ways
import Frontend.Proofs.WellTyped

/-!
Reading and checking in lockstep. Whatever way the check goes over the tree that was read, the
reader went the same way over the tokens, and where they arrive they know the same names, with the
same types, leading to the same scopes. So the type that reading gave to a variable is the type that
the check infers for its value, and a value that is assigned has the type of its variable: there is
nothing left to coerce.
-/
namespace Frontend

namespace Grammar

variable {env : Env} {ts rest : List Token} {names : Names} {st st' : Check.State}
  {ss body : List Stmt}

/-- Inside a function, its name and its parameters are known. -/
theorem signature_alike {t : ScopeTable Unit} (sig : Signature) (isExternal : Bool)
    (halike : t.Alike env.scopes) :
    ((t.add (Check.sigBinding sig isExternal)).enter.addAll
      (sig.params.map Check.paramBinding)).Alike
      ((env.add sig.name.name sig.ty).scopes.enter.addAll (sig.params.map Check.paramBinding)) := by
  have hself : (t.add (Check.sigBinding sig isExternal)).Alike
      (env.add sig.name.name sig.ty).scopes :=
    halike.add rfl
  exact hself.enter.addAll _

/-- The check of the phrase leads from one state to the other. -/
def Phrase.Checks (st st' : Check.State) : Phrase → Prop
  | .stmt s => ∃ r, Check.Passes st (.stmt s r) st'
  | .stmts ss => ∃ rs, Check.Passes st (.stmts ss rs) st'
  | .block ss _ => ∃ rs, Check.Passes st (.body ss rs) st'
  | .alternative _ a _ => ∃ r, Check.Passes st (.alternative a r) st'

/-- A phrase does the same to the names when it is read and when it is checked. -/
theorem Parses.alike {x : Phrase} (h : Parses env ts x names rest)
    (halike : st.names.Alike env.scopes) (hx : x.Checks st st') : st'.names.Alike names := by
  induction h generalizing st st' with obtain ⟨r, hx⟩ := hx
  | structDef hms hleave =>
    cases hx with
    | structDef _ _ hleave' =>
      rw [hms.scopes] at hleave
      exact (((halike.enterMarked _ _).addAll _).leave hleave' hleave).add (by rw [halike.size])
  | fnDecl hsig hleave =>
    cases hx with
    | fnDecl _ _ _ hleave' =>
      rw [hsig.scopes] at hleave
      exact (signature_alike _ true halike).leave hleave' hleave
  | @fnDef _ sig _ _ _ _ _ _ _ _ _ _ _ hsig _ hleave ih =>
    cases hx with
    | fnDef _ _ _ hbody hleave' =>
      have hinner := signature_alike sig false halike
      rw [← hsig.scopes] at hinner
      exact (ih hinner ⟨_, hbody⟩).leave hleave' hleave
  | varDef | varInit | quickDef =>
    cases hx
    exact halike.add rfl
  | expr | varSet | memberSet | return_ | returnValue | break_ | none | nil =>
    cases hx
    exact halike
  | for_ _ _ ih =>
    cases hx with
    | for_ _ hbody => exact ih halike ⟨_, hbody⟩
  | if_ _ _ _ ih ih' =>
    cases hx with
    | if_ _ hbody hother => exact ih' (ih halike ⟨_, hbody⟩) ⟨_, hother⟩
  | braces _ hleave ih =>
    cases hx with
    | block hbody =>
      cases hbody with
      | body hstmts hleave' => exact (ih halike.enter ⟨_, hstmts⟩).leave hleave' hleave
  | else_ _ ih =>
    cases hx with
    | else_ hbody => exact ih halike ⟨_, hbody⟩
  | elif _ _ _ ih ih' =>
    cases hx with
    | elif _ hbody hother => exact ih' (ih halike ⟨_, hbody⟩) ⟨_, hother⟩
  | block _ hleave ih =>
    cases hx with
    | body hstmts hleave' => exact (ih halike.enter ⟨_, hstmts⟩).leave hleave' hleave
  | cons _ _ _ ih ih' =>
    cases hx with
    | cons hs hss => exact ih' (ih halike ⟨_, hs⟩) ⟨_, hss⟩

/-- Both are before these statements, knowing the same names. -/
def Meet (p : List Stmt × Check.State) (q : Env × List Token) : Prop :=
  ∃ names rest, Parses q.1 q.2 (.stmts p.1) names rest ∧ p.2.names.Alike q.1.scopes

def MeetAlternative (p : Alternative × Span × Check.State) (q : Env × List Token) : Prop :=
  ∃ last close names rest, Parses q.1 q.2 (.alternative last p.1 close) names rest ∧
    p.2.2.names.Alike q.1.scopes

theorem Parses.meet {close : Span} (h : Parses env ts (.block body close) names rest)
    (halike : st.names.Alike env.scopes) :
    ∃ q, blockStart? env ts = some q ∧ Meet (body, { st with names := st.names.enter }) q := by
  cases h with
  | block hbody _ => exact ⟨_, rfl, _, _, hbody, halike.enter⟩

theorem guardedStart?_meet {cond : Expr} {close : Span} {mid : List Token}
    {p : List Stmt × Check.State} (he : Gives (expr env ts) cond mid)
    (hbody : Parses env mid (.block body close) names rest) (halike : st.names.Alike env.scopes)
    (hp : Check.guardedStart? cond body st = some p) :
    ∃ q, guardedStart? env ts = some q ∧ Meet p q := by
  obtain ⟨-, rfl⟩ := Check.guardedStart?_eq_some.mp hp
  rw [guardedStart?_eq he]
  exact hbody.meet halike

theorem guardedEnd?_meet {cond : Expr} {last close s : Span} {mid after : List Token}
    {outer : Names} {otherwise : Alternative} {p : Alternative × Span × Check.State}
    (he : Gives (expr env ts) cond mid) (hbody : Parses env mid (.block body last) names after)
    (hother : Parses { env with scopes := names } after
      (.alternative last otherwise close) outer rest)
    (halike : st.names.Alike env.scopes)
    (hp : Check.guardedEnd? cond body otherwise s st = some p) :
    ∃ q, guardedEnd? env ts = some q ∧ MeetAlternative p q := by
  obtain ⟨-, body', st', hpasses, rfl⟩ := Check.guardedEnd?_eq_some.mp hp
  exact ⟨_, guardedEnd?_eq he hbody, last, close, outer, rest, hother,
    hbody.alike halike ⟨_, hpasses⟩⟩

/-- Each move of the check is a move of the reader. -/
theorem moves_follow : Check.moves.Follows moves Meet MeetAlternative where
  next := by
    rintro ⟨ss, st⟩ ⟨env, ts⟩ ⟨names, rest, h, halike⟩ p hp
    cases h with
    | nil => cases hp
    | cons _ hs hss =>
      obtain ⟨st', hfirst, ⟨⟩⟩ := Option.bind_eq_some_iff.mp hp
      obtain ⟨_, hruns⟩ := Check.after?_eq_some.mp hfirst
      have hafter := hs.alike halike ⟨_, Check.stmt_passes _ hruns⟩
      obtain ⟨⟨_, _⟩, hstmt, ⟨⟩, rfl⟩ := hs.given
      exact ⟨_, Option.bind_eq_some_iff.mpr ⟨_, toOption_eq_some.mpr hstmt, rfl⟩, _, _, hss, hafter⟩
  body := by
    rintro ⟨ss, st⟩ ⟨env, ts⟩ ⟨names, rest, h, halike⟩ p hp
    cases h with
    | nil => cases hp
    | cons _ hs _ =>
      cases hs with try cases hp
      | fnDef hsig hbody _ =>
        obtain ⟨st₁, hsig', h₁⟩ := Option.bind_eq_some_iff.mp hp
        obtain ⟨_, hsig'⟩ := Check.after?_eq_some.mp hsig'
        obtain ⟨-, rfl⟩ := Check.runs_signature.mp hsig'
        obtain ⟨st₂, hparams, ⟨⟩⟩ := Option.bind_eq_some_iff.mp h₁
        obtain ⟨_, hparams⟩ := Check.after?_eq_some.mp hparams
        obtain ⟨-, rfl⟩ := Check.runs_declareParams.mp hparams
        have hscopes := hsig.scopes
        obtain ⟨⟨ret, hret, rfl, rfl⟩, hps⟩ := hsig
        obtain ⟨⟨_, _, _⟩, hps, ⟨⟩, rfl⟩ := hps.given
        refine ⟨_, Option.bind_eq_some_iff.mpr ⟨ret, toOption_eq_some.mpr hret,
          Option.bind_eq_some_iff.mpr ⟨_, toOption_eq_some.mpr hps, rfl⟩⟩, _, _, hbody, ?_⟩
        rw [hscopes]
        exact signature_alike _ false halike
      | for_ he hbody | if_ he hbody _ => exact guardedStart?_meet he hbody halike hp
      | braces hbody _ => exact ⟨_, rfl, _, _, hbody, halike.enter⟩
  arms := by
    rintro ⟨ss, st⟩ ⟨env, ts⟩ ⟨names, rest, h, halike⟩ p hp
    cases h with
    | nil => cases hp
    | cons _ hs _ =>
      cases hs with try cases hp
      | if_ he hbody hother => exact guardedEnd?_meet he hbody hother halike hp
  arm := by
    rintro ⟨a, s, st⟩ ⟨env, ts⟩ ⟨last, close, names, rest, h, halike⟩ p hp
    cases h with try cases hp
    | else_ hbody => exact hbody.meet halike
    | elif he hbody _ => exact guardedStart?_meet he hbody halike hp
  other := by
    rintro ⟨a, s, st⟩ ⟨env, ts⟩ ⟨last, close, names, rest, h, halike⟩ p hp
    cases h with try cases hp
    | elif he hbody hother => exact guardedEnd?_meet he hbody hother halike hp

/-- Wherever the check comes to a statement, reading came to that statement with the same names. -/
theorem reach?_alike {w : Way} {s : Stmt} (hread : Parses env ts (.stmts ss) names rest)
    (halike : st.names.Alike env.scopes) (h : Check.reach? w ss st = some (s, st')) :
    ∃ env' ts', reach? w env ts = some (env', ts') ∧ st'.names.Alike env'.scopes ∧
      ∃ names' rest', Parses env' ts' (.stmt s) names' rest' := by
  obtain ⟨⟨ss', st₁⟩, hgo, h₁⟩ := Option.bind_eq_some_iff.mp h
  obtain ⟨s₁, hhead, ⟨⟩⟩ := Option.bind_eq_some_iff.mp h₁
  have hmeet : Meet (ss, st) (env, ts) := ⟨names, rest, hread, halike⟩
  obtain ⟨⟨env', ts'⟩, hgo', _, _, hparses, halike'⟩ := moves_follow.go? w hmeet _ hgo
  cases hparses with
  | nil => cases hhead
  | cons _ hs _ =>
    cases hhead
    exact ⟨env', ts', hgo', halike', _, _, hs⟩

/-- The type of a value that is defined without one is the type that it has here. -/
theorem quickDef_inv {name : Ident} {r : Step ts.length (Stmt × Names)}
    (h : quickDef env name ts = .ok r) :
    ∃ ty e s, r.value.1 = .varDef name ty (some e) s ∧ e.infer env.scopes = .ok ty := by
  obtain ⟨e, he, h₁⟩ := bind_eq_ok.mp h
  obtain ⟨ty, hty, h₂⟩ := bind_eq_ok.mp h₁
  obtain ⟨semi, hsemi, h₃⟩ := bind_eq_ok.mp h₂
  obtain rfl := Except.ok.inj h₃
  exact ⟨ty, e.value, _, rfl, mapError_eq_ok.mp hty⟩

end Grammar

/-- A value whose type is `ty`, so that the coercion to `ty` gives it back without a word. -/
def Check.TakesAsIs (ty : Ty) (e : Expr) (st : State) : Prop :=
  e.infer st.names = .ok ty ∧ outcome (coerce ty e .invalidType) st = (.ok e, st)

theorem Check.TakesAsIs.of_infer {ty : Ty} {e : Expr} {st : State} (h : e.infer st.names = .ok ty) :
    TakesAsIs ty e st := ⟨h, runs_coerce.mpr ⟨[], .same h, by simp⟩⟩

/-- Whatever was read, each statement that the check comes to is one that reading came to by the
same way, with the same names in the same scopes, of the same types and leading to the same scopes.
If it is a definition by `:=`, its value has the type that reading gave to the variable; if a value
is assigned to a variable, there is that variable, and the value has its type. A check that succeeds
comes to every statement. -/
theorem ofTokens_check_alike {eof : Span} {ts : List Token} {p : Program}
    (hread : Program.ofTokens eof ts = .ok p) :
    (∀ w s st, Check.reach? w p .start = some (s, st) →
      ∃ env ts', Grammar.reach? w ⟨eof, .start⟩ ts = some (env, ts') ∧
        (∃ r, Grammar.stmt env ts' = .ok r ∧ r.value.1 = s) ∧
        st.names.Alike env.scopes ∧
        (∀ x s₁ s₂ rest, ts' = ⟨.identifier x, s₁⟩ :: ⟨.punct .quickAssign, s₂⟩ :: rest →
          ∃ ty e s₃, s = .varDef ⟨x, s₁⟩ ty (some e) s₃ ∧ Check.TakesAsIs ty e st) ∧
        ∀ target value s₁, s = .varSet target value s₁ →
          ∃ b, st.names.find? target.name = some b ∧ Check.TakesAsIs b.ty value st) ∧
    ∀ r, p.check = .ok r → ∀ w s, w.find? p = some s →
      ∃ st, Check.reach? w p .start = some (s, st) := by
  constructor
  · intro w s st hreach
    obtain ⟨names, hparses⟩ := Grammar.program_parses _ ts hread
    obtain ⟨env, ts', hreach', halike, names', rest', hs⟩ :=
      Grammar.reach?_alike hparses (.refl Check.State.start.names) hreach
    obtain ⟨r, hr, hvalue, -⟩ := hs.given
    refine ⟨env, ts', hreach', ⟨r, hr, by rw [hvalue]⟩, halike, ?_, ?_⟩
    · rintro x s₁ s₂ rest rfl
      unfold Grammar.stmt at hr
      obtain ⟨r', hr', h₁⟩ := bind_eq_ok.mp hr
      obtain rfl := Except.ok.inj h₁
      obtain ⟨ty, e, s₃, hs', hinfer⟩ := Grammar.quickDef_inv hr'
      refine ⟨ty, e, s₃, ?_, .of_infer (by rw [halike.infer, hinfer])⟩
      rw [← hs', hvalue]
    · rintro target value s₁ rfl
      cases hs with
      | varSet _ _ hset =>
        obtain ⟨b, hb, hinfer⟩ : ∃ b, env.scopes.find? target.name = some b ∧
            value.infer env.scopes = .ok b.ty := by
          obtain ⟨b, hb, ⟨rfl, hinfer⟩ | hc⟩ := Grammar.assigned_inv hset
          · exact ⟨b, hb, hinfer⟩
          · exact ⟨b, hb, (Check.coerce?_checked _ _ hc).2⟩
        obtain ⟨b', hb', hty⟩ := halike.find? hb
        exact ⟨b', hb', .of_infer (by rw [halike.infer, hinfer, hty])⟩
  · rintro ⟨q, ws⟩ hcheck w s hs
    obtain ⟨st, hruns⟩ := Program.check_inv hcheck
    exact Check.reach?_of_runs hruns hs

/-- Variables are defined and assigned in the branches of a function that calls itself. -/
def branchesText : String :=
  "f : fn f64 (n: i32) \x7b if n \x7b n = 2.5; \x7d elif f(n) \x7b y := f(n); y = 1; \x7d" ++
    " else \x7b f := n; \x7d return 0.5; \x7d"

/-- To the assignment to `y`. -/
def branchWay : Way := .inside 0 (.inside 1 (.next .here))

def Stmt.assigned? : Stmt → Option Ident
  | .varSet target _ _ => some target
  | _ => none

theorem Stmt.assigned?_eq_some {s : Stmt} {x : Ident} (h : s.assigned? = some x) :
    ∃ e s₁, s = .varSet x e s₁ := by
  cases s <;> simp_all [Stmt.assigned?]

theorem check_branchesText_alike : ∃ ts p, tokenize branchesText = .ok ts ∧
    Program.ofTokens (Text.endSpan branchesText) ts = .ok p ∧
    ∃ x e s₁ st, Check.reach? branchWay p .start = some (.varSet x e s₁, st) ∧ x.name = "y" ∧
      (∃ env ts', Grammar.reach? branchWay ⟨Text.endSpan branchesText, .start⟩ ts =
        some (env, ts') ∧ st.names.Alike env.scopes) ∧
      ∃ b, st.names.find? x.name = some b ∧ Check.TakesAsIs b.ty e st := by
  have hrun : surveyed branchesText (fun p _ _ =>
      ((branchWay.find? p).bind Stmt.assigned?).map (·.name)) = some "y" := by
    exact surveyed_of_chars (append_ofList rfl) (by decide +kernel)
  obtain ⟨ts, p, q, ws, haccepted, hp⟩ := surveyed_eq_some hrun
  obtain ⟨x, hx, hname⟩ := Option.map_eq_some_iff.mp hp
  obtain ⟨s, hfind, hs⟩ := Option.bind_eq_some_iff.mp hx
  obtain ⟨e, s₁, rfl⟩ := Stmt.assigned?_eq_some hs
  have halike := ofTokens_check_alike haccepted.read
  obtain ⟨st, hreach⟩ := halike.2 _ haccepted.check branchWay _ hfind
  obtain ⟨env, ts', hreach', -, hnames, -, hvalue⟩ := halike.1 branchWay _ st hreach
  exact ⟨ts, p, haccepted.scan, haccepted.read, x, e, s₁, st, hreach, hname,
    ⟨env, ts', hreach', hnames⟩, hvalue x e s₁ rfl⟩

end Frontend
