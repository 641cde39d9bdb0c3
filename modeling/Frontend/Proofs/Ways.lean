import Frontend.Proofs.Obligations
import Frontend.Proofs.Truncation

/-!
Ways to statements. A statement is found by a way: over the statements before it, and into the
bodies that it stands in. How a way is gone is said once, for any moves: over a statement, into a
body, over an alternative. The reader moves over the tokens, knowing the names declared so far, and
the checker over the tree, from state to state. A check that succeeds comes to every statement.
-/
namespace Frontend

/-- How to come to a statement, from the first one of a list. -/
inductive Way where
  | here
  /-- Over the first statement. -/
  | next (w : Way)
  /-- Into a body of the first statement. They are numbered in the order of the source. -/
  | inside (n : Nat) (w : Way)
  deriving DecidableEq, Repr

/-- The moves over a program. A place `ρ` is before the statements of a list, a place `α` before the
alternatives of an `if`. -/
structure Moves (ρ α : Type) where
  /-- Over the first statement. -/
  next : ρ → Option ρ
  /-- Into its first body. -/
  body : ρ → Option ρ
  /-- Over that body, to the alternatives. -/
  arms : ρ → Option α
  /-- Into the body of the first alternative. -/
  arm : α → Option ρ
  /-- Over the first alternative. -/
  other : α → Option α

/-- What the one comes to, the other comes to as well, as `R` says. -/
def Leads {β β' : Type} (R : β → β' → Prop) (x : Option β) (y : Option β') : Prop :=
  ∀ r, x = some r → ∃ r', y = some r' ∧ R r r'

namespace Moves

variable {ρ α ρ' α' : Type} {R : ρ → ρ' → Prop} {S : α → α' → Prop}

def armAt (m : Moves ρ α) : Nat → α → Option ρ
  | 0, a => m.arm a
  | n + 1, a => (m.other a).bind (m.armAt n)

def inside (m : Moves ρ α) : Nat → ρ → Option ρ
  | 0, r => m.body r
  | n + 1, r => (m.arms r).bind (m.armAt n)

/-- The place to which a way leads. -/
def go? (m : Moves ρ α) : Way → ρ → Option ρ
  | .here, r => some r
  | .next w, r => (m.next r).bind (m.go? w)
  | .inside n w, r => (m.inside n r).bind (m.go? w)

/-- Each move of the first is a move of the second. -/
structure Follows (m : Moves ρ α) (m' : Moves ρ' α') (R : ρ → ρ' → Prop) (S : α → α' → Prop) :
    Prop where
  next {r r'} : R r r' → Leads R (m.next r) (m'.next r')
  body {r r'} : R r r' → Leads R (m.body r) (m'.body r')
  arms {r r'} : R r r' → Leads S (m.arms r) (m'.arms r')
  arm {a a'} : S a a' → Leads R (m.arm a) (m'.arm a')
  other {a a'} : S a a' → Leads S (m.other a) (m'.other a')

theorem leads_bind {β β' γ γ' : Type} {Q : β → β' → Prop} {T : γ → γ' → Prop} {x : Option β}
    {y : Option β'} {f : β → Option γ} {g : β' → Option γ'} (h : Leads Q x y)
    (hfg : ∀ {r r'}, Q r r' → Leads T (f r) (g r')) : Leads T (x.bind f) (y.bind g) := by
  intro q hq
  obtain ⟨r, hx, hq⟩ := Option.bind_eq_some_iff.mp hq
  obtain ⟨r', rfl, hr⟩ := h r hx
  exact hfg hr q hq

variable {m : Moves ρ α} {m' : Moves ρ' α'}

theorem Follows.armAt (h : m.Follows m' R S) (n : Nat) {a : α} {a' : α'} (ha : S a a') :
    Leads R (m.armAt n a) (m'.armAt n a') := by
  induction n generalizing a a' with
  | zero => exact h.arm ha
  | succ n ih => exact leads_bind (h.other ha) ih

theorem Follows.inside (h : m.Follows m' R S) (n : Nat) {r : ρ} {r' : ρ'} (hr : R r r') :
    Leads R (m.inside n r) (m'.inside n r') := by
  cases n with
  | zero => exact h.body hr
  | succ n => exact leads_bind (h.arms hr) (h.armAt n)

/-- Whatever way the first goes, the second goes. -/
theorem Follows.go? (h : m.Follows m' R S) (w : Way) {r : ρ} {r' : ρ'} (hr : R r r') :
    Leads R (m.go? w r) (m'.go? w r') := by
  induction w generalizing r r' with
  | here =>
    rintro _ ⟨⟩
    exact ⟨r', rfl, hr⟩
  | next w ih => exact leads_bind (h.next hr) ih
  | inside n w ih => exact leads_bind (h.inside n hr) ih

/-- Over the tree alone. -/
def tree : Moves (List Stmt) Alternative where
  next := List.tail?
  body
    | .fnDef _ body _ :: _ | .for_ _ body _ :: _ | .if_ _ body _ _ :: _ | .block body _ ::
        _ => some body
    | _ => none
  arms
    | .if_ _ _ otherwise _ :: _ => some otherwise
    | _ => none
  arm
    | .elif _ body _ | .else_ body => some body
    | .none => none
  other
    | .elif _ _ otherwise => some otherwise
    | _ => none

end Moves

/-- The statement of the tree to which a way leads. -/
def Way.find? (w : Way) (ss : List Stmt) : Option Stmt := (Moves.tree.go? w ss).bind List.head?

namespace Grammar

/-- Where the statements of a block begin, and what is known there. -/
def blockStart? (env : Env) (ts : List Token) : Option (Env × List Token) := do
  let mark ← (expect env (.punct .lBrace) ts).toOption
  return ({ env with scopes := env.scopes.enter }, mark.rest)

/-- Over a condition, into the block behind it. -/
def guardedStart? (env : Env) (ts : List Token) : Option (Env × List Token) := do
  let cond ← (expr env ts).toOption
  blockStart? env cond.rest

/-- Over a condition and the block behind it. -/
def guardedEnd? (env : Env) (ts : List Token) : Option (Env × List Token) := do
  let cond ← (expr env ts).toOption
  let body ← (block env cond.rest).toOption
  return ({ env with scopes := body.value.2.2 }, body.rest)

/-- Over the tokens, with the names that the reader knows. -/
def moves : Moves (Env × List Token) (Env × List Token) where
  next := fun (env, ts) => do
    let s ← (stmt env ts).toOption
    return ({ env with scopes := s.value.2 }, s.rest)
  body
    | (env, ⟨.identifier name, _⟩ :: ⟨.punct .colon, _⟩ :: ⟨.keyword .fn, _⟩ :: ts) => do
      let ret ← (returnType env.eof ts).toOption
      let env := env.add name (.fn ret.value 0)
      let ps ← (paramList { env with scopes := env.scopes.enter } ret.rest).toOption
      let env := { env with scopes := ps.value.2.2 }
      let mark ← (expect env (.punct .lBrace) ps.rest).toOption
      return (env, mark.rest)
    | (env, ⟨.keyword .for_, _⟩ :: ts) | (env, ⟨.keyword .if_, _⟩ :: ts) => guardedStart? env ts
    | (env, ⟨.punct .lBrace, _⟩ :: ts) => some ({ env with scopes := env.scopes.enter }, ts)
    | _ => none
  arms
    | (env, ⟨.keyword .if_, _⟩ :: ts) => guardedEnd? env ts
    | _ => none
  arm
    | (env, ⟨.keyword .elif, _⟩ :: ts) => guardedStart? env ts
    | (env, ⟨.keyword .else_, _⟩ :: ts) => blockStart? env ts
    | _ => none
  other
    | (env, ⟨.keyword .elif, _⟩ :: ts) => guardedEnd? env ts
    | _ => none

/-- What the reader knows, and the tokens that it has before it, when it comes to a statement. -/
def reach? (w : Way) (env : Env) (ts : List Token) : Option (Env × List Token) :=
  moves.go? w (env, ts)

section Derivations

variable {env : Env} {ts rest : List Token} {names : Names}

theorem ParsesMembers.scopes {ps : List Param} (h : ParsesMembers env ts ps names rest) :
    names = env.scopes.addAll (ps.map Check.paramBinding) := by
  induction h with
  | nil => rfl
  | cons _ _ ih => exact ih

theorem ParsesParams.scopes {ps : List Param} {more : Bool}
    (h : ParsesParams env ts ps more names rest) :
    names = env.scopes.addAll (ps.map Check.paramBinding) := by
  induction h with
  | nil | variadic | last => rfl
  | cons _ _ ih => exact ih

theorem ParsesSignature.scopes {sig : Signature} (h : ParsesSignature env ts sig names rest) :
    names =
      (env.add sig.name.name sig.ty).scopes.enter.addAll (sig.params.map Check.paramBinding) := by
  obtain ⟨-, hps⟩ := h
  cases hps with
  | none => rfl
  | parens hps => exact hps.scopes

theorem guardedStart?_eq {cond : Expr} (h : Gives (expr env ts) cond rest) :
    guardedStart? env ts = blockStart? env rest := by
  obtain ⟨r, hr, rfl, rfl⟩ := h
  rw [guardedStart?, toOption_eq_some.mpr hr]
  rfl

theorem guardedEnd?_eq {cond : Expr} {mid : List Token} {body : List Stmt} {close : Span}
    (h : Gives (expr env ts) cond mid) (hbody : Parses env mid (.block body close) names rest) :
    guardedEnd? env ts = some ({ env with scopes := names }, rest) := by
  obtain ⟨r, hr, rfl, rfl⟩ := h
  obtain ⟨⟨_, _, _⟩, hblock, ⟨⟩, rfl⟩ := hbody.given
  rw [guardedEnd?, toOption_eq_some.mpr hr, Option.bind_eq_bind, Option.bind_some,
    toOption_eq_some.mpr hblock]
  rfl

end Derivations

end Grammar

namespace Check

/-- The state after a step that succeeds. -/
def after? (act : CheckM α) (st : State) : Option State :=
  match outcome act st with
  | (.ok _, st') => some st'
  | (.error _, _) => none

variable {st st' : State} {body ss rs : List Stmt} {s : Stmt}

theorem after?_eq_some {act : CheckM α} : after? act st = some st' ↔ ∃ a, Runs act st a st' := by
  unfold after? Runs
  split
  · rename_i a st₁ hout
    rw [hout]
    simp [eq_comm]
  · rename_i hout
    rw [hout]
    simp

theorem after?_checkExpr {cond : Expr} :
    after? (checkExpr cond) st = some st' ↔ expr st.names cond = .ok () ∧ st' = st := by
  rw [after?_eq_some]
  constructor
  · rintro ⟨⟨⟩, hruns⟩
    exact runs_checkExpr.mp hruns
  · intro hruns
    exact ⟨(), runs_checkExpr.mpr hruns⟩

/-- Over a condition, into the body behind it. -/
def guardedStart? (cond : Expr) (body : List Stmt) (st : State) : Option (List Stmt × State) := do
  let st ← after? (checkExpr cond) st
  return (body, { st with names := st.names.enter })

/-- Over a condition and the body behind it. -/
def guardedEnd? (cond : Expr) (body : List Stmt) (otherwise : Alternative) (s : Span) (st : State) :
    Option (Alternative × Span × State) := do
  let st ← after? (checkExpr cond) st
  let st ← after? (inScope s (stmts body)) st
  return (otherwise, s, st)

/-- Over the tree, from state to state. An alternative comes with the span of its `if`. -/
def moves : Moves (List Stmt × State) (Alternative × Span × State) where
  next
    | ([], _) => none
    | (s :: ss, st) => do
      let st ← after? (stmt s) st
      return (ss, st)
  body
    | (.fnDef sig body _ :: _, st) => do
      let st ← after? (signature sig false) st
      let st ← after? (sig.params.forM declareParam)
        { st with names := st.names.enter, returns := some sig.ret }
      return (body, st)
    | (.for_ cond body _ :: _, st) | (.if_ cond body _ _ :: _, st) => guardedStart? cond body st
    | (.block body _ :: _, st) => some (body, { st with names := st.names.enter })
    | _ => none
  arms
    | (.if_ cond body otherwise s :: _, st) => guardedEnd? cond body otherwise s st
    | _ => none
  arm
    | (.elif cond body _, _, st) => guardedStart? cond body st
    | (.else_ body, _, st) => some (body, { st with names := st.names.enter })
    | (.none, _, _) => none
  other
    | (.elif cond body otherwise, s, st) => guardedEnd? cond body otherwise s st
    | _ => none

/-- A statement that the check comes to, and the state in which it does. -/
def reach? (w : Way) (ss : List Stmt) (st : State) : Option (Stmt × State) := do
  let (ss, st) ← moves.go? w (ss, st)
  let s ← ss.head?
  return (s, st)

theorem guardedStart?_eq_some {cond : Expr} {r : List Stmt × State} :
    guardedStart? cond body st = some r ↔
      expr st.names cond = .ok () ∧ r = (body, { st with names := st.names.enter }) := by
  simp only [guardedStart?, Option.bind_eq_bind, Option.bind_eq_some_iff, after?_checkExpr]
  constructor
  · rintro ⟨_, ⟨hcond, rfl⟩, ⟨⟩⟩
    exact ⟨hcond, rfl⟩
  · rintro ⟨hcond, rfl⟩
    exact ⟨st, ⟨hcond, rfl⟩, rfl⟩

theorem guardedEnd?_eq_some {cond : Expr} {otherwise : Alternative} {sp : Span}
    {r : Alternative × Span × State} : guardedEnd? cond body otherwise sp st = some r ↔
      expr st.names cond = .ok () ∧
        ∃ body' st', Passes st (.body body body') st' ∧ r = (otherwise, sp, st') := by
  simp only [guardedEnd?, Option.bind_eq_bind, Option.bind_eq_some_iff, after?_checkExpr]
  simp only [after?_eq_some]
  constructor
  · rintro ⟨_, ⟨hcond, rfl⟩, st', ⟨body', hbody⟩, ⟨⟩⟩
    exact ⟨hcond, body', st', .of_inScope hbody (stmts_passes body), rfl⟩
  · rintro ⟨hcond, body', st', hbody, rfl⟩
    exact ⟨st, ⟨hcond, rfl⟩, st', ⟨body', hbody.run sp⟩, rfl⟩

/-- Before these statements, the check of which succeeds. -/
def Before (ss : List Stmt) (r : List Stmt × State) : Prop :=
  r.1 = ss ∧ ∃ rs st', Passes r.2 (.stmts ss rs) st'

def BeforeAlternative (a : Alternative) (r : Alternative × Span × State) : Prop :=
  r.1 = a ∧ ∃ a' st', Passes r.2.2 (.alternative a a') st'

theorem Passes.before {body' : List Stmt} (h : Passes st (.body body body') st') :
    Before body (body, { st with names := st.names.enter }) := by
  cases h with
  | body hstmts _ => exact ⟨rfl, body', _, hstmts⟩

/-- A check that succeeds makes every move over the tree. -/
theorem moves_follow : Moves.tree.Follows moves Before BeforeAlternative where
  next := by
    rintro _ ⟨ss, st⟩ ⟨rfl, rs, st', h⟩ q hq
    cases h with
    | nil => cases hq
    | cons hfirst hrest =>
      cases hq
      exact ⟨_, Option.bind_eq_some_iff.mpr ⟨_, after?_eq_some.mpr ⟨_, hfirst.run⟩, rfl⟩,
        rfl, _, _, hrest⟩
  body := by
    rintro _ ⟨ss, st⟩ ⟨rfl, rs, st', h⟩ q hq
    cases h with
    | nil => cases hq
    | cons hfirst _ =>
      cases hfirst with cases hq
      | fnDef hnew hret hparams hin _ =>
        obtain ⟨hsig, hps⟩ := inside_runs hnew hret hparams
        refine ⟨_, Option.bind_eq_some_iff.mpr ⟨_, after?_eq_some.mpr ⟨_, hsig⟩,
          Option.bind_eq_some_iff.mpr ⟨_, after?_eq_some.mpr ⟨_, hps⟩, rfl⟩⟩, rfl, _, _, hin⟩
      | for_ hcond hin | if_ hcond hin _ =>
        exact ⟨_, guardedStart?_eq_some.mpr ⟨hcond, rfl⟩, hin.before⟩
      | block hin => exact ⟨_, rfl, hin.before⟩
  arms := by
    rintro _ ⟨ss, st⟩ ⟨rfl, rs, st', h⟩ q hq
    cases h with
    | nil => cases hq
    | cons hfirst _ =>
      cases hfirst with cases hq
      | if_ hcond hin hother =>
        exact ⟨_, guardedEnd?_eq_some.mpr ⟨hcond, _, _, hin, rfl⟩, rfl, _, _, hother⟩
  arm := by
    rintro _ ⟨a, sp, st⟩ ⟨rfl, r, st', h⟩ q hq
    cases h with cases hq
    | else_ hin => exact ⟨_, rfl, hin.before⟩
    | elif hcond hin _ => exact ⟨_, guardedStart?_eq_some.mpr ⟨hcond, rfl⟩, hin.before⟩
  other := by
    rintro _ ⟨a, sp, st⟩ ⟨rfl, r, st', h⟩ q hq
    cases h with cases hq
    | elif hcond hin hother =>
      exact ⟨_, guardedEnd?_eq_some.mpr ⟨hcond, _, _, hin, rfl⟩, rfl, _, _, hother⟩

/-- A check that succeeds comes to every statement. -/
theorem reach?_of_runs {w : Way} (h : Runs (stmts ss) st rs st') (hs : w.find? ss = some s) :
    ∃ st₁, reach? w ss st = some (s, st₁) := by
  obtain ⟨ss', hgo, hs⟩ := Option.bind_eq_some_iff.mp hs
  have hbefore : Before ss (ss, st) := ⟨rfl, rs, st', stmts_passes ss h⟩
  obtain ⟨⟨_, st₁⟩, hgo', rfl, -⟩ := moves_follow.go? w hbefore ss' hgo
  exact ⟨st₁, by simp [reach?, hgo', hs]⟩

end Check

end Frontend
