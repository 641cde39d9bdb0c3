import Frontend.Proofs.Phrases
import Frontend.Proofs.Rounds

/-!
Numbers that lowering gives away. Registers, blocks and functions are numbered in the order in which
they are asked for. The outlay of a part of a program bounds the numbers that its lowering takes,
and no part has an outlay of more than four for each of its tokens. What is taken on the way to a
statement, and what is still to be taken, is never more than that.
-/
namespace Frontend

mutual

/-- Registers, blocks and functions. A function has its parameters and an entry block. -/
def Stmt.outlay : Stmt → Nat
  | .varDef _ _ init _ => init.elim 1 (·.outlay + 3)
  | .fnDef sig body _ => sig.params.length + 2 + Stmt.totalOutlay body
  | .varSet _ e _ => e.outlay + 2
  | .memberSet target e _ => target.outlay + (e.outlay + 2)
  | .expr e _ => e.outlay
  | .return_ e _ => e.elim 0 (·.outlay + 2)
  | .if_ cond body otherwise _ =>
    2 + (cond.outlay + 4 + (Stmt.totalOutlay body + otherwise.outlay))
  | .block body _ => Stmt.totalOutlay body
  | .structDef _ _ _ | .fnDecl _ _ | .break_ _ | .for_ _ _ _ => 0

def Alternative.outlay : Alternative → Nat
  | .none => 0
  | .else_ body => Stmt.totalOutlay body
  | .elif cond body otherwise => cond.outlay + 4 + (Stmt.totalOutlay body + otherwise.outlay)

/-- Before each statement of a body a block may have to be opened. -/
def Stmt.totalOutlay : List Stmt → Nat
  | [] => 0
  | s :: ss => 1 + (s.outlay + Stmt.totalOutlay ss)

end

namespace Expr

theorem outlay_coerce? {ty : Ty} {e e' : Expr} (h : e.coerce? ty = some e') :
    e'.outlay = e.outlay := by
  fun_induction coerce? ty e generalizing e' with
  | case1 | case2 =>
    obtain rfl := Option.some.inj h
    rfl
  | case3 | case6 => simp at h
  | case4 inner s ih | case5 inner s ih =>
    obtain ⟨inner', hinner, rfl⟩ := Option.map_eq_some_iff.mp h
    simp only [outlay, ih hinner]

end Expr

namespace Grammar

variable {env : Env} {ts rest : List Token} {names : Names}

theorem Gives.length_lt {n : Nat} {α : Type} {x : Parse (Step n α)} {a : α} (h : Gives x a rest) :
    rest.length < n := by
  obtain ⟨r, -, -, rfl⟩ := h
  exact r.lt

theorem outlay_applyOperators (ops : List (UnaryOp × Span)) (e : Expr) :
    (applyOperators ops e).outlay = e.outlay + 3 * ops.length := by
  induction ops with
  | nil => rfl
  | cons op ops ih =>
    have hcons : (applyOperators (op :: ops) e).outlay = (applyOperators ops e).outlay + 3 := rfl
    simp only [hcons, ih, List.length_cons]
    omega

theorem length_operators (op? : Kind → Option UnaryOp) (ts : List Token) :
    (operators op? ts).value.length + (operators op? ts).rest.length = ts.length := by
  induction ts with
  | nil => rfl
  | cons t ts ih =>
    cases h : op? t.kind with
    | none =>
      obtain ⟨hvalue, hrest⟩ := operators_none (t :: ts) h
      rw [hvalue, hrest]
      exact Nat.zero_add _
    | some op =>
      obtain ⟨hvalue, hrest⟩ := operators_some h ts
      rw [hvalue, hrest, List.length_cons, List.length_cons]
      omega

/-- What is read has an outlay of four for each token at most. Where a call may be added, and where
a value may be converted, something is left of that. -/
def Form.Affords (ts rest : List Token) : Form → Prop
  | .expr _ e | .operand e => e.outlay + 2 + 4 * rest.length ≤ 4 * ts.length
  | .head e => e.outlay + 3 + 4 * rest.length ≤ 4 * ts.length
  | .operators _ e e' | .casts e e' => e'.outlay + 4 * rest.length ≤ e.outlay + 4 * ts.length
  | .suffixes e e' => e'.outlay + 4 * rest.length ≤ e.outlay + 1 + 4 * ts.length
  | .arguments es => Expr.totalOutlay es + 4 * rest.length ≤ 4 * ts.length

theorem Builds.affords {x : Form} (h : Builds env ts x rest) : x.Affords ts rest := by
  induction h with
    simp only [Form.Affords, Expr.outlay, Expr.totalOutlay, List.length_cons,
      outlay_applyOperators, Nat.le_refl] at *
  | @operand _ _ _ ts =>
    have := length_operators signOp? ts
    have := length_operators addressOp? (operators signOp? ts).rest
    omega
  | noSuffix =>
    split
    · simp only [Expr.outlay, Expr.totalOutlay]
      omega
    · omega
  | cast _ hty =>
    have := hty.length_lt
    omega
  | _ => omega

/-- Nor does it open more scopes than it has tokens. -/
def Phrase.Affords (ts rest : List Token) : Phrase → Prop
  | .stmt s => s.weight + rest.length < ts.length ∧
      1 + s.outlay + 4 * rest.length ≤ 4 * ts.length
  | .stmts ss => Stmt.totalWeight ss + rest.length ≤ ts.length ∧
      Stmt.totalOutlay ss + 4 * rest.length ≤ 4 * ts.length
  | .block ss _ => Stmt.totalWeight ss + 1 + rest.length < ts.length ∧
      Stmt.totalOutlay ss + 8 + 4 * rest.length ≤ 4 * ts.length
  | .alternative _ a _ => a.weight + rest.length ≤ ts.length ∧
      a.outlay + 4 * rest.length ≤ 4 * ts.length

theorem ParsesMembers.length_le {ps : List Param} (h : ParsesMembers env ts ps names rest) :
    rest.length ≤ ts.length := by
  induction h with
  | nil => exact Nat.le_refl _
  | cons hp _ ih =>
    have := hp.length_lt
    simp only [List.length_cons] at *
    omega

theorem ParsesParams.length_le {ps : List Param} {more : Bool}
    (h : ParsesParams env ts ps more names rest) : ps.length + rest.length ≤ ts.length := by
  induction h with simp only [List.length_cons, List.length_nil] at *
  | nil | variadic => omega
  | last hp =>
    have := hp.length_lt
    omega
  | cons hp _ ih =>
    have := hp.length_lt
    simp only [List.length_cons] at *
    omega

theorem ParsesSignature.length_le {sig : Signature} (h : ParsesSignature env ts sig names rest) :
    sig.params.length + rest.length ≤ ts.length := by
  obtain ⟨hret, hps⟩ := h
  have := hret.length_lt
  cases hps with
  | none =>
    simp only [List.length_nil]
    omega
  | parens hps =>
    have := hps.length_le
    simp only [List.length_cons] at *
    omega

theorem expr_affords {e : Expr} (h : Gives (expr env ts) e rest) :
    e.outlay + 2 + 4 * rest.length ≤ 4 * ts.length :=
  (exprAt_builds env 0 ts h).affords

theorem outlay_assigned {target : Ident} {e e' : Expr} (h : assigned env target e = .ok e') :
    e'.outlay = e.outlay := by
  obtain ⟨b, -, ⟨rfl, -⟩ | hc⟩ := assigned_inv h
  · rfl
  · exact Expr.outlay_coerce? hc

theorem Parses.affords {x : Phrase} (h : Parses env ts x names rest) : x.Affords ts rest := by
  induction h with
    simp only [Phrase.Affords, Stmt.weight, Alternative.weight, Stmt.totalWeight, Stmt.outlay,
      Alternative.outlay, Stmt.totalOutlay, List.length_cons, Option.elim] at *
  | structDef hms =>
    have := hms.length_le
    simp only [List.length_cons] at *
    omega
  | fnDecl hsig | fnDef hsig =>
    have := hsig.length_le
    simp only [List.length_cons] at *
    omega
  | varDef _ hty =>
    have := hty.length_lt
    simp only [List.length_cons] at *
    omega
  | varInit _ hty he =>
    have := hty.length_lt
    have := expr_affords he
    simp only [List.length_cons] at *
    omega
  | varSet ht he hset =>
    have := expr_affords ht
    have := expr_affords he
    have := outlay_assigned hset
    simp only [List.length_cons] at *
    omega
  | memberSet ht he =>
    have := expr_affords ht
    have := expr_affords he
    simp only [List.length_cons] at *
    omega
  | quickDef he | expr he | returnValue he =>
    have := expr_affords he
    simp only [List.length_cons] at *
    omega
  | for_ he | if_ he | elif he =>
    have := expr_affords he
    omega
  | _ => omega

end Grammar

namespace Check

variable {t : ScopeTable Unit} {ty : Ty} {ws : List (Located Warning)}

theorem Takes.outlay_eq {e e' : Expr} (h : Takes t ty e e' ws) : e'.outlay = e.outlay := by
  cases h with
  | same => rfl
  | retyped _ _ _ h => exact Expr.outlay_coerce? h

theorem TakesIf.elim_outlay {e e' : Option Expr} (h : TakesIf t ty e e' ws) (m n : Nat) :
    e'.elim m (·.outlay + n) = e.elim m (·.outlay + n) := by
  cases h with
  | none => rfl
  | some _ h => simp [h.outlay_eq]

/-- What was checked weighs what it weighed before, and has the same outlay. -/
def Change.Retains : Change → Prop
  | .stmt s r => r.weight = s.weight ∧ r.outlay = s.outlay
  | .alternative a r => r.weight = a.weight ∧ r.outlay = a.outlay
  | .stmts ss rs | .body ss rs =>
    Stmt.totalWeight rs = Stmt.totalWeight ss ∧ Stmt.totalOutlay rs = Stmt.totalOutlay ss

theorem Passes.retains {c : Change} {st st' : State} (h : Passes st c st') : c.Retains := by
  induction h with simp only [Change.Retains, Stmt.weight, Alternative.weight, Stmt.totalWeight,
    Stmt.outlay, Alternative.outlay, Stmt.totalOutlay] at *
  | varDef _ _ _ h | return_ _ _ h => simp [h.elim_outlay]
  | varSet _ _ h | memberSet _ _ _ h => simp [h.outlay_eq]
  | fnDef _ _ _ _ _ ih | for_ _ _ ih | block _ ih | else_ _ ih | body _ _ ih => simp [ih]
  | if_ _ _ _ ih ih' | elif _ _ _ ih ih' | cons _ _ ih ih' => simp [ih, ih']
  | _ => simp

end Check

namespace Lowering

/-- Numbers given away so far, but for those of registers and blocks in other functions. -/
def State.numbers (st : State) : Nat := st.nextId + st.current.nextReg + st.current.nextBlock

@[simp] theorem State.numbers_withNames (st : State) (names : ScopeTable Handle) :
    State.numbers { st with names } = st.numbers := rfl

/-- If `act` succeeds, it has taken no more than `n` numbers. -/
def Spends (n : Nat) (act : LowerM α) : Prop :=
  ∀ st a st', Runs act st a st' → st'.numbers ≤ st.numbers + n

namespace Spends

variable {m n : Nat}

theorem pure {a : α} : Spends n (pure a) := by
  intro st b st' h
  obtain ⟨-, rfl⟩ := runs_pure.mp h
  exact Nat.le_add_right _ _

theorem fail {s : Span} {e : LowerError} : Spends n (fail s e : LowerM α) :=
  fun _ _ _ h => absurd h not_runs_fail

theorem mono {act : LowerM α} (h : Spends m act) (hle : m ≤ n) : Spends n act :=
  fun st a st' hrun => (h st a st' hrun).trans (Nat.add_le_add_left hle _)

theorem bind {act : LowerM α} {f : α → LowerM β} (hact : Spends m act) (hf : ∀ a, Spends n (f a)) :
    Spends (m + n) (act >>= f) := by
  intro st b st' h
  obtain ⟨a, st₁, h₁, h₂⟩ := runs_bind.mp h
  have := hact _ _ _ h₁
  have := hf a _ _ _ h₂
  omega

/-- After what takes none. -/
theorem after {act : LowerM α} {f : α → LowerM β} (hact : Spends 0 act) (hf : ∀ a, Spends n (f a)) :
    Spends n (act >>= f) :=
  (hact.bind hf).mono (Nat.le_of_eq (Nat.zero_add n))

theorem ask {f : State → LowerM α} (hf : ∀ st, Spends n (f st)) : Spends n (get >>= f) :=
  fun st a st' h => hf st st a st' (runs_get_bind.mp h)

theorem emitReg {op : Ir.Op} : Spends 1 (emitReg op) := by
  rintro st _ _ ⟨⟩
  simp only [State.numbers, Ir.Builder.push]
  omega

theorem emitVoid {op : Ir.Op} : Spends n (emitVoid op) := by
  rintro st _ _ ⟨⟩
  exact Nat.le_add_right _ _

theorem freshBlock : Spends 1 freshBlock := by
  rintro st _ _ ⟨⟩
  simp only [State.numbers]
  omega

theorem startBlock {id : Ir.BlockId} {label : String} : Spends n (startBlock id label) := by
  rintro st _ _ ⟨⟩
  exact Nat.le_add_right _ _

theorem terminate {t : Ir.Terminator} : Spends n (terminate t) := by
  rintro st _ _ ⟨⟩
  exact Nat.le_add_right _ _

theorem within {s : Span} {enter : ScopeTable Handle → ScopeTable Handle} {act : LowerM α}
    (h : Spends n act) : Spends n (within s enter act) := by
  intro st a st' hrun
  obtain ⟨st₁, outer, hact, -, rfl⟩ := within_inv hrun
  exact h { st with names := enter st.names } a st₁ hact

end Spends

/-- What only asks and declares. -/
theorem defining_spends : Defining fun _ act => Spends 0 act where
  pure _ := .pure
  fail _ _ := .fail
  bind hact hf := hact.bind hf
  asking _ hf := .ask hf
  bindName b := by
    rintro st _ _ ⟨⟩
    exact Nat.le_refl _
  functionName base := .ask fun _ => .pure
  addStruct l := by
    rintro st _ _ ⟨⟩
    exact Nat.le_refl _
  within _ _ _ hact := hact.within

theorem emitting_spends : Emitting fun _ act n => Spends n act where
  toSequenced := defining_spends.toSequenced
  chain := .bind
  mono := .mono
  ask _ := .ask
  emitReg _ := .emitReg
  emitVoid _ := .emitVoid

theorem openIf_spends : Spends 2 openIf :=
  Spends.freshBlock.bind fun _ => Spends.freshBlock.bind (n := 0) fun _ =>
    Spends.terminate.after fun _ => Spends.startBlock.after fun _ => .pure

theorem openArm_spends {join : Ir.BlockId} {label : String} {e : Expr} {more : Bool} :
    Spends (e.outlay + 4) (openArm join label e more) := by
  have helse : Spends 1 (elseTarget join more) := by
    cases more with
    | false => exact .pure
    | true => exact .freshBlock
  refine (emitting_spends.tallying.value e).bind fun _ =>
    emitting_spends.computing.truthy.bind fun _ =>
    Spends.freshBlock.bind fun _ => helse.bind (n := 0) fun _ => ?_
  exact Spends.terminate.after fun _ => Spends.startBlock.after fun _ => .pure

theorem reopen_spends : Spends 1 reopen := by
  refine .ask fun st => ?_
  split
  · exact Spends.freshBlock.bind (n := 0) fun _ => .startBlock
  · exact .pure

theorem variable_spends {name : Ident} {ty : Ty} {init : Option Expr} :
    Spends (init.elim 1 (·.outlay + 3)) (variable_ name ty init) := by
  refine (defining_spends.lowerType _).after fun irTy => ?_
  have hbind : ∀ ptr : Ir.Reg, Spends 0 (do
      let owner := (← get).current.id
      bind (.plain name.name ty (.slot ptr irTy owner))) :=
    fun ptr => .ask fun _ => defining_spends.bindName _
  cases init with
  | none => exact Spends.emitReg.bind fun ptr => hbind ptr
  | some e =>
    have hstore := (emitting_spends.tallying.storeAs · irTy e)
    refine (Spends.emitReg.bind fun ptr => (hstore ptr).bind fun _ => hbind ptr).mono ?_
    simp only [Option.elim_some]
    omega

/-- The numbers that statements take. -/
def outlays : Deposits nowhere Nat where
  zero := 0
  add := (· + ·)
  ofCond _ e := e.outlay + 4
  ofStmt _ s := s.outlay
  ofOtherwise _ a := a.outlay
  ofBody _ ss := Stmt.totalOutlay ss
  opening := 2
  reopening := 1
  zero_add := Nat.zero_add
  add_zero := Nat.add_zero

theorem outlays_kept : outlays.Kept fun _ _ _ act n => Spends n act where
  chained := ⟨.pure, .fail, Spends.bind⟩
  reopen := reopen_spends
  openIf := openIf_spends
  startBlock := .startBlock
  branchTo := .terminate
  openArm _ := openArm_spends
  inScope _ h := h.within
  fnDef := by
    intro _ _ sig ss s _ hbody st _ st' h
    obtain ⟨low, st₁, outer, hlow, hrun, -, rfl⟩ := fnDef_inv h
    have hle := hbody _ _ _ hrun
    have hlen := hlow.params.length_eq
    simp only [State.numbers, State.enterFunction, State.leaveFunction, Ir.Builder.start, outlays,
      Stmt.outlay] at hle ⊢
    omega
  varDef _ := by
    unfold stmt
    exact variable_spends
  structDef _ := by
    unfold stmt
    exact defining_spends.struct_ _ _ _
  fnDecl _ := by
    unfold stmt
    refine (defining_spends.signature _ true).after fun low => ?_
    rintro st _ _ ⟨⟩
    exact Nat.le_refl _
  varSet _ := by
    unfold stmt
    exact emitting_spends.tallying.assign _ _
  memberSet _ := by
    unfold stmt
    exact emitting_spends.tallying.assignMember _ _
  expr _ := by
    unfold stmt
    exact emitting_spends.tallying.effect _
  return_ _ := by
    unfold stmt
    exact (emitting_spends.tallying.returned _).bind (n := 0) fun _ => .terminate

/-- Numbers that lowering is still to take. -/
def Task.outlay : Task → Nat
  | .value e | .address e => e.outlay
  | .call callee args => callee.outlay + Expr.totalOutlay args + 1
  | .arguments _ _ es => Expr.totalOutlay es
  | .stmt s => s.outlay
  | .arm _ _ _ cond body otherwise => cond.outlay + 4 + (Stmt.totalOutlay body + otherwise.outlay)
  | .alternative _ _ a _ => a.outlay
  | .stmts ss | .topLevel ss => Stmt.totalOutlay ss

theorem Task.outlay_object (arrow : Bool) (object : Expr) :
    (Task.object arrow object).outlay = object.outlay := by
  cases arrow <;> rfl

theorem stmt_spends (s : Stmt) : Spends s.outlay (stmt s) := outlays_kept.stmt s () trivial

theorem stmts_spends (ss : List Stmt) : Spends (Stmt.totalOutlay ss) (stmts ss) :=
  (outlays_kept.stmts ss () trivial).elim fun _ h => h

variable {t t' : Task} {st st' : State}

/-- What was taken on the way to a call, and what it is to take, was to be taken before. -/
theorem Calls.outlay_le (h : Calls t st t' st') :
    st'.numbers + t'.outlay ≤ st.numbers + t.outlay := by
  have hmeet {lhs rhs : Expr} {s : Span} : Spends 0 (meet lhs rhs s) :=
    (defining_spends.infer _).bind fun _ => (defining_spends.infer _).bind fun _ =>
      (defining_spends.joined _ _).bind fun _ => defining_spends.lowerType _
  have hvalue := emitting_spends.tallying.value
  have hcomputing := emitting_spends.computing
  cases h with simp only [State.numbers_withNames, ↓Task.outlay_object, Task.outlay, Expr.outlay,
    Expr.totalOutlay, Stmt.outlay, Alternative.outlay, Stmt.totalOutlay]
  | nextBit _ hrun =>
    have := ((hvalue _).bind fun _ => hcomputing.truthy) _ _ _ hrun
    omega
  | left _ hrun =>
    have := hmeet _ _ _ hrun
    omega
  | right _ hrun hrun' =>
    have := hmeet _ _ _ hrun
    have := ((hvalue _).bind fun _ => hcomputing.convert _) _ _ _ hrun'
    omega
  | cast hrun =>
    have := defining_spends.lowerType _ _ _ _ hrun
    omega
  | callee hrun =>
    have := defining_spends.named? _ _ _ _ hrun
    omega
  | arguments hrun =>
    have := emitting_spends.callTarget (hvalue _) _ _ _ hrun
    omega
  | nextArguments hrun =>
    have := ((hvalue _).bind fun _ => hcomputing.argument _ _) _ _ _ hrun
    omega
  | initial hrun =>
    have := ((defining_spends.lowerType _).bind fun _ => Spends.emitReg) _ _ _ hrun
    simp only [Option.elim_some]
    omega
  | assigned hlook howned =>
    have := defining_spends.lookup _ _ _ _ hlook
    have := hcomputing.ownedHere _ _ _ _ _ howned
    omega
  | assignedMember hrun =>
    have := emitting_spends.memberAddress (hvalue _) (emitting_spends.tallying.address _) _ _ _ hrun
    omega
  | returned =>
    simp only [Option.elim_some]
    omega
  | if_ hopen =>
    have := openIf_spends _ _ _ hopen
    omega
  | function hsig hid hparams =>
    obtain ⟨hlow, hst₁⟩ := signature_inv hsig
    obtain ⟨-, hst₂⟩ := runs_freshId.mp hid
    have hlen := hlow.params.length_eq
    rw [runs_bindParams.mp hparams, hst₂, hst₁]
    simp only [State.numbers, Ir.Builder.start]
    omega
  | body hopen =>
    have := openArm_spends _ _ _ hopen
    omega
  | otherwise hopen hbody hterm =>
    have := openArm_spends _ _ _ hopen
    have := (stmts_spends _).within _ _ _ hbody
    have := Spends.terminate (n := 0) _ _ _ hterm
    omega
  | else_ hstart | elif hstart =>
    have := Spends.startBlock (n := 0) _ _ _ hstart
    omega
  | first hopen =>
    have := reopen_spends _ _ _ hopen
    omega
  | next hrun =>
    have := (reopen_spends.bind fun _ => stmt_spends _) _ _ _ hrun
    omega
  | topNext hs =>
    have := stmt_spends _ _ _ _ hs
    omega
  | _ => omega

/-- On the whole way to a task, no more is taken than was to be taken. -/
theorem Reaches.outlay_le (h : Reaches t st t' st') :
    st'.numbers + t'.outlay ≤ st.numbers + t.outlay :=
  carried_along (P := fun c : Task × State => c.2.numbers + c.1.outlay ≤ st.numbers + t.outlay)
    (fun hcall hbefore => hcall.outlay_le.trans hbefore) h (Nat.le_refl _)

end Lowering

end Frontend
