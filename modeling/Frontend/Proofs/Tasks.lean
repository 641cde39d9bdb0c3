import Frontend.Proofs.Called
import Frontend.Proofs.Indirections

/-!
What lowering comes to on its way through a program. One task calls another from the state in which
everything before the call has succeeded, whatever comes of the rest. Wherever lowering comes to in
a program that was read and checked, its table shows the names that the place tells, what is to be
lowered was checked there, and no function is left uncalled.
-/
namespace Frontend

namespace Lowering

/-- Something to be lowered. -/
inductive Task where
  | value (e : Expr)
  | address (e : Expr)
  | call (callee : Expr) (args : List Expr)
  | arguments (params : List Ir.Ty) (variadic : Bool) (es : List Expr)
  | stmt (s : Stmt)
  /-- A condition with its body, and what there is otherwise. -/
  | arm (s : Span) (join : Ir.BlockId) (label : String) (cond : Expr) (body : List Stmt)
    (otherwise : Alternative)
  | alternative (s : Span) (join : Ir.BlockId) (a : Alternative) (here : Ir.BlockId)
  | stmts (ss : List Stmt)
  | topLevel (ss : List Stmt)

/-- The struct that a member is taken of: through an arrow, its address is a value. -/
def Task.object (arrow : Bool) (object : Expr) : Task :=
  bif arrow then .value object else .address object

/-- The type in which two operands meet, lowered. -/
def meet (lhs rhs : Expr) (s : Span) : LowerM Ir.Ty := do
  let lhsTy ← infer lhs
  let rhsTy ← infer rhs
  lowerType (← joined lhsTy rhsTy s) s

/-- Lowering the first from `st` lowers the second from `st'` on the way. What comes before it has
succeeded. -/
inductive Calls : Task → State → Task → State → Prop where
  | paren {inner s st} : Calls (.value (.paren inner s)) st (.value inner) st
  | unary {op operand s st} : Calls (.value (.unary op operand s)) st (.value operand) st
  | bit {op lhs rhs s st} : op.isLogical →
      Calls (.value (.binary op lhs rhs s)) st (.value lhs) st
  | nextBit {op lhs rhs s st st₁ l} : op.isLogical →
      Runs (do truthy (← value lhs) lhs.span) st l st₁ →
      Calls (.value (.binary op lhs rhs s)) st (.value rhs) st₁
  | left {op lhs rhs s st st₁ t} : op.isLogical = false → Runs (meet lhs rhs s) st t st₁ →
      Calls (.value (.binary op lhs rhs s)) st (.value lhs) st₁
  | right {op lhs rhs s st st₁ st₂ t l} : op.isLogical = false → Runs (meet lhs rhs s) st t st₁ →
      Runs (do convert (← value lhs) t lhs.span) st₁ l st₂ →
      Calls (.value (.binary op lhs rhs s)) st (.value rhs) st₂
  | cast {operand ty s st st₁ t} : Runs (lowerType ty s) st t st₁ →
      Calls (.value (.cast operand ty s)) st (.value operand) st₁
  | call {callee args s st} : Calls (.value (.call callee args s)) st (.call callee args) st
  | callee {callee args st st₁} : Runs (named? callee) st none st₁ →
      Calls (.call callee args) st (.value callee) st₁
  | arguments {callee args st st₁ target} : Runs (callTarget callee (value callee)) st target st₁ →
      Calls (.call callee args) st (.arguments target.params target.variadic args) st₁
  | argument {params variadic e es st} :
      Calls (.arguments params variadic (e :: es)) st (.value e) st
  | nextArguments {params variadic e es st st₁ v} :
      Runs (do argument params.head? variadic (← value e) e.span) st v st₁ →
      Calls (.arguments params variadic (e :: es)) st (.arguments params.tail variadic es) st₁
  | member {object field arrow s st} :
      Calls (.value (.member object field arrow s)) st (.object arrow object) st
  | parenAddress {inner s st} : Calls (.address (.paren inner s)) st (.address inner) st
  | memberAddress {object field arrow s st} :
      Calls (.address (.member object field arrow s)) st (.object arrow object) st
  | initial {name ty e s st st₁ ptr} :
      Runs (do emitReg (.alloca (← lowerType ty name.span))) st ptr st₁ →
      Calls (.stmt (.varDef name ty (some e) s)) st (.value e) st₁
  | assigned {target e s st st₁ st₂ ptr t owner} : Runs (lookup target) st (.slot ptr t owner) st₁ →
      Runs (ownedHere owner target.span) st₁ () st₂ →
      Calls (.stmt (.varSet target e s)) st (.value e) st₂
  | target {object field arrow s e s' st} :
      Calls (.stmt (.memberSet (.member object field arrow s) e s')) st (.object arrow object) st
  | assignedMember {object field arrow s e s' st st₁ place} :
      Runs (memberAddress (.member object field arrow s) arrow (value object) (address object))
        st place st₁ →
      Calls (.stmt (.memberSet (.member object field arrow s) e s')) st (.value e) st₁
  | effect {e s st} : (∀ callee args s', e ≠ .call callee args s') →
      Calls (.stmt (.expr e s)) st (.value e) st
  | effectCall {callee args s s' st} :
      Calls (.stmt (.expr (.call callee args s) s')) st (.call callee args) st
  | returned {e s st} : Calls (.stmt (.return_ (some e) s)) st (.value e) st
  | if_ {cond body otherwise s st st₁ join} : Runs openIf st join st₁ →
      Calls (.stmt (.if_ cond body otherwise s)) st (.arm s join "if.then" cond body otherwise) st₁
  | block {body s st} :
      Calls (.stmt (.block body s)) st (.stmts body) { st with names := st.names.enter }
  | function {sig body s st st₁ st₂ st₃ low id} : Runs (signature sig false) st low st₁ →
      Runs freshId st₁ id st₂ →
      Runs (bindParams sig.params low.params id) { st₂ with
        enclosing := st₂.current :: st₂.enclosing
        current := .start id low.name low.params low.ret
        names := st₂.names.enter } () st₃ →
      Calls (.stmt (.fnDef sig body s)) st (.stmts body) st₃
  | cond {s join label cond body otherwise st} :
      Calls (.arm s join label cond body otherwise) st (.value cond) st
  | body {s join label cond body otherwise st st₁ no} :
      Runs (openArm join label cond (alternative s join otherwise).isSome) st no st₁ →
      Calls (.arm s join label cond body otherwise) st (.stmts body)
        { st₁ with names := st₁.names.enter }
  | otherwise {s join label cond body otherwise st st₁ st₂ st₃ no} :
      Runs (openArm join label cond (alternative s join otherwise).isSome) st no st₁ →
      Runs (inScope s (stmts body)) st₁ () st₂ → Runs (terminate (.br join)) st₂ () st₃ →
      Calls (.arm s join label cond body otherwise) st (.alternative s join otherwise no) st₃
  | else_ {s join body here st st₁} : Runs (startBlock here "if.else") st () st₁ →
      Calls (.alternative s join (.else_ body) here) st (.stmts body)
        { st₁ with names := st₁.names.enter }
  | elif {s join cond body otherwise here st st₁} : Runs (startBlock here "elif.cond") st () st₁ →
      Calls (.alternative s join (.elif cond body otherwise) here) st
        (.arm s join "elif.then" cond body otherwise) st₁
  | first {s ss st st₁} : Runs reopen st () st₁ → Calls (.stmts (s :: ss)) st (.stmt s) st₁
  | next {s ss st st₁} : Runs (do reopen; stmt s) st () st₁ →
      Calls (.stmts (s :: ss)) st (.stmts ss) st₁
  | topFirst {s ss st} : Calls (.topLevel (s :: ss)) st (.stmt s) st
  | topNext {s ss st st₁} : Runs (stmt s) st () st₁ →
      Calls (.topLevel (s :: ss)) st (.topLevel ss) st₁

/-- Lowering the first comes to the second in one or more calls, or in none. -/
def Reaches (t : Task) (st : State) (t' : Task) (st' : State) : Prop :=
  Relation.ReflTransGen (fun c c' : Task × State => Calls c.1 c.2 c'.1 c'.2) (t, st) (t', st')

theorem Reaches.refl {t : Task} {st : State} : Reaches t st t st := Relation.ReflTransGen.refl

theorem Reaches.call {t t₁ t' : Task} {st st₁ st' : State} (h : Calls t st t₁ st₁)
    (h' : Reaches t₁ st₁ t' st') : Reaches t st t' st' :=
  Relation.ReflTransGen.head h h'

/-- No function is left uncalled. -/
abbrev Calling : Rule := .each fun v e => e.Called v true

/-- What is to be lowered is what the check made of what was read, from `cst` on. -/
def Task.Fits (ret : Ty) (w : Vantage) (cst : Check.State) : Task → Prop
  | .value e => e.Checked cst.names ∧ (∃ ends, e.Called w.sight ends) ∧ e.parameters w.outlook = []
  | .address e => e.Checked cst.names ∧ ∃ ends, e.Called w.sight ends
  | .call callee args => callee.Checked cst.names ∧ callee.Called w.sight false ∧
      ∀ a ∈ args, a.Checked cst.names ∧ a.Called w.sight true
  | .arguments _ _ es => ∀ a ∈ es, a.Checked cst.names ∧ a.Called w.sight true
  | .stmt r => (∃ s cst', Check.Passes cst (.stmt s r) cst') ∧ r.Obeys .checked ret ∧
      r.Throughout Calling w.sight
  | .arm _ _ _ cond body otherwise => (cond.Checked cst.names ∧ cond.Called w.sight true) ∧
      (∃ body₀ otherwise₀ cst₁ cst₂, Check.Passes cst (.body body₀ body) cst₁ ∧
        Check.Passes cst₁ (.alternative otherwise₀ otherwise) cst₂) ∧
      (Stmt.AllObey .checked ret body ∧ otherwise.Obeys .checked ret) ∧
      Stmt.AllThroughout Calling w.sight body ∧ otherwise.Throughout Calling w.sight
  | .alternative _ _ a _ => (∃ a₀ cst', Check.Passes cst (.alternative a₀ a) cst') ∧
      a.Obeys .checked ret ∧ a.Throughout Calling w.sight
  | .stmts rs | .topLevel rs => (∃ ss cst', Check.Passes cst (.stmts ss rs) cst') ∧
      Stmt.AllObey .checked ret rs ∧ Stmt.AllThroughout Calling w.sight rs

/-- The task is one that lowering may come to in this state. -/
def Task.Ready (t : Task) (st : State) : Prop :=
  ∃ ret w cst, st.Stocked ret w ∧ Check.State.Sees ret w cst ∧ t.Fits ret w cst

section Expressions

variable {ret : Ty} {w : Vantage} {cst : Check.State} {st st' : State} {e : Expr}

section

variable (hs : st.Stocked ret w)

include hs

/-- An expression with no function left uncalled has no parameters. -/
theorem State.Stocked.parameters_eq_nil (hc : cst.Sees ret w) (e : Expr) (he : e.Checked cst.names)
    (hcalled : e.Called w.sight true) : e.parameters w.outlook = [] := by
  induction e using Expr.parameters.induct with
  | case1 id =>
    obtain ⟨b, hb⟩ := he.typed.ident
    obtain ⟨c, hc⟩ := hc.shows.exists_find? hs.shows hb
    obtain ⟨hsuits, htype⟩ := hs.lookup hc
    rw [Expr.parameters]
    cases hroutine : w.outlook.routine? (.ident id) with
    | none => rfl
    | some f =>
      rw [hroutine] at hsuits
      cases hval : c.value <;> rw [hval] at hsuits <;> simp only [Handle.Suits] at hsuits
      case func =>
        obtain ⟨f', -, hfn, -⟩ := hsuits
        have := hcalled rfl f'.ret 0 (htype.trans (congrArg some hfn))
        omega
      all_goals simp at hsuits
  | case2 inner s ih => exact ih he.paren hcalled
  | case3 e hident hparen =>
    cases e with
    | ident id => exact absurd rfl (hident id)
    | paren inner s => exact absurd rfl (hparen inner s)
    | _ => rfl

theorem State.Stocked.extending {act : LowerM α} (hact : Extending act) {a : α}
    (hrun : Runs act st a st') : st'.Stocked ret w := by
  obtain ⟨code, rfl⟩ := hact _ _ _ hrun
  exact hs.extend code

/-- After a step that leaves an increment. -/
theorem State.Stocked.increased {act : LowerM α} {k' : Standpoint} {x : List Junction × List Item}
    (hact : Relates LeavesIncrement _ ⟨ret, w⟩ k' act x) {a : α} (hrun : Runs act st a st') :
    st'.Stocked k'.ret k'.vantage :=
  (hact _ _ _ hrun hs).1

theorem Task.fits_value (hc : cst.Sees ret w) (he : e.Checked cst.names)
    (hcalled : e.Called w.sight true) : (Task.value e).Fits ret w cst :=
  ⟨he, ⟨true, hcalled⟩, hs.parameters_eq_nil hc e he hcalled⟩

/-- What is called by its value is not the name of a function. -/
theorem Task.fits_callee (hc : cst.Sees ret w) (he : e.Checked cst.names)
    (hcalled : e.Called w.sight false)
    (hnamed : Runs (named? e) st none st') : (Task.value e).Fits ret w cst := by
  cases e with
  | ident id =>
    obtain ⟨h, st₁, hlook, hrest⟩ := runs_bind.mp hnamed
    obtain ⟨b, hb, rfl, rfl⟩ := runs_lookup.mp hlook
    obtain ⟨hsuits, -⟩ := hs.lookup hb
    have hroutine : w.outlook.routine? (.ident id) = none := by
      cases hval : b.value with
      | func name params ret variadic =>
        rw [hval] at hrest
        cases (runs_pure.mp hrest).1
      | slot | param | struct =>
        rw [hval] at hsuits
        exact hsuits.1
      | marker | member =>
        rw [hval] at hsuits
        exact hsuits
    exact ⟨he, ⟨false, hcalled⟩, by simp [Expr.parameters, hroutine]⟩
  | _ => exact fits_value hs hc he hcalled

/-- A function has no members. -/
theorem Task.fits_object (hc : cst.Sees ret w) {field : Ident} {arrow : Bool} {s : Span}
    (he : (Expr.member e field arrow s).Checked cst.names) {ends : Bool}
    (hcalled : (Expr.member e field arrow s).Called w.sight ends) :
    (Task.object arrow e).Fits ret w cst := by
  cases arrow with
  | false => exact ⟨he.member, false, hcalled⟩
  | true =>
    refine fits_value hs hc he.member ?_
    cases e with
    | ident id =>
      intro _ ret n hfn
      obtain ⟨ty, hty⟩ := he.typeIn? hc.shows
      rw [Expr.typeIn?, hfn] at hty
      simp [Sight.struct?] at hty
    | _ => exact hcalled

end

theorem meet_extending (lhs rhs : Expr) (s : Span) : Extending (meet lhs rhs s) := by
  have h := emitting_extending
  exact h.bind (h.infer _) fun _ => h.bind (h.infer _) fun _ =>
    h.bind (h.joined _ _) fun _ => h.lowerType _

end Expressions

section Steps

variable {t' : Task} {st st' : State}

theorem Calls.ready_value {e : Expr} (h : Calls (.value e) st t' st')
    (ht : (Task.value e).Ready st) : t'.Ready st' := by
  have hext := emitting_extending
  obtain ⟨ret, w, cst, hs, hc, he, ⟨ends, hcalled⟩, -⟩ := ht
  cases h with
  | paren => exact ⟨ret, w, cst, hs, hc, Task.fits_value hs hc he.paren hcalled⟩
  | unary => exact ⟨ret, w, cst, hs, hc, Task.fits_value hs hc he.unary hcalled⟩
  | bit => exact ⟨ret, w, cst, hs, hc, Task.fits_value hs hc he.lhs hcalled.1⟩
  | nextBit _ hrun =>
    have hs' := hs.extending (hext.bind (hext.tallying.value _) fun _ => hext.computing.truthy) hrun
    exact ⟨ret, w, cst, hs', hc, Task.fits_value hs' hc he.rhs hcalled.2⟩
  | left _ hrun =>
    have hs' := hs.extending (meet_extending _ _ _) hrun
    exact ⟨ret, w, cst, hs', hc, Task.fits_value hs' hc he.lhs hcalled.1⟩
  | right _ hmeet hrun =>
    have hs' := (hs.extending (meet_extending _ _ _) hmeet).extending
      (hext.bind (hext.tallying.value _) fun _ => hext.computing.convert _) hrun
    exact ⟨ret, w, cst, hs', hc, Task.fits_value hs' hc he.rhs hcalled.2⟩
  | cast hrun =>
    have hs' := hs.extending (hext.lowerType _) hrun
    exact ⟨ret, w, cst, hs', hc, Task.fits_value hs' hc he.cast hcalled⟩
  | call => exact ⟨ret, w, cst, hs, hc, he.callee, hcalled.1, fun a ha =>
      ⟨he.argument ha, hcalled.2.mem a ha⟩⟩
  | member => exact ⟨ret, w, cst, hs, hc, Task.fits_object hs hc he hcalled⟩

theorem Calls.ready_address {e : Expr} (h : Calls (.address e) st t' st')
    (ht : (Task.address e).Ready st) : t'.Ready st' := by
  obtain ⟨ret, w, cst, hs, hc, he, ends, hcalled⟩ := ht
  cases h with
  | parenAddress => exact ⟨ret, w, cst, hs, hc, he.paren, true, hcalled⟩
  | memberAddress => exact ⟨ret, w, cst, hs, hc, Task.fits_object hs hc he hcalled⟩

theorem Calls.ready_call {callee : Expr} {args : List Expr}
    (h : Calls (.call callee args) st t' st')
    (ht : (Task.call callee args).Ready st) : t'.Ready st' := by
  have hext := emitting_extending
  obtain ⟨ret, w, cst, hs, hc, he, hcalled, hargs⟩ := ht
  cases h with
  | callee hrun =>
    have hs' := hs.extending (hext.named? _) hrun
    exact ⟨ret, w, cst, hs', hc, Task.fits_callee hs hc he hcalled hrun⟩
  | arguments hrun =>
    have hs' := hs.extending (hext.callTarget (n := 0) (hext.tallying.value _)) hrun
    exact ⟨ret, w, cst, hs', hc, hargs⟩

theorem Calls.ready_arguments {params : List Ir.Ty} {variadic : Bool} {es : List Expr}
    (h : Calls (.arguments params variadic es) st t' st')
    (ht : (Task.arguments params variadic es).Ready st) : t'.Ready st' := by
  have hext := emitting_extending
  obtain ⟨ret, w, cst, hs, hc, hes⟩ := ht
  cases h with
  | argument =>
    obtain ⟨he, hcalled⟩ := hes _ List.mem_cons_self
    exact ⟨ret, w, cst, hs, hc, Task.fits_value hs hc he hcalled⟩
  | nextArguments hrun =>
    have hs' := hs.extending (hext.bind (hext.tallying.value _) fun _ =>
      hext.computing.argument _ _) hrun
    exact ⟨ret, w, cst, hs', hc, fun a ha => hes a (List.mem_cons_of_mem _ ha)⟩

theorem Calls.ready_stmt {r : Stmt} (h : Calls (.stmt r) st t' st') (ht : (Task.stmt r).Ready st) :
    t'.Ready st' := by
  have hext := emitting_extending
  obtain ⟨ret, w, cst, hs, hc, ⟨s, cst', hpasses⟩, ho, hcalled⟩ := ht
  cases h with
  | initial hcell =>
    cases hpasses with
    | varDef _ _ _ htakes =>
      have hs' := hs.extending (hext.bind (hext.lowerType _) fun _ => hext.emitReg _) hcell
      have he := (hc.takesIf htakes ho.2 _ rfl).1
      exact ⟨ret, w, cst, hs', hc, Task.fits_value hs' hc he (hcalled _ rfl)⟩
  | function hsignature hid hbind =>
    cases hpasses with
    | fnDef _ _ _ hbody _ =>
      obtain ⟨hlow, rfl⟩ := signature_inv hsignature
      obtain ⟨rfl, rfl⟩ := runs_freshId.mp hid
      obtain rfl := runs_bindParams.mp hbind
      exact ⟨_, w.inside _, _, hs.enterBody hlow, hc.inside ho.1, ⟨_, _, hbody⟩, ho.2, hcalled.2⟩
  | assigned hlook howned =>
    cases hpasses with
    | varSet _ hexpr htakes =>
      have hs' := (hs.extending (hext.lookup _) hlook).extending
        (hext.computing.ownedHere _ _) howned
      have he := (hc.takes hexpr htakes ho).1
      exact ⟨ret, w, cst, hs', hc, Task.fits_value hs' hc he hcalled⟩
  | target =>
    cases hpasses with
    | memberSet htarget _ _ _ =>
      exact ⟨ret, w, cst, hs, hc, Task.fits_object hs hc (.intro htarget ho.1) hcalled.1⟩
  | assignedMember hplace =>
    cases hpasses with
    | memberSet _ _ hexpr htakes =>
      have hs' := hs.extending (hext.memberAddress (n := 0) (hext.tallying.value _)
        (hext.tallying.address _)) hplace
      have he := (hc.takes hexpr htakes ho.2).1
      exact ⟨ret, w, cst, hs', hc, Task.fits_value hs' hc he hcalled.2⟩
  | effect =>
    cases hpasses with
    | expr hexpr => exact ⟨ret, w, cst, hs, hc, Task.fits_value hs hc (.intro hexpr ho) hcalled⟩
  | effectCall =>
    cases hpasses with
    | expr hexpr =>
      have he : Expr.Checked cst.names _ := .intro hexpr ho
      exact ⟨ret, w, cst, hs, hc, he.callee, hcalled.1, fun a ha =>
        ⟨he.argument ha, hcalled.2.mem a ha⟩⟩
  | returned =>
    cases hpasses with
    | return_ _ _ htakes =>
      have he := (hc.takesIf htakes ho.2 _ rfl).1
      exact ⟨ret, w, cst, hs, hc, Task.fits_value hs hc he (hcalled _ rfl)⟩
  | if_ hopen =>
    cases hpasses with
    | if_ hcond hbody hother =>
      have hs' := hs.increased (leavesIncrement_of_rebuilds .openIf) hopen
      exact ⟨ret, w, cst, hs', hc, ⟨.intro hcond ho.1, hcalled.2.1⟩, ⟨_, _, _, _, hbody, hother⟩,
        ho.2, hcalled.2.2⟩
  | block =>
    cases hpasses with
    | block hbody =>
      cases hbody with
      | body hstmts _ => exact ⟨ret, w, _, hs.enter, hc.enter, ⟨_, _, hstmts⟩, ho, hcalled.2⟩

theorem Calls.ready_arm {s : Span} {join : Ir.BlockId} {label : String} {cond : Expr}
    {body : List Stmt} {otherwise : Alternative}
    (h : Calls (.arm s join label cond body otherwise) st t' st')
    (ht : (Task.arm s join label cond body otherwise).Ready st) : t'.Ready st' := by
  obtain ⟨ret, w, cst, hs, hc, ⟨hcond, hcond'⟩, ⟨body₀, otherwise₀, cst₁, cst₂, hbody, hother⟩, ho,
    hbody', hother'⟩ := ht
  have hplace : checkedRoute.cond ⟨ret, w⟩ cond := ⟨_, hc.shows, hc.grounded, hcond⟩
  cases h with
  | cond => exact ⟨ret, w, cst, hs, hc, Task.fits_value hs hc hcond hcond'⟩
  | body hopen =>
    have hs' := hs.increased (openArm_leavesIncrement hplace join label _) hopen
    cases hbody with
    | body hstmts _ => exact ⟨ret, w, _, hs'.enter, hc.enter, ⟨_, _, hstmts⟩, ho.1, hbody'⟩
  | otherwise hopen hscope hleave =>
    have hs' := hs.increased (openArm_leavesIncrement hplace join label _) hopen
    have hpast := hc.past hbody
    cases hbody with
    | body hstmts _ =>
      obtain ⟨k', hleaves⟩ :=
        increments_kept.stmts body ⟨ret, w⟩ ⟨_, _, _, hc.enter, hstmts, ho.1⟩
      have hs'' := (hs'.increased (inScope_leavesIncrement hleaves) hscope).increased
        (leavesIncrement_of_rebuilds (.terminate _)) hleave
      exact ⟨ret, w.past body, _, hs'', hpast, ⟨_, _, hother⟩, ho.2, hother'⟩

theorem Calls.ready_alternative {s : Span} {join : Ir.BlockId} {a : Alternative} {here : Ir.BlockId}
    (h : Calls (.alternative s join a here) st t' st')
    (ht : (Task.alternative s join a here).Ready st) : t'.Ready st' := by
  obtain ⟨ret, w, cst, hs, hc, ⟨a₀, cst', hpasses⟩, ho, hcalled⟩ := ht
  cases h with
  | else_ hstart =>
    have hs' := hs.increased (leavesIncrement_of_rebuilds (.startBlock _ _)) hstart
    cases hpasses with
    | else_ hbody =>
      cases hbody with
      | body hstmts _ => exact ⟨ret, w, _, hs'.enter, hc.enter, ⟨_, _, hstmts⟩, ho, hcalled⟩
  | elif hstart =>
    have hs' := hs.increased (leavesIncrement_of_rebuilds (.startBlock _ _)) hstart
    cases hpasses with
    | elif hcond hbody hother =>
      exact ⟨ret, w, cst, hs', hc, ⟨.intro hcond ho.1, hcalled.1⟩,
        ⟨_, _, _, _, hbody, hother⟩, ho.2, hcalled.2⟩

theorem Calls.ready_stmts {rs : List Stmt} (h : Calls (.stmts rs) st t' st')
    (ht : (Task.stmts rs).Ready st) : t'.Ready st' := by
  obtain ⟨ret, w, cst, hs, hc, ⟨ss, cst', hpasses⟩, ho, hcalled⟩ := ht
  cases h with
  | first hopen =>
    cases hpasses with
    | cons hfirst _ =>
      have hs' := hs.increased increments_kept.reopen hopen
      exact ⟨ret, w, cst, hs', hc, ⟨_, _, hfirst⟩, ho.1, hcalled.1⟩
  | next hrun =>
    cases hpasses with
    | cons hfirst hrest =>
      have hs' := hs.increased (increments_kept.chained.after increments_kept.reopen fun _ =>
        increments_kept.stmt _ ⟨ret, w⟩ ⟨_, _, _, hc, hfirst, ho.1⟩) hrun
      exact ⟨ret, _, _, hs', hc.after hfirst ho.1, ⟨_, _, hrest⟩, ho.2, hcalled.2⟩

theorem Calls.ready_topLevel {rs : List Stmt} (h : Calls (.topLevel rs) st t' st')
    (ht : (Task.topLevel rs).Ready st) : t'.Ready st' := by
  obtain ⟨ret, w, cst, hs, hc, ⟨ss, cst', hpasses⟩, ho, hcalled⟩ := ht
  cases h with
  | topFirst =>
    cases hpasses with
    | cons hfirst _ => exact ⟨ret, w, cst, hs, hc, ⟨_, _, hfirst⟩, ho.1, hcalled.1⟩
  | topNext hrun =>
    cases hpasses with
    | cons hfirst hrest =>
      have hs' := hs.increased
        (increments_kept.stmt _ ⟨ret, w⟩ ⟨_, _, _, hc, hfirst, ho.1⟩) hrun
      exact ⟨ret, _, _, hs', hc.after hfirst ho.1, ⟨_, _, hrest⟩, ho.2, hcalled.2⟩

/-- What is called is ready where what calls it is. -/
theorem Calls.ready {t : Task} (h : Calls t st t' st') (ht : t.Ready st) : t'.Ready st' := by
  cases t with
  | value e => exact h.ready_value ht
  | address e => exact h.ready_address ht
  | call callee args => exact h.ready_call ht
  | arguments params variadic es => exact h.ready_arguments ht
  | stmt s => exact h.ready_stmt ht
  | arm s join label cond body otherwise => exact h.ready_arm ht
  | alternative s join a here => exact h.ready_alternative ht
  | stmts ss => exact h.ready_stmts ht
  | topLevel ss => exact h.ready_topLevel ht

theorem Reaches.ready {t : Task} (h : Reaches t st t' st') (ht : t.Ready st) : t'.Ready st' :=
  carried_along (P := fun c : Task × State => c.1.Ready c.2) Calls.ready h ht

end Steps

end Lowering

open Lowering in
/-- A program is ready to be lowered once it was checked. -/
theorem Accepted.ready {src : String} {ts : List Token} {p q : Program}
    {ws : List (Located Warning)}
    (h : Accepted src ts p q ws) (name : String) : (Task.topLevel q).Ready (.start name) := by
  obtain ⟨cst, hcheck, -⟩ := Program.check_eq_ok.mp h.check
  exact ⟨.void, .start, .start, start_stocked name, .start, ⟨p, cst, hcheck⟩,
    Program.check_obeys h.check (Grammar.program_obeys _ ts p h.read .void),
    h.each_checked (Grammar.called_lasts h.scan)⟩

namespace Ty

/-- No struct is named in the type. -/
def isNameless : Ty → Bool
  | .prim _ _ => true
  | .struct _ _ | .inst _ _ => false
  | .fn ret _ => ret.isNameless

variable {ty : Ty} {t : Ir.Ty}

/-- A type that names no struct is lowered alike in all tables. -/
theorem lower_of_isNameless (h : ty.isNameless) (names names' : ScopeTable Handle) :
    ty.lower names = ty.lower names' := by
  induction ty with
  | prim p n => rfl
  | struct s n | inst s n => cases h
  | fn ret n ih => rw [lower, lower, ih h]

theorem LowersTo.lower (h : ty.LowersTo t) (hn : ty.isNameless) (names : ScopeTable Handle) :
    ty.lower names = .ok t := by
  obtain ⟨names', -, h⟩ := h
  exact (lower_of_isNameless hn names names').trans h

theorem LowersTo.not_isAggregate (h : ty.LowersTo t) (hn : ty.isNameless) :
    t.isAggregate = false := by
  obtain ⟨u, rfl, hu⟩ := h.inv
  cases ty.levels.toNat with
  | succ n => rfl
  | zero =>
    cases ty with
    | prim p n => cases p <;> cases hu <;> rfl
    | struct s n | inst s n => cases hn
    | fn ret n =>
      obtain ⟨r, -, rfl⟩ := hu
      rfl

/-- A register holds a struct by its address and a function with its parameters. Any other value has
the type that its own is lowered to. -/
theorem CarriedAs.lower (h : ty.CarriedAs t) (hn : ty.isNameless)
    (hparams : ∀ params r, t = .fn params r → params = []) (names : ScopeTable Handle) :
    ty.lower names = .ok t := by
  cases h with
  | lowered h => exact h.lower hn names
  | passed h =>
    obtain ⟨u, hlow, rfl⟩ := h
    rw [hlow.not_isAggregate hn]
    exact hlow.lower hn names
  | function hty hr ht =>
    subst hty ht
    obtain rfl := hparams _ _ rfl
    rw [Ty.lower, hr.lower hn names]
    rfl

end Ty

open Lowering in
/-- Wherever lowering comes to an expression of a program that was read and checked, the expression
has a type in the table there. Where the type names no struct, the register with the value has the
type that it is lowered to. -/
theorem value_ty_eq_lower_infer (src : String) (ts : List Token) (p q : Program)
    (ws : List (Located Warning)) (h : Accepted src ts p q ws) (name : String) (e : Expr)
      (st : State)
    (hreach : Reaches (.topLevel q) (.start name) (.value e) st) (o : Operand) (st' : State)
    (hrun : Runs (value e) st o st') :
    ∃ ty, e.infer st.names = .ok ty ∧ (ty.isNameless → ty.lower st.names = .ok o.ty) := by
  obtain ⟨ret, w, cst, hs, hc, he, -, hparams⟩ := hreach.ready (h.ready name)
  obtain ⟨code, _, -, -, -, hvalue⟩ :=
    value_addsLoads hc.shows hc.grounded (False.elim : False → _) e he hs o st' hrun
  obtain ⟨ty, hty, hcarried⟩ := hvalue.renders.type
  refine ⟨ty, hs.shows.infer_eq_ok.mpr hty, fun hn => hcarried.lower hn (fun params r hfn => ?_) _⟩
  have hnone := hvalue.renders.params params r hfn
  rw [hparams] at hnone
  exact List.forall₂_nil_left_iff.mp hnone

/-- A function is called by its name, and what it returns is widened. -/
def productText : String := "g : fn i32 \x7b return 1; \x7d x := g * 1.5;"

open Lowering in
/-- The types of the first value that a variable is given after another statement: in the table, and
in the code. -/
def initialTypes? : Program → Option (Ty × Ir.Ty)
  | [s₁, .varDef name ty (some e) _] => do
    let (.ok (), st₁) := outcome (stmt s₁) (.start "main") | none
    let (.ok _, st₂) := outcome (do emitReg (.alloca (← lowerType ty name.span))) st₁ | none
    let (.ok o, _) := outcome (value e) st₂ | none
    let ty ← (e.infer st₂.names).toOption
    return (ty, o.ty)
  | _ => none

open Lowering in
theorem initialTypes?_inv {q : Program} {ty : Ty} {t : Ir.Ty} (h : initialTypes? q = some (ty, t)) :
    ∃ e st o st', Reaches (.topLevel q) (.start "main") (.value e) st ∧ Runs (value e) st o st' ∧
      e.infer st.names = .ok ty ∧ o.ty = t := by
  unfold initialTypes? at h
  split at h
  · rename_i s₁ name ty' e s
    split at h
    · rename_i st₁ hfirst
      split at h
      · rename_i ptr st₂ hcell
        split at h
        · rename_i o st₃ hvalue
          obtain ⟨ty₁, hty, h⟩ := Option.bind_eq_some_iff.mp h
          obtain ⟨rfl, rfl⟩ := Prod.mk.inj (Option.some.inj h)
          refine ⟨e, st₂, o, st₃, ?_, hvalue, toOption_eq_some.mp hty, rfl⟩
          exact .call (.topNext hfirst) (.call .topFirst (.call (.initial hcell) .refl))
        · cases h
      · cases h
    · cases h
  · cases h

open Lowering in
theorem value_productText_ty : ∃ ts p q ws e st o st', Accepted productText ts p q ws ∧
    Reaches (.topLevel q) (.start "main") (.value e) st ∧ Runs (value e) st o st' ∧
    e.infer st.names = .ok (.prim .f32 0) ∧ o.ty = .f32 ∧
    ∃ ty, e.infer st.names = .ok ty ∧ (ty.isNameless → ty.lower st.names = .ok o.ty) := by
  have htypes : surveyed productText (fun _ q _ => initialTypes? q) =
      some (.prim .f32 0, .f32) := by
    decide +kernel
  obtain ⟨ts, p, q, ws, hacc, hq⟩ := surveyed_eq_some htypes
  obtain ⟨e, st, o, st', hreach, hrun, hty, ho⟩ := initialTypes?_inv hq
  exact ⟨ts, p, q, ws, e, st, o, st', hacc, hreach, hrun, hty, ho,
    value_ty_eq_lower_infer _ _ _ _ _ hacc _ _ _ hreach _ _ hrun⟩

end Frontend
