import Frontend.Proofs.Linkage
import Frontend.Proofs.Records
import Frontend.Proofs.Markings

/-!
What becomes of the references of a program and of the functions that it declares. Lowering an
expression leaves a call or the address of a function for each reference; lowering a statement
leaves, besides, a function for each declaration in it, which names what the declaration refers to.
-/
namespace Frontend

open List (Forall₂)

/-- The name of the function that a name stands for. -/
def Handle.link? : Handle → Option String
  | .func name _ _ _ => some name
  | _ => none

namespace Lowering

variable {b : Binding Handle}

/-- What is known of every name and the function that it stands for is known of the nearest binding
of a name. -/
theorem routine?_of_find? {R : Option Routine → Binding Handle → Prop} {o : Outlook}
    {names : ScopeTable Handle} (h : Forall₂ (fun e b => b.name = e.1 ∧ R e.2 b) o names.visible)
    {id : Ident} (hb : names.find? id.name = some b) : R (o.routine? (.ident id)) b := by
  rw [ScopeTable.find?_eq] at hb
  rw [Outlook.routine?]
  generalize names.visible = bs at h hb
  induction h with
  | nil => simp at hb
  | @cons e b₀ o bs he _ ih =>
    obtain ⟨name, r⟩ := e
    by_cases hname : b₀.name = id.name
    · obtain rfl : b₀ = b := by simpa [hname] using hb
      have hfound : (id.name == name) = true := by simpa [← hname] using he.1
      simpa [List.lookup_cons, hfound] using he.2
    · have hother : (id.name == name) = false :=
        beq_false_of_ne fun h => hname (he.1.trans h.symm)
      simpa [List.lookup_cons, hother] using ih (by simpa [hname] using hb)

/-- Names that are functions are bound to them, and no others are. -/
def Tells (o : Outlook) (names : ScopeTable Handle) : Prop :=
  Forall₂ (fun e b => b.name = e.1 ∧ b.value.link? = e.2.map (·.link)) o names.visible

theorem Tells.lookup {o : Outlook} {names : ScopeTable Handle} (h : Tells o names) {id : Ident}
    (hb : names.find? id.name = some b) : b.value.link? = (o.routine? (.ident id)).map (·.link) :=
  routine?_of_find? (R := fun r b => b.value.link? = r.map (·.link)) h hb

/-- Code is read for the functions that it refers to, where names tell which these are. -/
def referring (o : Outlook) : Marking Routine where
  ready := Tells o
  shows code ts := Ir.targets code = ts.map (·.link)
  nil := rfl
  append := by
    intro is js ts ts' his hjs
    rw [Ir.targets_append, his, hjs, List.map_append]

section References

variable {o : Outlook} {ts : List Routine}

/-- An instruction refers to what its operation names. -/
theorem referring_shows {i : Ir.Instr} (h : i.op.target?.toList = ts.map (·.link)) :
    (referring o).shows [i] ts := by
  show Ir.targets [i] = _
  rw [← h, Ir.targets, List.filterMap_cons]
  cases i.op.target? <;> rfl

theorem referring_computing : Computing fun _ act _ => Writes (referring o) _ act [] :=
  Writes.computing fun _ op hop => referring_shows (by
    cases op <;> first | rfl | cases hop)

/-- The name of a function that is not called is a reference to it. -/
theorem ident_refers (id : Ident) :
    Writes (referring o) _ (ident id) ((Expr.ident id).targets o) := by
  intro st htells v st' hrun
  obtain ⟨h, st₁, hlook, hrest⟩ := runs_bind.mp hrun
  obtain ⟨b, hb, rfl, rfl⟩ := runs_lookup.mp hlook
  have hlink := Tells.lookup htells hb
  have howned := referring_computing (o := o).ownedHere
  rw [Expr.targets]
  cases hval : b.value with
  | slot ptr ty owner =>
    rw [hval] at hlink hrest
    rw [Option.map_eq_none_iff.mp hlink.symm]
    exact (howned _ _).lead (fun _ => referring_computing.read _ _) _ htells _ _ hrest
  | param reg ty owner =>
    rw [hval] at hlink hrest
    rw [Option.map_eq_none_iff.mp hlink.symm]
    exact (howned _ _).lead (fun _ => Writes.sequenced.pure _) _ htells _ _ hrest
  | func name params ret variadic =>
    rw [hval] at hlink hrest
    obtain ⟨f, hf, rfl⟩ := Option.map_eq_some_iff.mp hlink.symm
    rw [hf]
    exact Writes.emit (fun _ => referring_shows rfl) _ htells _ _ hrest
  | struct ty | member | marker =>
    rw [hval] at hrest
    exact absurd hrest not_runs_unsupported

theorem identAddress_refers (id : Ident) :
    Writes (referring o) _ (identAddress id) ((Expr.ident id).targets o) := by
  intro st htells v st' hrun
  obtain ⟨h, st₁, hlook, hrest⟩ := runs_bind.mp hrun
  obtain ⟨b, hb, rfl, rfl⟩ := runs_lookup.mp hlook
  have hlink := Tells.lookup htells hb
  rw [Expr.targets]
  cases hval : b.value with
  | slot ptr ty owner | param reg ty owner =>
    rw [hval] at hlink hrest
    rw [Option.map_eq_none_iff.mp hlink.symm]
    dsimp only at hrest
    split at hrest
    · exact (referring_computing.ownedHere _ _).lead (fun _ => Writes.sequenced.pure _) _ htells
        _ _ hrest
    · exact absurd hrest not_runs_unsupported
  | func name params ret variadic | struct ty | member | marker =>
    rw [hval] at hrest
    exact absurd hrest not_runs_unsupported

/-- A callee is found by name just if the name is that of a function. -/
theorem named?_tells {callee : Expr} {r : Option CallTarget} {st st' : State}
    (h : Tells o st.names) (hrun : Runs (named? callee) st r st') :
    st' = st ∧ r.map (·.callee) = (o.routine? callee).map fun f => .named f.link := by
  unfold named? at hrun
  split at hrun
  · rename_i id
    obtain ⟨h₀, st₁, hlook, hrest⟩ := runs_bind.mp hrun
    obtain ⟨b, hb, rfl, rfl⟩ := runs_lookup.mp hlook
    have hlink := h.lookup hb
    cases hval : b.value with
    | func name params ret variadic =>
      rw [hval] at hlink hrest
      obtain ⟨rfl, rfl⟩ := runs_pure.mp hrest
      obtain ⟨f, hf, rfl⟩ := Option.map_eq_some_iff.mp hlink.symm
      exact ⟨rfl, by simp [hf]⟩
    | slot | param | struct | member | marker =>
      rw [hval] at hlink hrest
      obtain ⟨rfl, rfl⟩ := runs_pure.mp hrest
      exact ⟨rfl, by simp [Option.map_eq_none_iff.mp hlink.symm]⟩
  · rename_i hcallee
    obtain ⟨rfl, rfl⟩ := runs_pure.mp hrun
    cases callee <;> first | exact absurd rfl (hcallee _) | exact ⟨rfl, rfl⟩

/-- The call itself, once the callee is known. -/
theorem callOf_refers (target : CallTarget) {args : LowerM (List Ir.Reg)} {called : List Routine}
    (ha : Writes (referring o) _ args ts)
    (hcalled : ∀ regs, (target.callee.op regs).target?.toList = called.map (·.link)) :
    Writes (referring o) _ (do
      let regs ← args
      if target.ret = .void then
        emitVoid (target.callee.op regs)
        return none
      else return some (← emit (target.callee.op regs) target.ret)) (ts ++ called) := by
  refine ha.bind fun regs => ?_
  split
  · exact (Writes.emitVoid (referring_shows (hcalled regs))).trail fun _ => Writes.sequenced.pure _
  · exact (Writes.emit fun _ => referring_shows (hcalled regs)).trail
      fun _ => Writes.sequenced.pure _

theorem call_refers {callee : Expr} {args : List Expr} {s : Span} {value : LowerM Operand}
    {lowerArgs : List Ir.Ty → Bool → LowerM (List Ir.Reg)}
    (hv : Writes (referring o) _ value (callee.targets o))
    (ha : ∀ tys variadic, Writes (referring o) _ (lowerArgs tys variadic)
      (Expr.allTargets o args)) :
    Writes (referring o) _ (call callee value lowerArgs) ((Expr.call callee args s).targets o) := by
  intro st htells r st' hrun
  obtain ⟨target, st₁, htarget, hrest⟩ := runs_bind.mp hrun
  obtain ⟨named, st₀, hnamed, hother⟩ := runs_bind.mp htarget
  obtain ⟨rfl, hcallee⟩ := named?_tells htells hnamed
  rw [Expr.targets]
  cases hf : o.routine? callee with
  | some f =>
    rw [hf] at hcallee
    obtain ⟨t, rfl, ht⟩ := Option.map_eq_some_iff.mp hcallee
    obtain ⟨rfl, rfl⟩ := runs_pure.mp hother
    have hcalled : ∀ regs, (target.callee.op regs).target?.toList = [f].map (·.link) := by
      intro regs
      rw [ht]
      rfl
    exact callOf_refers target (ha _ _) hcalled _ htells _ _ hrest
  | none =>
    rw [hf] at hcallee
    obtain rfl := Option.map_eq_none_iff.mp hcallee
    obtain ⟨v, st₂, hvalue, hpoint⟩ := runs_bind.mp hother
    obtain ⟨is, _, rfl, -, his, -⟩ := hv _ htells _ _ hvalue
    unfold pointedTo at hpoint
    split at hpoint
    · obtain ⟨rfl, rfl⟩ := runs_pure.mp hpoint
      have hnone : ∀ regs, ((Callee.pointer v.reg).op regs).target?.toList =
          ([] : List Routine).map (·.link) := fun _ => rfl
      obtain ⟨js, _, rfl, -, hjs, -⟩ := callOf_refers ⟨.pointer v.reg, _, _, false⟩ (ha _ _) hnone
        (st₀.extend is) htells _ _ hrest
      rw [List.append_nil] at hjs
      exact ⟨is ++ js, (), by simp, trivial, (referring o).append his hjs, trivial⟩
    · exact absurd hpoint not_runs_unsupported

/-- Lowering an expression leaves its references. -/
theorem expr_refers :
    Tallying (fun _ act xs _ => Writes (referring o) _ act xs) (Expr.targets o)
      (Expr.allTargets o) where
  computing := referring_computing
  sequenced := Writes.sequenced
  unsupported := .unsupported
  bind := .bind
  mono h _ := h
  ask _ := .ask
  field _ := .emitReg fun _ => referring_shows rfl
  store _ _ := .emitVoid (referring_shows rfl)
  literal v ty s := by
    unfold value
    exact (Writes.sequenced.lowerType _).lead fun _ => .emit fun _ => referring_shows rfl
  ident := ident_refers
  identAddress := identAddress_refers
  call _ := call_refers
  paren _ _ := by rw [Expr.targets]
  unary _ _ _ := by rw [Expr.targets]
  binary _ _ _ _ := by rw [Expr.targets]
  cast _ _ _ := by rw [Expr.targets]
  member _ _ _ _ := by rw [Expr.targets]
  nil := by rw [Expr.allTargets]
  cons _ _ := by rw [Expr.allTargets]

theorem newCell_refers (t : Ir.Ty) (init : Option Expr) :
    Writes (referring o) _ (newCell t init) (init.elim [] (·.targets o)) := by
  have hcell : Writes (referring o) _ (emitReg (.alloca t)) [] :=
    .emitReg fun _ => referring_shows rfl
  refine hcell.lead fun ptr => .trail ?_ fun _ => Writes.sequenced.pure _
  cases init with
  | none => exact Writes.sequenced.pure _
  | some e => exact expr_refers.storeAs ptr t e

end References

/-- Structs are bound to the layouts that they are told to have. -/
inductive Laid : Sight → List (Binding Handle) → Prop where
  | nil : Laid [] []
  | cons {x v b bs} : b.name = x.name →
      (∀ t, b.value = .struct t → ∃ l, Sight.layout? (x :: v) x.name = some l ∧ t = l.ty) →
      Laid v bs → Laid (x :: v) (b :: bs)

section Layouts

variable {v new : Sight} {bs bs' : List (Binding Handle)} {names : ScopeTable Handle}

theorem Laid.append (h : Forall₂ (fun x b => b.name = x.name ∧ ∀ t, b.value ≠ .struct t) new bs')
    (hl : Laid v bs) : Laid (new ++ v) (bs' ++ bs) := by
  induction h with
  | nil => exact hl
  | cons hxb _ ih => exact .cons hxb.1 (fun t ht => absurd ht (hxb.2 t)) ih

/-- A struct is found with its layout, whatever it hides. -/
theorem Laid.layout? (h : Laid v bs) {s : String} (hb : bs.find? (·.name = s) = some b) {t : Ir.Ty}
    (ht : b.value = .struct t) : ∃ l, v.layout? s = some l ∧ t = l.ty := by
  induction h with
  | nil => simp at hb
  | @cons x v b₀ bs hname hstruct _ ih =>
    by_cases hs : b₀.name = s
    · obtain rfl : b₀ = b := by simpa [hs] using hb
      rw [← hs, hname]
      exact hstruct t ht
    · obtain ⟨l, hl, rfl⟩ := ih (by simpa [hs] using hb)
      refine ⟨l, ?_, rfl⟩
      rw [Sight.layout?]
      split <;> simp [← hname, hs, hl]

/-- Types are lowered as the place tells. -/
theorem Laid.lower (h : Laid v names.visible) (ty : Ty) {t : Ir.Ty} (ht : ty.lower names = .ok t) :
    ty.lowerIn? v = some t := by
  refine Ty.lowerWith?_of_lower (fun s t hs => ?_) ty ht
  obtain ⟨b, hb, hval⟩ := Option.bind_eq_some_iff.mp hs
  rw [ScopeTable.find?_eq] at hb
  exact h.layout? hb (Handle.aggregate?_eq_some.mp hval)

end Layouts

/-- What is known of names in `st` is what the place tells. -/
structure State.At (w : Vantage) (st : State) : Prop where
  tells : Tells w.outlook st.names
  laid : Laid w.sight st.names.visible
  named : st.Named w.links
  inside : st.names.current < st.names.size

theorem paramBindings_named {params : List Param} {tys : List Ir.Ty}
    (hlen : params.length = tys.length) (owner : Nat) :
    Forall₂ (fun p b => b.name = p.name.name ∧ ∃ reg ty, b.value = .param reg ty owner) params
      (paramBindings params tys owner) := by
  refine List.forall₂_iff_get.mpr ⟨by simp [paramBindings, Ir.numbered, hlen], fun i hi hi' => ?_⟩
  simp only [List.get_eq_getElem, paramBindings, List.getElem_map, List.getElem_zip]
  exact ⟨rfl, _, _, rfl⟩

section Walk

variable {w w₁ w' : Vantage} {st st' : State} {ts ts' : List Routine} {ds ds' : List Declaration}
  {links' : List String} {bs : List (Binding Handle)} {sig : Signature}
  {low : LoweredSig} {s : Span}

namespace State.At

/-- Names are added. -/
theorem next (h : st.At w) (hp : Passes w.links links' bs st st') (es : Outlook) (new : Sight)
    (htells : Forall₂ (fun e b => b.name = e.1 ∧ b.value.link? = e.2.map (·.link)) es bs)
    (hlaid : Laid (new ++ w.sight) (bs ++ st.names.visible)) :
    st'.At ⟨new ++ w.sight, es ++ w.outlook, links'⟩ := by
  have hvis := hp.names.visible h.inside
  exact ⟨by rw [Tells, hvis]; exact List.rel_append htells h.tells, hvis ▸ hlaid, hp.named h.named,
    hp.names.current_lt h.inside⟩

theorem passes (h : st.At w) (hp : Passes w.links links' [] st st') :
    st'.At { w with links := links' } :=
  h.next hp [] [] .nil h.laid

/-- A name that is not that of a struct is added. -/
theorem nextName (h : st.At w) (hp : Passes w.links links' [b] st st') {x : Sighting}
    {r : Option Routine}
    (hx : b.name = x.name) (hr : b.value.link? = r.map (·.link)) (hb : ∀ t, b.value ≠ .struct t) :
    st'.At ⟨x :: w.sight, (b.name, r) :: w.outlook, links'⟩ :=
  h.next hp [(b.name, r)] [x] (.cons ⟨rfl, hr⟩ .nil) (.append (.cons ⟨hx, hb⟩ .nil) h.laid)

/-- Inside a function that it defines. -/
theorem enterBody (h : st.At w) (hlow : low.Of sig st) :
    (st.enterBody sig low).At (w.inside sig) := by
  have hparams := paramBindings_named hlow.params.length_eq st.nextId
  have hlink : low.name = sig.link w.links := hlow.link h.named
  refine ⟨?_, ?_, h.named.enterFunction hlow, State.enterBody_inside⟩
  · rw [Tells, State.visible_enterBody h.inside, Vantage.inside, Outlook.inside, List.map_reverse]
    refine List.rel_append (List.rel_reverse ?_) (.cons ⟨rfl, congrArg some hlink⟩ h.tells)
    refine List.forall₂_map_left_iff.mpr (hparams.imp fun p b hb => ⟨hb.1, ?_⟩)
    obtain ⟨reg, ty, hval⟩ := hb.2
    rw [hval]
    rfl
  · rw [State.visible_enterBody h.inside, Vantage.inside, Signature.inside]
    refine .append (List.rel_reverse ?_) (.cons rfl (by rintro _ ⟨⟩) h.laid)
    refine List.forall₂_map_left_iff.mpr (hparams.imp fun p b hb => ⟨hb.1, fun t ht => ?_⟩)
    obtain ⟨reg, ty, hval⟩ := hb.2
    rw [hval] at ht
    cases ht

end State.At

/-- The parts of a signature become what is written. -/
theorem LoweredSig.Of.laid (hlow : low.Of sig st) (h : st.At w) :
    Forall₂ (fun p t => ∃ ty, p.ty.lowerIn? w.sight = some ty ∧
      t = if ty.isAggregate then .ptr ty else ty) sig.params low.params ∧
    sig.ret.lowerIn? w.sight = some low.ret := by
  refine ⟨hlow.params.imp fun p t ht => ?_, h.laid.lower _ hlow.ret⟩
  obtain ⟨ty, hty, rfl⟩ := ht
  exact ⟨ty, h.laid.lower _ hty, rfl⟩

/-- Runs of `act` change the function at hand alone, and keep its code. -/
def Rebuilds (links : List String) (act : LowerM α) : Prop :=
  ∀ st a st', Runs act st a st' → ∃ b,
    st' = { st with current := b } ∧ Passes links links [] st st' ∧ b.code = st.current.code

namespace Rebuilds

variable {links : List String}

theorem startBlock (id : Ir.BlockId) (label : String) : Rebuilds links (startBlock id label) := by
  intro st a st' hrun
  obtain rfl := runs_startBlock.mp hrun
  exact ⟨_, rfl, .ofBuilder rfl rfl rfl rfl, Ir.Builder.code_startBlock _ _ _⟩

theorem terminate (t : Ir.Terminator) : Rebuilds links (terminate t) := by
  intro st a st' hrun
  obtain rfl := runs_terminate.mp hrun
  exact ⟨_, rfl, .ofBuilder rfl rfl rfl rfl, Ir.Builder.code_terminate _ _⟩

theorem reopen : Rebuilds links reopen := by
  intro st a st' hrun
  obtain ⟨-, rfl⟩ | ⟨-, rfl⟩ := reopen_inv hrun
  · exact ⟨_, rfl, .ofBuilder rfl rfl rfl rfl, Ir.Builder.code_startBlock _ _ _⟩
  · exact ⟨_, rfl, .refl _ _, rfl⟩

theorem openIf : Rebuilds links openIf := by
  intro st a st' hrun
  obtain ⟨first, n, rfl⟩ := openIf_inv hrun
  exact ⟨_, rfl, .branch _ _ _ _, Ir.Builder.code_branch _ _ _ _ _⟩

end Rebuilds

/-- All ways through a program. -/
def throughout : Route Vantage where
  after := Vantage.after
  past := Vantage.past
  beyond w a := { w with links := a.declared w.links }
  inside := Vantage.inside
  cond _ _ := True
  stmt _ _ := True
  otherwise _ _ := True
  body _ _ := True
  fnDef _ := trivial
  if_ _ := ⟨trivial, trivial, trivial⟩
  block _ := trivial
  else_ _ := trivial
  elif _ := ⟨trivial, trivial, trivial⟩
  cons _ := ⟨trivial, trivial⟩

/-- References of the function at hand, and functions that are declared. -/
def linkDeposits : Deposits throughout (List Routine × List Declaration) where
  zero := ([], [])
  add x y := (x.1 ++ y.1, x.2 ++ y.2)
  ofCond w e := (e.targets w.outlook, [])
  ofStmt w s := (s.targets w, s.declarations w)
  ofOtherwise w a := (a.targets w, a.declarations w)
  ofBody w ss := (Stmt.allTargets w ss, Stmt.allDeclarations w ss)
  add_zero x := by simp

/-- From `w` on to `w'`, the references are left in the function at hand, and functions that the
declarations become. -/
def LeavesLinks (w w' : Vantage) (st st' : State) (x : List Routine × List Declaration) : Prop :=
  st.At w → st'.At w' ∧
    Ir.targets st'.current.code = Ir.targets st.current.code ++ x.1.map (·.link) ∧
    ∃ fs, st'.module.funcs = st.module.funcs ++ fs ∧ Forall₂ Declaration.Becomes x.2 fs

section Steps

variable {x : List Routine × List Declaration} {act : LowerM α}

theorem leavesLinks_of_refers (h : Writes (referring w.outlook) _ act ts) :
    Relates LeavesLinks _ w w act (ts, []) := by
  intro st a st' hrun hat
  obtain ⟨code, _, rfl, -, hcode, -⟩ := h _ hat.tells _ _ hrun
  refine ⟨hat.passes (.ofBuilder rfl rfl rfl rfl), ?_, [], by simp, .nil⟩
  rw [State.extend_current, Ir.Builder.code_extend, Ir.targets_append]
  exact congrArg _ hcode

theorem leavesLinks_of_rebuilds (hact : Rebuilds w.links act) :
    Relates LeavesLinks _ w w act ([], []) := by
  intro st a st' hrun hat
  obtain ⟨b, rfl, hp, hcode⟩ := hact _ _ _ hrun
  exact ⟨hat.passes hp, by simp [hcode], [], by simp, .nil⟩

theorem openArm_leavesLinks (join : Ir.BlockId) (label : String) (cond : Expr) (more : Bool) :
    Relates LeavesLinks _ w w (openArm join label cond more) (cond.targets w.outlook, []) := by
  intro st no st' hrun hat
  obtain ⟨v, st₁, c, st₂, yes, n, hv, hc, -, rfl⟩ := openArm_inv hrun
  have hcond : Runs (value cond >>= (truthy · cond.span)) st c st₂ := runs_bind.mpr ⟨v, st₁, hv, hc⟩
  obtain ⟨hat₂, hts, hfuncs⟩ := leavesLinks_of_refers
    ((expr_refers.value cond).trail fun _ => referring_computing.truthy) _ _ _ hcond hat
  refine ⟨hat₂.passes (.branch _ _ _ _), ?_, hfuncs⟩
  rw [Ir.Builder.code_branch, hts]

/-- What was bound in a block is forgotten. -/
theorem inScope_leavesLinks {body : List Stmt} (h : Relates LeavesLinks _ w w' (stmts body) x) :
    Relates LeavesLinks _ w (w.past body) (inScope s (stmts body)) x := by
  intro st a st' hrun hat
  obtain ⟨st₁, outer, hact, hleave, rfl⟩ := within_inv hrun
  have hvis := ScopeTable.visible_enter _ hat.inside
  have henter : { st with names := st.names.enter : State }.At w :=
    ⟨by rw [Tells, hvis]; exact hat.tells, hvis ▸ hat.laid, hat.named, by simp⟩
  obtain ⟨-, hts, hfuncs⟩ := h _ _ _ hact henter
  obtain ⟨new, hp, -⟩ := stmts_passes body w.links hact
  exact ⟨hat.passes (hp.leave hleave), hts, hfuncs⟩

theorem variable_leavesLinks {name : Ident} {ty : Ty} {init : Option Expr} (s : Span) :
    Relates LeavesLinks _ w (w.after (.varDef name ty init s)) (variable_ name ty init)
      (init.elim [] (·.targets w.outlook), []) := by
  intro st a st' hrun hat
  obtain ⟨t, ptr, st₁, -, hcell, rfl⟩ := variable_inv hrun
  obtain ⟨hat₁, hts, hfuncs⟩ := leavesLinks_of_refers (newCell_refers t init) _ _ _ hcell hat
  have hp := Passes.bindAll w.links st₁ [.plain name.name ty (.slot ptr t st₁.current.id)]
  exact ⟨hat₁.nextName hp rfl rfl nofun, hts, hfuncs⟩

/-- A struct is bound to the layout of its members. -/
theorem struct_leavesLinks {name : Ident} {members : List Param} :
    Relates LeavesLinks _ w (w.after (.structDef name members s)) (struct_ name members s)
      ([], []) := by
  intro st a st' hrun hat
  obtain ⟨fields, hfields, hp, hcurrent, hfuncs⟩ :
    ∃ fields, _ ∧ Passes w.links w.links _ st st' ∧ _ := struct_names hrun
  refine ⟨?_, by simp [hcurrent], [], by simp [hfuncs], .nil⟩
  refine hat.next hp [(name.name, none), (membersMarker name.name, none)]
    (Stmt.structDef name members s).declares
    (.cons ⟨rfl, rfl⟩ (.cons ⟨rfl, rfl⟩ .nil)) (.cons rfl ?_ (.cons rfl nofun hat.laid))
  rintro _ ⟨⟩
  refine ⟨⟨name.name, fields⟩, (Sight.layout?_struct rfl).mpr ⟨rfl, ?_⟩, rfl⟩
  refine hfields.imp fun m f hf => ?_
  exact ⟨hf.1, (Sight.lowerIn?_cons_plain rfl _).trans (hat.laid.lower _ hf.2)⟩

theorem fnDecl_leavesLinks :
    Relates LeavesLinks _ w (w.after (.fnDecl sig s)) (stmt (.fnDecl sig s))
      ([], [⟨sig, none, w⟩]) := by
  intro st a st' hrun hat
  obtain ⟨low, hlow, hp, hcurrent, hfuncs⟩ :
    ∃ low, _ ∧ Passes w.links _ _ st st' ∧ _ := fnDecl_names hrun
  have hlink : low.name = sig.link w.links := hlow.link hat.named
  obtain ⟨hparams, hret⟩ := hlow.laid hat
  refine ⟨hat.nextName hp rfl (congrArg some hlink) nofun, by simp [hcurrent], _, hfuncs,
    .cons ⟨hlink, ?_, hret, rfl, rfl, rfl⟩ .nil⟩
  rw [Ir.Func.external, Ir.numbered_snd]
  exact hparams

/-- The function of a definition refers to what the body refers to. -/
theorem fnDef_leavesLinks {body : List Stmt} (hbody : Relates LeavesLinks _ (w.inside sig) w'
      (stmts body) (Stmt.allTargets (w.inside sig) body, ds)) :
    Relates LeavesLinks _ w (w.after (.fnDef sig body s)) (stmt (.fnDef sig body s))
      ([], ds ++ [⟨sig, some body, w⟩]) := by
  intro st a st' hrun hat
  obtain ⟨low, st₁, outer, hlow, hrun₁, hp, rfl⟩ :=
    fnDef_body (fun _ _ => stmts_passes body (w.links ++ [sig.link w.links])) hrun
  have hlink : low.name = sig.link w.links := hlow.link hat.named
  obtain ⟨hparams, hret⟩ := hlow.laid hat
  obtain ⟨-, htargets, fs, hfuncs, hds⟩ := hbody _ _ _ hrun₁ (hat.enterBody hlow)
  have hsnd : st₁.current.params.map Prod.snd = low.params := by
    rw [show st₁.current.params = _ from hp.params]
    exact Ir.numbered_snd _
  have hself : Declaration.Becomes ⟨sig, some body, w⟩ st₁.current.finish := by
    refine ⟨hp.name.trans hlink, ?_, ?_, rfl, rfl, ?_⟩
    · exact hsnd.symm ▸ hparams
    · rw [show st₁.current.finish.ret = low.ret from hp.ret]
      exact hret
    · rw [Ir.Func.targets, Ir.Builder.finish_instrs]
      exact htargets
  refine ⟨hat.nextName (.leaveFunction hlow hp) rfl (congrArg some hlink) nofun, ?_,
    fs ++ [st₁.current.finish], ?_, List.rel_append hds (.cons hself .nil)⟩
  · exact (List.append_nil _).symm
  · rw [← List.append_assoc]
    exact congrArg (· ++ _) hfuncs

end Steps

/-- A statement leaves its references, and the functions that it declares. -/
theorem links_kept : linkDeposits.Kept (Relates LeavesLinks) where
  chained := by
    refine .relates (fun w st hat => ?_) fun {w w₁ w' x y st st₁ st'} h₁ h₂ hat => ?_
    · exact ⟨hat, by simp [linkDeposits], [], by simp, .nil⟩
    · obtain ⟨hat₁, hts, fs, hfuncs, hds⟩ := h₁ hat
      obtain ⟨hat', hts', fs', hfuncs', hds'⟩ := h₂ hat₁
      exact ⟨hat', by simp [linkDeposits, hts', hts], fs ++ fs', by simp [hfuncs', hfuncs],
        List.rel_append hds hds'⟩
  reopen := leavesLinks_of_rebuilds .reopen
  openIf := leavesLinks_of_rebuilds .openIf
  startBlock := leavesLinks_of_rebuilds (.startBlock _ _)
  branchTo := leavesLinks_of_rebuilds (.terminate _)
  openArm _ := openArm_leavesLinks _ _ _ _
  inScope _ hss := inScope_leavesLinks hss
  fnDef _ hss := fnDef_leavesLinks hss
  varDef _ := by
    unfold stmt
    exact variable_leavesLinks _
  structDef _ := by
    unfold stmt
    exact struct_leavesLinks
  fnDecl _ := fnDecl_leavesLinks
  varSet _ := by
    unfold stmt
    exact leavesLinks_of_refers (expr_refers.assign _ _)
  memberSet _ := by
    unfold stmt
    exact leavesLinks_of_refers (expr_refers.assignMember _ _)
  expr _ := by
    unfold stmt
    exact leavesLinks_of_refers (expr_refers.effect _)
  return_ := by
    intro w e s _ st a st' hrun hat
    unfold stmt at hrun
    obtain ⟨r, st₁, hr, rfl⟩ := return_inv hrun
    obtain ⟨hat₁, hts, hfuncs⟩ := leavesLinks_of_refers (expr_refers.returned e) _ _ _ hr hat
    refine ⟨hat₁.passes (.ofBuilder rfl rfl rfl rfl), ?_, hfuncs⟩
    rw [Ir.Builder.code_terminate]
    exact hts

/-- Before a program, the prelude is known. -/
theorem start_at (name : String) : (State.start name).At .start := by
  refine ⟨?_, ?_, List.Perm.swap _ _ _, ?_⟩
  · rw [Tells, start_visible, Vantage.start, Outlook.start, ← List.map_reverse,
      List.forall₂_map_left_iff, List.forall₂_map_right_iff, List.forall₂_same]
    exact fun _ _ => ⟨rfl, rfl⟩
  · rw [start_visible]
    exact .cons rfl nofun .nil
  · rw [start_names]
    exact (ScopeTable.Extends.addAll _ _).current_lt (by decide)

end Walk

end Lowering

end Frontend
