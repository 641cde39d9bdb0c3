import Frontend.Proofs.Balance
import Frontend.Proofs.Operands

/-!
What holds while statements are lowered: the function under construction has a certificate, the
names in sight can be used in it, and the functions that are done are well formed and typed. Every
statement keeps this, and it hands back the blocks that others have reserved.
-/
namespace Frontend

/-- Structs in sight have the layout of a struct. -/
def ScopeTable.LaidOut (names : ScopeTable Handle) : Prop :=
  ∀ b ∈ names.visible, ∀ ty, b.value = .struct ty → ty.isAggregate

theorem ScopeTable.LaidOut.isAggregate {names : ScopeTable Handle} (hn : names.LaidOut) {s : String}
    {t : Ir.Ty} (h : names.layout? s = some t) : t.isAggregate := by
  obtain ⟨b, hb, hval⟩ := Option.bind_eq_some_iff.mp h
  refine hn b (mem_visible_of_find? hb) t ?_
  cases hv : b.value <;> simp_all [Handle.aggregate?]

/-- The type has `t` as its lowered form somewhere. -/
def Ty.LowersTo (ty : Ty) (t : Ir.Ty) : Prop := ∃ names, names.LaidOut ∧ ty.lower names = .ok t

/-- What the policy asks of a program. -/
def Ir.Policy.law (P : Ir.Policy) : Law where
  literal := P.literal
  function := fun _ => True
  type := fun _ => True
  returns := fun ret valued => ∀ t, ret.LowersTo t → P.ret t (if valued then some t else none)

/-- The function whose frame holds what a name stands for has a number below `n`. -/
def Handle.OwnedBelow (n : Nat) : Handle → Prop
  | .slot _ _ owner | .param _ _ owner => owner < n
  | _ => True

theorem Handle.OwnedBelow.mono {m n : Nat} (hle : m ≤ n) {h : Handle} (hm : h.OwnedBelow m) :
    h.OwnedBelow n := by
  cases h with
  | slot ptr ty owner => exact Nat.lt_of_lt_of_le hm hle
  | param reg ty owner => exact Nat.lt_of_lt_of_le hm hle
  | _ => trivial

theorem Handle.Sound.declare {declared declared' : String → List Ir.Ty → Ir.Ty → Prop} {c : Ir.Ctx}
    {here : Nat} (hd : ∀ f ps r, declared f ps r → declared' f ps r) {h : Handle}
    (hs : h.Sound declared c here) : h.Sound declared' c here := by
  cases h with
  | func name params ret variadic => exact hd _ _ _ hs
  | _ => exact hs

/-- In a function of its own, nothing of the functions around it is at hand. -/
theorem Handle.Sound.inner {declared : String → List Ir.Ty → Ir.Ty → Prop} {c c' : Ir.Ctx}
    {here inner : Nat} {h : Handle} (hs : h.Sound declared c here) (ho : h.OwnedBelow inner) :
    h.Sound declared c' inner := by
  cases h with
  | slot ptr ty owner => exact fun h => absurd h (Nat.ne_of_lt ho)
  | param reg ty owner => exact fun h => absurd h (Nat.ne_of_lt ho)
  | _ => exact hs

namespace Lowering

open Ir (Ctx Reg BlockId Policy Certified)

/-- A function under construction that can be called: not that of the top-level statements. -/
def Declared (b : Ir.Builder) (name : String) (params : List Ir.Ty) (ret : Ir.Ty) : Prop :=
  b.id ≠ 0 ∧ b.name = name ∧ b.params.map Prod.snd = params ∧ b.ret = ret

/-- A function of the module, or one under construction, has these types. -/
def State.Declares (st : State) (name : String) (params : List Ir.Ty) (ret : Ir.Ty) : Prop :=
  (∃ f ∈ st.module.funcs, f.name = name ∧ f.params.map Prod.snd = params ∧ f.ret = ret) ∨
    Declared st.current name params ret ∨ ∃ b ∈ st.enclosing, Declared b name params ret

/-- The names in sight can be used where `c` holds. -/
structure State.InSight (st : State) (c : Ctx) : Prop where
  inside : st.names.current < st.names.size
  handles : ∀ b ∈ st.names.visible, b.value.Sound st.Declares c st.current.id
  owners : ∀ b ∈ st.names.visible, b.value.OwnedBelow st.nextId
  here : st.current.id < st.nextId

theorem State.InSight.laidOut {st : State} {c : Ctx} (h : st.InSight c) : st.names.LaidOut := by
  intro b hb ty hty
  have hs := h.handles b hb
  rwa [hty] at hs

/-- Functions that are done are well formed and typed, and no two functions have one name. -/
structure State.Sealed (P : Policy) (st : State) : Prop where
  funcs : ∀ f ∈ st.module.funcs, f.isExternal = false →
    f.WellFormed ∧ ∃ Γ, f.WellTyped P st.Declares Γ
  unique : st.functionNames.Nodup

/-- What holds between two statements of a function that returns `ret`. -/
structure State.Sound (P : Policy) (ret : Ty) (st : State) (c : Ctx) (entry : BlockId → List Reg)
    (pending : List BlockId) : Prop where
  body : Certified P st.Declares st.current c entry pending
  names : st.InSight c
  done : st.Sealed P
  returns : ret.LowersTo st.current.ret

/-- How lowering may get from one state to another. Blocks that were there start with the same
registers, and `new` are the names that were added. -/
structure Moves (st : State) (c : Ctx) (entry : BlockId → List Reg) (st' : State) (c' : Ctx)
    (entry' : BlockId → List Reg) (new : List (Binding Handle)) : Prop where
  types : c.types <+: c'.types
  entry : ∀ id, id.index < st.current.nextBlock → entry' id = entry id
  blocks : st.current.nextBlock ≤ st'.current.nextBlock
  id : st'.current.id = st.current.id
  name : st'.current.name = st.current.name
  params : st'.current.params = st.current.params
  ret : st'.current.ret = st.current.ret
  enclosing : st'.enclosing = st.enclosing
  nextId : st.nextId ≤ st'.nextId
  declares : ∀ f ps r, st.Declares f ps r → st'.Declares f ps r
  names : st.names.Extends st'.names new

section

variable {P : Policy} {ret : Ty} {st st₁ st' : State} {c c₁ c' : Ctx}
  {entry entry₁ entry' : BlockId → List Reg} {pending : List BlockId}
  {new new₁ : List (Binding Handle)}
  {act body : LowerM Unit} {s : Span} {sig : Signature} {low : LoweredSig} {cond : Expr}
  {join : BlockId}

theorem Moves.refl (st : State) (c : Ctx) (entry : BlockId → List Reg) :
    Moves st c entry st c entry [] where
  types := List.prefix_rfl
  entry := fun _ _ => rfl
  blocks := Nat.le_refl _
  id := rfl
  name := rfl
  params := rfl
  ret := rfl
  enclosing := rfl
  nextId := Nat.le_refl _
  declares := fun _ _ _ h => h
  names := .refl _

theorem Moves.trans (h : Moves st c entry st₁ c₁ entry₁ new)
    (h' : Moves st₁ c₁ entry₁ st' c' entry' new₁) :
    Moves st c entry st' c' entry' (new₁ ++ new) where
  types := h.types.trans h'.types
  entry := fun id hid => (h'.entry id (Nat.lt_of_lt_of_le hid h.blocks)).trans (h.entry id hid)
  blocks := Nat.le_trans h.blocks h'.blocks
  id := h'.id.trans h.id
  name := h'.name.trans h.name
  params := h'.params.trans h.params
  ret := h'.ret.trans h.ret
  enclosing := h'.enclosing.trans h.enclosing
  nextId := Nat.le_trans h.nextId h'.nextId
  declares := fun f ps r hd => h'.declares f ps r (h.declares f ps r hd)
  names := h.names.trans h'.names

/-- Names that were in sight and still are can be used where no less is at hand. -/
theorem State.InSight.of_moves (h : st.InSight c) (hm : Moves st c entry st' c₁ entry' [])
    (hle : c.Le c') : st'.InSight c' := by
  have hvis : st'.names.visible = st.names.visible := hm.names.visible h.inside
  refine ⟨hm.names.current_lt h.inside, ?_, ?_, ?_⟩
  · intro b hb
    rw [hvis] at hb
    rw [hm.id]
    exact Handle.Sound.mono hle (Handle.Sound.declare hm.declares (h.handles b hb))
  · intro b hb
    rw [hvis] at hb
    exact (h.owners b hb).mono hm.nextId
  · rw [hm.id]
    exact Nat.lt_of_lt_of_le h.here hm.nextId

/-- The builder is changed, and the function it builds is still the same one. -/
theorem Moves.ofBuilder {b : Ir.Builder} (hid : b.id = st.current.id)
    (hname : b.name = st.current.name) (hparams : b.params = st.current.params)
    (hret : b.ret = st.current.ret) (hblocks : st.current.nextBlock ≤ b.nextBlock)
    (htypes : c.types <+: c'.types)
    (hentry : ∀ id, id.index < st.current.nextBlock → entry' id = entry id) :
    Moves st c entry { st with current := b } c' entry' [] where
  types := htypes
  entry := hentry
  blocks := hblocks
  id := hid
  name := hname
  params := hparams
  ret := hret
  enclosing := rfl
  nextId := Nat.le_refl _
  declares := by
    intro f ps r hd
    simpa [State.Declares, Declared, hid, hname, hparams, hret] using hd
  names := .refl _

theorem State.Sealed.of_declares (h : st.Sealed P) (hfuncs : st'.module.funcs = st.module.funcs)
    (hnames : st'.functionNames = st.functionNames)
    (hd : ∀ f ps r, st.Declares f ps r → st'.Declares f ps r) : st'.Sealed P := by
  refine ⟨fun f hf hext => ?_, hnames ▸ h.unique⟩
  rw [hfuncs] at hf
  obtain ⟨hwf, Γ, hty⟩ := h.funcs f hf hext
  exact ⟨hwf, Γ, hty.declare hd⟩

namespace State.Sound

section

variable (h : st.Sound P ret c entry pending)

include h

theorem ready : Ready st.Declares st c :=
  ⟨h.body.next, h.names.handles⟩

theorem perm {pending' : List BlockId} (hp : pending.Perm pending') :
    st.Sound P ret c entry pending' :=
  { h with body := h.body.perm hp }

/-- A change to the builder, given a certificate for what comes out. -/
theorem ofBuilder {b : Ir.Builder} {pending' : List BlockId}
    (hm : Moves st c entry { st with current := b } c' entry' [])
    (hb : Certified P st.Declares b c' entry' pending')
    (hnames : { st with current := b : State }.InSight c') :
    { st with current := b : State }.Sound P ret c' entry' pending' where
  body := hb.declare hm.declares
  names := hnames
  done := by
    refine h.done.of_declares rfl ?_ hm.declares
    have hname : b.name = st.current.name := hm.name
    simp [State.functionNames, hname]
  returns := by
    have hret : b.ret = st.current.ret := hm.ret
    rw [show { st with current := b : State }.current.ret = st.current.ret from hret]
    exact h.returns

theorem emits (he : Emits (Ir.Straight P st.Declares) st c st' c') :
    st'.Sound P ret c' entry pending ∧ Moves st c entry st' c' entry [] := by
  obtain ⟨code, rfl, hs⟩ := he
  have hm : Moves st c entry (st.extend code) c' entry [] :=
    .ofBuilder rfl rfl rfl rfl (Nat.le_refl _) hs.le.types fun _ _ => rfl
  exact ⟨h.ofBuilder hm (h.body.extend hs) (h.names.of_moves hm hs.le), hm⟩

/-- A step of expression lowering from here. -/
theorem lowers {act : LowerM α} {Q : α → Ctx → Prop} {a : α} (hl : Lowers P st.Declares act st c Q)
    (hrun : Runs act st a st') :
    ∃ c', st'.Sound P ret c' entry pending ∧ Moves st c entry st' c' entry [] ∧ c.Le c' ∧
      st'.Declares = st.Declares ∧ Q a c' := by
  obtain ⟨code, c', rfl, hcode, -, hq⟩ := hl a st' hrun
  obtain ⟨hs, hm⟩ := h.emits ⟨code, rfl, hcode⟩
  exact ⟨c', hs, hm, hcode.le, rfl, hq⟩

end

variable {b : Binding Handle}

theorem bindName (h : st.Sound P ret c entry pending)
    (hb : b.value.Sound st.Declares c st.current.id) (ho : b.value.OwnedBelow st.nextId) :
    { st with names := st.names.add b : State }.Sound P ret c entry pending ∧
      Moves st c entry { st with names := st.names.add b } c entry [b] := by
  have hvis : (st.names.add b).visible = b :: st.names.visible :=
    ScopeTable.visible_add _ _ h.names.inside
  refine ⟨⟨h.body, ⟨?_, ?_, ?_, h.names.here⟩, ⟨h.done.funcs, h.done.unique⟩, h.returns⟩, ?_⟩
  · simpa using h.names.inside
  · intro b' hb'
    rw [hvis] at hb'
    rcases List.mem_cons.mp hb' with rfl | hb'
    · exact hb
    · exact h.names.handles b' hb'
  · intro b' hb'
    rw [hvis] at hb'
    rcases List.mem_cons.mp hb' with rfl | hb'
    · exact ho
    · exact h.names.owners b' hb'
  · exact { Moves.refl st c entry with names := .add _ _ }

theorem bindAll (h : st.Sound P ret c entry pending) (bs : List (Binding Handle))
    (hb : ∀ b ∈ bs, b.value.Sound st.Declares c st.current.id)
    (ho : ∀ b ∈ bs, b.value.OwnedBelow st.nextId) :
    { st with names := st.names.addAll bs : State }.Sound P ret c entry pending ∧
      Moves st c entry { st with names := st.names.addAll bs } c entry bs.reverse := by
  induction bs generalizing st with
  | nil => exact ⟨h, .refl _ _ _⟩
  | cons b bs ih =>
    obtain ⟨h₁, hm₁⟩ := h.bindName (hb b (by simp)) (ho b (by simp))
    obtain ⟨h₂, hm₂⟩ := ih h₁ (fun b' hb' => hb b' (by simp [hb'])) fun b' hb' =>
      ho b' (by simp [hb'])
    rw [List.reverse_cons]
    exact ⟨h₂, hm₁.trans hm₂⟩

variable {id : BlockId}

theorem fresh (h : st.Sound P ret c entry pending) (regs : List Reg)
    (hid : id = st.current.freshBlock.1) :
    let st' : State := { st with current := st.current.freshBlock.2 }
    ∃ entry', st'.Sound P ret c entry' (id :: pending) ∧ Moves st c entry st' c entry' [] ∧
      entry' id = regs := by
  subst hid
  intro st'
  have hm : Moves st c entry st' c
      (fun id => if id = st.current.freshBlock.1 then regs else entry id) [] := by
    refine .ofBuilder rfl rfl rfl rfl (Nat.le_succ _) List.prefix_rfl fun id hid => if_neg ?_
    rintro rfl
    exact Nat.lt_irrefl _ hid
  exact ⟨_, h.ofBuilder hm (h.body.fresh regs) (h.names.of_moves hm (.refl c)), hm, if_pos rfl⟩

theorem terminate (h : st.Sound P ret c entry pending) {t : Ir.Terminator}
    (ht : t.Typed P st.current.ret c.Has)
    (he : ∀ id ∈ t.targets, id ∈ pending ∧ entry id ⊆ c.avail) :
    let st' : State := { st with current := st.current.terminate t }
    st'.Sound P ret c entry pending ∧ Moves st c entry st' c entry [] := by
  intro st'
  have hm : Moves st c entry st' c entry [] :=
    .ofBuilder rfl rfl rfl rfl (Nat.le_refl _) List.prefix_rfl fun _ _ => rfl
  have hb := h.body.terminate ht fun id hid =>
    ⟨List.mem_append_right _ (he id hid).1, (he id hid).2⟩
  exact ⟨h.ofBuilder hm hb (h.names.of_moves hm (.refl c)), hm⟩

/-- A reserved block is started where the names in sight can be used with what it starts with. -/
theorem startBlock (h : st.Sound P ret c entry (id :: pending)) (label : String)
    (hnames : st.InSight ⟨c.types, entry id⟩) :
    let st' : State := { st with current := st.current.startBlock id label }
    st'.Sound P ret ⟨c.types, entry id⟩ entry pending ∧
      Moves st c entry st' ⟨c.types, entry id⟩ entry [] := by
  intro st'
  have hm : Moves st c entry st' ⟨c.types, entry id⟩ entry [] :=
    .ofBuilder rfl rfl rfl rfl (Nat.le_refl _) List.prefix_rfl fun _ _ => rfl
  have hm' : Moves st ⟨c.types, entry id⟩ entry st' ⟨c.types, entry id⟩ entry [] :=
    .ofBuilder rfl rfl rfl rfl (Nat.le_refl _) List.prefix_rfl fun _ _ => rfl
  exact ⟨h.ofBuilder hm (h.body.startBlock label) (hnames.of_moves hm' (.refl _)), hm⟩

/-- A block that is still to be started is known. -/
theorem pending_lt (h : st.Sound P ret c entry pending) (hid : id ∈ pending) :
    id.index < st.current.nextBlock :=
  h.body.bounded id (List.mem_append_right _ hid)

end State.Sound

/-- From `st` to `st'` everything is kept, and `new` names are added. -/
def Kept (P : Policy) (ret : Ty) (st : State) (c : Ctx) (entry : BlockId → List Reg)
    (pending : List BlockId) (st' : State) (new : List (Binding Handle)) : Prop :=
  ∃ c' entry', st'.Sound P ret c' entry' pending ∧ Moves st c entry st' c' entry' new ∧ c.Le c'

/-- Every run of `act` keeps what holds between statements. -/
def Keeps (P : Policy) (ret : Ty) (act : LowerM Unit) : Prop :=
  ∀ st c entry pending st', st.Sound P ret c entry pending → Runs act st () st' →
    ∃ new, Kept P ret st c entry pending st' new

/-- Every run of `act` keeps what holds between statements and adds no names. -/
def KeepsNames (P : Policy) (ret : Ty) (act : LowerM Unit) : Prop :=
  ∀ st c entry pending st', st.Sound P ret c entry pending → Runs act st () st' →
    Kept P ret st c entry pending st' []

theorem KeepsNames.keeps (h : KeepsNames P ret act) : Keeps P ret act :=
  fun st c entry pending st' hs hrun => ⟨[], h st c entry pending st' hs hrun⟩

theorem Kept.trans (hm : Moves st c entry st₁ c₁ entry₁ new) (hle : c.Le c₁)
    (h' : Kept P ret st₁ c₁ entry₁ pending st' new₁) :
    Kept P ret st c entry pending st' (new₁ ++ new) := by
  obtain ⟨c', entry', hs, hm', hle'⟩ := h'
  exact ⟨c', entry', hs, hm.trans hm', hle.trans hle'⟩

theorem Keeps.pure : Keeps P ret (pure ()) := by
  intro st c entry pending st' hs hrun
  obtain ⟨-, rfl⟩ := runs_pure.mp hrun
  exact ⟨[], c, entry, hs, .refl _ _ _, .refl c⟩

theorem Keeps.bind {x y : LowerM Unit} (hx : Keeps P ret x) (hy : Keeps P ret y) :
    Keeps P ret (x >>= fun _ => y) := by
  intro st c entry pending st' hs hrun
  obtain ⟨_, st₁, h₁, h₂⟩ := runs_bind.mp hrun
  obtain ⟨new, c₁, entry₁, hs₁, hm, hle⟩ := hx _ _ _ _ _ hs h₁
  obtain ⟨new₁, hk⟩ := hy _ _ _ _ _ hs₁ h₂
  exact ⟨_, .trans hm hle hk⟩

theorem Keeps.unsupported {s : Span} {what : Unsupported} : Keeps P ret (unsupported s what) :=
  fun _ _ _ _ _ _ hrun => absurd hrun not_runs_unsupported

/-- A step of expression lowering. -/
theorem KeepsNames.ofLowers {Q : Unit → Ctx → Prop}
    (h : ∀ declared st c, Ready declared st c → Lowers P declared act st c Q) :
    KeepsNames P ret act := by
  intro st c entry pending st' hs hrun
  obtain ⟨c', hs', hm, hle, -, -⟩ := hs.lowers (h st.Declares st c hs.ready) hrun
  exact ⟨c', entry, hs', hm, hle⟩

theorem State.Sound.enter (h : st.Sound P ret c entry pending) :
    { st with names := st.names.enter : State }.Sound P ret c entry pending := by
  have hvis := ScopeTable.visible_enter _ h.names.inside
  refine ⟨h.body, ⟨by simp, ?_, ?_, h.names.here⟩, ⟨h.done.funcs, h.done.unique⟩, h.returns⟩
  · intro b hb
    rw [hvis] at hb
    exact h.names.handles b hb
  · intro b hb
    rw [hvis] at hb
    exact h.names.owners b hb

/-- What is bound in a scope is gone after it. -/
theorem Kept.leave (hs : st.Sound P ret c entry pending)
    (hk : Kept P ret { st with names := st.names.enter } c entry pending st₁ new)
    {outer : ScopeTable Handle} (hleave : st₁.names.leave? = some outer) :
    Kept P ret st c entry pending { st₁ with names := outer } [] := by
  obtain ⟨c₁, entry₁, hs₁, hm, hle⟩ := hk
  have hm' : Moves st c entry { st₁ with names := outer } c₁ entry₁ [] :=
    { hm with names := hm.names.leave hleave }
  exact ⟨c₁, entry₁, ⟨hs₁.body, hs.names.of_moves hm' hle, ⟨hs₁.done.funcs, hs₁.done.unique⟩,
    hs₁.returns⟩, hm', hle⟩

theorem Keeps.inScope {act : LowerM Unit} (h : Keeps P ret act) (s : Span) :
    KeepsNames P ret (inScope s act) := by
  intro st c entry pending st' hs hrun
  obtain ⟨st₁, outer, hact, hleave, rfl⟩ := within_inv hrun
  obtain ⟨new, hk⟩ := h _ _ _ _ _ hs.enter hact
  exact hk.leave hs hleave

/-- Where nothing can be added to the current block, a new one takes over what is at hand. -/
theorem reopen_keeps : KeepsNames P ret reopen := by
  intro st c entry pending st' hs hrun
  have hif := runs_get_bind.mp hrun
  split at hif
  · obtain ⟨id, st₁, hfresh, hstart⟩ := runs_bind.mp hif
    obtain ⟨hid, rfl⟩ := runs_freshBlock.mp hfresh
    obtain rfl := runs_startBlock.mp hstart
    obtain ⟨entry₁, hs₁, hm₁, hentry⟩ := hs.fresh c.avail hid
    obtain ⟨hs₂, hm₂⟩ := hs₁.startBlock "dead" (by rw [hentry]; exact hs₁.names)
    rw [hentry] at hs₂ hm₂
    exact ⟨c, entry₁, hs₂, hm₁.trans hm₂, .refl c⟩
  · obtain ⟨-, rfl⟩ := runs_pure.mp hif
    exact ⟨c, entry, hs, .refl _ _ _, .refl c⟩

theorem variable_keeps {name : Ident} {ty : Ty} {init : Option Expr}
    (hinit : ∀ e ∈ init, e.Obeys P.literal) : Keeps P ret (variable_ name ty init) := by
  intro st c entry pending st' hs hrun
  obtain ⟨t, st₁, hty, hrun₁⟩ := runs_bind.mp hrun
  obtain ⟨-, rfl⟩ := runs_lowerType.mp hty
  obtain ⟨ptr, st₂, hptr, hrun₂⟩ := runs_bind.mp hrun₁
  obtain ⟨c₂, hs₂, hm₂, hle₂, -, hp⟩ := hs.lowers (Lowers.emitReg hs.ready .alloca) hptr
  obtain ⟨_, st₃, hstore, hrun₃⟩ := runs_bind.mp hrun₂
  have hlow : Lowers P st₂.Declares (init.forM (storeAs ptr t)) st₂ c₂ fun _ _ => True := by
    cases init with
    | none => exact .pure trivial
    | some e => exact storeAs_lowers (hinit e rfl) hs₂.ready hp
  obtain ⟨c₃, hs₃, hm₃, hle₃, -, -⟩ := hs₂.lowers hlow hstore
  obtain rfl := runs_bindName.mp (runs_get_bind.mp hrun₃)
  obtain ⟨hs₄, hm₄⟩ := hs₃.bindName (b := .plain name.name ty (.slot ptr t st₃.current.id))
    (fun _ => hle₃.has hp) hs₃.names.here
  exact ⟨_, c₃, entry, hs₄, (hm₂.trans hm₃).trans hm₄, hle₂.trans hle₃⟩

theorem return_keeps {e : Option Expr} (hret : P.law.returns ret e.isSome)
    (he : ∀ e' ∈ e, e'.Obeys P.literal) :
    KeepsNames P ret (return_ e) := by
  intro st c entry pending st' hs hrun
  obtain ⟨reg, st₁, hreg, hterm⟩ := runs_bind.mp hrun
  obtain rfl := runs_terminate.mp hterm
  cases e with
  | none =>
    obtain ⟨rfl, rfl⟩ := runs_pure.mp hreg
    obtain ⟨hs₁, hm⟩ := hs.terminate (.bare (hret _ hs.returns)) (by simp [Ir.Terminator.targets])
    exact ⟨c, entry, hs₁, hm, .refl c⟩
  | some e =>
    obtain ⟨v, st₂, hv, hpure⟩ := runs_bind.mp (runs_get_bind.mp hreg)
    obtain ⟨rfl, rfl⟩ := runs_pure.mp hpure
    obtain ⟨c₁, hs₁, hm₁, hle, -, hheld, hvty⟩ :=
      hs.lowers (valueAs_lowers (he e rfl) _ hs.ready) hv
    rw [Operand.Held, hvty, ← hm₁.ret] at hheld
    obtain ⟨hs₂, hm₂⟩ := hs₁.terminate (.value (hret _ hs₁.returns) hheld)
      (by simp [Ir.Terminator.targets])
    exact ⟨c₁, entry, hs₂, hm₁.trans hm₂, hle⟩

theorem struct_keeps {name : Ident} {members : List Param} :
    Keeps P ret (struct_ name members s) := by
  intro st c entry pending st' hs hrun
  obtain ⟨fields, outer, -, hleave, rfl⟩ := struct_inv hrun
  have hinside : st.names.current < st.names.size := hs.names.inside
  have hext := (ScopeTable.Extends.add st.names _).trans ((ScopeTable.Extends.addAll
    (st.names.enterMarked (membersMarker name.name) .marker) _).leave hleave)
  have hext' := hext.trans (.add outer
    ⟨name.name, .struct name.name 0, .none, some st.names.size,
      .struct (Ir.Layout.mk name.name fields).ty⟩)
  have hvis := hext'.visible hinside
  refine ⟨_, c, entry, ⟨hs.body, ⟨hext'.current_lt hinside, ?_, ?_, hs.names.here⟩,
    ⟨hs.done.funcs, hs.done.unique⟩, hs.returns⟩, { Moves.refl st c entry with names := hext' },
    .refl c⟩
  · intro b hb
    rw [hvis] at hb
    rcases List.mem_append.mp hb with hb | hb
    · rcases List.mem_cons.mp hb with rfl | hb
      · rfl
      · obtain rfl : b = _ := by simpa using hb
        trivial
    · exact hs.names.handles b hb
  · intro b hb
    rw [hvis] at hb
    rcases List.mem_append.mp hb with hb | hb
    · rcases List.mem_cons.mp hb with rfl | hb
      · trivial
      · obtain rfl : b = _ := by simpa using hb
        trivial
    · exact hs.names.owners b hb

theorem paramBindings_sound {declared : String → List Ir.Ty → Ir.Ty → Prop} {params : List Param}
    {tys : List Ir.Ty} {owner : Nat} (hb : b ∈ paramBindings params tys owner) :
    b.value.Sound declared ⟨tys, Ir.regsFrom 0 tys.length⟩ owner := by
  obtain ⟨⟨p, reg, ty⟩, hmem, rfl⟩ := List.mem_map.mp hb
  exact fun _ => Ctx.has_numbered (List.of_mem_zip hmem).2

theorem paramBindings_owned {params : List Param} {tys : List Ir.Ty} {owner : Nat}
    (hb : b ∈ paramBindings params tys owner) : b.value.OwnedBelow (owner + 1) := by
  obtain ⟨_, _, rfl⟩ := List.mem_map.mp hb
  exact Nat.lt_succ_self owner

theorem State.enterFunction_declares (st : State) (sig : Signature) (low : LoweredSig) :
    ∀ f ps r, st.Declares f ps r → (st.enterFunction sig low).Declares f ps r := by
  rintro f ps r (h | h | ⟨b, hb, h⟩)
  · exact .inl h
  · exact .inr (.inr ⟨st.current, List.mem_cons_self, h⟩)
  · exact .inr (.inr ⟨b, List.mem_cons_of_mem _ hb, h⟩)

/-- A function can call itself. -/
theorem State.InSight.declares_self (h : st.InSight c) (sig : Signature) (low : LoweredSig) :
    (st.enterFunction sig low).Declares low.name low.params low.ret := by
  refine .inr (.inl ⟨?_, rfl, by simp [State.enterFunction, Ir.Builder.start], rfl⟩)
  exact Nat.ne_of_gt (Nat.lt_of_le_of_lt (Nat.zero_le _) h.here)

/-- The function itself and what was in sight before can be used in a function of its own. -/
theorem State.InSight.enterFunction (h : st.InSight c) :
    (st.enterFunction sig low).InSight ⟨low.params, Ir.regsFrom 0 low.params.length⟩ := by
  have hd := st.enterFunction_declares sig low
  have hvis : (st.enterFunction sig low).names.visible =
      low.binding sig false :: st.names.visible := ScopeTable.visible_add _ _ h.inside
  refine ⟨by simpa [State.enterFunction] using h.inside, ?_, ?_, Nat.lt_succ_self _⟩
  · intro b hb
    rw [hvis] at hb
    rcases List.mem_cons.mp hb with rfl | hb
    · exact h.declares_self sig low
    · exact Handle.Sound.declare hd (Handle.Sound.inner (h.handles b hb) (h.owners b hb))
  · intro b hb
    rw [hvis] at hb
    rcases List.mem_cons.mp hb with rfl | hb
    · trivial
    · exact (h.owners b hb).mono (Nat.le_succ _)

theorem State.Sound.enterFunction (h : st.Sound P ret c entry pending) (hlow : low.Of sig st) :
    (st.enterFunction sig low).Sound P sig.ret ⟨low.params, Ir.regsFrom 0 low.params.length⟩
      (fun _ => Ir.regsFrom 0 low.params.length) [] := by
  refine ⟨.ofStart _ _ _ _, h.names.enterFunction, ⟨?_, ?_⟩, ⟨st.names, h.names.laidOut, hlow.ret⟩⟩
  · intro f hf hext
    obtain ⟨hwf, Γ, hty⟩ := h.done.funcs f hf hext
    exact ⟨hwf, Γ, hty.declare (st.enterFunction_declares sig low)⟩
  · have hfree : low.name ∉ st.functionNames := hlow.name ▸ freeName_not_mem _ _
    exact List.perm_middle.nodup_iff.mpr (List.nodup_cons.mpr ⟨hfree, h.done.unique⟩)

/-- What a function of its own could call can be called once it is done. -/
theorem State.leaveFunction_declares (henc : st'.enclosing = st.current :: st.enclosing) :
    ∀ f ps r, st'.Declares f ps r → (st.leaveFunction st').Declares f ps r := by
  rintro f ps r (⟨g, hg, h⟩ | ⟨-, h⟩ | ⟨b, hb, h⟩)
  · exact .inl ⟨g, List.mem_append_left _ hg, h⟩
  · exact .inl ⟨st'.current.finish, List.mem_append_right _ List.mem_cons_self, h⟩
  · rw [henc] at hb
    rcases List.mem_cons.mp hb with rfl | hb
    · exact .inr (.inl h)
    · exact .inr (.inr ⟨b, hb, h⟩)

theorem Kept.leaveFunction (h : st.Sound P ret c entry pending) {regs : List Reg}
    (hk : Kept P sig.ret (st.enterFunction sig low) ⟨low.params, regs⟩ (fun _ => regs) [] st' []) :
    Kept P ret st c entry pending (st.leaveFunction st') [low.binding sig false] := by
  obtain ⟨c', entry', hs, hm, -⟩ := hk
  have hnames : st.names.Extends st'.names [low.binding sig false] :=
    (ScopeTable.Extends.add _ _).trans hm.names
  have hvis : st'.names.visible = low.binding sig false :: st.names.visible :=
    hnames.visible h.names.inside
  have hd' : ∀ f ps r, st'.Declares f ps r → (st.leaveFunction st').Declares f ps r :=
    State.leaveFunction_declares hm.enclosing
  have hself : (st.leaveFunction st').Declares low.name low.params low.ret :=
    hd' _ _ _ (hm.declares _ _ _ (h.names.declares_self sig low))
  have hd : ∀ f ps r, st.Declares f ps r → (st.leaveFunction st').Declares f ps r := fun f ps r h =>
    hd' f ps r (hm.declares f ps r (st.enterFunction_declares sig low f ps r h))
  have hle : st.nextId + 1 ≤ st'.nextId := hm.nextId
  refine ⟨c, entry, ⟨h.body.declare hd, ⟨hnames.current_lt h.names.inside, ?_, ?_, ?_⟩, ⟨?_, ?_⟩,
    h.returns⟩, ?_, .refl c⟩
  · intro b hb
    rw [show (st.leaveFunction st').names.visible = _ from hvis] at hb
    rcases List.mem_cons.mp hb with rfl | hb
    · exact hself
    · exact Handle.Sound.declare hd (h.names.handles b hb)
  · intro b hb
    rw [show (st.leaveFunction st').names.visible = _ from hvis] at hb
    rcases List.mem_cons.mp hb with rfl | hb
    · trivial
    · exact (h.names.owners b hb).mono (Nat.le_of_succ_le hle)
  · exact Nat.lt_of_lt_of_le h.names.here (Nat.le_of_succ_le hle)
  · intro f hf hext
    rcases List.mem_append.mp hf with hf | hf
    · obtain ⟨hwf, Γ, hty⟩ := hs.done.funcs f hf hext
      exact ⟨hwf, Γ, hty.declare hd'⟩
    · rw [List.mem_singleton.mp hf]
      exact ⟨hs.body.wellFormed, _, hs.body.wellTyped.declare hd'⟩
  · have hperm : (st.leaveFunction st').functionNames.Perm st'.functionNames := by
      simp only [State.functionNames, State.leaveFunction, Ir.Module.addFunc, hm.enclosing,
        State.enterFunction, List.map_append, List.map_cons, List.map_nil, List.append_assoc]
      rfl
    exact hperm.nodup_iff.mpr hs.done.unique
  · exact { Moves.refl st c entry with
      nextId := Nat.le_of_succ_le hle, declares := hd, names := hnames }

theorem fnDef_keeps {body : List Stmt} (hbody : Keeps P sig.ret (stmts body)) :
    Keeps P ret (stmt (.fnDef sig body s)) := by
  intro st c entry pending st' hs hrun
  obtain ⟨low, st₁, outer, hlow, hrun₁, hleave, rfl⟩ := fnDef_inv hrun
  have hin := hs.enterFunction hlow
  obtain ⟨hs₁, hm₁⟩ := hin.enter.bindAll (paramBindings sig.params low.params st.nextId)
    (fun _ => paramBindings_sound) fun _ => paramBindings_owned
  obtain ⟨new, hk⟩ := hbody _ _ _ _ _ hs₁ hrun₁
  exact ⟨_, Kept.leaveFunction hs ((Kept.trans hm₁ (.refl _) hk).leave hin hleave)⟩

theorem fnDecl_keeps : Keeps P ret (stmt (.fnDecl sig s)) := by
  intro st c entry pending st' hs hrun
  obtain ⟨low, hlow, rfl⟩ := fnDecl_inv hrun
  have hfunc : ∀ f ps r, st.Declares f ps r → State.Declares { st with
      names := st.names.add (low.binding sig true)
      module := st.module.addFunc (.external low.name low.params low.ret sig.variadic) }
        f ps r := by
    rintro f ps r (⟨g, hg, h⟩ | h)
    · exact .inl ⟨g, List.mem_append_left _ hg, h⟩
    · exact .inr h
  have hvis : (st.names.add (low.binding sig true)).visible =
      low.binding sig true :: st.names.visible := ScopeTable.visible_add _ _ hs.names.inside
  refine ⟨[low.binding sig true], c, entry, ⟨hs.body.declare hfunc,
    ⟨by simpa using hs.names.inside, ?_, ?_, hs.names.here⟩, ⟨?_, ?_⟩, hs.returns⟩,
    { Moves.refl st c entry with declares := hfunc, names := .add _ _ }, .refl c⟩
  · intro b hb
    rw [hvis] at hb
    rcases List.mem_cons.mp hb with rfl | hb
    · exact .inl ⟨_, List.mem_append_right _ List.mem_cons_self, rfl, Ir.numbered_snd _, rfl⟩
    · exact Handle.Sound.declare hfunc (hs.names.handles b hb)
  · intro b hb
    rw [hvis] at hb
    rcases List.mem_cons.mp hb with rfl | hb
    · trivial
    · exact hs.names.owners b hb
  · intro f hf hext
    rcases List.mem_append.mp hf with hf | hf
    · obtain ⟨hwf, Γ, hty⟩ := hs.done.funcs f hf hext
      exact ⟨hwf, Γ, hty.declare hfunc⟩
    · rw [List.mem_singleton.mp hf] at hext
      simp [Ir.Func.external] at hext
  · have hfree : low.name ∉ st.functionNames := hlow.name ▸ freeName_not_mem _ _
    have : (State.functionNames { st with
        names := st.names.add (low.binding sig true)
        module := st.module.addFunc (.external low.name low.params low.ret sig.variadic) }).Perm
        (low.name :: st.functionNames) := by
      simp only [State.functionNames, Ir.Module.addFunc, Ir.Func.external, List.map_append,
        List.map_cons, List.map_nil, List.append_assoc]
      exact List.perm_middle
    exact this.nodup_iff.mpr (List.nodup_cons.mpr ⟨hfree, hs.done.unique⟩)

/-- Where a condition is at hand, control goes on to `yes` or to `no`; what is done in `yes` goes on
to `join`. -/
theorem branch_keeps {cond : Reg} {yes no : BlockId} {label : String}
    (hs : st.Sound P ret c entry (yes :: pending)) (hyes : entry yes = c.avail)
      (hcond : c.Has cond .bool)
    (hno : no ∈ pending ∧ entry no ⊆ c.avail) (hjoin : join ∈ pending ∧ entry join ⊆ c.avail)
    (hbody : KeepsNames P ret body)
    (hrun : Runs body { st with
      current := (st.current.terminate (.condBr cond yes no)).startBlock yes label } () st₁) :
    Kept P ret st c entry pending { st₁ with current := st₁.current.terminate (.br join) } [] := by
  obtain ⟨hs₁, hm₁⟩ := hs.terminate (t := .condBr cond yes no) (.condBr hcond) (by
    intro id hid
    rcases List.mem_cons.mp hid with rfl | hid
    · exact ⟨List.mem_cons_self, by rw [hyes]; exact List.Subset.refl _⟩
    · obtain rfl : id = no := by simpa using hid
      exact ⟨List.mem_cons_of_mem _ hno.1, hno.2⟩)
  obtain ⟨hs₂, hm₂⟩ := hs₁.startBlock label (by rw [hyes]; exact hs₁.names)
  rw [hyes] at hs₂ hm₂
  obtain ⟨c₃, entry₃, hs₃, hm₃, hle⟩ := hbody _ _ _ _ _ hs₂ hrun
  have hentry : entry₃ join = entry join := hm₃.entry join (hs₂.pending_lt hjoin.1)
  obtain ⟨hs₄, hm₄⟩ := hs₃.terminate (t := .br join) .br (by
    intro id hid
    obtain rfl : id = join := by simpa [Ir.Terminator.targets] using hid
    exact ⟨hjoin.1, by rw [hentry]; exact List.Subset.trans hjoin.2 hle.avail⟩)
  exact ⟨c₃, entry₃, hs₄, ((hm₁.trans hm₂).trans hm₃).trans hm₄, hle⟩

/-- Runs of `act` start the reserved block that they are given and go on to `join` in the end. -/
def KeepsFrom (P : Policy) (ret : Ty) (join : BlockId) (act : BlockId → LowerM Unit) : Prop :=
  ∀ here st c entry pending st', st.Sound P ret c entry (here :: pending) → join ∈ pending →
    entry join ⊆ entry here → st.InSight ⟨c.types, entry here⟩ → Runs (act here) st () st' →
    ∃ c' entry', st'.Sound P ret c' entry' pending ∧ Moves st c entry st' c' entry' []

theorem arm_keeps {label : String} {otherwise : Option (BlockId → LowerM Unit)}
    (hcond : cond.Obeys P.literal) (hbody : KeepsNames P ret body)
    (hother : ∀ act ∈ otherwise, KeepsFrom P ret join act) (hs : st.Sound P ret c entry pending)
    (hjoin : join ∈ pending) (hentry : entry join ⊆ c.avail)
    (hrun : Runs (arm join label cond body otherwise) st () st') :
    ∃ c' entry', st'.Sound P ret c' entry' pending ∧ Moves st c entry st' c' entry' [] := by
  obtain ⟨no, st₀, hopen, hrun₀⟩ := runs_bind.mp hrun
  obtain ⟨v, st₁, hv, hrun₁⟩ := runs_bind.mp hopen
  obtain ⟨c₁, hs₁, hm₁, hle₁, -, hval⟩ := hs.lowers (value_lowers cond hcond _ _ hs.ready) hv
  obtain ⟨bit, st₂, hbit, hrun₂⟩ := runs_bind.mp hrun₁
  obtain ⟨c₂, hs₂, hm₂, hle₂, -, hheld, hty⟩ := hs₁.lowers (truthy_lowers hs₁.ready hval) hbit
  rw [Operand.Held, hty] at hheld
  have hjoin₂ : entry join ⊆ c₂.avail := List.Subset.trans hentry (hle₁.trans hle₂).avail
  obtain ⟨yes, st₃, hfresh, hrun₃⟩ := runs_bind.mp hrun₂
  obtain ⟨hyes, rfl⟩ := runs_freshBlock.mp hfresh
  obtain ⟨entry₃, hs₃, hm₃, hyes₃⟩ := hs₂.fresh c₂.avail hyes
  have hjoin₃ : entry₃ join = entry join := hm₃.entry join (hs₂.pending_lt hjoin)
  obtain ⟨no', st₄, helse, hrun₄⟩ := runs_bind.mp hrun₃
  obtain ⟨_, st₅, hterm, hrun₅⟩ := runs_bind.mp hrun₄
  obtain rfl := runs_terminate.mp hterm
  obtain ⟨_, st₆, hstart, hrun₆⟩ := runs_bind.mp hrun₅
  obtain rfl := runs_startBlock.mp hstart
  obtain ⟨rfl, rfl⟩ := runs_pure.mp hrun₆
  obtain ⟨_, st₇, hbodyRun, hrun₇⟩ := runs_bind.mp hrun₀
  obtain ⟨_, st₈, hterm', hrun₈⟩ := runs_bind.mp hrun₇
  obtain rfl := runs_terminate.mp hterm'
  cases otherwise with
  | none =>
    obtain ⟨rfl, rfl⟩ := runs_pure.mp helse
    obtain ⟨-, rfl⟩ := runs_pure.mp hrun₈
    have hgoal : no ∈ pending ∧ entry₃ no ⊆ c₂.avail := ⟨hjoin, by rw [hjoin₃]; exact hjoin₂⟩
    obtain ⟨c', entry', hs', hm', -⟩ :=
      branch_keeps hs₃ hyes₃ hheld hgoal hgoal hbody hbodyRun
    exact ⟨c', entry', hs', ((hm₁.trans hm₂).trans hm₃).trans hm'⟩
  | some act =>
    obtain ⟨hno, rfl⟩ := runs_freshBlock.mp helse
    obtain ⟨entry₄, hs₄, hm₄, hno₄⟩ := hs₃.fresh c₂.avail hno
    have hyes₄ : entry₄ yes = c₂.avail :=
      (hm₄.entry yes (hs₃.pending_lt List.mem_cons_self)).trans hyes₃
    have hjoin₄ : entry₄ join = entry join :=
      (hm₄.entry join (hs₃.pending_lt (List.mem_cons_of_mem _ hjoin))).trans hjoin₃
    have hs₄' := hs₄.perm (.swap yes no pending)
    obtain ⟨c₅, entry₅, hs₅, hm₅, hle₅⟩ := branch_keeps hs₄' hyes₄ hheld
      ⟨List.mem_cons_self, by rw [hno₄]; exact List.Subset.refl _⟩
      ⟨List.mem_cons_of_mem _ hjoin, by rw [hjoin₄]; exact hjoin₂⟩ hbody hbodyRun
    have hno₅ : entry₅ no = c₂.avail :=
      (hm₅.entry no (hs₄.pending_lt List.mem_cons_self)).trans hno₄
    have hjoin₅ : entry₅ join = entry join := (hm₅.entry join
      (hs₄.pending_lt (List.mem_cons_of_mem _ (List.mem_cons_of_mem _ hjoin)))).trans hjoin₄
    have hnames : State.InSight _ ⟨c₅.types, entry₅ no⟩ :=
      hs₄.names.of_moves hm₅ ⟨hle₅.types, by rw [hno₅]; exact List.Subset.refl _⟩
    obtain ⟨c', entry', hs', hm'⟩ := hother act rfl no _ c₅ entry₅ pending st' hs₅ hjoin
      (by rw [hno₅, hjoin₅]; exact hjoin₂) hnames hrun₈
    exact ⟨c', entry', hs', ((((hm₁.trans hm₂).trans hm₃).trans hm₄).trans hm₅).trans hm'⟩

/-- The block where the condition has failed is started, and what it holds goes on to `join`. -/
theorem else_keeps (hbody : KeepsNames P ret body) :
    KeepsFrom P ret join (fun here => do
      startBlock here "if.else"
      body
      terminate (.br join)) := by
  intro here st c entry pending st' hs hjoin hentry hnames hrun
  obtain ⟨_, st₁, hstart, hrun₁⟩ := runs_bind.mp hrun
  obtain rfl := runs_startBlock.mp hstart
  obtain ⟨_, st₂, hbodyRun, hterm⟩ := runs_bind.mp hrun₁
  obtain rfl := runs_terminate.mp hterm
  obtain ⟨hs₁, hm₁⟩ := hs.startBlock "if.else" hnames
  obtain ⟨c₂, entry₂, hs₂, hm₂, hle⟩ := hbody _ _ _ _ _ hs₁ hbodyRun
  have hjoin₂ : entry₂ join = entry join := hm₂.entry join (hs₁.pending_lt hjoin)
  obtain ⟨hs₃, hm₃⟩ := hs₂.terminate (t := .br join) .br (by
    intro id hid
    obtain rfl : id = join := by simpa [Ir.Terminator.targets] using hid
    exact ⟨hjoin, by rw [hjoin₂]; exact List.Subset.trans hentry hle.avail⟩)
  exact ⟨c₂, entry₂, hs₃, (hm₁.trans hm₂).trans hm₃⟩

theorem elif_keeps {otherwise : Option (BlockId → LowerM Unit)} (hcond : cond.Obeys P.literal)
    (hbody : KeepsNames P ret body) (hother : ∀ act ∈ otherwise, KeepsFrom P ret join act) :
    KeepsFrom P ret join (fun here => do
      startBlock here "elif.cond"
      arm join "elif.then" cond body otherwise) := by
  intro here st c entry pending st' hs hjoin hentry hnames hrun
  obtain ⟨_, st₁, hstart, hrun₁⟩ := runs_bind.mp hrun
  obtain rfl := runs_startBlock.mp hstart
  obtain ⟨hs₁, hm₁⟩ := hs.startBlock "elif.cond" hnames
  obtain ⟨c', entry', hs', hm'⟩ := arm_keeps hcond hbody hother hs₁ hjoin hentry hrun₁
  exact ⟨c', entry', hs', hm₁.trans hm'⟩

/-- The condition of an `if` has a block of its own, and so has what follows the arms, which starts
with what was at hand before them. -/
theorem openIf_keeps (hs : st.Sound P ret c entry pending) (hrun : Runs openIf st join st') :
    ∃ entry', st'.Sound P ret c entry' (join :: pending) ∧ Moves st c entry st' c entry' [] ∧
      entry' join = c.avail := by
  obtain ⟨id, st₁, hjoin, hrun₁⟩ := runs_bind.mp hrun
  obtain ⟨hjoinId, rfl⟩ := runs_freshBlock.mp hjoin
  obtain ⟨entry₁, hs₁, hm₁, hjoin₁⟩ := hs.fresh c.avail hjoinId
  obtain ⟨first, st₂, hfirst, hrun₂⟩ := runs_bind.mp hrun₁
  obtain ⟨hfirstId, rfl⟩ := runs_freshBlock.mp hfirst
  obtain ⟨entry₂, hs₂, hm₂, hfirst₂⟩ := hs₁.fresh c.avail hfirstId
  have hjoin₂ : entry₂ id = c.avail :=
    (hm₂.entry id (hs₁.pending_lt List.mem_cons_self)).trans hjoin₁
  obtain ⟨_, st₃, hterm, hrun₃⟩ := runs_bind.mp hrun₂
  obtain rfl := runs_terminate.mp hterm
  obtain ⟨hs₃, hm₃⟩ := hs₂.terminate (t := .br first) .br (by
    intro id hid
    obtain rfl : id = first := by simpa [Ir.Terminator.targets] using hid
    exact ⟨List.mem_cons_self, by rw [hfirst₂]; exact List.Subset.refl _⟩)
  obtain ⟨_, st₄, hstart, hrun₄⟩ := runs_bind.mp hrun₃
  obtain rfl := runs_startBlock.mp hstart
  obtain ⟨hs₄, hm₄⟩ := hs₃.startBlock "if.cond" (by rw [hfirst₂]; exact hs₃.names)
  rw [hfirst₂] at hs₄ hm₄
  obtain ⟨hid, hst⟩ := runs_pure.mp hrun₄
  rw [hid, hst]
  exact ⟨entry₂, hs₄, ((hm₁.trans hm₂).trans hm₃).trans hm₄, hjoin₂⟩

theorem if_keeps {body : List Stmt} {otherwise : Alternative} (hcond : cond.Obeys P.literal)
    (hbody : Keeps P ret (stmts body))
    (hother : ∀ join, ∀ act ∈ alternative s join otherwise, KeepsFrom P ret join act) :
    Keeps P ret (stmt (.if_ cond body otherwise s)) := by
  intro st c entry pending st' hs hrun
  unfold stmt at hrun
  obtain ⟨join, st₁, hopen, hrun₁⟩ := runs_bind.mp hrun
  obtain ⟨entry₁, hs₁, hm₁, hjoin₁⟩ := openIf_keeps hs hopen
  obtain ⟨_, st₂, harm, hrun₂⟩ := runs_bind.mp hrun₁
  obtain rfl := runs_startBlock.mp hrun₂
  obtain ⟨c₂, entry₂, hs₂, hm₂⟩ := arm_keeps hcond (hbody.inScope s) (hother join) hs₁
    List.mem_cons_self (by rw [hjoin₁]; exact List.Subset.refl _) harm
  have hm := hm₁.trans hm₂
  have hjoin₂ : entry₂ join = c.avail :=
    (hm₂.entry join (hs₁.pending_lt List.mem_cons_self)).trans hjoin₁
  have hle : c.Le ⟨c₂.types, entry₂ join⟩ := ⟨hm.types, by rw [hjoin₂]; exact List.Subset.refl _⟩
  obtain ⟨hs₃, hm₃⟩ := hs₂.startBlock "if.end" (hs.names.of_moves hm hle)
  exact ⟨[], _, entry₂, hs₃, hm.trans hm₃, hle⟩

mutual

theorem stmt_keeps (s : Stmt) (ret : Ty) (hs : s.Obeys P.law ret) : Keeps P ret (stmt s) := by
  cases s with
  | varDef name ty init s =>
    unfold stmt
    exact variable_keeps hs.2
  | structDef name members s =>
    unfold stmt
    exact struct_keeps
  | fnDef sig body s => exact fnDef_keeps (stmts_keeps body sig.ret hs.2)
  | fnDecl sig s => exact fnDecl_keeps
  | varSet target e s =>
    unfold stmt
    exact (KeepsNames.ofLowers fun _ _ _ hr => assign_lowers hs hr).keeps
  | memberSet target e s =>
    unfold stmt
    exact (KeepsNames.ofLowers fun _ _ _ hr => assignMember_lowers hs.1 hs.2 hr).keeps
  | expr e s =>
    unfold stmt
    exact (KeepsNames.ofLowers fun _ _ _ hr => effect_lowers hs hr).keeps
  | return_ e s =>
    unfold stmt
    exact (return_keeps hs.1 hs.2).keeps
  | break_ s =>
    unfold stmt
    exact .unsupported
  | for_ cond body s =>
    unfold stmt
    exact .unsupported
  | if_ cond body otherwise s =>
    exact if_keeps hs.1 (stmts_keeps body ret hs.2.1)
      fun join act hact => alternative_keeps otherwise ret hs.2.2 s join act hact
  | block body s =>
    unfold stmt
    exact ((stmts_keeps body ret hs).inScope s).keeps

theorem alternative_keeps (a : Alternative) (ret : Ty) (ha : a.Obeys P.law ret) (s : Span)
    (join : BlockId) : ∀ act ∈ alternative s join a, KeepsFrom P ret join act := by
  cases a with
  | none =>
    unfold alternative
    simp
  | else_ body =>
    unfold alternative
    rintro _ ⟨⟩
    exact else_keeps ((stmts_keeps body ret ha).inScope s)
  | elif cond body otherwise =>
    unfold alternative
    rintro _ ⟨⟩
    exact elif_keeps ha.1 ((stmts_keeps body ret ha.2.1).inScope s)
      (alternative_keeps otherwise ret ha.2.2 s join)

theorem stmts_keeps (ss : List Stmt) (ret : Ty) (hs : Stmt.AllObey P.law ret ss) :
    Keeps P ret (stmts ss) := by
  cases ss with
  | nil =>
    unfold stmts
    exact .pure
  | cons s ss =>
    unfold stmts
    exact reopen_keeps.keeps.bind ((stmt_keeps s ret hs.1).bind (stmts_keeps ss ret hs.2))

end

theorem topLevel_keeps (ss : List Stmt) (hs : Stmt.AllObey P.law ret ss) :
    Keeps P ret (topLevel ss) := by
  induction ss with
  | nil =>
    unfold topLevel
    exact .pure
  | cons s ss ih =>
    unfold topLevel
    exact (stmt_keeps s ret hs.1).bind (ih hs.2)

end

end Lowering

end Frontend
