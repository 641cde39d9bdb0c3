import Frontend.Proofs.Places
import Frontend.Proofs.References

/-!
What a program writes down, and what a module holds for it: a constant for a literal, a cell for a
variable, and a parameter or a field for what is declared as one. An expression adds the constants
of its literals, and besides them only zeros.
-/
namespace Frontend

open List (Forall₂)

/-- A literal, or what is declared with a type. -/
inductive Item where
  | literal (v : Value) (ty : Ty)
  | variable (ty : Ty)
  | parameter (ty : Ty)
  | member (ty : Ty)

mutual

def Expr.items : Expr → List Item
  | .literal v ty _ => [.literal v ty]
  | .ident _ => []
  | .paren e _ | .unary _ e _ | .cast e _ _ | .member e _ _ _ => e.items
  | .binary _ lhs rhs _ => lhs.items ++ rhs.items
  | .call callee args _ => callee.items ++ Expr.allItems args

def Expr.allItems : List Expr → List Item
  | [] => []
  | e :: es => e.items ++ Expr.allItems es

end

mutual

/-- The literals of a statement, and what is declared in it, bodies included. -/
def Stmt.items : Stmt → List Item
  | .varDef _ ty init _ => .variable ty :: init.elim [] Expr.items
  | .structDef _ members _ => members.map fun m => .member m.ty
  | .fnDef sig body _ => sig.params.map (fun p => .parameter p.ty) ++ Stmt.allItems body
  | .fnDecl sig _ => sig.params.map fun p => .parameter p.ty
  | .varSet _ e _ | .expr e _ => e.items
  | .memberSet target e _ => target.items ++ e.items
  | .return_ e _ => e.elim [] Expr.items
  | .break_ _ => []
  | .for_ cond body _ => cond.items ++ Stmt.allItems body
  | .if_ cond body otherwise _ => cond.items ++ (Stmt.allItems body ++ otherwise.items)
  | .block body _ => Stmt.allItems body

def Alternative.items : Alternative → List Item
  | .none => []
  | .else_ body => Stmt.allItems body
  | .elif cond body otherwise => cond.items ++ (Stmt.allItems body ++ otherwise.items)

def Stmt.allItems : List Stmt → List Item
  | [] => []
  | s :: ss => s.items ++ Stmt.allItems ss

end

namespace Ir

inductive Content where
  | const (ty : Ty) (c : Constant)
  | cell (ty : Ty)
  | param (ty : Ty)
  | field (ty : Ty)

def Op.content? : Op → Option Content
  | .const ty c => some (.const ty c)
  | .alloca ty => some (.cell ty)
  | _ => none

def contents (code : List Instr) : List Content := code.filterMap (·.op.content?)

@[simp] theorem contents_append (is js : List Instr) :
    contents (is ++ js) = contents is ++ contents js :=
  List.filterMap_append

def Func.contents (f : Func) : List Content :=
  f.params.map (fun p => .param p.2) ++ Ir.contents f.instrs

def Layout.contents (l : Layout) : List Content := l.fields.map fun p => .field p.2

def Module.contents (m : Module) : List Content :=
  m.funcs.flatMap Func.contents ++ m.structs.flatMap Layout.contents

section

variable {m : Module} {ty : Ty}

theorem Op.content?_eq_const {op : Op} {c : Constant} :
    op.content? = some (.const ty c) ↔ op = .const ty c := by
  cases op <;> simp [Op.content?]

theorem Module.mem_contents {c : Content} : c ∈ m.contents ↔
    (∃ f ∈ m.funcs, (∃ p ∈ f.params, .param p.2 = c) ∨ ∃ i ∈ f.instrs, i.op.content? = some c) ∨
      ∃ l ∈ m.structs, ∃ p ∈ l.fields, .field p.2 = c := by
  simp only [Module.contents, Func.contents, Layout.contents, Ir.contents, List.mem_append,
    List.mem_flatMap, List.mem_map, List.mem_filterMap]

theorem Module.const_mem_contents {c : Constant} : .const ty c ∈ m.contents ↔
    ∃ f ∈ m.funcs, ∃ i ∈ f.instrs, i.op = .const ty c := by
  simp [Module.mem_contents, Op.content?_eq_const]

end

/-- A number is compared with a zero of its type where a bit is asked for. -/
def Content.IsZero : Content → Prop
  | .const ty c => ty.isInt ∧ c = .int 0 ∨ ty.isFloat ∧ c = .float 0
  | _ => False

end Ir

/-- What a module holds for an item. -/
def Item.Becomes : Item → Ir.Content → Prop
  | .literal v ty, .const t c => ty.LowersTo t ∧ c = v.constant
  | .variable ty, .cell t => ty.LowersTo t
  | .parameter ty, .param t => ty.PassedAs t
  | .member ty, .field t => ty.LowersTo t
  | _, _ => False

/-- The contents are there for the items, zeros apart, and every item has its own. -/
structure Item.Matches (xs : List Item) (cs : List Ir.Content) : Prop where
  told : ∀ c ∈ cs, c.IsZero ∨ ∃ x ∈ xs, x.Becomes c
  shown : ∀ x ∈ xs, ∃ c ∈ cs, x.Becomes c

namespace Item.Matches

variable {xs ys : List Item} {cs ds : List Ir.Content}

theorem zeros (h : ∀ c ∈ cs, c.IsZero) : Matches [] cs := ⟨fun c hc => .inl (h c hc), nofun⟩

theorem nil : Matches [] [] := zeros nofun

theorem append (h : Matches xs cs) (h' : Matches ys ds) : Matches (xs ++ ys) (cs ++ ds) where
  told := by
    intro c hc
    rcases List.mem_append.mp hc with hc | hc
    · exact (h.told c hc).imp_right fun ⟨x, hx, hbec⟩ => ⟨x, List.mem_append_left _ hx, hbec⟩
    · exact (h'.told c hc).imp_right fun ⟨x, hx, hbec⟩ => ⟨x, List.mem_append_right _ hx, hbec⟩
  shown := by
    intro x hx
    rcases List.mem_append.mp hx with hx | hx
    · obtain ⟨c, hc, hbec⟩ := h.shown x hx
      exact ⟨c, List.mem_append_left _ hc, hbec⟩
    · obtain ⟨c, hc, hbec⟩ := h'.shown x hx
      exact ⟨c, List.mem_append_right _ hc, hbec⟩

theorem ofForall₂ (h : Forall₂ Item.Becomes xs cs) : Matches xs cs := by
  induction h with
  | nil => exact nil
  | @cons x c xs cs hxc _ ih =>
    have hone : Matches [x] [c] := by
      constructor <;> simpa using by simp [hxc]
    exact hone.append ih

/-- Neither the order of the contents matters nor how often they are there. -/
theorem congr (h : Matches xs cs) (hmem : ∀ c, c ∈ ds ↔ c ∈ cs) : Matches xs ds where
  told := fun c hc => h.told c ((hmem c).mp hc)
  shown := fun x hx => (h.shown x hx).imp fun c ⟨hc, hbec⟩ => ⟨(hmem c).mpr hc, hbec⟩

end Item.Matches

namespace Lowering

/-- Code is read for what it holds of the items, where the names of structs are bound to layouts. -/
def holding : Marking Item where
  ready := ScopeTable.LaidOut
  shows code xs := Item.Matches xs (Ir.contents code)
  nil := .nil
  append := by
    intro is js xs ys his hjs
    rw [Ir.contents_append]
    exact his.append hjs

/-- Runs of `act` add code that holds what the items become. -/
abbrev AddsContents (act : LowerM α) (xs : List Item) : Prop := Writes holding _ act xs

section

variable {i : Ir.Instr}

theorem holding_zeros (h : ∀ c ∈ i.op.content?, c.IsZero) : holding.shows [i] [] :=
  Item.Matches.zeros (by simpa [Ir.contents] using h)

theorem holding_nothing (h : i.op.content? = none) : holding.shows [i] [] :=
  holding_zeros (by simp [h])

/-- An item is held by an instruction of its own. -/
theorem holding_item {x : Item} {c : Ir.Content} (hop : i.op.content? = some c) (h : x.Becomes c) :
    holding.shows [i] [x] := by
  show Item.Matches [x] (Ir.contents [i])
  simpa [Ir.contents, hop] using Item.Matches.ofForall₂ (.cons h .nil)

/-- What computes holds no more than a zero. -/
theorem holding_computes (h : i.op.Computes) : holding.shows [i] [] := by
  refine holding_zeros ?_
  cases hop : i.op with
  | const ty c =>
    rw [hop] at h
    rintro _ ⟨⟩
    exact h
  | alloca ty =>
    rw [hop] at h
    cases h
  | _ => exact nofun

end

theorem holding_computing : Computing fun _ act _ => AddsContents act [] :=
  Writes.computing fun _ _ hop => holding_computes hop

theorem literal_addsContents {v : Value} {ty : Ty} {s : Span} :
    AddsContents (value (.literal v ty s)) [.literal v ty] := by
  intro st hlaid
  unfold value
  refine .lead hlaid .lowerType fun t st₁ _ _ hlaid₁ ⟨ht, _⟩ => ?_
  have hconst : (Item.literal v ty).Becomes (.const t v.constant) := ⟨⟨_, hlaid, ht⟩, rfl⟩
  exact Writes.emit (fun _ => holding_item rfl hconst) st₁ hlaid₁

theorem ident_addsContents (id : Ident) : AddsContents (ident id) [] := by
  refine (Writes.sequenced.lookup _).lead fun h => ?_
  cases h with
  | slot ptr ty owner =>
    exact (holding_computing.ownedHere _ _).lead fun _ => holding_computing.read _ _
  | param reg ty owner =>
    exact (holding_computing.ownedHere _ _).lead fun _ => Writes.sequenced.pure _
  | func name params ret variadic => exact .emit fun _ => holding_nothing rfl
  | struct | member | marker => exact .unsupported _ _ _

theorem identAddress_addsContents (id : Ident) : AddsContents (identAddress id) [] := by
  refine (Writes.sequenced.lookup _).lead fun h => ?_
  cases h with
  | slot ptr ty owner | param reg ty owner =>
    dsimp only
    split
    · exact (holding_computing.ownedHere _ _).lead fun _ => Writes.sequenced.pure _
    · exact .unsupported _ _ _
  | func | struct | member | marker => exact .unsupported _ _ _

/-- A callee is evaluated unless it names a function; a name has no items. -/
theorem callTarget_addsContents {callee : Expr} {value : LowerM Operand}
    (hv : AddsContents value callee.items) :
    AddsContents (callTarget callee value) callee.items := by
  have hvalue : AddsContents (value >>= (pointedTo · callee.span)) callee.items :=
    hv.trail fun _ => holding_computing.pointedTo
  cases callee with
  | ident id =>
    refine (Writes.sequenced.named? _).lead fun target => ?_
    cases target with
    | some target => exact Writes.sequenced.pure _
    | none => exact hvalue
  | _ => exact hvalue

theorem call_addsContents {callee : Expr} {args : List Expr} {s : Span} {value : LowerM Operand}
    {lowerArgs : List Ir.Ty → Bool → LowerM (List Ir.Reg)} (hv : AddsContents value callee.items)
    (ha : ∀ tys variadic, AddsContents (lowerArgs tys variadic) (Expr.allItems args)) :
    AddsContents (call callee value lowerArgs) (Expr.call callee args s).items := by
  rw [Expr.items]
  refine (callTarget_addsContents hv).bind fun target => (ha _ _).trail fun regs => ?_
  have hop : (target.callee.op regs).content? = none := by
    cases target.callee <;> rfl
  dsimp only
  split
  · exact (Writes.emitVoid (holding_nothing hop)).lead fun _ => Writes.sequenced.pure _
  · exact (Writes.emit fun _ => holding_nothing hop).lead fun _ => Writes.sequenced.pure _

/-- An expression adds the constants of its literals, and besides them only zeros. -/
theorem expr_addsContents :
    Tallying (fun _ act xs _ => AddsContents act xs) Expr.items Expr.allItems where
  computing := holding_computing
  sequenced := Writes.sequenced
  unsupported := .unsupported
  bind := .bind
  mono h _ := h
  ask _ := .ask
  field _ := .emitReg fun _ => holding_nothing rfl
  store _ _ := .emitVoid (holding_nothing rfl)
  literal _ _ _ := by
    rw [Expr.items]
    exact literal_addsContents
  ident id := by
    rw [Expr.items]
    exact ident_addsContents id
  identAddress id := by
    rw [Expr.items]
    exact identAddress_addsContents id
  call _ := call_addsContents
  paren _ _ := by rw [Expr.items]
  unary _ _ _ := by rw [Expr.items]
  binary _ _ _ _ := by rw [Expr.items]
  cast _ _ _ := by rw [Expr.items]
  member _ _ _ _ := by rw [Expr.items]
  nil := by rw [Expr.allItems]
  cons _ _ := by rw [Expr.allItems]

theorem newCell_addsContents {ty : Ty} {t : Ir.Ty} (ht : ty.LowersTo t) (init : Option Expr) :
    AddsContents (newCell t init) (.variable ty :: init.elim [] Expr.items) := by
  have hnew : AddsContents (emitReg (.alloca t)) [.variable ty] :=
    .emitReg fun _ => holding_item (c := .cell t) rfl ht
  refine hnew.bind fun ptr => .trail ?_ fun _ => Writes.sequenced.pure _
  cases init with
  | none => exact Writes.sequenced.pure _
  | some e => exact expr_addsContents.storeAs ptr t e

end Lowering

end Frontend
