import Frontend.Lowering.Handle
import Frontend.Proofs.Agreement

/-!
What is in sight at a place in a tree: the names that the statements before it declare, nearest
first. A body declares nothing to the outside, so no table of scopes is needed to tell. A rule says
what may stand where with what in sight; a tree is held to it throughout.
-/
namespace Frontend

/-- A name in sight. -/
structure Sighting where
  name : String
  ty : Ty
  attributes : Attributes := .none
  /-- How many parameters a function has. -/
  arity : Option Nat := none
  /-- What a struct is made of. -/
  members : Option (List Param) := none
  deriving DecidableEq, Repr

/-- Nearest first. -/
abbrev Sight := List Sighting

def Sight.lookup? (v : Sight) (name : String) : Option Sighting := v.find? (·.name = name)

/-- The prelude. -/
def Sight.start : Sight :=
  (prelude.map fun f => ⟨f.name, f.ty, f.attributes, some f.params.length, none⟩).reverse

def Param.sighting (p : Param) : Sighting := { name := p.name.name, ty := p.ty }

def Signature.sighting (sig : Signature) (isExternal : Bool) : Sighting where
  name := sig.name.name
  ty := sig.ty
  attributes := { Attributes.none with isExternal := isExternal, isVariadic := sig.variadic }
  arity := some sig.params.length

/-- What the body of a function has in sight: the function itself, then its parameters. -/
def Signature.inside (sig : Signature) (v : Sight) : Sight :=
  (sig.params.map Param.sighting).reverse ++ sig.sighting false :: v

/-- Name and members of the struct that a value is of, or that it points to if `arrow`. -/
def Sight.struct? (v : Sight) (ty : Ty) (arrow : Bool) : Option (String × List Param) :=
  match ty with
  | .inst name levels =>
    if levels = (if arrow then 1 else 0) then (v.lookup? name).bind
      (·.members.map (name, ·)) else none
  | _ => none

theorem Sight.struct?_eq_some {v : Sight} {ty : Ty} {arrow : Bool} {name : String}
    {members : List Param} (h : v.struct? ty arrow = some (name, members)) :
    ty = .inst name (if arrow then 1 else 0) ∧
      ∃ x, v.lookup? name = some x ∧ x.members = some members := by
  cases ty with
  | inst name' levels =>
    by_cases hlevels : levels = if arrow then 1 else 0
    · rw [Sight.struct?, if_pos hlevels] at h
      obtain ⟨x, hx, hmembers⟩ := Option.bind_eq_some_iff.mp h
      obtain ⟨ms, hms, heq⟩ := Option.map_eq_some_iff.mp hmembers
      obtain ⟨rfl, rfl⟩ := Prod.mk.inj heq
      exact ⟨by rw [hlevels], x, hx, hms⟩
    · simp [Sight.struct?, hlevels] at h
  | _ => simp [Sight.struct?] at h

/-- The type of a member. Of two with one name, the later counts. -/
def memberType? (members : List Param) (name : String) : Option Ty :=
  (members.reverse.find? (·.name.name = name)).map (·.ty)

/-- The type of an expression, as told by what is in sight. -/
def Expr.typeIn? (v : Sight) : Expr → Option Ty
  | .literal _ ty _ | .cast _ ty _ => some ty
  | .ident id => (v.lookup? id.name).map (·.ty)
  | .paren inner _ => inner.typeIn? v
  | .unary op operand _ => (operand.typeIn? v).bind fun ty => (op.infer ty).toOption
  | .binary op lhs rhs _ =>
    (lhs.typeIn? v).bind fun l => (rhs.typeIn? v).bind fun r => (op.infer l r).toOption
  | .call callee _ _ => (callee.typeIn? v).bind Ty.return?
  | .member object field arrow _ =>
    (object.typeIn? v).bind fun ty => (v.struct? ty arrow).bind fun s => memberType? s.2 field.name

section

variable {v : Sight} {s : Span} {ty : Ty}

/-- What an operator gives is a truth value, or of the type of an operand. -/
theorem Expr.typeIn?_binary {op : BinaryOp} {lhs rhs : Expr}
    (h : (Expr.binary op lhs rhs s).typeIn? v = some ty) :
    ty = .bool ∨ lhs.typeIn? v = some ty ∨ rhs.typeIn? v = some ty := by
  obtain ⟨l, hl, hbin⟩ := Option.bind_eq_some_iff.mp h
  obtain ⟨r, hr, hop⟩ := Option.bind_eq_some_iff.mp hbin
  unfold BinaryOp.infer at hop
  split at hop
  · exact .inl (Option.some.inj hop).symm
  · cases hjoin : l.join r with
    | error b => simp [hjoin, Except.mapError, Except.toOption] at hop
    | ok ty' =>
      rw [hjoin] at hop
      obtain rfl := Option.some.inj hop
      rcases Ty.join_eq hjoin with rfl | rfl
      · exact .inr (.inl hl)
      · exact .inr (.inr hr)

theorem Expr.typeIn?_member {object : Expr} {field : Ident} {arrow : Bool}
    (h : (Expr.member object field arrow s).typeIn? v = some ty) :
    ∃ x ∈ v, ∃ members, x.members = some members ∧ ∃ m ∈ members, m.ty = ty := by
  obtain ⟨o, -, hstruct⟩ := Option.bind_eq_some_iff.mp h
  obtain ⟨⟨name, members⟩, hs, hfield⟩ := Option.bind_eq_some_iff.mp hstruct
  obtain ⟨m, hm, hty⟩ := Option.map_eq_some_iff.mp hfield
  obtain ⟨-, x, hx, hmembers⟩ := Sight.struct?_eq_some hs
  exact ⟨x, List.mem_of_find?_eq_some hx, members, hmembers, m,
    List.mem_reverse.mp (List.mem_of_find?_eq_some hm), hty⟩

end

/-- The names that a statement declares, newest first. A struct comes with a name for the scope of
its members. -/
def Stmt.declares : Stmt → Sight
  | .varDef name ty _ _ => [{ name := name.name, ty := ty }]
  | .structDef name members _ =>
    [{ name := name.name, ty := .struct name.name 0, members := some members },
      { name := membersMarker name.name, ty := .prim .scope 0 }]
  | .fnDef sig _ _ => [sig.sighting false]
  | .fnDecl sig _ => [sig.sighting true]
  | _ => []

/-- What is asked of a statement, its body apart, and of a condition, with what is in sight
there. -/
structure Rule where
  stmt : Sight → Stmt → Prop
  cond : Sight → Expr → Prop

mutual

/-- The statement and all statements in it keep the rule. -/
def Stmt.Throughout (R : Rule) (v : Sight) : Stmt → Prop
  | .fnDef sig body s => R.stmt v (.fnDef sig body s) ∧ Stmt.AllThroughout R (sig.inside v) body
  | .for_ cond body s =>
    R.stmt v (.for_ cond body s) ∧ R.cond v cond ∧ Stmt.AllThroughout R v body
  | .if_ cond body otherwise s =>
    R.stmt v (.if_ cond body otherwise s) ∧ R.cond v cond ∧ Stmt.AllThroughout R v body ∧
      otherwise.Throughout R v
  | .block body s => R.stmt v (.block body s) ∧ Stmt.AllThroughout R v body
  | s => R.stmt v s

def Alternative.Throughout (R : Rule) (v : Sight) : Alternative → Prop
  | .none => True
  | .else_ body => Stmt.AllThroughout R v body
  | .elif cond body otherwise =>
    R.cond v cond ∧ Stmt.AllThroughout R v body ∧ otherwise.Throughout R v

/-- Each statement sees what those before it declare. -/
def Stmt.AllThroughout (R : Rule) (v : Sight) : List Stmt → Prop
  | [] => True
  | s :: ss => s.Throughout R v ∧ Stmt.AllThroughout R (s.declares ++ v) ss

end

theorem Stmt.Throughout.here {R : Rule} {v : Sight} {s : Stmt} (h : s.Throughout R v) :
    R.stmt v s := by
  cases s with
  | fnDef | for_ | if_ | block => exact h.1
  | _ => exact h

section Deciding

variable (R : Rule) [∀ v s, Decidable (R.stmt v s)] [∀ v e, Decidable (R.cond v e)]

mutual

def Stmt.decideThroughout (v : Sight) : (s : Stmt) → Decidable (s.Throughout R v)
  | .fnDef sig body _ =>
    have := Stmt.decideAll (sig.inside v) body
    inferInstanceAs (Decidable (_ ∧ _))
  | .for_ _ body _ =>
    have := Stmt.decideAll v body
    inferInstanceAs (Decidable (_ ∧ _ ∧ _))
  | .if_ _ body otherwise _ =>
    have := Stmt.decideAll v body
    have := otherwise.decideThroughout v
    inferInstanceAs (Decidable (_ ∧ _ ∧ _ ∧ _))
  | .block body _ =>
    have := Stmt.decideAll v body
    inferInstanceAs (Decidable (_ ∧ _))
  | .varDef .. | .structDef .. | .fnDecl .. | .varSet .. | .memberSet .. | .expr .. | .return_ ..
  | .break_ .. => inferInstanceAs (Decidable (R.stmt v _))

def Alternative.decideThroughout (v : Sight) : (a : Alternative) → Decidable (a.Throughout R v)
  | .none => inferInstanceAs (Decidable True)
  | .else_ body => Stmt.decideAll v body
  | .elif _ body otherwise =>
    have := Stmt.decideAll v body
    have := otherwise.decideThroughout v
    inferInstanceAs (Decidable (_ ∧ _ ∧ _))

def Stmt.decideAll (v : Sight) : (ss : List Stmt) → Decidable (Stmt.AllThroughout R v ss)
  | [] => inferInstanceAs (Decidable True)
  | s :: ss =>
    have := s.decideThroughout v
    have := Stmt.decideAll (s.declares ++ v) ss
    inferInstanceAs (Decidable (_ ∧ _))

end

instance (v : Sight) (ss : List Stmt) : Decidable (Stmt.AllThroughout R v ss) :=
  Stmt.decideAll R v ss

end Deciding

/-- What is kept with a name tells what it is a name of. -/
class Sighted (V : Type) where
  Fits : Sighting → V → Prop

instance : Sighted Unit := ⟨fun _ _ => True⟩

/-- Functions and structs are known by what they stand for. -/
def Handle.Fits (x : Sighting) : Handle → Prop
  | .func _ params _ variadic =>
    x.members = none ∧ x.arity = some params.length ∧ x.attributes.isVariadic = variadic
  | .struct _ => x.members.isSome ∧ x.arity = none
  | _ => x.members = none ∧ x.arity = none

instance : Sighted Handle := ⟨Handle.Fits⟩

/-- The binding is one of a member. -/
structure Param.Names (p : Param) (b : Binding V) : Prop where
  name : b.name = p.name.name
  ty : b.ty = p.ty

/-- The scope that a struct leads to. -/
def Binding.members? (b : Binding V) : Option Nat := b.scope.filter fun _ => b.ty.base = .struct

namespace ScopeTable

open List (Forall₂)

variable {t t' t₁ t₂ : ScopeTable V} {v new : Sight} {bs : List (Binding V)} {ms : List Param}
  {i : Nat} {x : Sighting} {b : Binding V} {name : String}

/-- The scope is closed and has these members. -/
def Lists (t : ScopeTable V) (members : List Param) (i : Nat) : Prop :=
  t.Closed i ∧ Forall₂ Param.Names members.reverse (t.bindingsIn i)

theorem Lists.extend (h : t.Lists ms i) (ht : Extends t t' bs) : t'.Lists ms i := by
  obtain ⟨hclosed, hsame⟩ := h.1.extend ht
  exact ⟨hclosed, hsame ▸ h.2⟩

theorem Lists.enter (h : t.Lists ms i) : t.enter.Lists ms i := by
  obtain ⟨hclosed, hsame⟩ := h.1.enter
  exact ⟨hclosed, hsame ▸ h.2⟩

/-- A member is found with its type. -/
theorem Lists.findIn? (h : t.Lists ms i) (name : String) :
    (t.findIn? i name).map (·.ty) = memberType? ms name := by
  rw [findIn?_eq, memberType?]
  obtain ⟨-, hbs⟩ := h
  generalize t.bindingsIn i = bs at hbs
  generalize ms.reverse = ps at hbs
  induction hbs with
  | nil => rfl
  | @cons p b ps bs hpb _ ih =>
    by_cases hp : p.name.name = name
    · have hb : b.name = name := hpb.name.trans hp
      simp [hp, hb, hpb.ty]
    · have hb : b.name ≠ name := by rwa [hpb.name]
      simpa [hp, hb] using ih

variable [Sighted V]

/-- The binding is one of the name in sight. That of a struct leads to its members. -/
structure Describes (t : ScopeTable V) (x : Sighting) (b : Binding V) : Prop where
  name : b.name = x.name
  ty : b.ty = x.ty
  fits : Sighted.Fits x b.value
  members : Option.Rel t.Lists x.members b.members?

theorem Describes.plain (hname : b.name = x.name) (hty : b.ty = x.ty)
    (hfits : Sighted.Fits x b.value)
    (hx : x.members = none) (hb : b.members? = none) : t.Describes x b :=
  ⟨hname, hty, hfits, by rw [hx, hb]; exact .none⟩

theorem Describes.mono (h : ∀ ms i, t.Lists ms i → t'.Lists ms i) (hxb : t.Describes x b) :
    t'.Describes x b :=
  ⟨hxb.name, hxb.ty, hxb.fits, rel_mono h hxb.members⟩

/-- Name by name, `v` is what can be seen in the table. -/
structure Shows (t : ScopeTable V) (v : Sight) : Prop where
  inside : t.current < t.size
  visible : Forall₂ t.Describes v t.visible

/-- `t'` comes from `t` by declaring the names `new`, newest first, and leaving closed scopes
behind. -/
def Gains (t t' : ScopeTable V) (new : Sight) : Prop :=
  ∃ bs, Extends t t' bs ∧ Forall₂ t'.Describes new bs

theorem Gains.refl (t : ScopeTable V) : t.Gains t [] := ⟨[], .refl t, .nil⟩

theorem Gains.add (t : ScopeTable V) (h : (t.add b).Describes x b) : t.Gains (t.add b) [x] :=
  ⟨[b], .add t b, .cons h .nil⟩

theorem Gains.trans (h : t.Gains t' v) (h' : t'.Gains t₁ new) : t.Gains t₁ (new ++ v) := by
  obtain ⟨bs, hext, hbs⟩ := h
  obtain ⟨bs', hext', hbs'⟩ := h'
  exact ⟨bs' ++ bs, hext.trans hext',
    List.rel_append hbs' (hbs.imp fun _ _ => Describes.mono fun _ _ hl => hl.extend hext')⟩

theorem Gains.inside (h : t.Gains t' new) (hin : t.current < t.size) : t'.current < t'.size := by
  obtain ⟨bs, hext, -⟩ := h
  exact hext.current_lt hin

/-- Names that lead nowhere are declared one after the other. -/
theorem Gains.addAll (t : ScopeTable V) (h : Forall₂ (fun x b => b.name = x.name ∧ b.ty = x.ty ∧
    Sighted.Fits x b.value ∧ x.members = none ∧ b.members? = none) v bs) :
    t.Gains (t.addAll bs) v.reverse := by
  refine ⟨bs.reverse, .addAll t bs, List.rel_reverse (h.imp ?_)⟩
  rintro x b ⟨hname, hty, hfits, hx, hb⟩
  exact .plain hname hty hfits hx hb

/-- What was declared in a scope of its own is gone with it. -/
theorem Gains.leave (h : t.enter.Gains t₁ new) (hl : t₁.leave? = some t') : t.Gains t' [] := by
  obtain ⟨bs, hext, -⟩ := h
  exact ⟨[], hext.leave hl, .nil⟩

/-- A struct is declared once the scope of its members is closed, and leads to it. -/
theorem Gains.struct {marker : String} {members : List Param} {mark value : V}
    (hin : t.current < t.size)
    (h : (t.enterMarked marker mark).Gains t₁ (members.map Param.sighting).reverse)
    (hl : t₁.leave? = some t₂) (hmark : Sighted.Fits { name := marker, ty := .prim .scope 0 } mark)
    (hvalue : Sighted.Fits { name := name, ty := .struct name 0, members := some members } value) :
    t.Gains (t₂.add ⟨name, .struct name 0, .none, some t.size, value⟩)
      [{ name := name, ty := .struct name 0, members := some members },
        { name := marker, ty := .prim .scope 0 }] := by
  obtain ⟨bs, hext, hbs⟩ := h
  obtain ⟨hsize, hmembers⟩ := hext.left_behind hl
  rw [size_add] at hsize hmembers
  have hleft := hext.leave hl
  have hlists : t₂.Lists members t.size := by
    refine ⟨⟨hsize, ?_⟩, ?_⟩
    · rw [hleft.current]
      exact Nat.ne_of_gt hin
    · rw [hmembers]
      rw [← List.map_reverse, List.forall₂_map_left_iff] at hbs
      exact hbs.imp fun _ _ hxb => ⟨hxb.name, hxb.ty⟩
  have hmarker : t.Gains t₂ [{ name := marker, ty := .prim .scope 0 }] :=
    (Gains.add t (.plain rfl rfl hmark rfl rfl)).trans ⟨[], hleft, .nil⟩
  exact hmarker.trans (.add t₂ ⟨rfl, rfl, hvalue, .some (hlists.extend (.add t₂ _))⟩)

theorem Shows.gain (h : t.Shows v) (hnew : t.Gains t' new) : t'.Shows (new ++ v) := by
  obtain ⟨bs, hext, hbs⟩ := hnew
  refine ⟨hext.current_lt h.inside, ?_⟩
  rw [hext.visible h.inside]
  exact List.rel_append hbs (h.visible.imp fun _ _ => Describes.mono fun _ _ hl => hl.extend hext)

theorem Shows.enter (h : t.Shows v) : t.enter.Shows v where
  inside := by simp
  visible := by
    rw [visible_enter t h.inside]
    exact h.visible.imp fun _ _ => Describes.mono fun _ _ => Lists.enter

/-- Every walk over a program starts with the prelude in sight. -/
theorem shows_addPrelude (value : PreludeFn → V)
    (h : ∀ f ∈ prelude,
      Sighted.Fits ⟨f.name, f.ty, f.attributes, some f.params.length, none⟩ (value f)) :
    (empty.addPrelude value).Shows .start := by
  have hgains : empty.Gains (empty.addPrelude value) Sight.start := by
    rw [addPrelude, ← List.foldl_map]
    refine Gains.addAll _ ?_
    rw [List.forall₂_map_left_iff, List.forall₂_map_right_iff, List.forall₂_same]
    exact fun f hf => ⟨rfl, rfl, h f hf, rfl, rfl⟩
  have hempty : (empty : ScopeTable V).Shows [] :=
    ⟨Nat.zero_lt_one, by simp [visible, visibleFrom, empty]⟩
  simpa using hempty.gain hgains

/-- The nearest binding of a name is seen first. -/
theorem Shows.find? (h : t.Shows v) (name : String) :
    Option.Rel t.Describes (v.lookup? name) (t.find? name) := by
  obtain ⟨-, hv⟩ := h
  rw [find?_eq, Sight.lookup?]
  generalize t.visible = bs at hv
  induction hv with
  | nil => exact .none
  | @cons x b v bs hxb _ ih =>
    by_cases hx : x.name = name
    · have hb : b.name = name := hxb.name.trans hx
      simpa [hx, hb] using Option.Rel.some hxb
    · have hb : b.name ≠ name := by rwa [hxb.name]
      simpa [hx, hb] using ih

theorem Shows.lookup (h : t.Shows v) (hb : t.find? name = some b) :
    ∃ x, v.lookup? name = some x ∧ t.Describes x b := by
  have hrel := h.find? name
  rw [hb] at hrel
  generalize v.lookup? name = x at hrel ⊢
  cases hrel with
  | some hxb => exact ⟨_, rfl, hxb⟩

/-- Tables that show the same have the same names. -/
theorem Shows.exists_find? [Sighted W] {u : ScopeTable W} (h : t.Shows v) (hu : u.Shows v)
    (hb : t.find? name = some b) : ∃ c, u.find? name = some c := by
  obtain ⟨x, hx, -⟩ := h.lookup hb
  have hrel := hu.find? name
  rw [hx] at hrel
  generalize u.find? name = c at hrel ⊢
  cases hrel with
  | some _ => exact ⟨_, rfl⟩

theorem Shows.membersOf? (h : t.Shows v) (ty : Ty) (arrow : Bool) :
    Option.Rel (fun s i => t.Lists s.2 i) (v.struct? ty arrow) (t.membersOf? ty arrow) := by
  cases ty with
  | inst name levels =>
    by_cases hlevels : levels = (if arrow then 1 else 0)
    · have hbind : t.membersOf? (.inst name levels) arrow =
          (t.find? name).bind Binding.members? := by
        simp only [ScopeTable.membersOf?, if_pos hlevels]
        cases t.find? name with
        | none => rfl
        | some b => by_cases hb : b.ty.base = .struct <;> cases hs : b.scope <;>
            simp [Binding.members?, Option.filter, hb, hs]
      rw [hbind, Sight.struct?, if_pos hlevels]
      have hrel := h.find? name
      generalize v.lookup? name = x at hrel
      generalize t.find? name = b at hrel
      cases hrel with
      | none => exact .none
      | @some x b hxb =>
        have hmembers := hxb.members
        dsimp only [Option.bind_some]
        generalize b.members? = i at hmembers
        generalize x.members = ms at hmembers
        cases hmembers with
        | none => exact .none
        | some hlists => exact .some hlists
    · simpa only [Sight.struct?, ScopeTable.membersOf?, if_neg hlevels] using Option.Rel.none
  | _ => exact .none

/-- An expression has the type that is told by what is in sight. -/
theorem Shows.infer (h : t.Shows v) (e : Expr) : (e.infer t).toOption = e.typeIn? v := by
  match e with
  | .literal value ty s => rfl
  | .cast operand ty s => rfl
  | .ident id =>
    have hrel := h.find? id.name
    simp only [Expr.infer, Expr.typeIn?]
    revert hrel
    generalize v.lookup? id.name = x
    generalize t.find? id.name = b
    rintro (hxb | -)
    · simp [Except.toOption, hxb.ty]
    · rfl
  | .paren inner s => exact h.infer inner
  | .unary op operand s =>
    rw [Expr.typeIn?, ← h.infer operand, Expr.infer]
    cases operand.infer t <;> rfl
  | .binary op lhs rhs s =>
    rw [Expr.typeIn?, ← h.infer lhs, ← h.infer rhs, Expr.infer]
    cases lhs.infer t <;> cases rhs.infer t <;> rfl
  | .call callee args s =>
    rw [Expr.typeIn?, ← h.infer callee, Expr.infer]
    cases callee.infer t with
    | error err => rfl
    | ok ty =>
      simp only [Except.toOption, Bind.bind, Except.bind, Option.bind]
      cases ty.return? <;> rfl
  | .member object field arrow s =>
    rw [Expr.typeIn?, ← h.infer object, Expr.infer]
    cases object.infer t with
    | error err => rfl
    | ok ty =>
      have hrel := h.membersOf? ty arrow
      simp only [Except.toOption, Bind.bind, Except.bind, Option.bind]
      revert hrel
      generalize v.struct? ty arrow = s
      generalize t.membersOf? ty arrow = i
      rintro (hlists | -)
      · have hfind := hlists.findIn? field.name
        dsimp only
        rw [← hfind]
        cases t.findIn? _ field.name <;> rfl
      · rfl

theorem Shows.infer_eq_ok (h : t.Shows v) {e : Expr} {ty : Ty} :
    e.infer t = .ok ty ↔ e.typeIn? v = some ty := by
  rw [← h.infer e]
  cases e.infer t <;> simp [Except.toOption]

end ScopeTable

end Frontend
