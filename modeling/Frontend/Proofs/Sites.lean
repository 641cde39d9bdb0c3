import Frontend.Proofs.Sight
import Mathlib.Data.List.Nodup

/-!
Places in a program that lowering turns into calls and into addresses of fields, in the order in
which they are evaluated. With each goes what the source tells of it: how many arguments are passed
and how many the callee takes, and the layout that the struct whose member is accessed was defined
to have.
-/
namespace Frontend

open List (Forall₂)

/-- The type of a field. Of two with one name, the later counts. -/
def Ir.Layout.field? (l : Layout) (name : String) : Option Ty :=
  (l.fields.reverse.find? (·.1 = name)).map (·.2)

/-- The lowered type, where `layout?` tells of structs. -/
def Ty.lowerWith? (layout? : String → Option Ir.Layout) : Ty → Option Ir.Ty
  | .prim p n => p.lower?.map (·.ptrs n.toNat)
  | .struct s n | .inst s n => (layout? s).map (·.ty.ptrs n.toNat)
  | .fn ret n => (ret.lowerWith? layout?).map fun r => (Ir.Ty.fn [] r).ptrs n.toNat

/-- The field that a member becomes. -/
def Param.field? (layout? : String → Option Ir.Layout) (m : Param) : Option (String × Ir.Ty) :=
  (m.ty.lowerWith? layout?).map (m.name.name, ·)

namespace Sight

/-- The layout that the nearest struct of this name was defined to have. The types of its members
are those in sight at the definition. -/
def layout? : Sight → String → Option Ir.Layout
  | [], _ => none
  | x :: v, name =>
    match x.members with
    | some members =>
      if x.name = name then (members.mapM (Param.field? (layout? v))).map (⟨name, ·⟩)
      else layout? v name
    | none => layout? v name

/-- The names of the structs in sight. -/
def structs (v : Sight) : List String := (v.filter (·.members.isSome)).map (·.name)

/-- No struct in sight has the name of another. -/
def Tidy (v : Sight) : Prop := v.structs.Nodup

end Sight

def Ty.lowerIn? (v : Sight) (ty : Ty) : Option Ir.Ty := ty.lowerWith? v.layout?

/-- No struct is defined while one of its name is in sight. -/
def Rule.tidy : Rule where
  stmt := fun v s => ∀ x ∈ s.declares, x.members.isSome → x.name ∉ v.structs
  cond := fun _ _ => True

instance (v : Sight) (s : Stmt) : Decidable (Rule.tidy.stmt v s) :=
  inferInstanceAs (Decidable (∀ x ∈ s.declares, x.members.isSome → x.name ∉ v.structs))

instance (v : Sight) (e : Expr) : Decidable (Rule.tidy.cond v e) := inferInstanceAs (Decidable True)

/-- A call as it is written: what it passes, and what its callee takes. -/
structure CallSite where
  takes : Nat
  passed : Nat
  /-- More than `takes` may be passed. -/
  variadic : Bool
  deriving DecidableEq, Repr

/-- The callee is passed what it takes. -/
def CallSite.fits (c : CallSite) : Bool :=
  if c.variadic then c.takes ≤ c.passed else c.passed = c.takes

inductive Site where
  | call (c : CallSite)
  /-- The struct of the object is laid out like this where it is defined. -/
  | access (layout : Option Ir.Layout) (field : String)
  deriving Repr

def Site.call? : Site → Option CallSite
  | .call c => some c
  | .access _ _ => none

def Site.access? : Site → Option (Option Ir.Layout × String)
  | .call _ => none
  | .access layout field => some (layout, field)

/-- How many arguments the function takes that is the value of an expression. The name of a function
tells; the type of a function says nothing of parameters. -/
def Expr.takes (v : Sight) : Expr → Nat
  | .ident id => ((v.lookup? id.name).bind (·.arity)).getD 0
  | .paren inner _ => inner.takes v
  | _ => 0

/-- Whether more may be passed to a callee: it is named, variadic, and defined elsewhere. -/
def Expr.variadic (v : Sight) : Expr → Bool
  | .ident id => (v.lookup? id.name).any fun x =>
    x.arity.isSome && x.attributes.isVariadic && x.attributes.isExternal
  | _ => false

mutual

/-- The same whether the value or the address of an expression is asked for. -/
def Expr.sites (v : Sight) : Expr → List Site
  | .literal _ _ _ | .ident _ => []
  | .paren e _ | .unary _ e _ | .cast e _ _ => e.sites v
  | .binary _ lhs rhs _ => lhs.sites v ++ rhs.sites v
  | .call callee args _ =>
    callee.sites v ++ (Expr.allSites v args ++
      [.call ⟨callee.takes v, args.length, callee.variadic v⟩])
  | .member object field arrow _ =>
    object.sites v ++ [.access ((object.typeIn? v).bind fun ty =>
      (v.struct? ty arrow).bind fun s => v.layout? s.1) field.name]

def Expr.allSites (v : Sight) : List Expr → List Site
  | [] => []
  | e :: es => e.sites v ++ Expr.allSites v es

end

mutual

/-- The sites of a statement that are in the function around it. -/
def Stmt.sites (v : Sight) : Stmt → List Site
  | .varDef _ _ e _ | .return_ e _ => e.elim [] (·.sites v)
  | .varSet _ e _ | .expr e _ => e.sites v
  | .memberSet target e _ => target.sites v ++ e.sites v
  | .for_ cond body _ => cond.sites v ++ Stmt.allSites v body
  | .if_ cond body otherwise _ => cond.sites v ++ (Stmt.allSites v body ++ otherwise.sites v)
  | .block body _ => Stmt.allSites v body
  | .structDef .. | .fnDef .. | .fnDecl .. | .break_ _ => []

def Alternative.sites (v : Sight) : Alternative → List Site
  | .none => []
  | .else_ body => Stmt.allSites v body
  | .elif cond body otherwise => cond.sites v ++ (Stmt.allSites v body ++ otherwise.sites v)

def Stmt.allSites (v : Sight) : List Stmt → List Site
  | [] => []
  | s :: ss => s.sites v ++ Stmt.allSites (s.declares ++ v) ss

end

mutual

/-- The sites of each function that is defined in a statement. Functions come in the order in which
they end. -/
def Stmt.bodies (v : Sight) : Stmt → List (List Site)
  | .fnDef sig body _ =>
    Stmt.allBodies (sig.inside v) body ++ [Stmt.allSites (sig.inside v) body]
  | .for_ _ body _ | .block body _ => Stmt.allBodies v body
  | .if_ _ body otherwise _ => Stmt.allBodies v body ++ otherwise.bodies v
  | _ => []

def Alternative.bodies (v : Sight) : Alternative → List (List Site)
  | .none => []
  | .else_ body => Stmt.allBodies v body
  | .elif _ body otherwise => Stmt.allBodies v body ++ otherwise.bodies v

def Stmt.allBodies (v : Sight) : List Stmt → List (List Site)
  | [] => []
  | s :: ss => s.bodies v ++ Stmt.allBodies (s.declares ++ v) ss

end

theorem Ty.lowerWith?_mono {f g : String → Option Ir.Layout}
    (h : ∀ s l, f s = some l → g s = some l) (ty : Ty) {t : Ir.Ty} (ht : ty.lowerWith? f = some t) :
    ty.lowerWith? g = some t := by
  match ty with
  | .prim p n => exact ht
  | .struct s n | .inst s n =>
    obtain ⟨l, hl, rfl⟩ := Option.map_eq_some_iff.mp ht
    simp [Ty.lowerWith?, h s l hl]
  | .fn ret n =>
    obtain ⟨r, hr, rfl⟩ := Option.map_eq_some_iff.mp ht
    simp [Ty.lowerWith?, lowerWith?_mono h ret hr]

namespace Sight

variable {v new : Sight} {name : String} {x : Sighting} {members : List Param} {l : Ir.Layout}

theorem layout?_cons_plain (hx : x.members = none) : layout? (x :: v) = layout? v := by
  funext name
  simp [layout?, hx]

theorem lowerIn?_cons_plain (hx : x.members = none) (ty : Ty) :
    ty.lowerIn? (x :: v) = ty.lowerIn? v := by
  rw [Ty.lowerIn?, layout?_cons_plain hx, Ty.lowerIn?]

/-- Members are lowered one by one. -/
theorem mapM_field? {f : String → Option Ir.Layout} {fields : List (String × Ir.Ty)} :
    members.mapM (Param.field? f) = some fields ↔
      Forall₂ (fun m g => g.1 = m.name.name ∧ m.ty.lowerWith? f = some g.2) members fields := by
  induction members generalizing fields with
  | nil => simp [eq_comm]
  | cons m ms ih =>
    rw [List.mapM_cons]
    constructor
    · intro h
      obtain ⟨g, hg, h⟩ := Option.bind_eq_some_iff.mp h
      obtain ⟨gs, hgs, h⟩ := Option.bind_eq_some_iff.mp h
      obtain rfl := Option.some.inj h
      obtain ⟨t, ht, rfl⟩ := Option.map_eq_some_iff.mp hg
      exact .cons ⟨rfl, ht⟩ (ih.mp hgs)
    · intro h
      cases h with
      | @cons _ g _ gs hg hgs =>
        obtain ⟨hname, ht⟩ := hg
        have hfield : m.field? f = some g := by
          rw [Param.field?, ht, ← hname]
          rfl
        rw [hfield, ih.mpr hgs]
        rfl

/-- The fields of a struct are its members. -/
theorem layout?_struct (hx : x.members = some members) :
    layout? (x :: v) x.name = some l ↔ l.name = x.name ∧
      Forall₂ (fun m g => g.1 = m.name.name ∧ m.ty.lowerIn? v = some g.2) members l.fields := by
  have hlayout : layout? (x :: v) x.name =
      (members.mapM (Param.field? (layout? v))).map (⟨x.name, ·⟩) := by
    simp [layout?, hx]
  rw [hlayout, Option.map_eq_some_iff]
  constructor
  · rintro ⟨fields, hfields, rfl⟩
    exact ⟨rfl, mapM_field?.mp hfields⟩
  · rintro ⟨hname, hfields⟩
    exact ⟨l.fields, mapM_field?.mpr hfields, by rw [← hname]⟩

theorem mem_structs (h : x ∈ v) (hx : x.members.isSome) : x.name ∈ v.structs :=
  List.mem_map_of_mem (List.mem_filter.mpr ⟨h, hx⟩)

theorem mem_structs_of_layout? (h : v.layout? name = some l) : name ∈ v.structs := by
  induction v with
  | nil => simp [layout?] at h
  | cons x v ih =>
    cases hx : x.members with
    | none =>
      rw [layout?_cons_plain hx] at h
      simpa [structs, hx] using ih h
    | some members =>
      by_cases hname : x.name = name
      · exact hname ▸ mem_structs List.mem_cons_self (by simp [hx])
      · simp only [layout?, hx, if_neg hname] at h
        have htail := ih h
        simp only [structs, List.filter_cons, hx, Option.isSome_some, if_pos, List.map_cons]
        exact List.mem_cons_of_mem _ htail

/-- What comes to be in sight hides no layout. -/
theorem Tidy.layout? (h : Tidy (new ++ v)) (hl : v.layout? name = some l) :
    Sight.layout? (new ++ v) name = some l := by
  induction new with
  | nil => exact hl
  | cons x new ih =>
    cases hx : x.members with
    | none =>
      rw [List.cons_append, layout?_cons_plain hx]
      exact ih (by simpa [Tidy, structs, hx] using h)
    | some members =>
      obtain ⟨hfresh, htidy⟩ : x.name ∉ Sight.structs (new ++ v) ∧ Tidy (new ++ v) := by
        have hcons : Sight.structs (x :: (new ++ v)) = x.name :: Sight.structs (new ++ v) := by
          simp [structs, hx]
        rw [List.cons_append, Tidy, hcons] at h
        exact List.nodup_cons.mp h
      have hne : x.name ≠ name := by
        rintro rfl
        refine hfresh ?_
        rw [structs, List.filter_append, List.map_append]
        exact List.mem_append_right _ (mem_structs_of_layout? hl)
      simpa [Sight.layout?, hx, hne] using ih htidy

theorem Tidy.lowerIn? (h : Tidy (new ++ v)) {ty : Ty} {t : Ir.Ty} (ht : ty.lowerIn? v = some t) :
    ty.lowerIn? (new ++ v) = some t :=
  Ty.lowerWith?_mono (fun _ _ => h.layout?) ty ht

theorem Tidy.start : Sight.start.Tidy := List.nodup_nil

theorem Tidy.plain (h : v.Tidy) (hnew : ∀ x ∈ new, x.members = none) : Tidy (new ++ v) := by
  have hnone : new.filter (·.members.isSome) = [] := by
    rw [List.filter_eq_nil_iff]
    intro x hx
    simp [hnew x hx]
  rwa [Tidy, structs, List.filter_append, hnone, List.nil_append]

theorem Tidy.cons (h : v.Tidy) (hx : x.members = none) : Tidy (x :: v) := by
  have hcons : Tidy ([x] ++ v) := h.plain (by simpa using hx)
  exact hcons

theorem Tidy.declares (h : v.Tidy) {s : Stmt} (hs : Rule.tidy.stmt v s) :
    Tidy (s.declares ++ v) := by
  cases s with
  | structDef name members s =>
    have hfresh : name.name ∉ v.structs := hs _ List.mem_cons_self rfl
    have hcons : Sight.structs ((Stmt.structDef name members s).declares ++ v) =
        name.name :: v.structs := by
      simp [structs, Stmt.declares]
    rw [Tidy, hcons]
    exact List.nodup_cons.mpr ⟨hfresh, h⟩
  | _ => exact h.plain (by simp [Stmt.declares, Signature.sighting])

theorem inside_plain (sig : Signature) (v : Sight) :
    ∃ new, sig.inside v = new ++ v ∧ ∀ x ∈ new, x.members = none := by
  refine ⟨(sig.params.map Param.sighting).reverse ++ [sig.sighting false], ?_, ?_⟩
  · simp [Signature.inside]
  · intro x hx
    rcases List.mem_append.mp hx with hx | hx
    · obtain ⟨p, -, rfl⟩ := List.mem_map.mp (List.mem_reverse.mp hx)
      rfl
    · rw [List.mem_singleton.mp hx]
      rfl

/-- Where a name is a struct, its layout is that of its members. -/
theorem layout?_of_lookup? (h : v.lookup? name = some x) (hx : x.members = some members) :
    ∃ new rest, v = new ++ x :: rest ∧ x.name = name ∧
      v.layout? name = layout? (x :: rest) name := by
  induction v with
  | nil => simp [lookup?] at h
  | cons y v ih =>
    by_cases hy : y.name = name
    · obtain rfl : y = x := by simpa [lookup?, hy] using h
      exact ⟨[], v, rfl, hy, rfl⟩
    · obtain ⟨new, rest, rfl, hname, hl⟩ := ih (by simpa [lookup?, hy] using h)
      refine ⟨y :: new, rest, rfl, hname, ?_⟩
      rw [← hl, layout?]
      split <;> simp [hy]

/-- A member has the type that the layout of its struct has for it. -/
theorem Tidy.field? (htidy : v.Tidy) (h : v.lookup? name = some x) (hx : x.members = some members)
    (hl : v.layout? name = some l) {field : String} {ty : Ty}
      (hty : memberType? members field = some ty) :
    ∃ t, l.field? field = some t ∧ ty.lowerIn? v = some t := by
  obtain ⟨new, rest, rfl, rfl, heq⟩ := layout?_of_lookup? h hx
  rw [heq] at hl
  obtain ⟨-, hfields⟩ := (layout?_struct hx).mp hl
  have hlift : ∀ (ty : Ty) t, ty.lowerIn? rest = some t →
      ty.lowerIn? (new ++ x :: rest) = some t := by
    intro ty t ht
    rw [List.append_cons] at htidy ⊢
    exact htidy.lowerIn? ht
  have hrev := List.rel_reverse hfields
  rw [memberType?] at hty
  rw [Ir.Layout.field?]
  generalize members.reverse = ms at hrev hty
  generalize l.fields.reverse = fs at hrev
  induction hrev with
  | nil => simp at hty
  | @cons m f ms fs hmf _ ih =>
    by_cases hm : m.name.name = field
    · obtain rfl : m.ty = ty := by simpa [hm] using hty
      exact ⟨f.2, by simp [hmf.1.trans hm], hlift _ _ hmf.2⟩
    · have hf : f.1 ≠ field := by rwa [hmf.1]
      simpa [hf] using ih (by simpa [hm] using hty)

end Sight

end Frontend
