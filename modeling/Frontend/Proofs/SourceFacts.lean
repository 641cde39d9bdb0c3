import Frontend.Proofs.Construction
import Frontend.Proofs.Growth
import Frontend.Proofs.Sites

/-!
What the source tells of types while a program is lowered. A name in sight stands for something
whose lowered type is that of its declaration; the name of a struct, as long as no other struct
hides it, for the layout that it was defined to have. What becomes of a site is told by the same.
-/
namespace Frontend

open List (Forall₂)

/-- What there is to go by while a program is lowered. -/
structure SourceFacts where
  /-- No struct hides another. -/
  tidy : Prop
  /-- The function of this name has so many parameters, and may be passed more or not. -/
  knows : String → Nat → Bool → Prop

namespace Ir

/-- No function has parameters that a value of this type is, or returns. -/
def Ty.Flat : Ty → Prop
  | .fn params ret => params = [] ∧ ret.Flat
  | _ => True

/-- The instruction is what becomes of the site, where `has` tells the types of registers. -/
inductive Instr.Serves (K : SourceFacts) (has : Reg → Ty → Prop) : Instr → Site → Prop where
  | named {res f args} {c : CallSite} : args.length = c.passed → K.knows f c.takes c.variadic →
      Serves K has ⟨res, .call f args⟩ (.call c)
  | pointer {res r args params ret} {c : CallSite} : args.length = c.passed → c.variadic = false →
      has r (.fn params ret) → params.length = c.takes →
      Serves K has ⟨res, .callPtr r args⟩ (.call c)
  | field {r p i layout name} :
      (K.tidy → ∃ l ty, layout = some l ∧ l.field? name = some ty ∧ has p (.ptr l.ty) ∧
        has r (.ptr ty)) →
      Serves K has ⟨some r, .fieldPtr p i⟩ (.access layout name)

variable {knows : String → Nat → Bool → Prop} {t : Ir.Ty}

theorem Instr.Serves.mono {K : SourceFacts} {has has' : Reg → Ty → Prop}
    (hk : ∀ f n more, K.knows f n more → knows f n more) (hr : ∀ r ty, has r ty → has' r ty)
      {i : Instr}
    {s : Site} (h : i.Serves K has s) : i.Serves ⟨K.tidy, knows⟩ has' s := by
  cases h with
  | named hargs hf => exact .named hargs (hk _ _ _ hf)
  | pointer hargs hmore hp htakes => exact .pointer hargs hmore (hr _ _ hp) htakes
  | field h =>
    refine .field fun htidy => ?_
    obtain ⟨l, ty, hl, hfield, hp, hres⟩ := h htidy
    exact ⟨l, ty, hl, hfield, hr _ _ hp, hr _ _ hres⟩

/-- A call or the address of a field. -/
def Op.isMarked : Op → Bool
  | .call _ _ | .callPtr _ _ | .fieldPtr _ _ => true
  | _ => false

/-- Calls and addresses of fields. -/
def marked (code : List Instr) : List Instr := code.filter (·.op.isMarked)

@[simp] theorem marked_append (is js : List Instr) : marked (is ++ js) = marked is ++ marked js :=
  List.filter_append is js

theorem marked_plain {code : List Instr} (h : ∀ i ∈ code, i.op.isPlain) : marked code = [] := by
  rw [marked, List.filter_eq_nil_iff]
  intro i hi
  have hplain := h i hi
  cases hop : i.op <;> simp_all [Op.isPlain, Op.isMarked]

end Ir

theorem Ty.lower_flat {names : ScopeTable Handle} (hn : names.LaidOut) (ty : Ty) {t : Ir.Ty}
    (h : ty.lower names = .ok t) : t.Flat := by
  have hptrs : ∀ (t : Ir.Ty) (n : Nat), t.Flat → (t.ptrs n).Flat := by
    intro t n ht
    cases n with
    | zero => exact ht
    | succ n => trivial
  have hagg : ∀ t : Ir.Ty, t.isAggregate → t.Flat := by
    intro t ht
    cases t <;> simp_all [Ir.Ty.isAggregate, Ir.Ty.Flat]
  match ty with
  | .prim p n =>
    cases p <;> simp [Ty.lower, Prim.lower?] at h <;> exact h ▸ hptrs _ _ trivial
  | .struct s n | .inst s n =>
    simp only [Ty.lower] at h
    split at h
    · rename_i layout hlayout
      obtain rfl := Except.ok.inj h
      exact hptrs _ _ (hagg _ (hn.isAggregate hlayout))
    · simp at h
  | .fn ret n =>
    obtain ⟨r, hr, h⟩ := bind_eq_ok.mp h
    obtain rfl := Except.ok.inj h
    exact hptrs _ _ ⟨rfl, lower_flat hn ret hr⟩

variable {h : Handle} {v : Sight} {K : SourceFacts}

theorem Handle.aggregate?_eq_some : h.aggregate? = some t ↔ h = .struct t := by
  cases h <;> simp [Handle.aggregate?]

/-- Types are lowered as is told of structs, if that is what they are bound to. -/
theorem Ty.lowerWith?_of_lower {names : ScopeTable Handle} {layout? : String → Option Ir.Layout}
    (h : ∀ s t, names.layout? s = some t → ∃ l, layout? s = some l ∧ t = l.ty) (ty : Ty) {t : Ir.Ty}
    (ht : ty.lower names = .ok t) : ty.lowerWith? layout? = some t := by
  match ty with
  | .prim p n =>
    simp only [Ty.lower] at ht
    split at ht
    · rename_i t₀ hp
      obtain rfl := Except.ok.inj ht
      simp [Ty.lowerWith?, hp]
    · simp at ht
  | .struct s n | .inst s n =>
    simp only [Ty.lower] at ht
    split at ht
    · rename_i t₀ hs
      obtain rfl := Except.ok.inj ht
      obtain ⟨l, hl, rfl⟩ := h s t₀ hs
      simp [Ty.lowerWith?, hl]
    · simp at ht
  | .fn ret n =>
    obtain ⟨r, hr, ht⟩ := bind_eq_ok.mp ht
    obtain rfl := Except.ok.inj ht
    simp [Ty.lowerWith?, lowerWith?_of_lower h ret hr]

/-- A value of the type may be in a register of type `t`: that of a struct may be its address, and a
function may have parameters. -/
def Ty.HeldAs (v : Sight) (t : Ir.Ty) : Ty → Prop
  | .inst s n => ∃ l, v.layout? s = some l ∧ (t = l.ty.ptrs n.toNat ∨ n.toNat = 0 ∧ t = .ptr l.ty)
  | .fn ret n => ∃ params r, ret.lowerIn? v = some r ∧ t = (Ir.Ty.fn params r).ptrs n.toNat
  | .prim _ _ | .struct _ _ => True

namespace Ty.HeldAs

variable {v : Sight} {ty : Ty} {t : Ir.Ty}

theorem lowered (h : ty.lowerIn? v = some t) : ty.HeldAs v t := by
  cases ty with
  | prim | struct => trivial
  | inst s n =>
    obtain ⟨l, hl, rfl⟩ := Option.map_eq_some_iff.mp h
    exact ⟨l, hl, .inl rfl⟩
  | fn ret n =>
    obtain ⟨r, hr, rfl⟩ := Option.map_eq_some_iff.mp h
    exact ⟨[], r, hr, rfl⟩

theorem passed (h : ty.lowerIn? v = some t) :
    ty.HeldAs v (if t.isAggregate then .ptr t else t) := by
  split
  · rename_i hagg
    cases ty with
    | prim | struct => trivial
    | inst s n =>
      obtain ⟨l, hl, rfl⟩ := Option.map_eq_some_iff.mp h
      cases hn : n.toNat with
      | zero => exact ⟨l, hl, .inr ⟨hn, by simp [Ir.Ty.ptrs]⟩⟩
      | succ k => simp [hn, Ir.Ty.ptrs, Ir.Ty.isAggregate] at hagg
    | fn ret n =>
      obtain ⟨r, -, rfl⟩ := Option.map_eq_some_iff.mp h
      cases hn : n.toNat <;> simp [hn, Ir.Ty.ptrs, Ir.Ty.isAggregate] at hagg
  · exact lowered h

/-- Integers and their addresses are neither structs nor functions, at whatever level. -/
theorem integer (h : ty.HeldAs v t) {i : Ir.Ty} (hi : i.isInt) (ht : t = i ∨ t = .ptr i) (n : Int)
    (t' : Ir.Ty) : (ty.withLevels n).HeldAs v t' := by
  have hne : ∀ (u : Ir.Ty) (k : Nat), u.isInt = false → u.isPtr = false → u.ptrs k ≠ t := by
    intro u k hu hp
    have hint : ∀ k, u.ptrs k ≠ i := by
      rintro (_ | k) rfl
      · exact Bool.false_ne_true (hu.symm.trans hi)
      · exact Bool.false_ne_true hi
    rcases ht with rfl | rfl
    · exact hint k
    · cases k with
      | zero => exact fun h => by simp [show u = _ from h, Ir.Ty.isPtr] at hp
      | succ k => exact fun h => hint k (Ir.Ty.ptr.inj h)
  cases ty with
  | prim | struct => trivial
  | inst s k =>
    obtain ⟨l, -, heq | ⟨-, heq⟩⟩ := h
    · exact absurd heq.symm (hne l.ty _ rfl rfl)
    · exact absurd heq.symm (hne l.ty 1 rfl rfl)
  | fn ret k =>
    obtain ⟨params, r, -, heq⟩ := h
    exact absurd heq.symm (hne (.fn params r) _ rfl rfl)

end Ty.HeldAs

/-- What the source tells of the type of a register with the value of an expression. -/
structure Expr.Yields (tidy : Prop) (v : Sight) (e : Expr) (t : Ir.Ty) : Prop where
  function : ∀ params ret, t = .fn params ret → params.length = e.takes v ∧ ret.Flat
  type : tidy → ∀ ty, e.typeIn? v = some ty → ty.HeldAs v t

theorem Expr.Yields.flat {tidy : Prop} {e : Expr} (ht : t.Flat) (htakes : e.takes v = 0)
    (htype : tidy → ∀ ty, e.typeIn? v = some ty → ty.HeldAs v t) : e.Yields tidy v t := by
  refine ⟨?_, htype⟩
  rintro params ret rfl
  obtain ⟨rfl, hret⟩ := ht
  exact ⟨htakes.symm, hret⟩

/-- What is known of the types of what a name stands for, with `v` in sight. -/
def Handle.Stands (K : SourceFacts) (v : Sight) (x : Sighting) : Handle → Prop
  | .slot _ ty _ => ty.Flat ∧ (K.tidy → x.ty.lowerIn? v = some ty)
  | .param _ ty _ => ty.Flat ∧
    (K.tidy → ∃ t, x.ty.lowerIn? v = some t ∧ ty = if t.isAggregate then .ptr t else t)
  | .func name params ret _ => ret.Flat ∧
    K.knows name params.length (x.attributes.isVariadic && x.attributes.isExternal) ∧
    (K.tidy → ∃ r, x.ty = .fn r 0 ∧ r.lowerIn? v = some ret)
  | .struct ty => K.tidy → ∃ l, v.layout? x.name = some l ∧ ty = l.ty
  | .marker | .member => True

theorem Handle.Stands.mono (hk : ∀ f n more, K.knows f n more → knows f n more) {x : Sighting}
    (hs : h.Stands K v x) : h.Stands ⟨K.tidy, knows⟩ v x := by
  cases h with
  | func name params ret variadic => exact ⟨hs.1, hk _ _ _ hs.2.1, hs.2.2⟩
  | _ => exact hs

/-- More may come to be in sight. -/
theorem Handle.Stands.append {new : Sight} (htidy : K.tidy → Sight.Tidy (new ++ v)) {x : Sighting}
    (hs : h.Stands K v x) : h.Stands K (new ++ v) x := by
  cases h with
  | slot ptr ty owner => exact ⟨hs.1, fun ht => (htidy ht).lowerIn? (hs.2 ht)⟩
  | param reg ty owner =>
    refine ⟨hs.1, fun ht => ?_⟩
    obtain ⟨t, hlow, rfl⟩ := hs.2 ht
    exact ⟨t, (htidy ht).lowerIn? hlow, rfl⟩
  | func name params ret variadic =>
    refine ⟨hs.1, hs.2.1, fun ht => ?_⟩
    obtain ⟨r, hty, hlow⟩ := hs.2.2 ht
    exact ⟨r, hty, (htidy ht).lowerIn? hlow⟩
  | struct ty =>
    intro ht
    obtain ⟨l, hl, rfl⟩ := hs ht
    exact ⟨l, (htidy ht).layout? hl, rfl⟩
  | marker | member => trivial

/-- Each name stands for something that suits what was in sight where it was declared. -/
inductive Stand (K : SourceFacts) : Sight → List (Binding Handle) → Prop where
  | nil : Stand K [] []
  | cons {x v b bs} : b.value.Stands K (x :: v) x → Stand K v bs → Stand K (x :: v) (b :: bs)

theorem Stand.mono (hk : ∀ f n more, K.knows f n more → knows f n more) {bs : List (Binding Handle)}
    (h : Stand K v bs) : Stand ⟨K.tidy, knows⟩ v bs := by
  induction h with
  | nil => exact .nil
  | cons hb _ ih => exact .cons (hb.mono hk) ih

/-- What is in sight is as the source tells. -/
structure Aware (K : SourceFacts) (v : Sight) (names : ScopeTable Handle) : Prop where
  shows : names.Shows v
  stand : Stand K v names.visible
  tidy : K.tidy → v.Tidy

namespace Aware

variable {K : SourceFacts} {v : Sight} {names : ScopeTable Handle}

theorem lookup (h : Aware K v names) {name : String} {b : Binding Handle}
    (hb : names.find? name = some b) :
    ∃ x, v.lookup? name = some x ∧ names.Describes x b ∧ b.value.Stands K v x := by
  obtain ⟨⟨-, hdesc⟩, hstand, htidy⟩ := h
  rw [ScopeTable.find?_eq] at hb
  rw [Sight.lookup?]
  generalize names.visible = bs at hb hdesc hstand
  induction hstand with
  | nil => simp at hb
  | @cons x v b₀ bs hb₀ _ ih =>
    obtain ⟨hxb, hrest⟩ := List.forall₂_cons.mp hdesc
    by_cases hx : x.name = name
    · have hb' : b₀.name = name := hxb.name.trans hx
      obtain rfl : b₀ = b := by simpa [hb'] using hb
      exact ⟨x, by simp [hx], hxb, hb₀⟩
    · have hb' : b₀.name ≠ name := by rwa [hxb.name]
      have htail : K.tidy → Sight.Tidy v := fun ht =>
        List.Sublist.nodup (((List.sublist_cons_self x v).filter _).map _) (htidy ht)
      obtain ⟨y, hy, hyb, hstands⟩ := ih htail (by simpa [hb'] using hb) hrest
      have hhere : b.value.Stands K ([x] ++ v) y := hstands.append htidy
      exact ⟨y, by simpa [hx] using hy, hyb, hhere⟩

/-- Types are lowered as the source tells. -/
theorem lower (h : Aware K v names) (htidy : K.tidy) (ty : Ty) (ht : ty.lower names = .ok t) :
    ty.lowerIn? v = some t := by
  refine Ty.lowerWith?_of_lower (fun s t hs => ?_) ty ht
  obtain ⟨b, hb, hval⟩ := Option.bind_eq_some_iff.mp hs
  obtain ⟨x, -, hxb, hstands⟩ := h.lookup hb
  rw [Handle.aggregate?_eq_some.mp hval] at hstands
  obtain ⟨l, hl, rfl⟩ := hstands htidy
  rw [← hxb.name, ScopeTable.name_of_find? hb] at hl
  exact ⟨l, hl, rfl⟩

end Aware

end Frontend
