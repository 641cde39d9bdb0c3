import Frontend.Proofs.Visible
import Frontend.Tree.Inference
import Mathlib.Data.List.Forall2

/-!
Tables that bind the same names to the same types, whatever values they keep with them and however
they number their scopes. An expression has the same type in both. Two tables that mirror each other
go on doing so while the same names are bound and the same scopes are opened and closed in both.
-/
namespace Frontend

/-- Same name, type and marks. -/
structure Binding.Alike (b : Binding V) (c : Binding W) : Prop where
  name : b.name = c.name
  ty : b.ty = c.ty
  attributes : b.attributes = c.attributes

namespace ScopeTable

/-- The bindings of one scope, newest first. -/
def bindingsIn (t : ScopeTable V) (scope : Nat) : List (Binding V) :=
  (t.scopes[scope]?.map (·.bindings)).getD []

theorem findIn?_eq (t : ScopeTable V) (scope : Nat) (name : String) :
    t.findIn? scope name = (t.bindingsIn scope).find? (·.name = name) := by
  rw [findIn?, bindingsIn]
  cases t.scopes[scope]? <;> rfl

/-- Two scopes, one of each table, bind the same names to the same types. -/
def SameMembers (t : ScopeTable V) (u : ScopeTable W) (i j : Nat) : Prop :=
  List.Forall₂ Binding.Alike (t.bindingsIn i) (u.bindingsIn j)

/-- Every name stands for the same thing in both tables, or for nothing in either: it has the same
type, and it leads to the same members if it leads to any. -/
def Agrees (t : ScopeTable V) (u : ScopeTable W) : Prop :=
  ∀ name, Option.Rel (fun b c => b.Alike c ∧ Option.Rel (t.SameMembers u) b.scope c.scope)
    (t.find? name) (u.find? name)

theorem Agrees.refl (t : ScopeTable V) : t.Agrees t := by
  intro name
  cases t.find? name with
  | none => exact .none
  | some b =>
    refine .some ⟨⟨rfl, rfl, rfl⟩, ?_⟩
    cases b.scope with
    | none => exact .none
    | some i => exact .some (List.forall₂_same.mpr fun _ _ => ⟨rfl, rfl, rfl⟩)

end ScopeTable

/-- Corresponding bindings are found together. -/
theorem find?_rel {R : Binding V → Binding W → Prop} (hR : ∀ b c, R b c → b.Alike c)
    {bs : List (Binding V)} {cs : List (Binding W)} (h : List.Forall₂ R bs cs) (name : String) :
    Option.Rel R (bs.find? (·.name = name)) (cs.find? (·.name = name)) := by
  induction h with
  | nil => exact .none
  | @cons b c bs cs hbc _ ih =>
    have hname := (hR b c hbc).name
    by_cases hb : b.name = name
    · have hc : c.name = name := hname ▸ hb
      simpa [hb, hc] using Option.Rel.some hbc
    · have hc : c.name ≠ name := hname ▸ hb
      simpa [hb, hc] using ih

theorem rel_mono {R S : α → β → Prop} (h : ∀ a b, R a b → S a b) {x : Option α} {y : Option β}
    (hxy : Option.Rel R x y) : Option.Rel S x y := by
  cases hxy with
  | some hab => exact .some (h _ _ hab)
  | none => exact .none

namespace ScopeTable

section Agreement

variable {t : ScopeTable V} {u : ScopeTable W}

variable {i j : Nat} {b : Binding V} {c : Binding W}

theorem SameMembers.findIn? (h : t.SameMembers u i j) (name : String) :
    Option.Rel Binding.Alike (t.findIn? i name) (u.findIn? j name) := by
  rw [findIn?_eq, findIn?_eq]
  exact find?_rel (fun _ _ h => h) h name

theorem Agrees.membersOf? (h : t.Agrees u) (ty : Ty) (arrow : Bool) :
    Option.Rel (t.SameMembers u) (t.membersOf? ty arrow) (u.membersOf? ty arrow) := by
  cases ty with
  | inst name levels =>
    by_cases hlevels : levels = (if arrow then 1 else 0)
    · simp only [ScopeTable.membersOf?, if_pos hlevels]
      have hrel := h name
      revert hrel
      generalize t.find? name = b
      generalize u.find? name = c
      rintro (⟨halike, hscope⟩ | -)
      · dsimp only
        rw [halike.ty]
        split
        · exact hscope
        · exact .none
      · exact .none
    · simpa only [ScopeTable.membersOf?, if_neg hlevels] using Option.Rel.none
  | _ => exact .none

/-- An expression has the same type in both tables, or none for the same reason. -/
theorem Agrees.infer (h : t.Agrees u) (e : Expr) : e.infer t = e.infer u := by
  match e with
  | .literal v ty s => rfl
  | .ident id =>
    have hrel := h id.name
    simp only [Expr.infer]
    revert hrel
    generalize t.find? id.name = b
    generalize u.find? id.name = c
    rintro (⟨halike, -⟩ | -)
    · simp only [halike.ty]
    · rfl
  | .paren inner s => exact h.infer inner
  | .unary op operand s => simp only [Expr.infer, h.infer operand]
  | .binary op lhs rhs s => simp only [Expr.infer, h.infer lhs, h.infer rhs]
  | .cast operand ty s => rfl
  | .call callee args s => simp only [Expr.infer, h.infer callee]
  | .member object field arrow s =>
    simp only [Expr.infer, h.infer object]
    congr 1
    funext ty
    have hrel := h.membersOf? ty arrow
    revert hrel
    generalize t.membersOf? ty arrow = i
    generalize u.membersOf? ty arrow = j
    rintro (⟨hij⟩ | -)
    · have hfield := hij.findIn? field.name
      dsimp only
      revert hfield
      generalize t.findIn? _ field.name = b
      generalize u.findIn? _ field.name = c
      rintro (⟨hbc⟩ | -)
      · simp only [hbc.ty]
      · rfl
    · rfl

end Agreement

/-- A scope other than the current one. What such a scope holds is not added to. -/
def Closed (t : ScopeTable V) (i : Nat) : Prop := i < t.size ∧ i ≠ t.current

section Closed

variable {t t' : ScopeTable V} {i : Nat} {new : List (Binding V)}

theorem Closed.extend (h : t.Closed i) (ht : Extends t t' new) :
    t'.Closed i ∧ t'.bindingsIn i = t.bindingsIn i := by
  refine ⟨⟨Nat.lt_of_lt_of_le h.1 ht.size, ht.current ▸ h.2⟩, ?_⟩
  rw [bindingsIn, bindingsIn, ht.other i h.1 h.2]

theorem Closed.enter (h : t.Closed i) :
    t.enter.Closed i ∧ t.enter.bindingsIn i = t.bindingsIn i := by
  refine ⟨⟨?_, ?_⟩, ?_⟩
  · rw [size_enter]
    exact Nat.lt_succ_of_lt h.1
  · exact Nat.ne_of_lt h.1
  · rw [bindingsIn, bindingsIn, Extends.enter_getElem? t h.1]

/-- A scope that was opened and closed again holds what was bound in it. -/
theorem Extends.left_behind {t₁ t₂ : ScopeTable V} (h : Extends t.enter t₁ new)
    (hl : t₁.leave? = some t₂) : t.size < t₂.size ∧ t₂.bindingsIn t.size = new := by
  have hs : t₁.scopes[t.size]? = some ⟨some t.current, new ++ []⟩ :=
    h.here _ (Extends.enter_getElem?_size t)
  have ht : { t₁ with current := t.current } = t₂ := by
    have hc : t₁.current = t.size := h.current
    simpa [leave?, hc, hs] using hl
  have hsize : t.size + 1 ≤ t₁.size := by simpa using h.size
  subst ht
  exact ⟨hsize, by simp [bindingsIn, hs]⟩

end Closed

/-- Two closed scopes with the same members. -/
def SameClosed (t : ScopeTable V) (u : ScopeTable W) (i j : Nat) : Prop :=
  t.Closed i ∧ u.Closed j ∧ t.SameMembers u i j

section Mirrors

variable {t t' t₁ t₂ : ScopeTable V} {u u' u₁ u₂ : ScopeTable W}
variable {new : List (Binding V)} {new' : List (Binding W)}

theorem SameClosed.extend (h : t.SameClosed u i j) (ht : Extends t t' new)
    (hu : Extends u u' new') : t'.SameClosed u' i j := by
  obtain ⟨hi, hti⟩ := h.1.extend ht
  obtain ⟨hj, huj⟩ := h.2.1.extend hu
  exact ⟨hi, hj, by rw [SameMembers, hti, huj]; exact h.2.2⟩

theorem SameClosed.enter (h : t.SameClosed u i j) : t.enter.SameClosed u.enter i j := by
  obtain ⟨hi, hti⟩ := h.1.enter
  obtain ⟨hj, huj⟩ := h.2.1.enter
  exact ⟨hi, hj, by rw [SameMembers, hti, huj]; exact h.2.2⟩

/-- Bindings of the two tables that stand for the same thing. -/
structure Twins (t : ScopeTable V) (u : ScopeTable W) (b : Binding V) (c : Binding W) : Prop where
  alike : b.Alike c
  scope : Option.Rel (t.SameClosed u) b.scope c.scope

theorem Twins.mono (h : ∀ i j, t.SameClosed u i j → t'.SameClosed u' i j) (hbc : t.Twins u b c) :
    t'.Twins u' b c :=
  ⟨hbc.alike, rel_mono h hbc.scope⟩

/-- Twins that lead nowhere. -/
theorem Twins.plain (h : b.Alike c) (hb : b.scope = none) (hc : c.scope = none) : t.Twins u b c :=
  ⟨h, by rw [hb, hc]; exact .none⟩

/-- What can be seen in one table is twinned, one by one, with what can be seen in the other. -/
structure Mirrors (t : ScopeTable V) (u : ScopeTable W) : Prop where
  left : t.current < t.size
  right : u.current < u.size
  visible : List.Forall₂ (t.Twins u) t.visible u.visible

namespace Mirrors

theorem agrees (h : t.Mirrors u) : t.Agrees u := by
  intro name
  rw [find?_eq, find?_eq]
  refine rel_mono ?_ (find?_rel (fun _ _ htwins => htwins.alike) h.visible name)
  intro b c hbc
  exact ⟨hbc.alike, rel_mono (fun _ _ hij => hij.2.2) hbc.scope⟩

theorem extend (h : t.Mirrors u) (ht : Extends t t' new) (hu : Extends u u' new')
    (hnew : List.Forall₂ (t'.Twins u') new new') : t'.Mirrors u' where
  left := ht.current_lt h.left
  right := hu.current_lt h.right
  visible := by
    rw [ht.visible h.left, hu.visible h.right]
    exact List.rel_append hnew
      (h.visible.imp fun _ _ => Twins.mono fun _ _ hij => hij.extend ht hu)

theorem enter (h : t.Mirrors u) : t.enter.Mirrors u.enter where
  left := by simp
  right := by simp
  visible := by
    rw [visible_enter t h.left, visible_enter u h.right]
    exact h.visible.imp fun _ _ => Twins.mono fun _ _ => SameClosed.enter

end Mirrors

/-- From `t` and `u`, the same was bound in both. -/
structure Advance (t : ScopeTable V) (u : ScopeTable W) (t' : ScopeTable V) (u' : ScopeTable W) :
    Prop where
  left : ∃ new, Extends t t' new
  right : ∃ new, Extends u u' new
  mirrors : t'.Mirrors u'

namespace Advance

theorem refl (h : t.Mirrors u) : Advance t u t u := ⟨⟨_, .refl t⟩, ⟨_, .refl u⟩, h⟩

theorem trans (h : Advance t u t₁ u₁) (h' : Advance t₁ u₁ t₂ u₂) : Advance t u t₂ u₂ := by
  obtain ⟨new, ht⟩ := h.left
  obtain ⟨new₁, ht₁⟩ := h'.left
  obtain ⟨new', hu⟩ := h.right
  obtain ⟨new₁', hu₁⟩ := h'.right
  exact ⟨⟨_, ht.trans ht₁⟩, ⟨_, hu.trans hu₁⟩, h'.mirrors⟩

theorem add (h : t.Mirrors u) (hbc : b.Alike c) (hb : b.scope = none) (hc : c.scope = none) :
    Advance t u (t.add b) (u.add c) :=
  ⟨⟨_, .add t b⟩, ⟨_, .add u c⟩,
    h.extend (.add t b) (.add u c) (.cons (.plain hbc hb hc) .nil)⟩

theorem addAll (h : t.Mirrors u) {bs : List (Binding V)} {cs : List (Binding W)}
    (hbs : List.Forall₂ (fun b c => b.Alike c ∧ b.scope = none ∧ c.scope = none) bs cs) :
    Advance t u (t.addAll bs) (u.addAll cs) := by
  induction hbs generalizing t u with
  | nil => exact refl h
  | cons hbc _ ih =>
    have hadd := add h hbc.1 hbc.2.1 hbc.2.2
    exact hadd.trans (ih hadd.mirrors)

/-- A scope is opened in both, and closed again. -/
theorem leave (h : t.Mirrors u) (hin : Advance t.enter u.enter t₁ u₁) (ht : t₁.leave? = some t₂)
    (hu : u₁.leave? = some u₂) : Advance t u t₂ u₂ := by
  obtain ⟨new, hleft⟩ := hin.left
  obtain ⟨new', hright⟩ := hin.right
  have hl := hleft.leave ht
  have hr := hright.leave hu
  exact ⟨⟨_, hl⟩, ⟨_, hr⟩, h.extend hl hr .nil⟩

/-- A struct is bound in both: a scope is opened under a marker, filled and closed, and then the
struct leads to it. -/
theorem struct (h : t.Mirrors u) {marker : String} {v : V} {w : W} {bs : List (Binding V)}
    {cs : List (Binding W)} (hbs : List.Forall₂ Binding.Alike bs cs)
    (ht : ((t.enterMarked marker v).addAll bs).leave? = some t₂)
    (hu : ((u.enterMarked marker w).addAll cs).leave? = some u₂) (hbc : b.Alike c)
    (hb : b.scope = some t.size) (hc : c.scope = some u.size) :
    Advance t u (t₂.add b) (u₂.add c) := by
  have hleft := Extends.addAll (t.enterMarked marker v) bs
  have hright := Extends.addAll (u.enterMarked marker w) cs
  obtain ⟨htsize, htmem⟩ := hleft.left_behind ht
  obtain ⟨husize, humem⟩ := hright.left_behind hu
  have het := ((Extends.add t _).trans (hleft.leave ht)).trans (Extends.add t₂ b)
  have heu := ((Extends.add u _).trans (hright.leave hu)).trans (Extends.add u₂ c)
  rw [size_add] at htsize htmem husize humem
  have hct : t₂.Closed t.size := by
    refine ⟨htsize, ?_⟩
    rw [(hleft.leave ht).current]
    exact Nat.ne_of_gt h.left
  have hcu : u₂.Closed u.size := by
    refine ⟨husize, ?_⟩
    rw [(hright.leave hu).current]
    exact Nat.ne_of_gt h.right
  have hsame : t₂.SameClosed u₂ t.size u.size := by
    refine ⟨hct, hcu, ?_⟩
    rw [SameMembers, htmem, humem]
    exact List.forall₂_reverse_iff.mpr hbs
  have hscope := hsame.extend (Extends.add t₂ b) (Extends.add u₂ c)
  refine ⟨⟨_, het⟩, ⟨_, heu⟩, h.extend het heu ?_⟩
  refine .cons ⟨hbc, ?_⟩ (.cons ⟨⟨rfl, rfl, rfl⟩, .some hscope⟩ .nil)
  rw [hb, hc]
  exact .some hscope

end Advance

end Mirrors

end ScopeTable

end Frontend
