import Frontend.Proofs.Visible
import Frontend.Tree.Inference

/-!
Tables less the marks on their bindings. No name is looked up and no type is inferred by a mark, so
tables that differ in nothing else are as good as equal.
-/
namespace Frontend

/-- Less its marks. -/
def Binding.unmarked (b : Binding V) : Binding V := { b with attributes := .none }

def Scope.unmarked (s : Scope V) : Scope V := { s with bindings := s.bindings.map Binding.unmarked }

theorem find?_unmarked (bs : List (Binding V)) (name : String) :
    (bs.map Binding.unmarked).find? (·.name = name) =
      (bs.find? (·.name = name)).map Binding.unmarked := by
  rw [List.find?_map]
  rfl

namespace ScopeTable

variable (t : ScopeTable V)

/-- The same scopes and bindings, less the marks on them. -/
def unmarked : ScopeTable V := { t with scopes := t.scopes.map Scope.unmarked }

@[simp] theorem size_unmarked : t.unmarked.size = t.size := by
  simp [unmarked, size]

@[simp] theorem current_unmarked : t.unmarked.current = t.current := rfl

theorem unmarked_getElem? (i : Nat) : t.unmarked.scopes[i]? = t.scopes[i]?.map Scope.unmarked := by
  simp [unmarked]

theorem unmarked_add (b : Binding V) : (t.add b).unmarked = t.unmarked.add b.unmarked := by
  simp only [unmarked, add, ScopeTable.mk.injEq, and_true]
  refine List.ext_getElem? fun i => ?_
  simp only [List.getElem?_map, List.getElem?_modify]
  cases t.scopes[i]? with
  | none => rfl
  | some s => by_cases hi : t.current = i <;> simp [hi, Scope.unmarked]

theorem unmarked_enter : t.enter.unmarked = t.unmarked.enter := by
  simp [unmarked, enter, size, Scope.unmarked]

theorem leave?_unmarked : t.unmarked.leave? = t.leave?.map unmarked := by
  rw [leave?, leave?, unmarked_getElem?, current_unmarked]
  cases t.scopes[t.current]? with
  | none => rfl
  | some s =>
    obtain ⟨parent, bindings⟩ := s
    cases parent <;> rfl

theorem findIn?_unmarked (i : Nat) (name : String) :
    t.unmarked.findIn? i name = (t.findIn? i name).map Binding.unmarked := by
  rw [findIn?, findIn?, unmarked_getElem?]
  cases t.scopes[i]? with
  | none => rfl
  | some s => exact Frontend.find?_unmarked s.bindings name

theorem visibleFrom_unmarked (i : Nat) :
    t.unmarked.visibleFrom i = (t.visibleFrom i).map Binding.unmarked := by
  fun_induction visibleFrom t i with
  | case1 i hnone =>
    rw [visibleFrom, unmarked_getElem?, hnone]
    rfl
  | case2 i s hs ih =>
    rw [visibleFrom, unmarked_getElem?, hs]
    obtain ⟨parent, bindings⟩ := s
    cases parent with
    | none => simp [Scope.unmarked]
    | some p =>
      by_cases hlt : p < i
      · simp [Scope.unmarked, hlt, ih p hlt]
      · simp [Scope.unmarked, hlt]

theorem find?_unmarked (name : String) :
    t.unmarked.find? name = (t.find? name).map Binding.unmarked := by
  rw [find?_eq, find?_eq, visible, current_unmarked, visibleFrom_unmarked]
  exact Frontend.find?_unmarked _ name

theorem membersOf?_unmarked (ty : Ty) (arrow : Bool) :
    t.unmarked.membersOf? ty arrow = t.membersOf? ty arrow := by
  cases ty with
  | inst name levels =>
    simp only [membersOf?, find?_unmarked]
    cases t.find? name <;> rfl
  | _ => rfl

end ScopeTable

/-- Marks make no difference to types. -/
theorem Expr.infer_unmarked (t : ScopeTable V) (e : Expr) : e.infer t.unmarked = e.infer t := by
  match e with
  | .literal _ _ _ | .cast _ _ _ => rfl
  | .ident id =>
    simp only [Expr.infer, t.find?_unmarked]
    cases t.find? id.name <;> rfl
  | .paren inner _ => exact inner.infer_unmarked t
  | .unary _ operand _ => simp only [Expr.infer, operand.infer_unmarked t]
  | .binary _ lhs rhs _ => simp only [Expr.infer, lhs.infer_unmarked t, rhs.infer_unmarked t]
  | .call callee _ _ => simp only [Expr.infer, callee.infer_unmarked t]
  | .member object field arrow _ =>
    simp only [Expr.infer, object.infer_unmarked t, t.membersOf?_unmarked, t.findIn?_unmarked]
    congr 1
    funext ty
    cases t.membersOf? ty arrow with
    | none => rfl
    | some members =>
      dsimp only
      cases t.findIn? members field.name <;> rfl

namespace ScopeTable

/-- Tables that differ in marks only: the same scopes, with the same names, of the same types and
leading to the same scopes. -/
def Alike (t u : ScopeTable V) : Prop := t.unmarked = u.unmarked

namespace Alike

variable {t u : ScopeTable V}

theorem refl (t : ScopeTable V) : t.Alike t := rfl

variable (h : t.Alike u)

include h

theorem add {b c : Binding V} (hbc : b.unmarked = c.unmarked) : (t.add b).Alike (u.add c) := by
  rw [Alike, unmarked_add, unmarked_add, h, hbc]

theorem addAll (bs : List (Binding V)) : (t.addAll bs).Alike (u.addAll bs) := by
  induction bs generalizing t u with
  | nil => exact h
  | cons b bs ih => exact ih (h.add rfl)

theorem enter : t.enter.Alike u.enter := by
  rw [Alike, unmarked_enter, unmarked_enter, h]

theorem size : t.size = u.size := by
  rw [← size_unmarked t, ← size_unmarked u, h]

theorem enterMarked (marker : String) (value : V) :
    (t.enterMarked marker value).Alike (u.enterMarked marker value) :=
  (h.add (by rw [h.size])).enter

theorem leave {t' u' : ScopeTable V} (ht : t.leave? = some t') (hu : u.leave? = some u') :
    t'.Alike u' := by
  have hleave : t.unmarked.leave? = u.unmarked.leave? := congrArg leave? h
  rw [leave?_unmarked, leave?_unmarked, ht, hu] at hleave
  exact Option.some.inj hleave

theorem infer (e : Expr) : e.infer t = e.infer u := by
  rw [← e.infer_unmarked t, ← e.infer_unmarked u, h]

theorem find? {name : String} {c : Binding V} (hc : u.find? name = some c) :
    ∃ b, t.find? name = some b ∧ b.ty = c.ty := by
  have hfind : t.unmarked.find? name = u.unmarked.find? name := by rw [h]
  rw [find?_unmarked, find?_unmarked, hc] at hfind
  obtain ⟨b, hb, hbc⟩ := Option.map_eq_some_iff.mp hfind
  exact ⟨b, hb, (congrArg Binding.ty hbc : b.unmarked.ty = c.unmarked.ty)⟩

end Alike

end ScopeTable

end Frontend
