import Frontend.Scope

/-!
What can be seen from the current scope, as one list with the nearest binding first, and how a walk
over a tree may change a table: it may bind names in the current scope and leave closed scopes
behind, and no more.
-/
namespace Frontend.ScopeTable

/-- The bindings that can be seen from a scope, nearest first. -/
def visibleFrom (t : ScopeTable V) (scope : Nat) : List (Binding V) :=
  match t.scopes[scope]? with
  | none => []
  | some s =>
    s.bindings ++ match s.parent with
      | none => []
      | some p => if p < scope then t.visibleFrom p else []
termination_by scope

def visible (t : ScopeTable V) : List (Binding V) := t.visibleFrom t.current

theorem findFrom?_eq (t : ScopeTable V) (scope : Nat) (name : String) :
    t.findFrom? scope name = (t.visibleFrom scope).find? (·.name = name) := by
  fun_induction visibleFrom t scope with
  | case1 scope h =>
    rw [findFrom?]
    simp [h]
  | case2 scope s h ih =>
    rw [findFrom?]
    simp only [h, List.find?_append, Scope.find?]
    cases hb : s.bindings.find? (·.name = name) with
    | some b => simp
    | none =>
      cases hp : s.parent with
      | none => simp
      | some p =>
        by_cases hlt : p < scope
        · simp [hlt, ih p hlt]
        · simp [hlt]

theorem find?_eq (t : ScopeTable V) (name : String) :
    t.find? name = t.visible.find? (·.name = name) :=
  t.findFrom?_eq t.current name

theorem mem_visible_of_find? {t : ScopeTable V} {name : String} {b : Binding V}
    (h : t.find? name = some b) : b ∈ t.visible := by
  rw [find?_eq] at h
  exact List.mem_of_find?_eq_some h

theorem name_of_find? {t : ScopeTable V} {name : String} {b : Binding V}
    (h : t.find? name = some b) : b.name = name := by
  rw [find?_eq] at h
  simpa using List.find?_some h

/-- Only scopes that were opened earlier can be seen from a scope. -/
theorem visibleFrom_congr (t t' : ScopeTable V) (scope : Nat)
    (h : ∀ i ≤ scope, t'.scopes[i]? = t.scopes[i]?) :
    t'.visibleFrom scope = t.visibleFrom scope := by
  induction scope using Nat.strongRecOn with
  | ind scope ih =>
    rw [visibleFrom, visibleFrom, h scope (Nat.le_refl _)]
    cases t.scopes[scope]? with
    | none => rfl
    | some s =>
      obtain ⟨parent, bindings⟩ := s
      cases parent with
      | none => rfl
      | some p =>
        by_cases hlt : p < scope
        · have := ih p hlt fun i hi => h i (by omega)
          simp [hlt, this]
        · simp [hlt]

/-- Binds names one after the other. -/
def addAll (t : ScopeTable V) (bs : List (Binding V)) : ScopeTable V := bs.foldl add t

/-- `t'` comes from `t` by binding `new`, newest first, in the current scope and by opening and
closing scopes inside it. -/
structure Extends (t t' : ScopeTable V) (new : List (Binding V)) : Prop where
  current : t'.current = t.current
  size : t.size ≤ t'.size
  other : ∀ i < t.size, i ≠ t.current → t'.scopes[i]? = t.scopes[i]?
  here : ∀ s, t.scopes[t.current]? = some s →
    t'.scopes[t.current]? = some { s with bindings := new ++ s.bindings }

namespace Extends

theorem refl (t : ScopeTable V) : Extends t t [] where
  current := rfl
  size := Nat.le_refl _
  other := fun _ _ _ => rfl
  here := fun _ hs => hs

variable {t t' t₁ : ScopeTable V} {new : List (Binding V)}

theorem trans {t'' : ScopeTable V} {new' : List (Binding V)} (h : Extends t t' new)
    (h' : Extends t' t'' new') : Extends t t'' (new' ++ new) where
  current := h'.current.trans h.current
  size := Nat.le_trans h.size h'.size
  other := by
    intro i hi hne
    rw [h'.other i (Nat.lt_of_lt_of_le hi h.size) (by rwa [h.current]), h.other i hi hne]
  here := by
    intro s hs
    have hs' := h.here s hs
    rw [← h.current] at hs' ⊢
    simpa using h'.here _ hs'

theorem add (t : ScopeTable V) (b : Binding V) : Extends t (t.add b) [b] where
  current := rfl
  size := by simp
  other := by
    intro i _ hne
    simp [ScopeTable.add, Ne.symm hne]
  here := by
    intro s hs
    simp [ScopeTable.add, hs]

theorem addAll (t : ScopeTable V) (bs : List (Binding V)) :
    Extends t (t.addAll bs) bs.reverse := by
  induction bs generalizing t with
  | nil => exact refl t
  | cons b bs ih =>
    rw [List.reverse_cons]
    exact (add t b).trans (ih (t.add b))

theorem enter_getElem? (t : ScopeTable V) {i : Nat} (hi : i < t.size) :
    t.enter.scopes[i]? = t.scopes[i]? :=
  List.getElem?_append_left hi

theorem enter_getElem?_size (t : ScopeTable V) :
    t.enter.scopes[t.size]? = some ⟨some t.current, []⟩ :=
  List.getElem?_concat_length

/-- A scope that was opened can be closed again. -/
theorem leave?_eq (h : Extends t.enter t₁ new) :
    t₁.leave? = some { t₁ with current := t.current } := by
  have hs : t₁.scopes[t.size]? = some ⟨some t.current, new ++ []⟩ :=
    h.here _ (enter_getElem?_size t)
  have hc : t₁.current = t.size := h.current
  simp [leave?, hc, hs]

/-- A scope that was opened and closed again leaves what was there as it was. -/
theorem leave {t₂ : ScopeTable V} (h : Extends t.enter t₁ new) (hl : t₁.leave? = some t₂) :
    Extends t t₂ [] := by
  obtain rfl : { t₁ with current := t.current } = t₂ := Option.some.inj (h.leave?_eq.symm.trans hl)
  have hsize : t.size + 1 ≤ t₁.size := by simpa using h.size
  have hold : ∀ i < t.size, t₁.scopes[i]? = t.scopes[i]? := by
    intro i hi
    rw [h.other i (by simp; omega) (by simp; omega), enter_getElem? t hi]
  refine ⟨rfl, Nat.le_of_succ_le hsize, fun i hi _ => hold i hi, ?_⟩
  intro s hcur
  have hlt : t.current < t.size := (List.getElem?_eq_some_iff.mp hcur).1
  exact (hold _ hlt).trans hcur

/-- New bindings come before those that could be seen already. -/
theorem visible (h : Extends t t' new) (hc : t.current < t.size) :
    t'.visible = new ++ t.visible := by
  obtain ⟨s, hs⟩ : ∃ s, t.scopes[t.current]? = some s := ⟨_, List.getElem?_eq_getElem hc⟩
  rw [ScopeTable.visible, ScopeTable.visible, h.current, visibleFrom, visibleFrom, hs,
    h.here s hs]
  obtain ⟨parent, bindings⟩ := s
  cases parent with
  | none => simp
  | some p =>
    by_cases hlt : p < t.current
    · have := visibleFrom_congr t t' p fun i hi => h.other i (by omega) (by omega)
      simp [hlt, this]
    · simp [hlt]

theorem current_lt (h : Extends t t' new) (hc : t.current < t.size) : t'.current < t'.size := by
  rw [h.current]
  exact Nat.lt_of_lt_of_le hc h.size

end Extends

/-- `enter` opens a scope inside the current one, where it may bind names before. -/
def Entering (enter : ScopeTable V → ScopeTable V) : Prop :=
  ∀ t, ∃ t' new, Extends t t' new ∧ enter t = t'.enter

namespace Entering

theorem enter : Entering (ScopeTable.enter : ScopeTable V → ScopeTable V) :=
  fun t => ⟨t, [], .refl t, rfl⟩

theorem enterMarked (marker : String) (value : V) :
    Entering fun t : ScopeTable V => t.enterMarked marker value :=
  fun t => ⟨_, _, .add t _, rfl⟩

/-- The scope that was opened is there to be closed, and nothing of what it held is left. -/
theorem closes {enter : ScopeTable V → ScopeTable V} (h : Entering enter) {t t₁ : ScopeTable V}
    {inner : List (Binding V)} (h₁ : Extends (enter t) t₁ inner) :
    ∃ outer new, t₁.leave? = some outer ∧ Extends t outer new := by
  obtain ⟨t', new, hext, heq⟩ := h t
  rw [heq] at h₁
  exact ⟨_, [] ++ new, h₁.leave?_eq, hext.trans (h₁.leave h₁.leave?_eq)⟩

end Entering

@[simp] theorem visible_add (t : ScopeTable V) (b : Binding V) (hc : t.current < t.size) :
    (t.add b).visible = b :: t.visible :=
  (Extends.add t b).visible hc

/-- A scope that was just opened has nothing of its own. -/
@[simp] theorem visible_enter (t : ScopeTable V) (hc : t.current < t.size) :
    t.enter.visible = t.visible := by
  rw [visible, visibleFrom, current_enter, Extends.enter_getElem?_size]
  have := visibleFrom_congr t t.enter t.current fun i hi =>
    Extends.enter_getElem? t (Nat.lt_of_le_of_lt hi hc)
  simp [hc, this, visible]

end Frontend.ScopeTable
