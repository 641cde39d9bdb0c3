import Frontend.Proofs.Frames
import Frontend.Tree

/-!
Scopes go by their numbers, so a number that is followed has to be one of a scope. In a table that
is in range the current scope, the scope around each one and the scope that each binding leads to
are all there. A step that closes the scopes it opens keeps a table in range, and a statement tells
how many scopes it opens.
-/
namespace Frontend

@[simp] theorem Binding.plain_scope {V : Type} (name : String) (ty : Ty) (value : V) :
    (Binding.plain name ty value).scope = none := rfl

namespace ScopeTable

variable {V : Type}

/-- Every number in the table is one of a scope in it. An enclosing scope was opened earlier. -/
structure InRange (t : ScopeTable V) : Prop where
  current : t.current < t.size
  parents : ∀ i p, t.parent? i = some p → p < i
  links : ∀ s ∈ t.scopes, ∀ b ∈ s.bindings, ∀ n ∈ b.scope, n < t.size

/-- `t'` is `t` with one more scope, which is now current. -/
structure Opens (t t' : ScopeTable V) : Prop where
  current : t'.current = t.size
  size : t'.size = t.size + 1
  parent : t'.parent? t.size = some t.current
  parents : ∀ i < t.size, t'.parent? i = t.parent? i
  inRange : t.InRange → t'.InRange

/-- From `t` to `t'` at most `n` scopes were opened, and all of them closed again. -/
structure Grows (n : Nat) (t t' : ScopeTable V) : Prop where
  current : t'.current = t.current
  parents : ∀ i < t.size, t'.parent? i = t.parent? i
  older : t.size ≤ t'.size
  size : t'.size ≤ t.size + n
  inRange : t.InRange → t'.InRange

variable {t t' t₁ : ScopeTable V} {b : Binding V} {n m : Nat}

/-- A binding that is there after another was added is that one, or was there before. -/
theorem mem_bindings_add {s : Scope V} {c : Binding V} (hs : s ∈ (t.add b).scopes)
    (hc : c ∈ s.bindings) : c = b ∨ ∃ s' ∈ t.scopes, c ∈ s'.bindings := by
  obtain ⟨i, hi⟩ := List.mem_iff_getElem?.mp hs
  simp only [add, List.getElem?_modify] at hi
  cases hold : t.scopes[i]? with
  | none => simp [hold] at hi
  | some s' =>
    have hmem : s' ∈ t.scopes := List.mem_of_getElem? hold
    rw [hold] at hi
    by_cases hcur : t.current = i
    · obtain rfl : { s' with bindings := b :: s'.bindings } = s := by simpa [hcur] using hi
      cases List.mem_cons.mp hc with
      | inl h => exact .inl h
      | inr h => exact .inr ⟨s', hmem, h⟩
    · obtain rfl : s' = s := by simpa [hcur] using hi
      exact .inr ⟨s', hmem, hc⟩

namespace InRange

theorem add (h : t.InRange) (hb : ∀ n ∈ b.scope, n < t.size) : (t.add b).InRange where
  current := by simpa using h.current
  parents := by simpa using h.parents
  links s hs c hc := by
    rw [size_add]
    obtain rfl | ⟨s', hs', hc'⟩ := mem_bindings_add hs hc
    · exact hb
    · exact h.links s' hs' c hc'

/-- A binding may already lead to the scope that is opened. -/
theorem enter_of_links (hc : t.current < t.size) (hp : ∀ i p, t.parent? i = some p → p < i)
    (hl : ∀ s ∈ t.scopes, ∀ b ∈ s.bindings, ∀ n ∈ b.scope, n < t.size + 1) : t.enter.InRange where
  current := by simp
  parents i p h := by
    have hi : i < t.size + 1 := by simpa using lt_size_of_parent? h
    obtain hlt | rfl := Nat.lt_succ_iff_lt_or_eq.mp hi
    · exact hp i p (parent?_enter_of_lt t hlt ▸ h)
    · obtain rfl := Option.some.inj ((parent?_enter_size t).symm.trans h)
      exact hc
  links s hs b hb := by
    rw [size_enter]
    obtain hs | rfl : s ∈ t.scopes ∨ s =
        ⟨some t.current, []⟩ := by simpa [ScopeTable.enter] using hs
    · exact hl s hs b hb
    · cases hb

theorem addPrelude (h : t.InRange) (value : PreludeFn → V) : (t.addPrelude value).InRange :=
  h.add (by simp)

theorem empty : (empty : ScopeTable V).InRange where
  current := Nat.zero_lt_one
  parents i p h := by
    cases i with
    | zero => simp [parent?, ScopeTable.empty] at h
    | succ i => simp [parent?, ScopeTable.empty] at h
  links s hs b hb := by
    obtain rfl : s = ⟨none, []⟩ := by simpa [ScopeTable.empty] using hs
    cases hb

end InRange

namespace Opens

theorem enter (t : ScopeTable V) : t.Opens t.enter where
  current := rfl
  size := size_enter t
  parent := parent?_enter_size t
  parents _ hi := parent?_enter_of_lt t hi
  inRange h := .enter_of_links h.current h.parents fun s hs b hb n hn =>
    Nat.lt_succ_of_lt (h.links s hs b hb n hn)

theorem enterMarked (t : ScopeTable V) (marker : String) (value : V) :
    t.Opens (t.enterMarked marker value) where
  current := size_add t _
  size := by simp [ScopeTable.enterMarked]
  parent := by
    have h := parent?_enter_size (t.add ⟨marker, .prim .scope 0, .none, some t.size, value⟩)
    rwa [size_add] at h
  parents i hi := (parent?_enter_of_lt _ (by simpa using hi)).trans (parent?_add t _ i)
  inRange h := by
    refine .enter_of_links (by simpa using h.current) (by simpa using h.parents) ?_
    intro s hs c hc n hn
    rw [size_add]
    obtain rfl | ⟨s', hs', hc'⟩ := mem_bindings_add hs hc
    · obtain rfl : t.size = n := Option.some.inj hn
      exact Nat.lt_succ_self _
    · exact Nat.lt_succ_of_lt (h.links s' hs' c hc' n hn)

end Opens

namespace Grows

theorem refl (t : ScopeTable V) : t.Grows 0 t :=
  ⟨rfl, fun _ _ => rfl, Nat.le_refl _, Nat.le_refl _, id⟩

theorem mono (h : t.Grows n t') (hnm : n ≤ m) : t.Grows m t' :=
  { h with size := Nat.le_trans h.size (Nat.add_le_add_left hnm _) }

theorem trans (h : t.Grows n t') (h' : t'.Grows m t₁) : t.Grows (n + m) t₁ where
  current := h'.current.trans h.current
  parents i hi := (h'.parents i (Nat.lt_of_lt_of_le hi h.older)).trans (h.parents i hi)
  older := Nat.le_trans h.older h'.older
  size := by
    have := h.size
    have := h'.size
    omega
  inRange := h'.inRange ∘ h.inRange

theorem add (t : ScopeTable V) (hb : ∀ n ∈ b.scope, n < t.size) : t.Grows 0 (t.add b) where
  current := rfl
  parents i _ := parent?_add t b i
  older := by simp
  size := by simp
  inRange h := h.add hb

variable {opened : ScopeTable V}

/-- What was opened last is closed to where it was opened. -/
theorem leave?_eq (h : opened.Grows n t₁) (ho : t.Opens opened) :
    t₁.leave? = some { t₁ with current := t.current } := by
  have hparent : t₁.parent? t.size = some t.current :=
    (h.parents t.size (by rw [ho.size]; omega)).trans ho.parent
  rw [leave?_eq_map, h.current, ho.current, hparent]
  rfl

/-- A scope that was opened and closed again, in which `n` more were opened. -/
theorem leave (h : opened.Grows n t₁) (ho : t.Opens opened) :
    t.Grows (n + 1) { t₁ with current := t.current } := by
  have hopened := ho.size
  have holder := h.older
  have hgrown := h.size
  refine ⟨rfl, ?_, ?_, ?_, ?_⟩
  · intro i hi
    calc t₁.parent? i = opened.parent? i := h.parents i (by omega)
      _ = t.parent? i := ho.parents i hi
  · show t.size ≤ t₁.size
    omega
  · show t₁.size ≤ t.size + (n + 1)
    omega
  · intro ht
    have hin := h.inRange (ho.inRange ht)
    have hcurrent := ht.current
    refine ⟨?_, hin.parents, hin.links⟩
    show t.current < t₁.size
    omega

/-- The definition of a struct leads to the scope of its members. -/
theorem struct (h : opened.Grows n t₁) (ho : t.Opens opened) (hb : b.scope = some t.size) :
    t.Grows (n + 1) (({ t₁ with current := t.current } : ScopeTable V).add b) := by
  have hlt : t.size < t₁.size := by
    have := ho.size
    have := h.older
    omega
  refine (h.leave ho).trans (.add _ fun k hk => ?_)
  obtain rfl : t.size = k := Option.some.inj (hb.symm.trans hk)
  exact hlt

end Grows

/-- The table is in range, and with `n` more scopes it has no more than `most`. -/
structure HasRoom (most n : Nat) (t : ScopeTable V) : Prop where
  inRange : t.InRange
  room : t.size + n ≤ most

namespace HasRoom

variable {most : Nat}

theorem mono (h : t.HasRoom most n) (hle : m ≤ n) : t.HasRoom most m :=
  ⟨h.inRange, Nat.le_trans (Nat.add_le_add_left hle _) h.room⟩

theorem grows {k : Nat} (h : t.HasRoom most n) (hg : t.Grows k t') (hle : k + m ≤ n) :
    t'.HasRoom most m := by
  refine ⟨hg.inRange h.inRange, ?_⟩
  have := h.room
  have := hg.size
  omega

theorem opens (h : t.HasRoom most n) (ho : t.Opens t') (hlt : m < n) : t'.HasRoom most m := by
  refine ⟨ho.inRange h.inRange, ?_⟩
  have := h.room
  have := ho.size
  omega

/-- Before a program only the root scope is there. -/
theorem start (value : PreludeFn → V) (n : Nat) : (empty.addPrelude value).HasRoom (n + 1) n :=
  ⟨InRange.empty.addPrelude value, Nat.le_of_eq (Nat.add_comm 1 n)⟩

end HasRoom

end ScopeTable

mutual

/-- Scopes that a statement opens and parameters that it declares, all counted. -/
def Stmt.weight : Stmt → Nat
  | .structDef _ _ _ => 1
  | .fnDef sig body _ => sig.params.length + Stmt.totalWeight body + 1
  | .fnDecl sig _ => sig.params.length + 1
  | .for_ _ body _ | .block body _ => Stmt.totalWeight body + 1
  | .if_ _ body otherwise _ => Stmt.totalWeight body + 1 + otherwise.weight
  | _ => 0

def Alternative.weight : Alternative → Nat
  | .none => 0
  | .else_ body => Stmt.totalWeight body + 1
  | .elif _ body otherwise => Stmt.totalWeight body + 1 + otherwise.weight

def Stmt.totalWeight : List Stmt → Nat
  | [] => 0
  | s :: ss => s.weight + Stmt.totalWeight ss

end

end Frontend
