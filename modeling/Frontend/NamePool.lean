import Frontend.Text.Quoted

/-!
A pool of distinct texts. Each text gets a handle when it is first seen, numbered from one in that
order, and keeps it.
-/
namespace Frontend

structure NamePool.Handle where
  /-- From one. -/
  number : Nat
  deriving DecidableEq, Repr

structure NamePool where
  /-- The handle of each text. -/
  handles : List (String × NamePool.Handle)
  /-- In order of first appearance. -/
  names : List String
  /-- The two undo each other. -/
  inverse : ∀ s h, handles.lookup s = some h ↔ 0 < h.number ∧ names[h.number - 1]? = some s
  deriving DecidableEq, Repr

namespace NamePool

def Handle.text (h : Handle) : String := "#" ++ toString h.number

def empty : NamePool := ⟨[], [], by simp⟩

def size (p : NamePool) : Nat := p.names.length

def isEmpty (p : NamePool) : Bool := p.names.isEmpty

def lookup? (p : NamePool) (s : String) : Option Handle := p.handles.lookup s

def get? (p : NamePool) (h : Handle) : Option String :=
  if h.number = 0 then none else p.names[h.number - 1]?

theorem get?_eq_some_iff {p : NamePool} {s : String} {h : Handle} :
    p.get? h = some s ↔ 0 < h.number ∧ p.names[h.number - 1]? = some s := by
  unfold get?
  by_cases h0 : h.number = 0
  · rw [if_pos h0, h0]
    exact ⟨nofun, fun hs => absurd hs.1 (Nat.lt_irrefl 0)⟩
  · rw [if_neg h0]
    exact ⟨fun hs => ⟨Nat.pos_of_ne_zero h0, hs⟩, And.right⟩

theorem lookup?_eq_some_iff {p : NamePool} {s : String} {h : Handle} :
    p.lookup? s = some h ↔ p.get? h = some s :=
  (p.inverse s h).trans get?_eq_some_iff.symm

/-- A new text at the end of the names gets the next number. -/
theorem inverse_push {p : NamePool} {s : String} (hnew : p.lookup? s = none) (x : String)
    (h : Handle) : ((s, ⟨p.size + 1⟩) :: p.handles).lookup x = some h ↔
      0 < h.number ∧ (p.names ++ [s])[h.number - 1]? = some x := by
  obtain ⟨n⟩ := h
  have hs := p.inverse s ⟨n⟩
  rw [show p.handles.lookup s = none from hnew] at hs
  by_cases hx : x = s
  · subst hx
    simp only [List.lookup_cons, BEq.rfl, size, Option.some.injEq, Handle.mk.injEq]
    grind
  · rw [List.lookup_cons, beq_false_of_ne hx]
    refine (p.inverse x ⟨n⟩).trans (and_congr_right fun hpos => ?_)
    grind

/-- The handle of a text, which is added if it is new. -/
def intern (p : NamePool) (s : String) : Handle × NamePool :=
  match hs : p.lookup? s with
  | some h => (h, p)
  | none => (⟨p.size + 1⟩, ⟨(s, ⟨p.size + 1⟩) :: p.handles, p.names ++ [s], inverse_push hs⟩)

/-- After a text is interned, looking it up gives the same handle. -/
theorem lookup?_intern (p : NamePool) (s : String) :
    (p.intern s).2.lookup? s = some (p.intern s).1 := by
  unfold intern
  split
  next h hs => exact hs
  next hs => simp [lookup?]

def text (p : NamePool) : String := "[" ++ ", ".intercalate (p.names.map Text.quoted) ++ "]"

end NamePool

end Frontend
