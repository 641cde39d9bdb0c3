import Frontend.NamePool
import Mathlib.Algebra.Group.Nat.Defs
import Mathlib.Data.List.Induction
import Mathlib.Data.List.Nodup
import Mathlib.Data.List.Perm.Subperm

/-!
Handles of texts. A pool only grows, and at its end, so a handle that it has given stays good.
Whatever is asked of a pool, and in whatever order, its texts and its handles match one to one.
-/
namespace Frontend.NamePool

section Pools

variable {p p' : NamePool} {s x : String} {h : Handle}

theorem mem_of_lookup? (hs : p.lookup? s = some h) : s ∈ p.names :=
  List.mem_of_getElem? (get?_eq_some_iff.mp (lookup?_eq_some_iff.mp hs)).2

theorem not_mem_of_lookup? (hs : p.lookup? s = none) : s ∉ p.names := by
  intro hmem
  obtain ⟨i, hi⟩ := List.mem_iff_getElem?.mp hmem
  have hfound : p.lookup? s = some ⟨i + 1⟩ := (p.inverse s _).mpr ⟨Nat.succ_pos i, hi⟩
  simp [hs] at hfound

theorem nodup_names (p : NamePool) : p.names.Nodup := by
  refine List.nodup_iff_getElem?_ne_getElem?.mpr fun i j hij hj heq => ?_
  have hi := (p.inverse p.names[j] ⟨i + 1⟩).mpr ⟨Nat.succ_pos i,
    heq.trans (List.getElem?_eq_getElem hj)⟩
  rw [(p.inverse p.names[j] ⟨j + 1⟩).mpr ⟨Nat.succ_pos j, List.getElem?_eq_getElem hj⟩] at hi
  have := Handle.mk.inj (Option.some.inj hi)
  omega

/-- A text that is new comes last; otherwise nothing changes. -/
theorem intern_cases (p : NamePool) (s : String) :
    (s ∈ p.names ∧ (p.intern s).2 = p) ∨ (s ∉ p.names ∧ (p.intern s).2.names = p.names ++ [s]) := by
  unfold intern
  split
  · rename_i h hs
    exact .inl ⟨mem_of_lookup? hs, rfl⟩
  · rename_i hs
    exact .inr ⟨not_mem_of_lookup? hs, rfl⟩

theorem names_prefix_intern (p : NamePool) (s : String) : p.names <+: (p.intern s).2.names := by
  obtain ⟨-, heq⟩ | ⟨-, heq⟩ := p.intern_cases s
  · simp [heq]
  · exact heq ▸ List.prefix_append _ _

/-- A good handle is good in every later pool. -/
theorem get?_of_prefix (hp : p.names <+: p'.names) (hx : p.get? h = some x) :
    p'.get? h = some x := by
  obtain ⟨hpos, hx⟩ := get?_eq_some_iff.mp hx
  obtain ⟨hlt, rfl⟩ := List.getElem?_eq_some_iff.mp hx
  exact get?_eq_some_iff.mpr ⟨hpos, List.prefix_iff_getElem?.mp hp _ hlt⟩

theorem number_le_size (hx : p.get? h = some x) : 1 ≤ h.number ∧ h.number ≤ p.size := by
  obtain ⟨hpos, hx⟩ := get?_eq_some_iff.mp hx
  obtain ⟨hlt, -⟩ := List.getElem?_eq_some_iff.mp hx
  unfold size
  omega

/-- Each text has the number of its place. -/
theorem number_of_lookup? (hs : p.lookup? s = some h) : h.number = p.names.idxOf s + 1 := by
  obtain ⟨hpos, hx⟩ := get?_eq_some_iff.mp (lookup?_eq_some_iff.mp hs)
  obtain ⟨hlt, rfl⟩ := List.getElem?_eq_some_iff.mp hx
  rw [p.nodup_names.idxOf_getElem _ hlt]
  omega

end Pools

section Texts

/-- Texts interned one after the other. -/
def internAll : NamePool → List String → NamePool
  | p, [] => p
  | p, s :: xs => internAll (p.intern s).2 xs

theorem internAll_append (p : NamePool) (xs ys : List String) :
    p.internAll (xs ++ ys) = (p.internAll xs).internAll ys := by
  induction xs generalizing p with
  | nil => rfl
  | cons s xs ih => exact ih _

theorem names_prefix_internAll (p : NamePool) (xs : List String) :
    p.names <+: (p.internAll xs).names := by
  induction xs generalizing p with
  | nil => exact List.prefix_rfl
  | cons s xs ih => exact (p.names_prefix_intern s).trans (ih _)

/-- A handle is good for its text from then on. -/
theorem get?_internAll (p : NamePool) (x : String) (ys : List String) :
    ((p.intern x).2.internAll ys).get? (p.intern x).1 = some x :=
  get?_of_prefix (names_prefix_internAll _ ys) (lookup?_eq_some_iff.mp (lookup?_intern p x))

/-- The texts are kept once each, in order of first appearance. -/
theorem names_internAll (xs : List String) : (empty.internAll xs).names = xs.eraseDups := by
  induction xs using List.reverseRecOn with
  | nil => rfl
  | append_singleton xs s ih =>
    rw [internAll_append, internAll, internAll, List.eraseDups_append]
    have hmem : s ∈ (empty.internAll xs).names ↔ s ∈ xs := by rw [ih, List.mem_eraseDups]
    obtain ⟨hs, heq⟩ | ⟨hs, heq⟩ := (empty.internAll xs).intern_cases s
    · simp [heq, ih, List.removeAll, hmem.mp hs]
    · simp [heq, ih, List.removeAll, mt hmem.mpr hs, List.eraseDups_cons]

/-- No text is kept twice, and none that was not interned. -/
theorem size_internAll_le {xs ys : List String} (h : xs ⊆ ys) :
    (empty.internAll xs).size ≤ ys.length := by
  refine ((nodup_names _).subperm fun x hx => ?_).length_le
  rw [names_internAll, List.mem_eraseDups] at hx
  exact h hx

end Texts

/-- What can be asked of a pool. -/
inductive Request where
  | intern (s : String)
  | lookup (s : String)
  deriving DecidableEq

namespace Request

/-- The answer, and the pool from then on. -/
def run (p : NamePool) : Request → Option Handle × NamePool
  | intern s => (some (p.intern s).1, (p.intern s).2)
  | lookup s => (p.lookup? s, p)

def interned? : Request → Option String
  | intern s => some s
  | lookup _ => none

end Request

/-- The pool after these requests. -/
def after (rs : List Request) : NamePool := rs.foldl (fun p r => (r.run p).2) empty

/-- The handle that a text is given after these requests. -/
def given (rs : List Request) (s : String) : Handle := ((after rs).intern s).1

/-- The texts that are interned, in order of first appearance. -/
def interned (rs : List Request) : List String := (rs.filterMap Request.interned?).eraseDups

/-- Texts and handles match one to one, from when a handle is given to the end of the requests. -/
structure Bijective (rs : List Request) : Prop where
  numbered : ∀ front s rest, rs = front ++ .intern s :: rest →
    (given front s).number = (interned rs).idxOf s + 1 ∧ (given front s).number < 2 ^ 32
  same : ∀ front s rest front' s' rest', rs = front ++ .intern s :: rest →
    rs = front' ++ .intern s' :: rest' → (given front s = given front' s' ↔ s = s')
  kept : ∀ front s rest, rs = front ++ .intern s :: rest → (after rs).get? (given front s) = some s
  found : ∀ s h, (after rs).lookup? s = some h ↔ .intern s ∈ rs ∧ h = given rs s
  unchanged : ∀ front s rest, rs = front ++ .lookup s :: rest → after rs = after (front ++ rest)
  counted : (after rs).size = (interned rs).length

section Requests

variable {rs front rest : List Request} {s : String}

theorem after_eq (rs : List Request) :
    after rs = empty.internAll (rs.filterMap Request.interned?) := by
  unfold after
  generalize empty = p
  induction rs generalizing p with
  | nil => rfl
  | cons r rs ih => cases r <;> exact ih _

theorem names_after (rs : List Request) : (after rs).names = interned rs := by
  rw [after_eq, names_internAll, interned]

theorem mem_interned : s ∈ interned rs ↔ .intern s ∈ rs := by
  rw [interned, List.mem_eraseDups, List.mem_filterMap]
  constructor
  · rintro ⟨r, hr, hs⟩
    cases r with
    | intern s' => exact Option.some.inj hs ▸ hr
    | lookup s' => cases hs
  · exact fun h => ⟨_, h, rfl⟩

theorem get?_given (h : rs = front ++ .intern s :: rest) :
    (after rs).get? (given front s) = some s := by
  rw [h, given, after_eq, after_eq, List.filterMap_append, internAll_append]
  exact get?_internAll _ s _

theorem number_given (h : rs = front ++ .intern s :: rest) :
    (given front s).number = (interned rs).idxOf s + 1 := by
  rw [← names_after]
  exact number_of_lookup? (lookup?_eq_some_iff.mpr (get?_given h))

/-- A text that the pool knows is found with the handle that it would be given again. -/
theorem lookup?_after (h : .intern s ∈ rs) : (after rs).lookup? s = some (given rs s) := by
  have hs : s ∈ (after rs).names := by rwa [names_after, mem_interned]
  obtain ⟨-, heq⟩ | ⟨hnot, -⟩ := (after rs).intern_cases s
  · have hfound := lookup?_intern (after rs) s
    rwa [heq] at hfound
  · exact absurd hs hnot

end Requests

theorem after_bijective (rs : List Request) (hfew : (interned rs).length < 2 ^ 32) :
    Bijective rs where
  numbered front s rest h := by
    have hle := (number_le_size (get?_given h)).2
    rw [size, names_after] at hle
    exact ⟨number_given h, by omega⟩
  same front s rest front' s' rest' h h' := by
    constructor
    · intro heq
      have hget := get?_given h
      rw [heq, get?_given h'] at hget
      exact (Option.some.inj hget).symm
    · rintro rfl
      exact congrArg Handle.mk ((number_given h).trans (number_given h').symm)
  kept _ _ _ h := get?_given h
  found s h := by
    constructor
    · intro hs
      have hmem : .intern s ∈ rs := by
        rw [← mem_interned, ← names_after]
        exact mem_of_lookup? hs
      rw [lookup?_after hmem] at hs
      exact ⟨hmem, (Option.some.inj hs).symm⟩
    · rintro ⟨hmem, rfl⟩
      exact lookup?_after hmem
  unchanged front s rest h := by simp [h, after, Request.run]
  counted := by rw [size, names_after]

theorem after_bijective_main :
    (interned [.intern "main", .lookup "x", .intern "printf", .intern "main"]).length < 2 ^ 32 ∧
      Bijective [.intern "main", .lookup "x", .intern "printf", .intern "main"] := by
  have hfew : (interned [.intern "main", .lookup "x", .intern "printf", .intern "main"]).length <
      2 ^ 32 := by
    decide
  exact ⟨hfew, after_bijective _ hfew⟩

end Frontend.NamePool
