import Frontend.Proofs.Visible
import Frontend.Scope.Prelude

/-!
Scopes as a stack of frames. A table of scopes keeps all that were ever opened and moves a cursor
among them; seen from the cursor it is a stack of lists, which forgets a frame once it is popped.
Each move of the table is the move of the stack, and they fail together. What the table keeps of a
scope that was closed stays as it was, for the cursor never returns there.
-/
namespace Frontend

/-- What can be done to a table of scopes. -/
inductive ScopeMove (V : Type) where
  | enter
  | enterMarked (marker : String) (value : V)
  | leave
  | add (b : Binding V)
  | addPrelude (value : PreludeFn → V)

/-- Frames, newest binding first. Of those that were popped only the count is left. -/
structure FrameStack (V : Type) where
  top : List (Binding V)
  below : List (List (Binding V))
  opened : Nat

namespace FrameStack

variable (s : FrameStack V)

def start : FrameStack V := ⟨[], [], 1⟩

def frames : List (List (Binding V)) := s.top :: s.below

def add (b : Binding V) : FrameStack V := { s with top := b :: s.top }

def push : FrameStack V := ⟨[], s.frames, s.opened + 1⟩

def pushMarked (marker : String) (value : V) : FrameStack V :=
  (s.add ⟨marker, .prim .scope 0, .none, some s.opened, value⟩).push

/-- The last frame stays. -/
def pop? : Option (FrameStack V) :=
  match s.below with
  | [] => none
  | frame :: frames => some ⟨frame, frames, s.opened⟩

def addPrelude (value : PreludeFn → V) : FrameStack V :=
  prelude.foldl (fun s f => s.add ⟨f.name, f.ty, f.attributes, none, value f⟩) s

/-- The newest binding of the name in the top frame. -/
def findLocal? (name : String) : Option (Binding V) := s.top.find? (·.name = name)

/-- The newest binding of the name in the first frame from the top that has one. -/
def find? (name : String) : Option (Binding V) :=
  s.frames.findSome? fun frame => frame.find? (·.name = name)

def move? : ScopeMove V → Option (FrameStack V)
  | .enter => some s.push
  | .enterMarked marker value => some (s.pushMarked marker value)
  | .leave => s.pop?
  | .add b => some (s.add b)
  | .addPrelude value => some (s.addPrelude value)

/-- All moves one after the other, or `none` if one of them fails. -/
def run? (s : FrameStack V) : List (ScopeMove V) → Option (FrameStack V)
  | [] => some s
  | m :: ms => (s.move? m).bind (run? · ms)

end FrameStack

namespace ScopeTable

variable {t t' : ScopeTable V} {i : Nat} {s : FrameStack V}

def move? (t : ScopeTable V) : ScopeMove V → Option (ScopeTable V)
  | .enter => some t.enter
  | .enterMarked marker value => some (t.enterMarked marker value)
  | .leave => t.leave?
  | .add b => some (t.add b)
  | .addPrelude value => some (t.addPrelude value)

/-- All moves one after the other, or `none` if one of them fails. -/
def run? (t : ScopeTable V) : List (ScopeMove V) → Option (ScopeTable V)
  | [] => some t
  | m :: ms => (t.move? m).bind (run? · ms)

/-- The scope around a scope. -/
def parent? (t : ScopeTable V) (i : Nat) : Option Nat := t.scopes[i]?.bind (·.parent)

@[simp] theorem parent?_add (t : ScopeTable V) (b : Binding V) (i : Nat) :
    (t.add b).parent? i = t.parent? i := by
  simp only [parent?, add, List.getElem?_modify]
  cases t.scopes[i]? with
  | none => rfl
  | some s => by_cases hi : t.current = i <;> simp [hi]

theorem parent?_enter_of_lt (t : ScopeTable V) (h : i < t.size) :
    t.enter.parent? i = t.parent? i := by
  rw [parent?, Extends.enter_getElem? t h, parent?]

theorem parent?_enter_size (t : ScopeTable V) : t.enter.parent? t.size = some t.current := by
  rw [parent?, Extends.enter_getElem?_size]
  rfl

theorem lt_size_of_parent? {p : Nat} (h : t.parent? i = some p) : i < t.size := by
  obtain ⟨s, hs, -⟩ := Option.bind_eq_some_iff.mp h
  exact (List.getElem?_eq_some_iff.mp hs).1

theorem leave?_eq_map (t : ScopeTable V) :
    t.leave? = (t.parent? t.current).map fun p => { t with current := p } := by
  simp only [leave?, parent?]
  cases t.scopes[t.current]? with
  | none => rfl
  | some s => cases hp : s.parent <;> simp [hp]

theorem leave?_eq_some (h : t.leave? = some t') :
    ∃ p, t.parent? t.current = some p ∧ t' = { t with current := p } := by
  rw [leave?_eq_map] at h
  obtain ⟨p, hp, rfl⟩ := Option.map_eq_some_iff.mp h
  exact ⟨p, hp, rfl⟩

/-- From scope `i` outward the scopes hold these frames. -/
def Chain (t : ScopeTable V) (i : Nat) (top : List (Binding V)) : List (List (Binding V)) → Prop
  | [] => t.scopes[i]? = some ⟨none, top⟩
  | frame :: frames => ∃ p < i, t.scopes[i]? = some ⟨some p, top⟩ ∧ t.Chain p frame frames

namespace Chain

variable {i : Nat} {top : List (Binding V)} {below : List (List (Binding V))}

theorem getElem? (h : t.Chain i top below) : ∃ parent, t.scopes[i]? = some ⟨parent, top⟩ := by
  cases below with
  | nil => exact ⟨none, h⟩
  | cons frame frames =>
    obtain ⟨p, -, hs, -⟩ := h
    exact ⟨some p, hs⟩

theorem lt_size (h : t.Chain i top below) : i < t.size := by
  obtain ⟨parent, hs⟩ := h.getElem?
  exact (List.getElem?_eq_some_iff.mp hs).1

/-- Only the scopes up to `i` matter. -/
theorem congr (h : t.Chain i top below) (ht : ∀ j ≤ i, t'.scopes[j]? = t.scopes[j]?) :
    t'.Chain i top below := by
  induction below generalizing i top with
  | nil => exact (ht i (Nat.le_refl i)).trans h
  | cons frame frames ih =>
    obtain ⟨p, hp, hs, hrest⟩ := h
    refine ⟨p, hp, (ht i (Nat.le_refl i)).trans hs, ih hrest fun j hj => ?_⟩
    exact ht j (by omega)

theorem add (h : t.Chain t.current top below) (b : Binding V) :
    (t.add b).Chain t.current (b :: top) below := by
  have hhere : ∀ parent, t.scopes[t.current]? = some ⟨parent, top⟩ →
      (t.add b).scopes[t.current]? = some ⟨parent, b :: top⟩ :=
    fun parent hs => (Extends.add t b).here _ hs
  cases below with
  | nil => exact hhere none h
  | cons frame frames =>
    obtain ⟨p, hp, hs, hrest⟩ := h
    refine ⟨p, hp, hhere (some p) hs, hrest.congr fun j hj => ?_⟩
    have hne : t.current ≠ j := by omega
    simp [ScopeTable.add, hne]

theorem enter (h : t.Chain t.current top below) : t.enter.Chain t.size [] (top :: below) := by
  refine ⟨t.current, h.lt_size, Extends.enter_getElem?_size t, h.congr fun j hj => ?_⟩
  exact Extends.enter_getElem? t (Nat.lt_of_le_of_lt hj h.lt_size)

/-- What can be seen from a scope is in its frames, one after the other. -/
theorem visibleFrom (h : t.Chain i top below) : t.visibleFrom i = (top :: below).flatten := by
  induction below generalizing i top with
  | nil =>
    have hs : t.scopes[i]? = some ⟨none, top⟩ := h
    rw [ScopeTable.visibleFrom, hs]
    simp
  | cons frame frames ih =>
    obtain ⟨p, hp, hs, hrest⟩ := h
    rw [ScopeTable.visibleFrom, hs]
    simp only [if_pos hp, ih hrest]
    rfl

end Chain

/-- The table is the stack, with every scope that was ever opened still in it. -/
structure Represents (t : ScopeTable V) (s : FrameStack V) : Prop where
  chain : t.Chain t.current s.top s.below
  opened : t.size = s.opened
  parents : ∀ i p, t.parent? i = some p → p < i

namespace Represents

variable {s : FrameStack V}

theorem empty : (ScopeTable.empty : ScopeTable V).Represents .start where
  chain := rfl
  opened := rfl
  parents := by
    intro i p h
    cases i with
    | zero => simp [parent?, ScopeTable.empty] at h
    | succ i => simp [parent?, ScopeTable.empty] at h

variable (h : t.Represents s)

include h

theorem add (b : Binding V) : (t.add b).Represents (s.add b) where
  chain := h.chain.add b
  opened := (size_add t b).trans h.opened
  parents := by
    intro i p hp
    rw [parent?_add] at hp
    exact h.parents i p hp

theorem enter : t.enter.Represents s.push where
  chain := h.chain.enter
  opened := by rw [size_enter, h.opened]; rfl
  parents := by
    intro i p hp
    have hi : i < t.size + 1 := by simpa using lt_size_of_parent? hp
    rcases Nat.lt_or_eq_of_le (Nat.le_of_lt_succ hi) with hlt | rfl
    · rw [parent?_enter_of_lt t hlt] at hp
      exact h.parents i p hp
    · rw [parent?_enter_size] at hp
      rw [← Option.some.inj hp]
      exact h.chain.lt_size

theorem enterMarked (marker : String) (value : V) :
    (t.enterMarked marker value).Represents (s.pushMarked marker value) := by
  rw [ScopeTable.enterMarked, FrameStack.pushMarked, h.opened]
  exact (h.add _).enter

theorem addPrelude (value : PreludeFn → V) :
    (t.addPrelude value).Represents (s.addPrelude value) := by
  rw [ScopeTable.addPrelude, FrameStack.addPrelude]
  generalize prelude = fs
  induction fs generalizing t s with
  | nil => exact h
  | cons f fs ih => exact ih (h.add _)

/-- The table can return to an enclosing scope just if there is a frame below the top. -/
theorem leave? : Option.Rel Represents t.leave? s.pop? := by
  obtain ⟨top, below, opened⟩ := s
  rw [leave?_eq_map]
  cases below with
  | nil =>
    have hs : t.scopes[t.current]? = some ⟨none, top⟩ := h.chain
    have hp : t.parent? t.current = none := by rw [parent?, hs]; rfl
    rw [hp]
    exact .none
  | cons frame frames =>
    obtain ⟨p, hlt, hs, hrest⟩ := h.chain
    have hp : t.parent? t.current = some p := by rw [parent?, hs]; rfl
    rw [hp]
    exact .some ⟨hrest.congr fun _ _ => rfl, h.opened, h.parents⟩

/-- Each move of the table is the move of the stack, and fails where that fails. -/
theorem move? (m : ScopeMove V) : Option.Rel Represents (t.move? m) (s.move? m) := by
  cases m with
  | enter => exact .some h.enter
  | enterMarked marker value => exact .some (h.enterMarked marker value)
  | leave => exact h.leave?
  | add b => exact .some (h.add b)
  | addPrelude value => exact .some (h.addPrelude value)

theorem run? (ms : List (ScopeMove V)) : Option.Rel Represents (t.run? ms) (s.run? ms) := by
  induction ms generalizing t s with
  | nil => exact .some h
  | cons m ms ih =>
    have hmove := h.move? m
    rw [ScopeTable.run?, FrameStack.run?]
    generalize t.move? m = t₁ at hmove
    generalize s.move? m = s₁ at hmove
    cases hmove with
    | none => exact .none
    | some h₁ => exact ih h₁

theorem find? (name : String) : t.find? name = s.find? name := by
  rw [ScopeTable.find?, findFrom?_eq, h.chain.visibleFrom, FrameStack.find?, FrameStack.frames,
    List.find?_flatten]

theorem findLocal? (name : String) : t.findLocal? name = s.findLocal? name := by
  obtain ⟨parent, hs⟩ := h.chain.getElem?
  rw [ScopeTable.findLocal?, findIn?, hs]
  rfl

end Represents

/-- Scope `i` is scope `j` or one around it, where `up` leads from a scope to the one around it. -/
inductive Encloses (up : Nat → Option Nat) (i : Nat) : Nat → Prop where
  | self : Encloses up i i
  | around {j p : Nat} : up j = some p → Encloses up i p → Encloses up i j

namespace Encloses

variable {up up' : Nat → Option Nat} {i j : Nat}

theorem le (hup : ∀ k p, up k = some p → p < k) (h : Encloses up i j) : i ≤ j := by
  induction h with
  | self => exact Nat.le_refl i
  | around hp _ ih =>
    have hlt := hup _ _ hp
    omega

/-- Only the scopes up to `j` matter. -/
theorem congr (hup : ∀ k p, up k = some p → p < k) (h : Encloses up i j)
    (heq : ∀ k ≤ j, up k = up' k) : Encloses up' i j := by
  induction h with
  | self => exact .self
  | @around j p hp _ ih =>
    have hlt := hup _ _ hp
    refine .around ((heq j (Nat.le_refl j)).symm.trans hp) (ih fun k hk => ?_)
    exact heq k (by omega)

end Encloses

/-- The scope was opened, and is neither current nor around the current one. -/
structure Sealed (t : ScopeTable V) (i : Nat) : Prop where
  lt : i < t.size
  outside : ¬ Encloses t.parent? i t.current

theorem Sealed.ne_current (h : t.Sealed i) : t.current ≠ i := by
  intro heq
  subst heq
  exact h.outside .self

/-- Scope `i` is sealed in `t'`, and a search in it ends as in `t`. -/
structure Untouched (t t' : ScopeTable V) (i : Nat) : Prop where
  isSealed : t'.Sealed i
  findIn? : ∀ name, t'.findIn? i name = t.findIn? i name

theorem Untouched.trans {t'' : ScopeTable V} (h : t.Untouched t' i) (h' : t'.Untouched t'' i) :
    t.Untouched t'' i :=
  ⟨h'.isSealed, fun name => (h'.findIn? name).trans (h.findIn? name)⟩

namespace Sealed

variable {i : Nat} {s : FrameStack V}

variable (h : t.Sealed i)

include h

theorem add (ht : t.Represents s) (b : Binding V) : t.Untouched (t.add b) i where
  isSealed := by
    refine ⟨by rw [size_add]; exact h.lt, fun henc => h.outside ?_⟩
    exact henc.congr (ht.add b).parents fun k _ => parent?_add t b k
  findIn? := findIn?_add_of_scope_ne t b h.ne_current

theorem enter (ht : t.Represents s) : t.Untouched t.enter i where
  isSealed := by
    refine ⟨by rw [size_enter]; exact Nat.lt_succ_of_lt h.lt, fun henc => ?_⟩
    rw [current_enter] at henc
    -- the scope that was opened is new, so what encloses it encloses the one around it
    cases henc with
    | self => exact absurd h.lt (Nat.lt_irrefl _)
    | around hparent hrest =>
      rw [parent?_enter_size] at hparent
      obtain rfl := Option.some.inj hparent
      refine h.outside (hrest.congr ht.enter.parents fun k hk => ?_)
      exact parent?_enter_of_lt t (Nat.lt_of_le_of_lt hk ht.chain.lt_size)
  findIn? := by
    intro name
    rw [ScopeTable.findIn?, ScopeTable.findIn?, Extends.enter_getElem? t h.lt]

theorem leave (hl : t.leave? = some t') : t.Untouched t' i := by
  obtain ⟨p, hp, rfl⟩ := leave?_eq_some hl
  exact ⟨⟨h.lt, fun henc => h.outside (.around hp henc)⟩, fun _ => rfl⟩

theorem addPrelude (ht : t.Represents s) (value : PreludeFn → V) :
    t.Untouched (t.addPrelude value) i := by
  rw [ScopeTable.addPrelude]
  generalize prelude = fs
  induction fs generalizing t s with
  | nil => exact ⟨h, fun _ => rfl⟩
  | cons f fs ih =>
    have hadd := h.add ht ⟨f.name, f.ty, f.attributes, none, value f⟩
    exact hadd.trans (ih hadd.isSealed (ht.add _))

/-- No move reaches a scope that was closed. -/
theorem move (ht : t.Represents s) {m : ScopeMove V} (hm : t.move? m = some t') :
    t.Untouched t' i := by
  cases m with
  | enter =>
    obtain rfl := Option.some.inj hm
    exact h.enter ht
  | enterMarked marker value =>
    obtain rfl := Option.some.inj hm
    have hadd := h.add ht ⟨marker, .prim .scope 0, .none, some t.size, value⟩
    exact hadd.trans (hadd.isSealed.enter (ht.add _))
  | leave => exact h.leave hm
  | add b =>
    obtain rfl := Option.some.inj hm
    exact h.add ht b
  | addPrelude value =>
    obtain rfl := Option.some.inj hm
    exact h.addPrelude ht value

theorem run (ht : t.Represents s) {ms : List (ScopeMove V)} (hms : t.run? ms = some t') :
    t.Untouched t' i := by
  induction ms generalizing t s with
  | nil =>
    obtain rfl := Option.some.inj hms
    exact ⟨h, fun _ => rfl⟩
  | cons m ms ih =>
    obtain ⟨t₁, hm, hrest⟩ := Option.bind_eq_some_iff.mp hms
    have hfirst := h.move ht hm
    have hmove := ht.move? m
    rw [hm] at hmove
    generalize s.move? m = s₁ at hmove
    cases hmove with
    | some ht₁ => exact hfirst.trans (ih hfirst.isSealed ht₁ hrest)

end Sealed

/-- A scope is sealed by being closed. -/
theorem Represents.untouched (h : t.Represents s) (hl : t.leave? = some t') :
    t.Untouched t' t.current := by
  obtain ⟨p, hp, rfl⟩ := leave?_eq_some hl
  refine ⟨⟨h.chain.lt_size, fun henc => ?_⟩, fun _ => rfl⟩
  have hle : t.current ≤ p := Encloses.le h.parents henc
  have hlt : p < t.current := h.parents _ _ hp
  omega

/-- The table answers as the stack does. -/
structure Answers (t : ScopeTable V) (s : FrameStack V) : Prop where
  opened : t.size = s.opened
  find? : ∀ name, t.find? name = s.find? name
  findLocal? : ∀ name, t.findLocal? name = s.findLocal? name
  leave? : t.leave? = none ↔ s.below = []

theorem Represents.answers (h : t.Represents s) : t.Answers s := by
  refine ⟨h.opened, h.find?, h.findLocal?, ?_⟩
  have hleave := h.leave?
  obtain ⟨top, below, opened⟩ := s
  generalize t.leave? = r at hleave ⊢
  cases below with
  | nil => cases hleave; simp
  | cons frame frames => cases hleave; simp

/-- Once the current scope is closed it is never current again, and whatever is done next, a search
in it ends as before. -/
def LeftForGood (t : ScopeTable V) : Prop :=
  ∀ ms t', t.run? (.leave :: ms) = some t' →
    t'.current ≠ t.current ∧ ∀ name, t'.findIn? t.current name = t.findIn? t.current name

theorem Represents.leftForGood (h : t.Represents s) : t.LeftForGood := by
  intro ms u hu
  obtain ⟨t₁, hl, hrest⟩ := Option.bind_eq_some_iff.mp hu
  change t.leave? = some t₁ at hl
  have hclosed := h.untouched hl
  have hleave := h.leave?
  rw [hl] at hleave
  generalize s.pop? = s₁ at hleave
  cases hleave with
  | some h₁ =>
    have hlater := hclosed.trans (hclosed.isSealed.run h₁ hrest)
    exact ⟨hlater.isSealed.ne_current, hlater.findIn?⟩

/-- From the empty table, moves do to the table what they do to the stack, and fail in both or in
neither. The table that they lead to answers as the stack does; its scopes are younger than those
around them; and a scope that is closed is left for good. -/
theorem run?_empty_refines (ms : List (ScopeMove V)) :
    Option.Rel Answers (ScopeTable.empty.run? ms) (FrameStack.start.run? ms) ∧
      ∀ t, ScopeTable.empty.run? ms = some t →
        (∀ i p, t.parent? i = some p → p < i) ∧ t.current < t.size ∧ t.LeftForGood := by
  have hrun := Represents.empty.run? ms
  generalize ScopeTable.empty.run? ms = t at hrun ⊢
  generalize FrameStack.start.run? ms = s at hrun
  cases hrun with
  | none => exact ⟨.none, by simp⟩
  | some h =>
    refine ⟨.some h.answers, ?_⟩
    rintro t ⟨⟩
    exact ⟨h.parents, h.chain.lt_size, h.leftForGood⟩

/-- The members of a struct are being declared. -/
def memberMoves : List (ScopeMove Unit) :=
  [.addPrelude fun _ => (), .enterMarked "Point_members" (), .add (.plain "x" .i32 ())]

/-- The struct is declared, and in a block a variable with the name of its member. -/
def blockMoves : List (ScopeMove Unit) :=
  [.add ⟨"Point", .struct "Point" 0, .none, some 1, ()⟩, .enter, .add (.plain "x" .f32 ())]

theorem run?_memberMoves_refines :
    ∃ t u s, ScopeTable.empty.run? memberMoves = some t ∧ t.run? (.leave :: blockMoves) = some u ∧
      FrameStack.start.run? (memberMoves ++ .leave :: blockMoves) = some s ∧
      t.current < t.size ∧ u.current ≠ t.current ∧
      u.findIn? t.current "x" = t.findIn? t.current "x" ∧
      (t.findIn? t.current "x").map (·.ty) = some .i32 ∧
      u.find? "x" = s.find? "x" ∧ (s.find? "x").map (·.ty) = some .f32 := by
  have hmembers := (run?_empty_refines memberMoves).2 _ rfl
  have hclosed := hmembers.2.2 blockMoves _ rfl
  have hblock := (run?_empty_refines (memberMoves ++ .leave :: blockMoves)).1
  refine ⟨_, _, _, rfl, rfl, rfl, hmembers.2.1, hclosed.1, hclosed.2 "x", rfl, ?_, rfl⟩
  cases hblock with
  | some hanswers => exact hanswers.find? "x"

end ScopeTable

end Frontend
