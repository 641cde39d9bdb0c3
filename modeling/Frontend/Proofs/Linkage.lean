import Frontend.Proofs.Evaluation
import Frontend.Proofs.Plain
import Frontend.Proofs.Sites

/-!
Which functions the names of a program refer to, and what is to become of them. A name stands for
the nearest function declared under it, so every reference is to a function of the program or of the
prelude. In the module each function goes by a name of its own.
-/
namespace Frontend

open List (Forall₂)

/-- What is known at a place in a program: the names in sight, which of them are functions, and the
names that functions go by so far. -/
structure Vantage where
  sight : Sight
  outlook : Outlook
  links : List String

namespace Vantage

def start : Vantage := ⟨.start, .start, prelude.map (·.name)⟩

/-- After a statement. -/
def after (w : Vantage) (s : Stmt) : Vantage :=
  ⟨s.declares ++ w.sight, w.outlook.after w.links s, s.declared w.links⟩

/-- In the body of a function. -/
def inside (w : Vantage) (sig : Signature) : Vantage :=
  ⟨sig.inside w.sight,
    Outlook.inside ((sig.name.name, some (sig.routine w.links)) :: w.outlook) sig.params,
    w.links ++ [sig.link w.links]⟩

/-- After a block, whose names are gone. -/
def past (w : Vantage) (body : List Stmt) : Vantage := { w with links := declaredIn w.links body }

end Vantage

mutual

/-- The functions that an expression refers to by name, in the order of evaluation. A callee that is
named is referred to once its arguments are evaluated. -/
def Expr.targets (o : Outlook) : Expr → List Routine
  | .literal _ _ _ => []
  | .ident id => (o.routine? (.ident id)).toList
  | .paren e _ | .unary _ e _ | .cast e _ _ | .member e _ _ _ => e.targets o
  | .binary _ lhs rhs _ => lhs.targets o ++ rhs.targets o
  | .call callee args _ =>
    match o.routine? callee with
    | some f => Expr.allTargets o args ++ [f]
    | none => callee.targets o ++ Expr.allTargets o args

def Expr.allTargets (o : Outlook) : List Expr → List Routine
  | [] => []
  | e :: es => e.targets o ++ Expr.allTargets o es

end

mutual

/-- The references of a statement that are in the function around it. -/
def Stmt.targets (w : Vantage) : Stmt → List Routine
  | .varDef _ _ e _ | .return_ e _ => e.elim [] (·.targets w.outlook)
  | .varSet _ e _ | .expr e _ => e.targets w.outlook
  | .memberSet target e _ => target.targets w.outlook ++ e.targets w.outlook
  | .for_ cond body _ => cond.targets w.outlook ++ Stmt.allTargets w body
  | .if_ cond body otherwise _ =>
    cond.targets w.outlook ++ (Stmt.allTargets w body ++ otherwise.targets (w.past body))
  | .block body _ => Stmt.allTargets w body
  | .structDef .. | .fnDef .. | .fnDecl .. | .break_ _ => []

def Alternative.targets (w : Vantage) : Alternative → List Routine
  | .none => []
  | .else_ body => Stmt.allTargets w body
  | .elif cond body otherwise =>
    cond.targets w.outlook ++ (Stmt.allTargets w body ++ otherwise.targets (w.past body))

def Stmt.allTargets (w : Vantage) : List Stmt → List Routine
  | [] => []
  | s :: ss => s.targets w ++ Stmt.allTargets (w.after s) ss

end

/-- A function that is declared with a body or without one, and where. -/
structure Declaration where
  sig : Signature
  body : Option (List Stmt)
  vantage : Vantage

namespace Declaration

/-- The name that the function goes by in the module. -/
def link (d : Declaration) : String := d.sig.link d.vantage.links

/-- The function as its callers see it. -/
def routine (d : Declaration) : Routine := d.sig.routine d.vantage.links

/-- The functions that the body refers to. -/
def targets (d : Declaration) : List Routine :=
  d.body.elim [] (Stmt.allTargets (d.vantage.inside d.sig))

end Declaration

mutual

/-- The functions that a statement declares, at whatever depth, in the order in which they end. -/
def Stmt.declarations (w : Vantage) : Stmt → List Declaration
  | .fnDef sig body _ => Stmt.allDeclarations (w.inside sig) body ++ [⟨sig, some body, w⟩]
  | .fnDecl sig _ => [⟨sig, none, w⟩]
  | .for_ _ body _ | .block body _ => Stmt.allDeclarations w body
  | .if_ _ body otherwise _ =>
    Stmt.allDeclarations w body ++ otherwise.declarations (w.past body)
  | _ => []

def Alternative.declarations (w : Vantage) : Alternative → List Declaration
  | .none => []
  | .else_ body => Stmt.allDeclarations w body
  | .elif _ body otherwise => Stmt.allDeclarations w body ++ otherwise.declarations (w.past body)

def Stmt.allDeclarations (w : Vantage) : List Stmt → List Declaration
  | [] => []
  | s :: ss => s.declarations w ++ Stmt.allDeclarations (w.after s) ss

end

def Program.declarations (p : Program) : List Declaration := Stmt.allDeclarations .start p

namespace Ir

/-- The function that an operation names. -/
def Op.target? : Op → Option String
  | .call f _ | .funcRef f => some f
  | _ => none

/-- The functions that instructions name, in order. -/
def targets (code : List Instr) : List String := code.filterMap (·.op.target?)

@[simp] theorem targets_append (is js : List Instr) :
    targets (is ++ js) = targets is ++ targets js :=
  List.filterMap_append

def Func.targets (f : Func) : List String := Ir.targets f.instrs

end Ir

/-- The function is what becomes of the declaration: its types are those that are written, as they
are understood there, and the functions that it names are those that the body refers to. -/
structure Declaration.Becomes (d : Declaration) (f : Ir.Func) : Prop where
  name : f.name = d.link
  params : Forall₂ (fun p t => ∃ ty, p.ty.lowerIn? d.vantage.sight = some ty ∧
    t = if ty.isAggregate then .ptr ty else ty) d.sig.params (f.params.map Prod.snd)
  ret : d.sig.ret.lowerIn? d.vantage.sight = some f.ret
  isExternal : f.isExternal = d.body.isNone
  isVariadic : f.isVariadic = (d.body.isNone && d.sig.variadic)
  targets : f.targets = d.targets.map (·.link)

/-- The functions in sight. -/
def Outlook.routines (o : Outlook) : List Routine := o.filterMap (·.2)

theorem Outlook.mem_routines {o : Outlook} {e : Expr} {r : Routine} (h : o.routine? e = some r) :
    r ∈ o.routines := by
  cases e with
  | ident id =>
    rw [routine?, Option.join_eq_some_iff] at h
    rw [routines, List.mem_filterMap]
    induction o with
    | nil => simp at h
    | cons e o ih =>
      obtain ⟨name, r'⟩ := e
      cases hname : id.name == name with
      | true =>
        obtain rfl : r' = some r := by simpa [List.lookup_cons, hname] using h
        exact ⟨_, List.mem_cons_self, rfl⟩
      | false =>
        obtain ⟨e, he, hr⟩ := ih (by simpa [List.lookup_cons, hname] using h)
        exact ⟨e, List.mem_cons_of_mem _ he, hr⟩
  | _ => simp [routine?] at h

mutual

theorem Expr.targets_subset (o : Outlook) (e : Expr) : e.targets o ⊆ o.routines := by
  match e with
  | .literal v ty s => exact List.nil_subset _
  | .ident id =>
    intro r hr
    exact Outlook.mem_routines (Option.mem_toList.mp hr)
  | .paren e _ | .unary _ e _ | .cast e _ _ | .member e _ _ _ =>
    unfold Expr.targets
    exact targets_subset o e
  | .binary _ lhs rhs _ =>
    unfold Expr.targets
    exact List.append_subset.mpr ⟨targets_subset o lhs, targets_subset o rhs⟩
  | .call callee args _ =>
    have hargs := allTargets_subset o args
    unfold Expr.targets
    split
    · rename_i f hf
      exact List.append_subset.mpr ⟨hargs, by simpa using Outlook.mem_routines hf⟩
    · exact List.append_subset.mpr ⟨targets_subset o callee, hargs⟩

theorem Expr.allTargets_subset (o : Outlook) (es : List Expr) :
    Expr.allTargets o es ⊆ o.routines := by
  match es with
  | [] => exact List.nil_subset _
  | e :: es =>
    unfold Expr.allTargets
    exact List.append_subset.mpr ⟨targets_subset o e, allTargets_subset o es⟩

end

/-- The function is in sight at the place, or one of the declarations is of it. -/
def Vantage.Offers (w : Vantage) (ds : List Declaration) (r : Routine) : Prop :=
  r ∈ w.outlook.routines ∨ ∃ d ∈ ds, d.routine = r

/-- What is referred to, here or in what is declared, is offered. -/
def Vantage.Meets (w : Vantage) (ts : List Routine) (ds : List Declaration) : Prop :=
  (∀ r ∈ ts, w.Offers ds r) ∧ ∀ d ∈ ds, ∀ r ∈ d.targets, w.Offers ds r

section Offering

variable {w w' : Vantage} {ts ts' : List Routine} {ds ds' : List Declaration}

theorem Vantage.Offers.mono {r : Routine} (h : w.Offers ds r) (hds : ds ⊆ ds') : w.Offers ds' r :=
  h.imp_right fun ⟨d, hd, hr⟩ => ⟨d, hds hd, hr⟩

namespace Vantage.Meets

theorem ofSubset (h : ts ⊆ w.outlook.routines) : w.Meets ts [] := ⟨fun _ hr => .inl (h hr), by simp⟩

/-- What comes after may refer to what was declared. -/
theorem seq (h : w.Meets ts ds) (h' : w'.Meets ts' ds')
    (hw : ∀ r ∈ w'.outlook.routines, w.Offers ds r) : w.Meets (ts ++ ts') (ds ++ ds') := by
  have hleft : ∀ r, w.Offers ds r → w.Offers (ds ++ ds') r :=
    fun _ hr => hr.mono (List.subset_append_left _ _)
  have hright : ∀ r, w'.Offers ds' r → w.Offers (ds ++ ds') r := by
    rintro r (hr | ⟨d, hd, hr⟩)
    · exact hleft r (hw r hr)
    · exact .inr ⟨d, List.mem_append_right _ hd, hr⟩
  refine ⟨fun r hr => ?_, fun d hd r hr => ?_⟩
  · exact (List.mem_append.mp hr).elim (fun hr => hleft r (h.1 r hr)) fun hr => hright r (h'.1 r hr)
  · exact (List.mem_append.mp hd).elim (fun hd => hleft r (h.2 d hd r hr))
      fun hd => hright r (h'.2 d hd r hr)

end Vantage.Meets

/-- A function and its parameters come to be in sight in its body. -/
theorem Vantage.inside_routines (w : Vantage) (sig : Signature) :
    (w.inside sig).outlook.routines = sig.routine w.links :: w.outlook.routines := by
  have hparams : sig.params.reverse.filterMap
      ((fun e : String × Option Routine => e.2) ∘ fun p => (p.name.name, none)) = [] :=
    List.filterMap_eq_nil_iff.mpr fun _ _ => rfl
  rw [Outlook.routines, inside, Outlook.inside, List.filterMap_append, List.filterMap_map, hparams]
  rfl

/-- A statement brings into sight what it declares itself. -/
theorem Vantage.after_routines (w : Vantage) (s : Stmt) {r : Routine}
    (h : r ∈ (w.after s).outlook.routines) : w.Offers (s.declarations w) r := by
  cases s with
  | fnDef sig body s =>
    rcases List.mem_cons.mp h with rfl | h
    · exact .inr ⟨⟨sig, some body, w⟩, by simp [Stmt.declarations], rfl⟩
    · exact .inl h
  | fnDecl sig s =>
    rcases List.mem_cons.mp h with rfl | h
    · exact .inr ⟨⟨sig, none, w⟩, by simp [Stmt.declarations], rfl⟩
    · exact .inl h
  | _ => exact .inl h

mutual

theorem Stmt.meets (w : Vantage) (s : Stmt) : w.Meets (s.targets w) (s.declarations w) := by
  match s with
  | .varDef _ _ none _ | .return_ none _ => exact .ofSubset (List.nil_subset _)
  | .varDef _ _ (some e) _ | .return_ (some e) _ => exact .ofSubset (e.targets_subset _)
  | .varSet _ e _ | .expr e _ => exact .ofSubset (e.targets_subset _)
  | .memberSet target e _ =>
    exact .ofSubset (List.append_subset.mpr ⟨target.targets_subset _, e.targets_subset _⟩)
  | .structDef .. | .break_ _ => exact .ofSubset (List.nil_subset _)
  | .fnDecl sig _ => exact ⟨nofun, by simp [Stmt.declarations, Declaration.targets]⟩
  | .for_ cond body _ =>
    unfold Stmt.targets Stmt.declarations
    have hcond : w.Meets (cond.targets w.outlook) [] := .ofSubset (cond.targets_subset _)
    exact hcond.seq (Stmt.allMeet w body) fun _ hr => .inl hr
  | .block body _ =>
    unfold Stmt.targets Stmt.declarations
    exact Stmt.allMeet w body
  | .if_ cond body otherwise _ =>
    unfold Stmt.targets Stmt.declarations
    have hcond : w.Meets (cond.targets w.outlook) [] := .ofSubset (cond.targets_subset _)
    have harms := (Stmt.allMeet w body).seq (otherwise.meets (w.past body)) fun _ hr => .inl hr
    exact hcond.seq harms fun _ hr => .inl hr
  | .fnDef sig body _ =>
    obtain ⟨hown, hinner⟩ := Stmt.allMeet (w.inside sig) body
    have hself : ∀ r, (w.inside sig).Offers (Stmt.allDeclarations (w.inside sig) body) r →
        w.Offers (Stmt.allDeclarations (w.inside sig) body ++ [⟨sig, some body, w⟩]) r := by
      rintro r (hr | ⟨d, hd, hr⟩)
      · rw [w.inside_routines sig] at hr
        rcases List.mem_cons.mp hr with rfl | hr
        · exact .inr ⟨_, List.mem_append_right _ List.mem_cons_self, rfl⟩
        · exact .inl hr
      · exact .inr ⟨d, List.mem_append_left _ hd, hr⟩
    unfold Stmt.targets Stmt.declarations
    refine ⟨nofun, fun d hd r hr => hself r ?_⟩
    rcases List.mem_append.mp hd with hd | hd
    · exact hinner d hd r hr
    · rw [List.mem_singleton.mp hd] at hr
      exact hown r hr

theorem Alternative.meets (w : Vantage) (a : Alternative) :
    w.Meets (a.targets w) (a.declarations w) := by
  match a with
  | .none => exact .ofSubset (List.nil_subset _)
  | .else_ body =>
    unfold Alternative.targets Alternative.declarations
    exact Stmt.allMeet w body
  | .elif cond body otherwise =>
    unfold Alternative.targets Alternative.declarations
    have hcond : w.Meets (cond.targets w.outlook) [] := .ofSubset (cond.targets_subset _)
    have harms := (Stmt.allMeet w body).seq (otherwise.meets (w.past body)) fun _ hr => .inl hr
    exact hcond.seq harms fun _ hr => .inl hr

theorem Stmt.allMeet (w : Vantage) (ss : List Stmt) :
    w.Meets (Stmt.allTargets w ss) (Stmt.allDeclarations w ss) := by
  match ss with
  | [] => exact .ofSubset (List.nil_subset _)
  | s :: ss =>
    unfold Stmt.allTargets Stmt.allDeclarations
    exact (Stmt.meets w s).seq (Stmt.allMeet (w.after s) ss) fun r hr => w.after_routines s hr

end

end Offering

end Frontend
