import Frontend.Proofs.Declarations
import Frontend.Proofs.Pipeline

/-!
Redeclarations. The scopes of a program are told by its tree: the top level with the prelude, every
body, the parameters of a function together with its body, and the members of a struct. A definition
clashes if its name is taken in its own scope, by a definition before it or by the marker of a
struct before it. A program that is accepted has no clash, and what is reported as a redeclaration
is one, so that nothing in an outer scope ever stands in the way of a definition.
-/
namespace Frontend

/-- A name that is defined in a scope. A struct brings a second one, under which the scope of its
members is entered. -/
structure Naming where
  ident : Ident
  marker : Option String := none
  deriving DecidableEq, Repr

/-- The names that are taken once this is defined. -/
def Naming.takes (d : Naming) : List String := d.ident.name :: d.marker.toList

def Param.naming (p : Param) : Naming := { ident := p.name }

/-- What a statement defines in the scope where it stands. -/
def Stmt.naming? : Stmt → Option Naming
  | .varDef name _ _ _ => some { ident := name }
  | .structDef name _ _ => some { ident := name, marker := membersMarker name.name }
  | .fnDef sig _ _ | .fnDecl sig _ => some { ident := sig.name }
  | _ => none

def Stmt.namings (ss : List Stmt) : List Naming := ss.filterMap Stmt.naming?

/-- A scope of the source. -/
structure SourceScope where
  /-- Names that are there before anything is defined. -/
  given : List String := []
  /-- In the order of the source. -/
  namings : List Naming
  deriving DecidableEq, Repr

mutual

/-- The scopes inside a statement. -/
def Stmt.scopes : Stmt → List SourceScope
  | .structDef _ members _ => [{ namings := members.map Param.naming }]
  | .fnDecl sig _ => [{ namings := sig.params.map Param.naming }]
  | .fnDef sig body _ =>
    { namings := sig.params.map Param.naming ++ Stmt.namings body } :: Stmt.allScopes body
  | .for_ _ body _ | .block body _ => { namings := Stmt.namings body } :: Stmt.allScopes body
  | .if_ _ body otherwise _ =>
    { namings := Stmt.namings body } :: Stmt.allScopes body ++ otherwise.scopes
  | .varDef .. | .varSet .. | .memberSet .. | .expr .. | .return_ .. | .break_ .. => []

def Alternative.scopes : Alternative → List SourceScope
  | .none => []
  | .else_ body => { namings := Stmt.namings body } :: Stmt.allScopes body
  | .elif _ body otherwise =>
    { namings := Stmt.namings body } :: Stmt.allScopes body ++ otherwise.scopes

def Stmt.allScopes : List Stmt → List SourceScope
  | [] => []
  | s :: ss => s.scopes ++ Stmt.allScopes ss

end

/-- All scopes of a program, the top level first. -/
def Program.scopes (p : Program) : List SourceScope :=
  { given := prelude.map (·.name), namings := Stmt.namings p } :: Stmt.allScopes p

/-- With the names `taken` to begin with, `d` is defined where its name is taken. -/
def Clashes (taken : List String) : List Naming → Naming → Prop
  | [], _ => False
  | e :: ds, d => d = e ∧ d.ident.name ∈ taken ∨ Clashes (e.takes ++ taken) ds d

/-- The names that are taken after these definitions, newest first. -/
def takenAfter (taken : List String) (ds : List Naming) : List String :=
  ds.foldl (fun taken d => d.takes ++ taken) taken

variable {d : Naming} {sc : SourceScope}

theorem clashes_append {taken : List String} {ds es : List Naming} :
    Clashes taken (ds ++ es) d ↔ Clashes taken ds d ∨ Clashes (takenAfter taken ds) es d := by
  induction ds generalizing taken with
  | nil => simp [Clashes, takenAfter]
  | cons e ds ih => simp only [List.cons_append, Clashes, ih, or_assoc]; rfl

theorem clashes_iff {taken : List String} {ds : List Naming} :
    Clashes taken ds d ↔ ∃ before after, ds = before ++ d :: after ∧
      (d.ident.name ∈ taken ∨ ∃ e ∈ before, d.ident.name ∈ e.takes) := by
  induction ds generalizing taken with
  | nil => simp [Clashes]
  | cons e ds ih =>
    rw [Clashes, ih]
    constructor
    · rintro (⟨rfl, htaken⟩ | ⟨before, after, rfl, htaken⟩)
      · exact ⟨[], ds, rfl, .inl htaken⟩
      · refine ⟨e :: before, after, rfl, ?_⟩
        rcases htaken with htaken | ⟨e', he', htakes⟩
        · rcases List.mem_append.mp htaken with htakes | htaken
          · exact .inr ⟨e, List.mem_cons_self, htakes⟩
          · exact .inl htaken
        · exact .inr ⟨e', List.mem_cons_of_mem e he', htakes⟩
    · rintro ⟨before, after, heq, htaken⟩
      cases before with
      | nil =>
        obtain ⟨rfl, -⟩ := List.cons.inj heq
        exact .inl ⟨rfl, by simpa using htaken⟩
      | cons e' before =>
        obtain ⟨rfl, rfl⟩ := List.cons.inj heq
        refine .inr ⟨before, after, rfl, ?_⟩
        rcases htaken with htaken | ⟨e', he', htakes⟩
        · exact .inl (List.mem_append_right _ htaken)
        · rcases List.mem_cons.mp he' with rfl | he'
          · exact .inl (List.mem_append_left _ htakes)
          · exact .inr ⟨e', he', htakes⟩

namespace SourceScope

/-- The names that are defined, as often as they are. -/
def names (sc : SourceScope) : List String := sc.namings.map (·.ident.name)

/-- No name is there twice. -/
def Distinct (sc : SourceScope) : Prop := sc.names.Nodup ∧ ∀ name ∈ sc.names, name ∉ sc.given

instance (sc : SourceScope) : Decidable sc.Distinct := inferInstanceAs (Decidable (_ ∧ _))

/-- `d` is defined in the scope after its name was given or defined. -/
def Repeats (sc : SourceScope) (d : Naming) : Prop :=
  ∃ before after, sc.namings = before ++ d :: after ∧
    (d.ident.name ∈ sc.given ∨ ∃ e ∈ before, e.ident.name = d.ident.name)

/-- `d` is defined in the scope after a struct whose marker has its name. -/
def MeetsMarker (sc : SourceScope) (d : Naming) : Prop :=
  ∃ before after, sc.namings = before ++ d :: after ∧ ∃ e ∈ before, e.marker = some d.ident.name

theorem clashes_iff_repeats : Clashes sc.given sc.namings d ↔ sc.Repeats d ∨ sc.MeetsMarker d := by
  rw [clashes_iff]
  constructor
  · rintro ⟨before, after, hsplit, htaken | ⟨e, he, htakes⟩⟩
    · exact .inl ⟨before, after, hsplit, .inl htaken⟩
    · rcases List.mem_cons.mp htakes with hname | hmarker
      · exact .inl ⟨before, after, hsplit, .inr ⟨e, he, hname.symm⟩⟩
      · exact .inr ⟨before, after, hsplit, e, he, Option.mem_toList.mp hmarker⟩
  · rintro (⟨before, after, hsplit, hgiven | ⟨e, he, hname⟩⟩ | ⟨before, after, hsplit,
      e, he, hmarker⟩)
    · exact ⟨before, after, hsplit, .inl hgiven⟩
    · exact ⟨before, after, hsplit, .inr ⟨e, he, by simp [Naming.takes, hname]⟩⟩
    · exact ⟨before, after, hsplit, .inr ⟨e, he, by simp [Naming.takes, hmarker]⟩⟩

theorem distinct_iff : sc.Distinct ↔ ∀ d, ¬ sc.Repeats d := by
  constructor
  · rintro ⟨hnodup, hfresh⟩ d ⟨before, after, hsplit, hrepeats⟩
    rw [names, hsplit] at hnodup hfresh
    rcases hrepeats with hgiven | ⟨e, he, hname⟩
    · exact hfresh d.ident.name (by simp) hgiven
    · rw [List.map_append, List.nodup_append] at hnodup
      exact hnodup.2.2 e.ident.name (List.mem_map_of_mem he) d.ident.name (by simp) hname
  · intro h
    constructor
    · rw [names, List.Nodup, List.pairwise_map, List.pairwise_iff_getElem]
      intro i j hi hj hij heq
      refine h sc.namings[j] ⟨sc.namings.take j, sc.namings.drop (j + 1), ?_,
        .inr ⟨sc.namings[i], List.mem_take_iff_getElem.mpr ⟨i, by omega, rfl⟩, heq⟩⟩
      simp
    · intro name hname hgiven
      obtain ⟨d, hd, rfl⟩ := List.mem_map.mp hname
      obtain ⟨before, after, hsplit⟩ := List.append_of_mem hd
      exact h d ⟨before, after, hsplit, .inl hgiven⟩

end SourceScope

namespace ScopeTable

/-- The names in the current scope, newest first. -/
def localNames (t : ScopeTable V) : List String := (t.bindingsIn t.current).map (·.name)

theorem isSome_findLocal? (t : ScopeTable V) (name : String) :
    (t.findLocal? name).isSome ↔ name ∈ t.localNames := by
  simp [findLocal?, findIn?_eq, localNames]

@[simp] theorem localNames_enter (t : ScopeTable V) : t.enter.localNames = [] := by
  rw [localNames, bindingsIn, current_enter, Extends.enter_getElem?_size]
  rfl

theorem Extends.localNames {t t' : ScopeTable V} {new : List (Binding V)} (h : Extends t t' new)
    (hin : t.current < t.size) : t'.localNames = new.map (·.name) ++ t.localNames := by
  obtain ⟨s, hs⟩ : ∃ s, t.scopes[t.current]? = some s := ⟨_, List.getElem?_eq_getElem hin⟩
  simp [ScopeTable.localNames, bindingsIn, h.current, h.here s hs, hs]

theorem Gains.localNames [Sighted V] {t t' : ScopeTable V} {new : Sight} (h : t.Gains t' new)
    (hin : t.current < t.size) : t'.localNames = new.map (·.name) ++ t.localNames := by
  obtain ⟨bs, hext, hbs⟩ := h
  rw [hext.localNames hin]
  clear hext
  congr 1
  induction hbs with
  | nil => rfl
  | cons hxb _ ih => rw [List.map_cons, List.map_cons, hxb.name, ih]

end ScopeTable

/-- A statement declares what it takes. -/
theorem Stmt.names_declares (s : Stmt) :
    s.declares.map (·.name) = (s.naming?.map Naming.takes).getD [] := by
  cases s <;> rfl

namespace Check

/-- What comes of `act` tells of the clashes: if it succeeds there are none, and if it ends with a
redeclaration that is one of them. -/
def Tells (act : CheckM α) (st : State) (clash : Naming → Prop) : Prop :=
  match (outcome act st).1 with
  | .ok _ => ∀ d, ¬ clash d
  | .error e => ∀ n, e.value = .redeclared n → ∃ d, clash d ∧ d.ident = ⟨n, e.span⟩

namespace Tells

variable {st : State} {clash clash' : Naming → Prop}

variable {act x : CheckM α} {f : α → CheckM β} {d : Naming}

theorem congr (h : Tells act st clash) (hclash : ∀ d, clash d ↔ clash' d) :
    Tells act st clash' := by
  obtain rfl : clash = clash' := funext fun d => propext (hclash d)
  exact h

/-- What the first step does not tell, the next one does from where it is reached. -/
theorem bind (hx : Tells x st clash) (hf : ∀ a st₁, Runs x st a st₁ → Tells (f a) st₁ clash') :
    Tells (x >>= f) st fun d => clash d ∨ clash' d := by
  unfold Tells at *
  rw [outcome_bind]
  cases hout : outcome x st with
  | mk r st₁ =>
    rw [hout] at hx
    cases r with
    | error e =>
      intro n hn
      obtain ⟨d, hd, hident⟩ := hx n hn
      exact ⟨d, .inl hd, hident⟩
    | ok a =>
      have hnext := hf a st₁ hout
      dsimp only
      split
      · rename_i heq
        rw [heq] at hnext
        exact fun d hd => hd.elim (hx d) (hnext d)
      · rename_i e heq
        rw [heq] at hnext
        intro n hn
        obtain ⟨d, hd, hident⟩ := hnext n hn
        exact ⟨d, .inr hd, hident⟩

/-- Closing a scope says nothing more. -/
theorem within {s : Span} {enter : ScopeTable Unit → ScopeTable Unit} {act : CheckM α}
    (h : Tells act { st with names := enter st.names } clash) :
    Tells (within s enter act) st clash := by
  unfold Tells at *
  rw [outcome_within]
  generalize outcome act { st with names := enter st.names } = r at h
  obtain ⟨r, st₁⟩ := r
  dsimp only
  cases st₁.names.leave? with
  | some outer => exact h
  | none => simp

theorem get_bind {f : State → CheckM β} (h : Tells (f st) st clash) : Tells (get >>= f) st clash :=
  h

theorem returning {ty : Ty} {act : CheckM α} (h : Tells act { st with returns := some ty } clash) :
    Tells (returning ty act) st clash := by
  unfold Tells at *
  rw [outcome_returning]
  exact h

end Tells

/-- A step that reports no redeclaration, wherever it is taken. -/
def Silent (act : CheckM α) : Prop := ∀ st, Tells act st fun _ => False

/-- The same of a step that has no state. -/
def SilentResult (r : Except (Located CheckError) α) : Prop :=
  ∀ e, r = .error e → ∀ n, e.value ≠ .redeclared n

theorem typeIn_silent (t : ScopeTable Unit) (e : Expr) : SilentResult (typeIn t e) := by
  intro err herr n
  rw [typeIn] at herr
  cases hinfer : e.infer t with
  | ok ty => simp [hinfer, Except.mapError] at herr
  | error cause =>
    rw [hinfer] at herr
    obtain rfl := Except.error.inj herr
    cases cause <;> simp [CheckError.ofInfer]

theorem expr_silent (t : ScopeTable Unit) (e : Expr) : SilentResult (expr t e) := by
  intro err h n
  obtain ⟨e', he⟩ | ⟨l, r, he⟩ := expr_fails t e err h
  · exact typeIn_silent t e' err he n
  · simp [he]

namespace Silent

theorem pure (a : α) : Silent (pure a) := fun _ _ => id

theorem bind (hx : Silent x) (hf : ∀ a, Silent (f a)) : Silent (x >>= f) :=
  fun st => ((hx st).bind fun a st₁ _ => hf a st₁).congr fun _ => or_self_iff

theorem get_bind {f : State → CheckM β} (hf : ∀ st, Silent (f st)) : Silent (get >>= f) :=
  fun st => hf st st

theorem ofExcept {r : Except (Located CheckError) α} (h : SilentResult r) :
    Silent (MonadExcept.ofExcept r) := by
  intro st
  unfold Tells
  rw [outcome_ofExcept]
  cases r with
  | ok a => exact fun _ => id
  | error e => exact fun n hn => absurd hn (h e rfl n)

theorem fail {s : Span} {e : CheckError} (h : ∀ n, e ≠ .redeclared n) :
    Silent (fail s e : CheckM α) :=
  fun _ n hn => absurd hn (h n)

theorem modify (f : State → State) : Silent (modify f : CheckM Unit) := fun _ _ => id

end Silent

theorem checkExpr_silent (e : Expr) : Silent (checkExpr e) :=
  .get_bind fun st => .ofExcept (expr_silent st.names e)

theorem typeOf_silent (e : Expr) : Silent (typeOf e) :=
  .get_bind fun st => .ofExcept (typeIn_silent st.names e)

theorem knownType_silent (ty : Ty) (s : Span) : Silent (knownType ty s) := by
  unfold knownType
  split
  · refine .get_bind fun st => ?_
    split
    · exact .pure ()
    · exact .fail (by simp)
  · exact .pure ()

theorem coerce_silent (ty : Ty) (e : Expr) {mismatch : Ty → Ty → CheckError}
    (h : ∀ s t n, mismatch s t ≠ .redeclared n) : Silent (coerce ty e mismatch) := by
  refine .bind (typeOf_silent e) fun actual => ?_
  dsimp only
  split
  · exact .pure e
  · split
    · split
      · exact .bind (.modify _) fun _ => .pure _
      · exact .pure _
    · exact .fail (h ty actual)

theorem initializer_silent (name : Ident) (ty : Ty) (init : Option Expr) :
    Silent (initializer name ty init) := by
  cases init with
  | none => exact .pure none
  | some e =>
    have hcoerce : Silent (do return some (← coerce ty e .invalidType)) :=
      .bind (coerce_silent ty e (by simp)) fun _ => .pure _
    refine .bind (checkExpr_silent e) fun _ => .bind (typeOf_silent e) fun actual => ?_
    dsimp only
    split
    · exact .bind (.fail (by simp)) fun _ => hcoerce
    · exact hcoerce

theorem returned_silent (s : Span) (value : Option Expr) : Silent (returned s value) := by
  refine .get_bind fun st => ?_
  cases st.returns with
  | none => exact .fail (by simp)
  | some expected =>
    cases value with
    | none =>
      dsimp only
      split
      · exact .pure none
      · exact .fail (by simp)
    | some e =>
      have hcoerce : Silent (do return some (← coerce expected e .invalidReturn)) :=
        .bind (coerce_silent expected e (by simp)) fun _ => .pure _
      refine .bind (checkExpr_silent e) fun _ => ?_
      dsimp only
      split
      · exact .bind (typeOf_silent e) fun _ => .bind (.fail (by simp)) fun _ => hcoerce
      · exact hcoerce

section Definitions

variable {st : State} {clash : Naming → Prop}

theorem Tells.andSilent (hx : Tells x st clash) (hf : ∀ a, Silent (f a)) :
    Tells (x >>= f) st clash :=
  (hx.bind fun a st₁ _ => hf a st₁).congr fun _ => by rw [or_false]

theorem Silent.andTells (hx : Silent x) (hf : ∀ a st₁, Runs x st a st₁ → Tells (f a) st₁ clash) :
    Tells (x >>= f) st clash :=
  ((hx st).bind hf).congr fun _ => by rw [false_or]

/-- What is to be defined clashes if its name is in the current scope. -/
def ClashesHere (st : State) (new : Option Naming) (d : Naming) : Prop :=
  new = some d ∧ d.ident.name ∈ st.names.localNames

theorem undeclared_tells (d : Naming) (st : State) :
    Tells (undeclared d.ident) st (ClashesHere st (some d)) := by
  unfold Tells undeclared
  rw [outcome_get_bind]
  by_cases hd : d.ident.name ∈ st.names.localNames
  · rw [if_pos ((ScopeTable.isSome_findLocal? _ _).mpr hd)]
    rintro n ⟨⟩
    exact ⟨d, ⟨rfl, hd⟩, rfl⟩
  · rw [if_neg fun h => hd ((ScopeTable.isSome_findLocal? _ _).mp h)]
    rintro _ ⟨⟨⟩, hd'⟩
    exact hd hd'

theorem params_tell (ps : List Param) (hin : st.names.current < st.names.size) :
    Tells (ps.forM declareParam) st (Clashes st.names.localNames (ps.map Param.naming)) := by
  induction ps generalizing st with
  | nil => exact fun _ => id
  | cons p ps ih =>
    have hfirst : Tells (declareParam p) st (ClashesHere st (some p.naming)) :=
      (undeclared_tells p.naming st).andSilent fun _ =>
        .bind (knownType_silent _ _) fun _ => .modify _
    have hext := ScopeTable.Extends.add st.names (paramBinding p)
    have hrest : Tells (ps.forM declareParam)
        { st with names := st.names.add (paramBinding p) } _ :=
      ih (hext.current_lt hin)
    rw [hext.localNames hin] at hrest
    rw [List.forM_eq_forM, List.forM_cons]
    refine (hfirst.bind fun _ st₁ hp => (runs_declareParam.mp hp).2 ▸ hrest).congr fun d => ?_
    simp [Clashes, ClashesHere, eq_comm, Naming.takes, Param.naming, paramBinding, Binding.plain]

theorem signature_tells (sig : Signature) (isExternal : Bool) (st : State) :
    Tells (signature sig isExternal) st (ClashesHere st (some { ident := sig.name })) :=
  (undeclared_tells { ident := sig.name } st).andSilent fun _ =>
    .bind (knownType_silent _ _) fun _ => .modify _

end Definitions

/-- A clash in one of the scopes. -/
def ClashesIn (scopes : List SourceScope) (d : Naming) : Prop :=
  ∃ sc ∈ scopes, Clashes sc.given sc.namings d

theorem clashesIn_cons {scopes : List SourceScope} :
    ClashesIn (sc :: scopes) d ↔ Clashes sc.given sc.namings d ∨ ClashesIn scopes d := by
  simp only [ClashesIn, List.mem_cons, exists_eq_or_imp]

theorem clashesIn_append {scopes scopes' : List SourceScope} :
    ClashesIn (scopes ++ scopes') d ↔ ClashesIn scopes d ∨ ClashesIn scopes' d := by
  simp only [ClashesIn, List.mem_append, or_and_right, exists_or]

section Statements

variable {st : State} {scopes : List SourceScope} {s : Span} {body : List Stmt}

/-- A statement that defines nothing clashes only inside. -/
theorem Tells.inside (h : Tells act st (ClashesIn scopes)) :
    Tells act st fun d => ClashesHere st none d ∨ ClashesIn scopes d :=
  h.congr fun _ => by simp [ClashesHere]

theorem Silent.inside (h : Silent act) : Tells act st (ClashesIn []) :=
  (h st).congr fun _ => by simp [ClashesIn]

/-- The clashes of statements are those of the first, and those of the rest with its name taken. -/
theorem clashes_namings_cons {s : Stmt} {ss : List Stmt} :
    Clashes st.names.localNames (Stmt.namings (s :: ss)) d ↔ ClashesHere st s.naming? d ∨
      Clashes (s.declares.map (·.name) ++ st.names.localNames) (Stmt.namings ss) d := by
  rw [Stmt.names_declares, Stmt.namings, List.filterMap_cons]
  cases s.naming? with
  | none => simp [Stmt.namings, ClashesHere]
  | some d' => simp [Stmt.namings, Clashes, ClashesHere, eq_comm]

theorem takenAfter_params (ps : List Param) (taken : List String) :
    takenAfter taken (ps.map Param.naming) = (ps.map Param.sighting).reverse.map (·.name) ++
      taken := by
  induction ps generalizing taken with
  | nil => rfl
  | cons p ps ih =>
    have hrest := ih (p.naming.takes ++ taken)
    simpa [takenAfter, Naming.takes, Param.naming, Param.sighting] using hrest

/-- Parameters in a scope of their own. -/
theorem scopedParams_tell (ps : List Param) {enter : ScopeTable Unit → ScopeTable Unit}
    (t : ScopeTable Unit) (henter : enter st.names = t.enter) :
    Tells (within s enter (ps.forM declareParam)) st
      (ClashesIn [{ namings := ps.map Param.naming }]) := by
  have hparams : Tells (ps.forM declareParam) { st with names := t.enter } _ :=
    params_tell ps (by simp)
  rw [ScopeTable.localNames_enter, ← henter] at hparams
  exact hparams.within.congr fun d => by simp [ClashesIn]

/-- What is told inside a body is told of its scope. -/
theorem body_tells
    (h : Tells (stmts body) { st with names := st.names.enter } fun d =>
      Clashes st.names.enter.localNames (Stmt.namings body) d ∨ ClashesIn (Stmt.allScopes body) d) :
    Tells (inScope s (stmts body)) st
      (ClashesIn ({ namings := Stmt.namings body } :: Stmt.allScopes body)) := by
  rw [ScopeTable.localNames_enter] at h
  exact h.within.congr fun _ => by rw [clashesIn_cons]

/-- The parameters of a function share the scope of its body. -/
theorem function_tells {sig : Signature}
    (h : ∀ st₁ : State, st₁.names.current < st₁.names.size → Tells (stmts body) st₁ fun d =>
      Clashes st₁.names.localNames (Stmt.namings body) d ∨ ClashesIn (Stmt.allScopes body) d) :
    Tells (returning sig.ret (inScope s do sig.params.forM declareParam; stmts body)) st
      (ClashesIn ({ namings := sig.params.map Param.naming ++ Stmt.namings body } ::
        Stmt.allScopes body)) := by
  refine .returning (.within ?_)
  have hparams : Tells (sig.params.forM declareParam)
      { st with names := st.names.enter, returns := some sig.ret } _ :=
    params_tell sig.params (by simp)
  have hgains := gains_params st.names.enter sig.params
  have hbody := h { st with names := st.names.enter.addAll _, returns := some sig.ret }
    (hgains.inside (by simp))
  rw [hgains.localNames (by simp), ← takenAfter_params] at hbody
  refine (hparams.bind fun _ st₂ hps => (runs_declareParams.mp hps).2 ▸ hbody).congr fun d => ?_
  rw [clashesIn_cons, clashes_append, ScopeTable.localNames_enter, or_assoc]

/-- A body and what is tried after it. -/
theorem branch_tells {f : List Stmt → CheckM β} {cond : Expr}
    (hin : st.names.current < st.names.size) (hbody : Tells (inScope s (stmts body)) st
      (ClashesIn ({ namings := Stmt.namings body } :: Stmt.allScopes body)))
    (hnext : ∀ (b : List Stmt) (st₁ : State), st₁.names.current < st₁.names.size →
      Tells (f b) st₁ (ClashesIn scopes)) :
    Tells (do checkExpr cond; let b ← inScope s (stmts body); f b) st
      (ClashesIn ({ namings := Stmt.namings body } :: Stmt.allScopes body ++ scopes)) := by
  refine Silent.andTells (checkExpr_silent cond) fun _ st₁ hcond => ?_
  obtain ⟨-, rfl⟩ := runs_checkExpr.mp hcond
  refine (hbody.bind fun b st₂ hb => ?_).congr fun d => clashesIn_append.symm
  have hpasses := Passes.of_inScope hb (stmts_passes body)
  exact hnext b st₂ ((hpasses.gains hin).inside hin)

end Statements

mutual

theorem stmt_tells (s : Stmt) {st : State} (hin : st.names.current < st.names.size) :
    Tells (stmt s) st fun d => ClashesHere st s.naming? d ∨ ClashesIn s.scopes d := by
  match s with
  | .varDef name ty init s =>
    unfold stmt Stmt.scopes
    exact (undeclared_tells { ident := name } st).bind fun _ st₁ _ => Silent.inside <|
      .bind (knownType_silent _ _) fun _ => .bind (initializer_silent _ _ _) fun _ =>
        .bind (.modify _) fun _ => .pure _
  | .structDef name members s =>
    unfold stmt Stmt.scopes
    exact (undeclared_tells { ident := name, marker := membersMarker name.name } st).bind
      fun _ st₁ _ => .get_bind <|
        (scopedParams_tell members (st₁.names.add _) rfl).andSilent fun _ =>
        .bind (.modify _) fun _ => .pure _
  | .fnDef sig body s =>
    unfold stmt Stmt.scopes
    exact (signature_tells sig false st).bind fun _ st₁ _ =>
      (function_tells fun _ => stmts_tell body).andSilent fun _ => .pure _
  | .fnDecl sig s =>
    unfold stmt Stmt.scopes
    exact (signature_tells sig true st).bind fun _ st₁ _ =>
      (scopedParams_tell sig.params st₁.names rfl).andSilent fun _ => .pure _
  | .varSet target value s =>
    unfold stmt Stmt.scopes
    refine (Silent.inside (.get_bind fun st => ?_)).inside
    cases st.names.find? target.name with
    | none => exact .fail (by simp)
    | some b =>
      exact .bind (checkExpr_silent value) fun _ =>
        .bind (coerce_silent b.ty value (by simp)) fun _ => .pure _
  | .memberSet target value s =>
    unfold stmt Stmt.scopes
    exact (Silent.inside <| .bind (checkExpr_silent target) fun _ =>
      .bind (typeOf_silent target) fun _ => .bind (checkExpr_silent value) fun _ =>
        .bind (coerce_silent _ value (by simp)) fun _ => .pure _).inside
  | .expr e s =>
    unfold stmt Stmt.scopes
    exact (Silent.inside (.bind (checkExpr_silent e) fun _ => .pure _)).inside
  | .return_ value s =>
    unfold stmt Stmt.scopes
    exact (Silent.inside (.bind (returned_silent s value) fun _ => .pure _)).inside
  | .break_ s =>
    unfold stmt Stmt.scopes
    exact (Silent.inside (.pure _)).inside
  | .for_ cond body s =>
    unfold stmt Stmt.scopes
    exact ((checkExpr_silent cond).andTells fun _ st₁ _ =>
      (body_tells (stmts_tell body (by simp))).andSilent fun _ => .pure _).inside
  | .if_ cond body otherwise s =>
    unfold stmt Stmt.scopes
    exact (branch_tells hin (body_tells (stmts_tell body (by simp))) fun _ _ hin =>
      (alternative_tells otherwise hin).andSilent fun _ => .pure _).inside
  | .block body s =>
    unfold stmt Stmt.scopes
    exact ((body_tells (stmts_tell body (by simp))).andSilent fun _ => .pure _).inside

theorem alternative_tells (a : Alternative) {st : State} {s : Span}
    (hin : st.names.current < st.names.size) : Tells (alternative s a) st (ClashesIn a.scopes) := by
  match a with
  | .none =>
    unfold alternative Alternative.scopes
    exact Silent.inside (.pure _)
  | .else_ body =>
    unfold alternative Alternative.scopes
    exact (body_tells (stmts_tell body (by simp))).andSilent fun _ => .pure _
  | .elif cond body otherwise =>
    unfold alternative Alternative.scopes
    exact branch_tells hin (body_tells (stmts_tell body (by simp))) fun _ _ hin =>
      (alternative_tells otherwise hin).andSilent fun _ => .pure _

theorem stmts_tell (ss : List Stmt) {st : State} (hin : st.names.current < st.names.size) :
    Tells (stmts ss) st fun d => Clashes st.names.localNames (Stmt.namings ss) d ∨
      ClashesIn (Stmt.allScopes ss) d := by
  match ss with
  | [] =>
    unfold stmts
    exact (Silent.pure _ st).congr fun d => by
      simp [Stmt.namings, Clashes, ClashesIn, Stmt.allScopes]
  | s :: ss =>
    unfold stmts
    refine ((stmt_tells s hin).bind fun r st₁ hr => by
      have hgains := (stmt_passes s hr).gains hin
      have hrest := stmts_tell ss (hgains.inside hin)
      rw [hgains.localNames hin] at hrest
      exact hrest.andSilent fun _ => .pure _).congr fun d => ?_
    rw [clashes_namings_cons, Stmt.allScopes, clashesIn_append]
    exact or_or_or_comm

end

end Check

theorem Program.check_tells (p : Program) :
    Check.Tells (Check.stmts p) .start (Check.ClashesIn p.scopes) := by
  have h := Check.stmts_tell p (by decide : Check.State.start.names.current < _)
  refine h.congr fun d => ?_
  rw [Program.scopes, Check.clashesIn_cons]
  rfl

/-- If a program is accepted, none of its scopes has a name twice or a name that a marker has taken.
If one is rejected for a redeclaration, that stands in one of its scopes, behind the same name, or a
marker of that name, in that same scope: what is outside makes no difference. -/
theorem Program.check_redeclares (p : Program) :
    (∀ r, p.check = .ok r → ∀ sc ∈ p.scopes, sc.Distinct ∧ ∀ d, ¬ sc.MeetsMarker d) ∧
    ∀ s n, p.check = .error ⟨s, .redeclared n⟩ →
      ∃ sc ∈ p.scopes, ∃ d, d.ident = ⟨n, s⟩ ∧ (sc.Repeats d ∨ sc.MeetsMarker d) := by
  have htells := p.check_tells
  unfold Check.Tells outcome at htells
  unfold Program.check
  generalize (Check.stmts p).run Check.State.start = out at htells
  obtain ⟨r | r, st⟩ := out
  · refine ⟨nofun, ?_⟩
    rintro s n ⟨⟩
    obtain ⟨d, ⟨sc, hsc, hclash⟩, hident⟩ := htells n rfl
    exact ⟨sc, hsc, d, hident, SourceScope.clashes_iff_repeats.mp hclash⟩
  · refine ⟨fun _ _ sc hsc => ?_, nofun⟩
    have hnone : ∀ d, ¬ (sc.Repeats d ∨ sc.MeetsMarker d) := fun d hd =>
      htells d ⟨sc, hsc, SourceScope.clashes_iff_repeats.mpr hd⟩
    exact ⟨SourceScope.distinct_iff.mpr fun d hd => hnone d (.inl hd),
      fun d hd => hnone d (.inr hd)⟩

/-- The tree of a text and why it is rejected. -/
def rejected? (src : String) : Option (Program × Located CheckError) := do
  let ts ← (tokenize src).toOption
  let p ← (Program.ofTokens (Text.endSpan src) ts).toOption
  match p.check with
  | .ok _ => none
  | .error e => some (p, e)

theorem rejected?_eq_some {src : String} {p : Program} {e : Located CheckError}
    (h : rejected? src = some (p, e)) : ∃ ts, tokenize src = .ok ts ∧
      Program.ofTokens (Text.endSpan src) ts = .ok p ∧ p.check = .error e := by
  obtain ⟨ts, hts, h⟩ := Option.bind_eq_some_iff.mp h
  obtain ⟨p', hp, h⟩ := Option.bind_eq_some_iff.mp h
  split at h
  · simp at h
  · rename_i hcheck
    obtain ⟨rfl, rfl⟩ := Prod.mk.inj (Option.some.inj h)
    exact ⟨ts, toOption_eq_some.mp hts, toOption_eq_some.mp hp, hcheck⟩

/-- Every name is defined again further inside, that of a marker too. -/
def shadowedText : String :=
  "P : struct \x7b a: i32; P: f64; \x7d\n" ++
  "f : fn i32 (a: i32, f: f64) \x7b\n" ++
  "  P_members := a;\n" ++
  "  \x7b a : f64 = 1.5; P : struct \x7b a: string; \x7d \x7d\n" ++
  "  if a \x7b P_members := 2; printf := 3; \x7d else \x7b a := 4; \x7d\n" ++
  "  return a;\n" ++
  "\x7d"

/-- A parameter is defined again in a block, and then in the body. -/
def repeatedText : String := "f : fn (a: i32) \x7b \x7b a : i32; \x7d a : f64; \x7d"

theorem check_shadowedText_redeclares :
    (∃ ts p q ws, Accepted shadowedText ts p q ws ∧ p.scopes.length = 7 ∧
      ∀ sc ∈ p.scopes, sc.Distinct ∧ ∀ d, ¬ sc.MeetsMarker d) ∧
    ∃ (p : Program) (s : Span), p.check = .error ⟨s, .redeclared "a"⟩ ∧
      ∃ sc ∈ p.scopes, ∃ d, d.ident = ⟨"a", s⟩ ∧ (sc.Repeats d ∨ sc.MeetsMarker d) := by
  constructor
  · have hrun : surveyed shadowedText (fun p _ _ => some p.scopes.length) = some 7 := by
      apply surveyed_of_chars
      · repeat apply append_ofList
        rfl
      · decide +kernel
    obtain ⟨ts, p, q, ws, haccepted, hlength⟩ := surveyed_eq_some hrun
    exact ⟨ts, p, q, ws, haccepted, Option.some.inj hlength,
      p.check_redeclares.1 (q, ws) haccepted.check⟩
  · have hrun : (rejected? repeatedText).map (·.2.value) = some (.redeclared "a") := by
      decide +kernel
    obtain ⟨⟨p, s, e⟩, hrejected, rfl⟩ := Option.map_eq_some_iff.mp hrun
    obtain ⟨ts, -, -, hcheck⟩ := rejected?_eq_some hrejected
    exact ⟨p, s, hcheck, p.check_redeclares.2 s "a" hcheck⟩

/-- The marker that a struct brings is no definition of the text, but it takes a name. -/
theorem check_redeclares_marker : ¬ ∀ src ts (p : Program) s n, tokenize src = .ok ts →
    Program.ofTokens (Text.endSpan src) ts = .ok p → p.check = .error ⟨s, .redeclared n⟩ →
      ∃ sc ∈ p.scopes, ∃ d, d.ident = ⟨n, s⟩ ∧ sc.Repeats d := by
  intro h
  have hrun : (rejected? "P : struct \x7b\x7d P_members := 1;").map (fun (p, e) =>
      (e.value, p.scopes.all fun sc => sc.Distinct)) = some (.redeclared "P_members", true) := by
    decide +kernel
  obtain ⟨⟨p, s, e⟩, hrejected, hp⟩ := Option.map_eq_some_iff.mp hrun
  obtain ⟨rfl, hscopes⟩ := Prod.mk.inj hp
  obtain ⟨ts, hts, hread, hcheck⟩ := rejected?_eq_some hrejected
  obtain ⟨sc, hsc, d, -, hrepeats⟩ := h _ ts p s _ hts hread hcheck
  have hdistinct : sc.Distinct := of_decide_eq_true (List.all_eq_true.mp hscopes sc hsc)
  exact SourceScope.distinct_iff.mp hdistinct d hrepeats

end Frontend
