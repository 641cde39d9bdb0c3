import Frontend.Proofs.Loads

/-!
What lowering the statements of a program adds, to the function at hand and to the module. It loads
what the junctions of the program account for, and it holds what the items become. Where nothing is
declared `void`, nothing of that type is loaded either.
-/
namespace Frontend

open List (Forall₂)

namespace Vantage.Solid

variable {w : Vantage}

theorem past (h : w.Solid) (body : List Stmt) : (w.past body).Solid :=
  ⟨h.names, h.members, h.routines⟩

/-- A statement that declares no function. -/
theorem next (h : w.Solid) {s : Stmt}
    (hroutines : (w.after s).outlook.routines = w.outlook.routines)
    (hnames : ∀ x ∈ s.declares, x.ty.isHollow = false)
    (hmembers : ∀ x ∈ s.declares, ∀ ms ∈ x.members, ∀ m ∈ ms, m.ty.isHollow = false) :
    (w.after s).Solid where
  names := fun x hx => (List.mem_append.mp hx).elim (hnames x) (h.names x)
  members := fun x hx => (List.mem_append.mp hx).elim (hmembers x) (h.members x)
  routines := hroutines ▸ h.routines

theorem inside (h : w.Solid) {sig : Signature} (hparams : ∀ p ∈ sig.params, p.ty.isHollow = false) :
    (w.inside sig).Solid where
  names := by
    intro x hx
    rcases List.mem_append.mp hx with hx | hx
    · obtain ⟨p, hp, rfl⟩ := List.mem_map.mp (List.mem_reverse.mp hx)
      exact hparams p hp
    · rcases List.mem_cons.mp hx with rfl | hx
      · rfl
      · exact h.names x hx
  members := by
    intro x hx
    rcases List.mem_append.mp hx with hx | hx
    · obtain ⟨p, -, rfl⟩ := List.mem_map.mp (List.mem_reverse.mp hx)
      exact nofun
    · rcases List.mem_cons.mp hx with rfl | hx
      · exact nofun
      · exact h.members x hx
  routines := by
    rw [w.inside_routines sig]
    refine List.forall_mem_cons.mpr ⟨fun ty hty => ?_, h.routines⟩
    obtain ⟨p, hp, rfl⟩ := List.mem_map.mp hty
    exact hparams p hp

/-- A function is in sight from where it is declared. -/
theorem declare (h : w.Solid) {sig : Signature} (hparams : ∀ p ∈ sig.params, p.ty.isHollow = false)
    {s : Stmt} {isExternal : Bool} (hs : s.declares = [sig.sighting isExternal])
    (ho : w.outlook.after w.links s = (sig.name.name, some (sig.routine w.links)) :: w.outlook) :
    (w.after s).Solid := by
  have hnames : (w.after s).sight = sig.sighting isExternal ::
      w.sight := by simp [Vantage.after, hs]
  have hroutines : (w.after s).outlook.routines = sig.routine w.links :: w.outlook.routines := by
    simp [Vantage.after, ho, Outlook.routines]
  constructor
  · rw [hnames]
    exact List.forall_mem_cons.mpr ⟨rfl, h.names⟩
  · rw [hnames]
    exact List.forall_mem_cons.mpr ⟨by rintro _ ⟨⟩, h.members⟩
  · rw [hroutines]
    refine List.forall_mem_cons.mpr ⟨fun ty hty => ?_, h.routines⟩
    obtain ⟨p, hp, rfl⟩ := List.mem_map.mp hty
    exact hparams p hp

end Vantage.Solid

/-- A function that is done takes the code with it. -/
theorem Ir.Builder.Accounts.finish {b b' : Builder} {fs : List Func} {js : List Junction}
    (h : b.Accounts b.code fs js) : b'.Accounts [] (fs ++ [b.finish]) js where
  fits := h.fits
  level := by
    intro hjs
    obtain ⟨hcode, hfs⟩ := h.level hjs
    refine ⟨List.forall_mem_nil _, fun f hf => ?_⟩
    rcases List.mem_append.mp hf with hf | hf
    · exact hfs f hf
    · obtain rfl := List.mem_singleton.mp hf
      rw [Func.loadsInPlace, Builder.finish_instrs]
      exact List.all_eq_true.mpr hcode
  deep := by
    intro hjs
    rcases h.deep hjs with ⟨i, hi, hstrays⟩ | ⟨f, hf, hstrays⟩
    · refine .inr ⟨b.finish, List.mem_append_right _ List.mem_cons_self, rfl, i, ?_, ?_⟩
      · rwa [Builder.finish_instrs]
      · rw [Builder.finish_instrs]
        exact hstrays
    · exact .inr ⟨f, List.mem_append_left _ hf, hstrays⟩

namespace Ir

/-- Nothing of type `void` is loaded in the function. -/
def Func.loadsNoVoid (f : Func) : Bool := f.instrs.all (·.op.loadsNoVoid)

/-- Code for the function at hand, functions that are done, and layouts. -/
structure Increment where
  code : List Instr
  funcs : List Func
  structs : List Layout

namespace Increment

def nil : Increment := ⟨[], [], []⟩

def append (d d' : Increment) : Increment :=
  ⟨d.code ++ d'.code, d.funcs ++ d'.funcs, d.structs ++ d'.structs⟩

def contents (d : Increment) : List Content :=
  Ir.contents d.code ++ d.funcs.flatMap Func.contents ++ d.structs.flatMap Layout.contents

structure LoadsNoVoid (d : Increment) : Prop where
  code : ∀ i ∈ d.code, i.op.loadsNoVoid
  funcs : ∀ f ∈ d.funcs, f.loadsNoVoid

theorem mem_contents_append {d d' : Increment} {c : Content} :
    c ∈ (d.append d').contents ↔ c ∈ d.contents ++ d'.contents := by
  simp only [contents, append, Ir.contents_append, List.flatMap_append, List.mem_append]
  tauto

/-- A function that is done holds its parameters and its code. -/
theorem mem_contents_finish {b : Builder} {d : Increment} (hcode : b.code = d.code) {c : Content} :
    c ∈ contents ⟨[], d.funcs ++ [b.finish], d.structs⟩ ↔
      c ∈ b.params.map (fun p => .param p.2) ++ d.contents := by
  have hself : b.finish.contents = b.params.map (fun p => .param p.2) ++ Ir.contents d.code := by
    rw [← hcode, Func.contents, Builder.finish_instrs]
    rfl
  simp only [contents, List.flatMap_append, List.flatMap_singleton, hself, List.mem_append,
    Ir.contents, List.filterMap_nil, List.not_mem_nil]
  tauto

theorem LoadsNoVoid.nil : nil.LoadsNoVoid := ⟨List.forall_mem_nil _, List.forall_mem_nil _⟩

theorem LoadsNoVoid.append {d d' : Increment} (h : d.LoadsNoVoid) (h' : d'.LoadsNoVoid) :
    (d.append d').LoadsNoVoid where
  code := fun i hi => (List.mem_append.mp hi).elim (h.code i) (h'.code i)
  funcs := fun f hf => (List.mem_append.mp hf).elim (h.funcs f) (h'.funcs f)

end Increment

end Ir

namespace Check

/-- The names in sight are what the place tells, and the function around returns `ret`. -/
structure State.Sees (ret : Ty) (w : Vantage) (st : State) : Prop where
  shows : st.names.Shows w.sight
  grounded : w.sight.Grounded
  around : Around ret st

namespace State.Sees

variable {ret : Ty} {w : Vantage} {st st' : State}

theorem start : State.start.Sees .void .start := ⟨start_shows, .start, by rintro _ ⟨⟩⟩

theorem enter (h : st.Sees ret w) : { st with names := st.names.enter : State }.Sees ret w :=
  ⟨h.shows.enter, h.grounded, h.around.congr rfl⟩

theorem after (h : st.Sees ret w) {s r : Stmt} (hp : Passes st (.stmt s r) st')
    (ho : r.Obeys .checked ret) : st'.Sees ret (w.after r) where
  shows := h.shows.gain (hp.declares ▸ hp.gains h.shows.inside)
  grounded := hp.grounded h.shows h.grounded ho
  around := h.around.congr hp.returns

theorem past (h : st.Sees ret w) {body body' : List Stmt} (hp : Passes st (.body body body') st') :
    st'.Sees ret (w.past body') :=
  ⟨h.shows.gain (hp.gains h.shows.inside), h.grounded, h.around.congr hp.returns⟩

theorem inside (h : st.Sees ret w) {sig : Signature} (hsig : sig.Grounded) :
    (st.inside sig).Sees sig.ret (w.inside sig) := by
  refine ⟨inside_shows sig h.shows, h.grounded.inside hsig, ?_⟩
  rintro _ ⟨⟩
  exact ⟨rfl, hsig.1.levels⟩

variable {ty : Ty} {ws : List (Located Warning)}

/-- A value that is taken is checked, and of the type that is asked for. -/
theorem takes (h : st.Sees ret w) {e e' : Expr} (hc : expr st.names e = .ok ())
    (ht : Takes st.names ty e e' ws) (hf : e'.Fitted) :
    e'.Checked st.names ∧ e'.typeIn? w.sight = some ty :=
  ⟨.intro (expr_coerced ht.coerced hc) hf, h.shows.infer_eq_ok.mp ht.infer⟩

theorem takesIf (h : st.Sees ret w) {e e' : Option Expr} (ht : TakesIf st.names ty e e' ws)
    (hf : ∀ a ∈ e', a.Fitted) : ∀ a ∈ e', a.Checked st.names ∧ a.typeIn? w.sight = some ty := by
  cases ht with
  | none => exact nofun
  | some hc ht =>
    rintro _ ⟨⟩
    exact h.takes hc ht (hf _ rfl)

end State.Sees

end Check

namespace Lowering

/-- The increment leads from one state to the other. -/
structure State.GrowsBy (st : State) (d : Ir.Increment) (st' : State) : Prop where
  code : st'.current.code = st.current.code ++ d.code
  params : st'.current.params = st.current.params
  funcs : st'.module.funcs = st.module.funcs ++ d.funcs
  structs : st'.module.structs = st.module.structs ++ d.structs

theorem State.GrowsBy.trans {st st₁ st' : State} {d d' : Ir.Increment} (h : st.GrowsBy d st₁)
    (h' : st₁.GrowsBy d' st') : st.GrowsBy (d.append d') st' where
  code := by simp [h'.code, h.code, Ir.Increment.append]
  params := h'.params.trans h.params
  funcs := by simp [h'.funcs, h.funcs, Ir.Increment.append]
  structs := by simp [h'.structs, h.structs, Ir.Increment.append]

theorem State.GrowsBy.extend (st : State) (code : List Ir.Instr) :
    st.GrowsBy ⟨code, [], []⟩ (st.extend code) where
  code := Ir.Builder.code_extend _ _
  params := rfl
  funcs := by simp
  structs := by simp

theorem State.GrowsBy.code_subset {st st' : State} {d : Ir.Increment} (h : st.GrowsBy d st') :
    st.current.code ⊆ st'.current.code :=
  h.code ▸ List.subset_append_left _ _

section Walk

variable {ret : Ty} {w w' : Vantage} {st st' : State} {links links' : List String}
  {bs : List (Binding Handle)} {sig : Signature} {low : LoweredSig} {s : Span}

namespace State.Stocked

/-- Names are added. -/
theorem next (h : st.Stocked ret w) (hp : Passes links links' bs st st')
    (hcode : st.current.code ⊆ st'.current.code) {new : Sight}
      (hgains : st.names.Gains st'.names new)
    (es : Outlook) (hnew : Forall₂ (fun e b => b.name = e.1 ∧ b.value.Suits st'.current b.ty e.2 ∧
      b.value.OwnedBelow st'.nextId) es bs) (l : List String) :
    st'.Stocked ret ⟨new ++ w.sight, es ++ w.outlook, l⟩ where
  shows := h.shows.gain hgains
  suits := by
    rw [hp.names.visible h.shows.inside]
    exact List.rel_append hnew (h.suits.imp fun _ _ ⟨hname, hs, ho⟩ =>
      ⟨hname, hs.mono hp.id hp.params hcode, ho.mono hp.nextId⟩)
  here := hp.id ▸ Nat.lt_of_lt_of_le h.here hp.nextId
  returns := hp.ret ▸ h.returns

variable (h : st.Stocked ret w)

include h

theorem enter : { st with names := st.names.enter : State }.Stocked ret w where
  shows := h.shows.enter
  suits := by
    rw [ScopeTable.visible_enter _ h.shows.inside]
    exact h.suits
  here := h.here
  returns := h.returns

theorem passes (hp : Passes links links' [] st st') (hcode : st.current.code ⊆ st'.current.code)
    (l : List String) : st'.Stocked ret { w with links := l } :=
  h.next hp hcode hp.gains [] .nil l

/-- The parts of a signature become what is written. -/
theorem passed (hlow : low.Of sig st) :
    Forall₂ (fun p t => p.ty.PassedAs t) sig.params low.params ∧ sig.ret.LowersTo low.ret := by
  refine ⟨hlow.params.imp fun p t ht => ?_, st.names, h.laidOut, hlow.ret⟩
  obtain ⟨u, hu, rfl⟩ := ht
  exact ⟨u, ⟨st.names, h.laidOut, hu⟩, rfl⟩

theorem suits_binding (hlow : low.Of sig st) (b : Ir.Builder) (l : List String)
    (isExternal : Bool) : (low.binding sig isExternal).value.Suits b
      (low.binding sig isExternal).ty (some (sig.routine l)) := by
  obtain ⟨hparams, hret⟩ := h.passed hlow
  exact ⟨sig.routine l, rfl, rfl, List.forall₂_map_left_iff.mpr hparams, hret⟩

/-- Inside a function that it defines. -/
theorem enterBody (hlow : low.Of sig st) :
    (st.enterBody sig low).Stocked sig.ret (w.inside sig) where
  shows := hlow.inside h.shows
  suits := by
    have hparams : Forall₂ (fun p b => b.name = p.name.name ∧
        b.value.Suits (st.enterBody sig low).current b.ty none ∧
        b.value.OwnedBelow (st.enterBody sig low).nextId) sig.params
        (paramBindings sig.params low.params st.nextId) := by
      refine List.forall₂_iff_get.mpr ⟨by simp [paramBindings, hlow.length], fun i hi hi' => ?_⟩
      have hpassed := (h.passed hlow).1.get hi (hlow.length ▸ hi)
      simp only [List.get_eq_getElem, paramBindings, List.getElem_map,
        List.getElem_zip] at hpassed ⊢
      refine ⟨rfl, ⟨rfl, ?_, fun _ => List.mem_map_of_mem (List.getElem_mem _)⟩, Nat.lt_succ_self _⟩
      simpa [Ir.numbered, Binding.plain] using hpassed
    rw [State.visible_enterBody h.shows.inside, Vantage.inside, Outlook.inside, List.map_reverse]
    refine List.rel_append (List.rel_reverse (List.forall₂_map_left_iff.mpr hparams))
      (.cons ⟨rfl, h.suits_binding hlow _ _ _, trivial⟩ (h.suits.imp fun _ _ hb => ?_))
    obtain ⟨hname, hs, ho⟩ := hb
    exact ⟨hname, hs.inner ho, ho.mono (Nat.le_succ _)⟩
  here := Nat.lt_succ_self _
  returns := (h.passed hlow).2

end State.Stocked

/-- A place in the body of a function, and what the function returns. -/
structure Standpoint where
  ret : Ty
  vantage : Vantage

/-- Through a program that was checked: it is what the check makes of some tree, and the names in
sight are what the place tells. -/
def checkedRoute : Route Standpoint where
  after k s := ⟨k.ret, k.vantage.after s⟩
  past k ss := ⟨k.ret, k.vantage.past ss⟩
  beyond k a := ⟨k.ret, { k.vantage with links := a.declared k.vantage.links }⟩
  inside k sig := ⟨sig.ret, k.vantage.inside sig⟩
  cond k e := ∃ u : ScopeTable Unit,
    u.Shows k.vantage.sight ∧ k.vantage.sight.Grounded ∧ e.Checked u
  stmt k r := ∃ cst cst' s, cst.Sees k.ret k.vantage ∧ Check.Passes cst (.stmt s r) cst' ∧
    r.Obeys .checked k.ret
  otherwise k r := ∃ cst cst' a, cst.Sees k.ret k.vantage ∧
    Check.Passes cst (.alternative a r) cst' ∧ r.Obeys .checked k.ret
  body k rs := ∃ cst cst' ss, cst.Sees k.ret k.vantage ∧ Check.Passes cst (.stmts ss rs) cst' ∧
    Stmt.AllObey .checked k.ret rs
  fnDef := by
    rintro k sig rs s ⟨cst, cst', _, hc, hp, ho⟩
    cases hp with
    | fnDef _ _ _ hbody _ => exact ⟨_, _, _, hc.inside ho.1, hbody, ho.2⟩
  if_ := by
    rintro k e rs a s ⟨cst, cst', _, hc, hp, ho⟩
    cases hp with
    | if_ hcond hbody hother =>
      have hpast := hc.past hbody
      cases hbody with
      | body hss _ => exact ⟨⟨_, hc.shows, hc.grounded, .intro hcond ho.1⟩,
          ⟨_, _, _, hc.enter, hss, ho.2.1⟩, _, _, _, hpast, hother, ho.2.2⟩
  block := by
    rintro k rs s ⟨cst, cst', _, hc, hp, ho⟩
    cases hp with
    | block hbody =>
      cases hbody with
      | body hss _ => exact ⟨_, _, _, hc.enter, hss, ho⟩
  else_ := by
    rintro k rs ⟨cst, cst', _, hc, hp, ho⟩
    cases hp with
    | else_ hbody =>
      cases hbody with
      | body hss _ => exact ⟨_, _, _, hc.enter, hss, ho⟩
  elif := by
    rintro k e rs a ⟨cst, cst', _, hc, hp, ho⟩
    cases hp with
    | elif hcond hbody hother =>
      have hpast := hc.past hbody
      cases hbody with
      | body hss _ => exact ⟨⟨_, hc.shows, hc.grounded, .intro hcond ho.1⟩,
          ⟨_, _, _, hc.enter, hss, ho.2.1⟩, _, _, _, hpast, hother, ho.2.2⟩
  cons := by
    rintro k r rs ⟨cst, cst', _, hc, hp, ho⟩
    cases hp with
    | cons hfirst hrest =>
      exact ⟨⟨_, _, _, hc, hfirst, ho.1⟩, _, _, _, hc.after hfirst ho.1, hrest, ho.2⟩

/-- The junctions and the items of each part of a program. -/
def increments : Deposits checkedRoute (List Junction × List Item) where
  zero := ([], [])
  add x y := (x.1 ++ y.1, x.2 ++ y.2)
  ofCond k e := (e.junctions k.vantage, e.items)
  ofStmt k s := (s.junctions k.ret k.vantage, s.items)
  ofOtherwise k a := (a.junctions k.ret k.vantage, a.items)
  ofBody k ss := (Stmt.allJunctions k.ret k.vantage ss, Stmt.allItems ss)
  add_zero x := by simp

/-- What is added from `k` on to `k'` loads what the junctions account for, and holds what the items
become. -/
def LeavesIncrement (k k' : Standpoint) (st st' : State) (x : List Junction × List Item) : Prop :=
  st.Stocked k.ret k.vantage → st'.Stocked k'.ret k'.vantage ∧ ∃ d, st.GrowsBy d st' ∧
    st'.current.Accounts d.code d.funcs x.1 ∧ Item.Matches x.2 d.contents ∧
    (k.vantage.Solid → (∀ i ∈ x.2, i.isHollow = false) → k'.vantage.Solid ∧ d.LoadsNoVoid)

section Steps

variable {k k' : Standpoint} {js : List Junction} {xs : List Item} {act : LowerM α}
  {x : List Junction × List Item} {u : ScopeTable Unit}

/-- The code that a step adds, for what it loads and for what it holds. -/
theorem added_code {solid : Prop} {Q : α → Ir.Builder → Prop} (hs : st.Stocked ret w)
    (hloads : AddsLoads ret w solid act st js Q) (hcontents : AddsContents act xs) {a : α}
    (hrun : Runs act st a st') : ∃ code, st' = st.extend code ∧ st'.current.Accounts code [] js ∧
      Item.Matches xs (Ir.contents code) ∧ (solid → ∀ i ∈ code, i.op.loadsNoVoid) ∧
      Q a st'.current := by
  obtain ⟨code, _, rfl, rfl, ⟨hacc, hvoid⟩, hq⟩ := hloads a st' hrun
  obtain ⟨code', _, heq, -, hmatches, -⟩ := hcontents st hs.laidOut a _ hrun
  obtain rfl : code = code' := by
    simpa [Ir.Builder.code_extend] using congrArg (fun st => st.current.code) heq
  exact ⟨code, rfl, hacc, hmatches, hvoid, hq⟩

theorem leavesIncrement_of_adds {Q : α → Ir.Builder → Prop}
    (hloads : ∀ st, st.Stocked k.ret k.vantage →
      AddsLoads k.ret k.vantage k.vantage.Solid act st js Q) (hcontents : AddsContents act xs) :
    Relates LeavesIncrement _ k k act (js, xs) := by
  intro st a st' hrun hs
  obtain ⟨code, rfl, hacc, hmatches, hvoid, -⟩ := added_code hs (hloads st hs) hcontents hrun
  exact ⟨hs.extend code, ⟨code, [], []⟩, .extend st code, hacc,
    by simpa [Ir.Increment.contents] using hmatches, fun hw _ => ⟨hw, hvoid hw, nofun⟩⟩

/-- Where the code, the parameters and the module stay as they are, nothing is added. -/
theorem leavesIncrement_nil (hs : st.Stocked k.ret k.vantage → st'.Stocked k.ret k.vantage)
    (hcode : st'.current.code = st.current.code) (hparams : st'.current.params = st.current.params)
    (hmodule : st'.module = st.module) : LeavesIncrement k k st st' ([], []) := by
  intro h
  have hgrows : st.GrowsBy .nil st' := by
    refine ⟨?_, hparams, ?_, ?_⟩ <;> simp [hcode, hmodule, Ir.Increment.nil]
  exact ⟨hs h, .nil, hgrows, .nil (List.forall_mem_nil _) (List.forall_mem_nil _), .nil,
    fun hw _ => ⟨hw, .nil⟩⟩

theorem leavesIncrement_of_rebuilds (hact : Rebuilds k.vantage.links act) :
    Relates LeavesIncrement _ k k act ([], []) := by
  intro st a st' hrun
  obtain ⟨b, rfl, hp, hcode⟩ := hact _ _ _ hrun
  exact leavesIncrement_nil (fun hs => hs.passes hp (hcode ▸ List.Subset.refl _) k.vantage.links)
    hcode hp.params rfl

theorem openArm_leavesIncrement {cond : Expr} (hcond : checkedRoute.cond k cond)
    (join : Ir.BlockId) (label : String) (more : Bool) :
    Relates LeavesIncrement _ k k (openArm join label cond more)
      (cond.junctions k.vantage, cond.items) := by
  intro st no st' hrun hs
  obtain ⟨u, hu, hg, hcond⟩ := hcond
  obtain ⟨v, st₁, c, st₂, yes, n, hv, hc, -, rfl⟩ := openArm_inv hrun
  have htruth : Runs (value cond >>= (truthy · cond.span)) st c st₂ :=
    runs_bind.mpr ⟨v, st₁, hv, hc⟩
  have hloads : ∀ st, st.Stocked k.ret k.vantage → AddsLoads k.ret k.vantage k.vantage.Solid
      (value cond >>= (truthy · cond.span)) st (cond.junctions k.vantage) fun _ _ => True :=
    fun st hs => .trail hs (value_addsLoads hu hg id cond hcond hs) fun _ _ _ _ =>
      .ofLoadless truthy_loadless
  obtain ⟨hs₂, d, hd, hacc, hmatches, hvoid⟩ := leavesIncrement_of_adds hloads
    ((expr_addsContents.value cond).trail fun _ => holding_computing.truthy) _ _ _ htruth hs
  have hkept := Ir.Builder.code_branch st₂.current (.condBr c.reg yes no) n yes label
  have hsub : st₂.current.code ⊆ _ := fun i hi => hkept.symm ▸ hi
  have hp : Passes k.vantage.links k.vantage.links [] st₂ _ :=
    .branch (.condBr c.reg yes no) n yes label
  exact ⟨hs₂.passes hp hsub k.vantage.links, d,
    ⟨hkept.trans hd.code, hd.params, hd.funcs, hd.structs⟩, hacc.mono hsub rfl, hmatches, hvoid⟩

/-- What was bound in a block is forgotten. -/
theorem inScope_leavesIncrement {ss : List Stmt} (h : Relates LeavesIncrement _ k k' (stmts ss) x) :
    Relates LeavesIncrement _ k (checkedRoute.past k ss) (inScope s (stmts ss)) x := by
  intro st a st' hrun hs
  obtain ⟨st₁, outer, hact, hleave, rfl⟩ := within_inv hrun
  obtain ⟨-, d, hd, hacc, hmatches, hvoid⟩ := h _ _ _ hact hs.enter
  obtain ⟨new, hp, -⟩ := stmts_passes ss k.vantage.links hact
  exact ⟨hs.passes (hp.leave hleave) hd.code_subset _, d,
    ⟨hd.code, hd.params, hd.funcs, hd.structs⟩,
    hacc, hmatches, fun hw hxs => ⟨hw.past ss, (hvoid hw hxs).2⟩⟩

/-- A variable is kept in a cell of its own. -/
theorem variable_leavesIncrement (hu : u.Shows k.vantage.sight) (hg : k.vantage.sight.Grounded)
    {name : Ident} {ty : Ty} {init : Option Expr}
    (hinit : ∀ e ∈ init, e.Checked u ∧ e.typeIn? k.vantage.sight = some ty) :
    Relates LeavesIncrement _ k (checkedRoute.after k (.varDef name ty init s))
      (stmt (.varDef name ty init s)) (init.elim [] (·.junctionsAs k.vantage ty),
        .variable ty :: init.elim [] Expr.items) := by
  intro st a st' hrun hs
  have hgains := stmt_gains hs.shows.inside hrun
  unfold stmt at hrun
  obtain ⟨t, ptr, st₁, ht, hcell, rfl⟩ := variable_inv hrun
  have hlow : ty.LowersTo t := ⟨st.names, hs.laidOut, ht⟩
  obtain ⟨code, rfl, hacc, hmatches, hvoid, hptr⟩ := added_code hs
    (newCell_addsLoads hu hg And.left hs hinit hlow And.right)
    (newCell_addsContents hlow init) hcell
  have hp := Passes.bindAll k.vantage.links (st.extend code)
    [.plain name.name ty (.slot ptr t st.current.id)]
  have hgrows := State.GrowsBy.extend st code
  refine ⟨(hs.extend code).next hp (List.Subset.refl _) hgains [(name.name, none)]
    (.cons ⟨rfl, ⟨rfl, hlow, fun _ => hptr⟩, hs.here⟩ .nil) k.vantage.links, ⟨code, [], []⟩,
    ⟨hgrows.code, hgrows.params, hgrows.funcs, hgrows.structs⟩, hacc,
    by simpa [Ir.Increment.contents] using hmatches, fun hw hxs => ?_⟩
  have hty := hxs _ List.mem_cons_self
  refine ⟨hw.next rfl ?_ ?_, hvoid ⟨hw, hty⟩, nofun⟩
  · exact List.forall_mem_singleton.mpr hty
  · exact List.forall_mem_singleton.mpr nofun

/-- A struct is bound to an aggregate, with a field for each member. -/
theorem struct_leavesIncrement {name : Ident} {members : List Param} :
    Relates LeavesIncrement _ k (checkedRoute.after k (.structDef name members s))
      (stmt (.structDef name members s)) ([], members.map fun m => .member m.ty) := by
  intro st a st' hrun hs
  have hgains := stmt_gains hs.shows.inside hrun
  unfold stmt at hrun
  obtain ⟨fields₀, -, hp, hcurrent, -⟩ :
    ∃ fields, _ ∧ Passes k.vantage.links k.vantage.links _ st st' ∧ _ := struct_names hrun
  have hs' := hs.next hp (hcurrent ▸ List.Subset.refl _) hgains
    [(name.name, none), (membersMarker name.name, none)]
    (.cons ⟨rfl, ⟨rfl, rfl⟩, trivial⟩ (.cons ⟨rfl, rfl, trivial⟩ .nil)) k.vantage.links
  obtain ⟨fields, outer, hfields, -, rfl⟩ := struct_inv hrun
  have hmatches : Forall₂ Item.Becomes (members.map fun m => .member m.ty)
      (Ir.Layout.mk name.name fields).contents := by
    refine List.forall₂_map_left_iff.mpr (List.forall₂_map_right_iff.mpr (hfields.imp ?_))
    exact fun m f hf => ⟨st.names, hs.laidOut, hf.2⟩
  refine ⟨hs', ⟨[], [], [⟨name.name, fields⟩]⟩,
    ⟨by simp, rfl, by simp [Ir.Module.addStruct], rfl⟩,
    .nil (List.forall_mem_nil _) (List.forall_mem_nil _),
    .ofForall₂ (by simpa [Ir.Increment.contents, Ir.contents] using hmatches),
    fun hw hxs => ⟨hw.next rfl ?_ ?_, List.forall_mem_nil _, List.forall_mem_nil _⟩⟩
  · exact List.forall_mem_cons.mpr ⟨rfl, List.forall_mem_singleton.mpr rfl⟩
  · refine List.forall_mem_cons.mpr ⟨?_, List.forall_mem_singleton.mpr (by rintro _ ⟨⟩)⟩
    rintro _ ⟨⟩ m hm
    exact hxs (.member m.ty) (List.mem_map_of_mem hm)

/-- The parameters of a function, in the source and in the module. -/
theorem params_become (hs : st.Stocked ret w) (hlow : low.Of sig st)
    {params : List (Ir.Reg × Ir.Ty)} (hparams : params.map Prod.snd = low.params) :
    Forall₂ Item.Becomes (sig.params.map fun p => .parameter p.ty)
      (params.map fun p => .param p.2) := by
  have hpassed := (hs.passed hlow).1
  rw [← hparams, List.forall₂_map_right_iff] at hpassed
  exact List.forall₂_map_left_iff.mpr (List.forall₂_map_right_iff.mpr hpassed)

theorem fnDecl_leavesIncrement :
    Relates LeavesIncrement _ k (checkedRoute.after k (.fnDecl sig s)) (stmt (.fnDecl sig s))
      ([], sig.params.map fun p => .parameter p.ty) := by
  intro st a st' hrun hs
  have hgains := stmt_gains hs.shows.inside hrun
  obtain ⟨low₀, hlow₀, hp, hcurrent, -⟩ :
    ∃ low, _ ∧ Passes k.vantage.links _ _ st st' ∧ _ := fnDecl_names hrun
  have hs' : st'.Stocked k.ret (k.vantage.after (.fnDecl sig s)) :=
    hs.next hp (hcurrent ▸ List.Subset.refl _) hgains
      [(sig.name.name, some (sig.routine k.vantage.links))]
      (.cons ⟨rfl, hs.suits_binding hlow₀ _ _ _, trivial⟩ .nil) _
  obtain ⟨low, hlow, rfl⟩ := fnDecl_inv hrun
  have hparams := params_become hs hlow (Ir.numbered_snd low.params)
  refine ⟨hs', ⟨[], [.external low.name low.params low.ret sig.variadic], []⟩,
    ⟨by simp, rfl, rfl, by simp [Ir.Module.addFunc]⟩,
    .nil (List.forall_mem_nil _) (List.forall_mem_singleton.mpr rfl), .ofForall₂ ?_,
    fun hw hxs => ⟨?_, List.forall_mem_nil _, ?_⟩⟩
  · have hcontents : (Ir.Func.external low.name low.params low.ret sig.variadic).contents =
        (Ir.numbered low.params).map fun p => .param p.2 := List.append_nil _
    simpa [Ir.Increment.contents, Ir.contents, hcontents] using hparams
  · exact hw.declare (fun p hp => hxs (.parameter p.ty) (List.mem_map_of_mem hp)) rfl rfl
  · exact List.forall_mem_singleton.mpr rfl

/-- The function of a definition loads what the body does, and holds what the body does and its
parameters. -/
theorem fnDef_leavesIncrement {ss : List Stmt} (hbody : Relates LeavesIncrement _
      (checkedRoute.inside k sig) k' (stmts ss) (js, xs)) :
    Relates LeavesIncrement _ k (checkedRoute.after k (.fnDef sig ss s)) (stmt (.fnDef sig ss s))
      (js, sig.params.map (fun p => .parameter p.ty) ++ xs) := by
  intro st a st' hrun hs
  have hgains := stmt_gains hs.shows.inside hrun
  obtain ⟨low, st₁, outer, hlow, hrun₁, hp, rfl⟩ := fnDef_body
    (fun _ _ => stmts_passes ss (k.vantage.links ++ [sig.link k.vantage.links])) hrun
  obtain ⟨-, d, hd, hacc, hmatches, hvoid⟩ := hbody _ _ _ hrun₁ (hs.enterBody hlow)
  have hcode : st₁.current.code = d.code := hd.code
  have hsnd : st₁.current.params.map Prod.snd = low.params := by
    rw [hd.params]
    exact Ir.numbered_snd _
  have hparams := params_become hs hlow hsnd
  refine ⟨hs.next (.leaveFunction hlow hp) (List.Subset.refl _) hgains
    [(sig.name.name, some (sig.routine k.vantage.links))]
    (.cons ⟨rfl, hs.suits_binding hlow _ _ _, trivial⟩ .nil) _,
    ⟨[], d.funcs ++ [st₁.current.finish], d.structs⟩,
    ⟨(List.append_nil _).symm, rfl, ?_, hd.structs⟩, (hcode ▸ hacc).finish,
    ((Item.Matches.ofForall₂ hparams).append hmatches).congr fun _ =>
      Ir.Increment.mem_contents_finish hcode, fun hw hxs => ?_⟩
  · rw [← List.append_assoc]
    exact congrArg (· ++ _) hd.funcs
  · have hsolid : ∀ p ∈ sig.params, p.ty.isHollow = false := fun p hp =>
      hxs (.parameter p.ty) (List.mem_append_left _ (List.mem_map_of_mem hp))
    obtain ⟨-, hd'⟩ := hvoid (hw.inside hsolid) fun x hx => hxs x (List.mem_append_right _ hx)
    refine ⟨hw.declare hsolid rfl rfl, List.forall_mem_nil _, fun f hf => ?_⟩
    rcases List.mem_append.mp hf with hf | hf
    · exact hd'.funcs f hf
    · obtain rfl := List.mem_singleton.mp hf
      rw [Ir.Func.loadsNoVoid, Ir.Builder.finish_instrs]
      have hloads : ∀ i ∈ st₁.current.code, i.op.loadsNoVoid := hcode ▸ hd'.code
      exact List.all_eq_true.mpr hloads

/-- What is returned is no value, or one of the type that the function returns. -/
theorem return_leavesIncrement (hu : u.Shows k.vantage.sight) (hg : k.vantage.sight.Grounded)
    {e : Option Expr} (he : ∀ a ∈ e, a.Checked u ∧ a.typeIn? k.vantage.sight = some k.ret)
    (hret : e.isSome → k.ret.isHollow = false) :
    Relates LeavesIncrement _ k k (stmt (.return_ e s))
      (e.elim [] (·.junctionsAs k.vantage k.ret), e.elim [] Expr.items) := by
  intro st a st' hrun hs
  unfold stmt at hrun
  obtain ⟨r, st₁, hr, rfl⟩ := return_inv hrun
  obtain ⟨hs₁, d, hd, hacc, hmatches, hvoid⟩ := leavesIncrement_of_adds
    (fun st hs => returned_addsLoads hu hg id hs he hret) (expr_addsContents.returned e) _ _ _ hr hs
  have hcode := Ir.Builder.code_terminate st₁.current (.ret r)
  have hsub : st₁.current.code ⊆ _ := fun i hi => hcode.symm ▸ hi
  have hp : Passes k.vantage.links k.vantage.links [] st₁
      { st₁ with current := st₁.current.terminate (.ret r) } := .ofBuilder rfl rfl rfl rfl
  exact ⟨hs₁.passes hp hsub k.vantage.links, d,
    ⟨hcode.trans hd.code, hd.params, hd.funcs, hd.structs⟩, hacc.mono hsub rfl, hmatches, hvoid⟩

end Steps

/-- A statement that was checked leaves what its junctions account for and what its items become. -/
theorem increments_kept : increments.Kept (Relates LeavesIncrement) where
  chained := by
    refine .relates (fun k st => leavesIncrement_nil id rfl rfl rfl)
      fun {k k₁ k' x y st st₁ st'} h₁ h₂ hs => ?_
    obtain ⟨hs₁, d, hd, hacc, hmatches, hvoid⟩ := h₁ hs
    obtain ⟨hs', d', hd', hacc', hmatches', hvoid'⟩ := h₂ hs₁
    refine ⟨hs', d.append d', hd.trans hd', (hacc.mono hd'.code_subset hd'.params).append hacc',
      (hmatches.append hmatches').congr fun _ => Ir.Increment.mem_contents_append,
      fun hw hxs => ?_⟩
    obtain ⟨hw₁, hd₁⟩ := hvoid hw fun x hx => hxs x (List.mem_append_left _ hx)
    obtain ⟨hw', hd₂⟩ := hvoid' hw₁ fun x hx => hxs x (List.mem_append_right _ hx)
    exact ⟨hw', hd₁.append hd₂⟩
  reopen := leavesIncrement_of_rebuilds .reopen
  openIf := leavesIncrement_of_rebuilds .openIf
  startBlock := leavesIncrement_of_rebuilds (.startBlock _ _)
  branchTo := leavesIncrement_of_rebuilds (.terminate _)
  openArm he := openArm_leavesIncrement he _ _ _
  inScope _ hss := inScope_leavesIncrement hss
  fnDef _ hss := fnDef_leavesIncrement hss
  varDef := by
    rintro k name ty init s ⟨cst, cst', _, hc, hp, ho⟩
    cases hp with
    | varDef _ _ _ htakes =>
      exact variable_leavesIncrement hc.shows hc.grounded (hc.takesIf htakes ho.2)
  structDef _ := struct_leavesIncrement
  fnDecl _ := fnDecl_leavesIncrement
  varSet := by
    rintro k target e s ⟨cst, cst', _, hc, hp, ho⟩
    cases hp with
    | varSet hb hexpr htakes =>
      obtain ⟨he, hty⟩ := hc.takes hexpr htakes ho
      obtain ⟨x, hx, hdesc⟩ := hc.shows.lookup hb
      have hsame := hty.trans (Option.map_eq_some_iff.mpr ⟨x, hx, hdesc.ty.symm⟩).symm
      unfold stmt
      exact leavesIncrement_of_adds
        (fun st hst => assign_addsLoads hc.shows hc.grounded id hst he hsame)
        (expr_addsContents.assign _ _)
  memberSet := by
    rintro k target e s ⟨cst, cst', _, hc, hp, ho⟩
    cases hp with
    | memberSet htarget hinfer hexpr htakes =>
      obtain ⟨he, hty⟩ := hc.takes hexpr htakes ho.2
      have hsame := hty.trans (hc.shows.infer_eq_ok.mp hinfer).symm
      unfold stmt
      exact leavesIncrement_of_adds (fun st hst => assignMember_addsLoads hc.shows hc.grounded id
        hst (.intro htarget ho.1) he hsame) (expr_addsContents.assignMember _ _)
  expr := by
    rintro k e s ⟨cst, cst', _, hc, hp, ho⟩
    cases hp with
    | expr hexpr =>
      unfold stmt
      exact leavesIncrement_of_adds
        (fun st hst => effect_addsLoads hc.shows hc.grounded id hst (.intro hexpr ho))
        (expr_addsContents.effect _)
  return_ := by
    rintro k e s ⟨cst, cst', _, hc, hp, ho⟩
    cases hp with
    | return_ hreturns hvoid htakes =>
      obtain ⟨rfl, hlevels⟩ := hc.around _ hreturns
      refine return_leavesIncrement hc.shows hc.grounded (hc.takesIf htakes ho.2) fun hsome => ?_
      exact Ty.not_isHollow_of_isVoid hlevels (by simpa [hsome] using hvoid)

/-- Before a program, the prelude is known. -/
theorem start_stocked (name : String) : (State.start name).Stocked .void .start where
  shows := start_shows name
  suits := by
    rw [start_visible]
    exact .cons ⟨rfl, ⟨_, rfl, rfl, .cons ⟨_, .prim rfl, rfl⟩ .nil, .prim rfl⟩, trivial⟩ .nil
  here := Nat.zero_lt_one
  returns := .prim rfl

end Walk

end Lowering

end Frontend
