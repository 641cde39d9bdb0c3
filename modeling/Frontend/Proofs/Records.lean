import Frontend.Proofs.Declarations
import Frontend.Proofs.Traces
import Frontend.Proofs.WellFormed

/-!
What becomes of the sites of a program. Each function with a body stands for one function of the
source, in the order in which these end, and its instructions for the sites of that function. This
is kept while statements are lowered: of the function at hand and of all that are done.
-/
namespace Frontend

open List (Forall₂)

namespace Ir

variable {P : Policy} {declared declared' : String → List Ty → Ty → Prop} {K : SourceFacts}
  {types types' : List Ty} {b : Builder} {own own' : List Site}

/-- All registers so far are at hand. -/
def Ctx.full (types : List Ty) : Ctx := ⟨types, regsFrom 0 types.length⟩

theorem Ctx.full_has {r : Reg} {ty : Ty} : (full types).Has r ty ↔ types[r.index]? = some ty := by
  refine ⟨And.right, fun h => ⟨?_, h⟩⟩
  exact mem_regsFrom.mpr ⟨Nat.zero_le _, by simpa using (List.getElem?_eq_some_iff.mp h).1⟩

theorem Ctx.full_le (h : types <+: types') : (full types).Le (full types') := by
  obtain ⟨more, rfl⟩ := h
  refine ⟨List.prefix_append _ _, ?_⟩
  rw [full, full, List.length_append, ← regsFrom_append]
  exact List.subset_append_left _ _

theorem Straight.full {c : Ctx} {code : List Instr} (h : Straight P declared (.full types) code c) :
    c = .full c.types := by
  obtain ⟨types', avail⟩ := c
  have havail : avail = regsFrom 0 types'.length := h.avail.trans h.numbering.symm
  rw [havail]
  rfl

def Builder.code (b : Builder) : List Instr := b.blocks.flatMap Block.instrs

theorem Builder.code_extend (b : Builder) (code : List Instr) :
    (b.extend code).code = b.code ++ code := by
  simp [Builder.code, Builder.extend, Builder.blocks]

theorem Builder.code_startBlock (b : Builder) (id : BlockId) (label : String) :
    (b.startBlock id label).code = b.code := by
  simp [Builder.code, Builder.startBlock, Builder.blocks]

theorem Builder.code_terminate (b : Builder) (t : Terminator) : (b.terminate t).code = b.code := by
  simp [Builder.code, Builder.terminate, Block.terminate, Builder.blocks]

theorem Builder.code_branch (b : Builder) (t : Terminator) (n : Nat) (id : BlockId)
    (label : String) : (b.branch t n id label).code = b.code :=
  (code_startBlock _ _ _).trans (code_terminate _ _)

/-- All of a function under construction is typed, with these types for its registers, and the
instructions that are marked stand for `own`. -/
structure Builder.Bears (K : SourceFacts) (P : Policy) (declared : String → List Ty → Ty → Prop)
    (types : List Ty) (b : Builder) (own : List Site) : Prop where
  next : types.length = b.nextReg
  params : ∀ p ∈ b.params, types[p.1.index]? = some p.2
  code : ∀ i ∈ b.code, ∃ t, i.op.Typed P declared (Ctx.full types).Has t ∧
    t.map some = i.result.map fun r => types[r.index]?
  terms : ∀ B ∈ b.blocks, ∀ t, B.terminator = some t → t.Typed P b.ret (Ctx.full types).Has
  sites : Forall₂ (Instr.Serves K (Ctx.full types).Has) (marked b.code) own

/-- The same of a finished function. -/
def Func.Bears (K : SourceFacts) (P : Policy) (declared : String → List Ty → Ty → Prop) (f : Func)
    (sites : List Site) : Prop :=
  ∃ Γ, f.WellTyped P declared Γ ∧
    Forall₂ (Instr.Serves K fun r ty => Γ r = ty) (marked f.instrs) sites

theorem Func.Bears.mono {knows : String → Nat → Bool → Prop}
    (hd : ∀ f ps r, declared f ps r → declared' f ps r)
    (hk : ∀ f n more, K.knows f n more → knows f n more) {f : Func} {sites : List Site}
    (h : f.Bears K P declared sites) : f.Bears ⟨K.tidy, knows⟩ P declared' sites := by
  obtain ⟨Γ, hty, hsites⟩ := h
  exact ⟨Γ, hty.declare hd, hsites.imp fun _ _ hs => hs.mono hk fun _ _ => id⟩

namespace Builder.Bears

theorem mono {knows : String → Nat → Bool → Prop}
    (hd : ∀ f ps r, declared f ps r → declared' f ps r)
    (hk : ∀ f n more, K.knows f n more → knows f n more) (h : b.Bears K P declared types own) :
    b.Bears ⟨K.tidy, knows⟩ P declared' types own where
  next := h.next
  params := h.params
  code := by
    intro i hi
    obtain ⟨t, ht, hres⟩ := h.code i hi
    exact ⟨t, ht.mono hd fun _ _ h => h, hres⟩
  terms := h.terms
  sites := h.sites.imp fun _ _ hs => hs.mono hk fun _ _ h => h

theorem ofStart (id : Nat) (name : String) (tys : List Ty) (ret : Ty) :
    (Builder.start id name tys ret).Bears K P declared tys [] where
  next := rfl
  params := fun _ hp => (Ctx.has_numbered hp).2
  code := by simp [Builder.code, Builder.start, Builder.blocks]
  terms := by simp [Builder.start, Builder.blocks]
  sites := .nil

variable (h : b.Bears K P declared types own)

include h

/-- Typed instructions go at the end of the code. -/
theorem extend {code : List Instr} (hs : Straight P declared (.full types) code (.full types'))
    (hsites : Forall₂ (Instr.Serves K (Ctx.full types').Has) (marked code) own') :
    (b.extend code).Bears K P declared types' (own ++ own') := by
  have hle := hs.le
  constructor
  case next =>
    have hlen : types'.length = types.length + (results code).length := hs.length
    rw [hlen, h.next]
    rfl
  case params => exact fun p hp => Ctx.getElem?_of_prefix hle.types (h.params p hp)
  case code =>
    intro i hi
    rw [code_extend] at hi
    rcases List.mem_append.mp hi with hi | hi
    · obtain ⟨t, ht, hres⟩ := h.code i hi
      exact ⟨t, ht.mono (fun _ _ _ h => h) fun _ _ => hle.has, result_of_prefix hle.types hres⟩
    · obtain ⟨k, hk⟩ := List.mem_iff_getElem?.mp hi
      obtain ⟨t, ht, hres⟩ := hs.checked.of_getElem? hk
      exact ⟨t, ht.mono (fun _ _ _ h => h) fun _ _ hr => Ctx.full_has.mpr hr.2, hres⟩
  case terms =>
    intro B hB t ht
    rcases Builder.mem_blocks.mp hB with hB | rfl
    · exact (h.terms B (Builder.mem_blocks.mpr (.inl hB)) t ht).mono fun _ _ => hle.has
    · exact (h.terms b.block (Builder.mem_blocks.mpr (.inr rfl)) t ht).mono fun _ _ => hle.has
  case sites =>
    rw [code_extend, marked_append]
    exact List.rel_append (h.sites.imp fun _ _ hi => hi.mono (fun _ _ _ h => h) fun _ _ => hle.has)
      hsites

theorem freshBlock : b.freshBlock.2.Bears K P declared types own :=
  ⟨h.next, h.params, h.code, h.terms, h.sites⟩

theorem startBlock (id : BlockId) (label : String) :
    (b.startBlock id label).Bears K P declared types own := by
  have hcode := b.code_startBlock id label
  refine ⟨h.next, h.params, hcode ▸ h.code, fun B hB t ht => ?_, hcode ▸ h.sites⟩
  rcases Builder.mem_blocks.mp hB with hB | rfl
  · exact h.terms B hB t ht
  · simp [Builder.startBlock] at ht

theorem terminate {t : Terminator} (ht : t.Typed P b.ret (Ctx.full types).Has) :
    (b.terminate t).Bears K P declared types own := by
  have hcode := b.code_terminate t
  refine ⟨h.next, h.params, hcode ▸ h.code, fun B hB u hu => ?_, hcode ▸ h.sites⟩
  rcases Builder.mem_blocks.mp hB with hB | rfl
  · exact h.terms B (Builder.mem_blocks.mpr (.inl hB)) u hu
  · -- the first terminator stands
    cases hb : b.block.terminator with
    | none =>
      obtain rfl : t = u := by simpa [Builder.terminate, Block.terminate, hb] using hu
      exact ht
    | some w =>
      obtain rfl : w = u := by simpa [Builder.terminate, Block.terminate, hb] using hu
      exact h.terms b.block (Builder.mem_blocks.mpr (.inr rfl)) w hb

theorem branch {t : Terminator} (ht : t.Typed P b.ret (Ctx.full types).Has) (n : Nat) (id : BlockId)
    (label : String) : (b.branch t n id label).Bears K P declared types own := by
  have hn : ({ b with nextBlock := n } : Builder).Bears K P declared types own :=
    ⟨h.next, h.params, h.code, h.terms, h.sites⟩
  exact (hn.terminate ht).startBlock id label

theorem finish : b.finish.Bears K P declared own := by
  have hhas : ∀ r ty, (Ctx.full types).Has r ty → types.getD r.index .void = ty := by
    intro r ty hr
    simp [List.getD_eq_getElem?_getD, Ctx.full_has.mp hr]
  refine ⟨fun r => types.getD r.index .void, ⟨?_, ?_, ?_⟩, ?_⟩
  · intro p hp
    simp [List.getD_eq_getElem?_getD, h.params p hp]
  · intro i hi
    rw [Builder.finish_instrs] at hi
    obtain ⟨t, hop, hres⟩ := h.code i hi
    have ht : t = i.result.map fun r => types.getD r.index .void := by
      cases hr : i.result <;> cases t <;> simp_all [List.getD_eq_getElem?_getD]
      rw [← hres]
      rfl
    exact ht ▸ hop.mono (fun _ _ _ h => h) hhas
  · intro B hB t ht
    obtain ⟨B', hB', rfl⟩ : ∃ B' ∈ b.blocks, B'.terminate (Builder.fallback b.ret) = B := by
      simpa [Builder.finish_blocks] using hB
    rcases Builder.finish_terminator ht with ht | rfl
    · exact (h.terms B' hB' t ht).mono hhas
    · unfold Builder.fallback
      split
      · rename_i hret
        exact .bare (by rw [show b.finish.ret = .void from hret]; exact P.void)
      · exact .unreachable
  · rw [Builder.finish_instrs]
    exact h.sites.imp fun _ _ hs => hs.mono (fun _ _ _ h => h) hhas

end Builder.Bears

end Ir

/-- The function of this name has so many parameters. One that has a body takes no more. -/
def Ir.Module.Knows (m : Module) (name : String) (n : Nat) (more : Bool) : Prop :=
  ∃ f, m.func? name = some f ∧ f.params.length = n ∧ f.isVariadic = more

namespace Lowering

open Ir (Ctx Policy)

/-- A function of the module, or one under construction that can be called, has so many parameters.
One that has a body takes no more than these. -/
def State.Knows (st : State) (name : String) (n : Nat) (more : Bool) : Prop :=
  (∃ f ∈ st.module.funcs, f.name = name ∧ f.params.length = n ∧ f.isVariadic = more) ∨
    more = false ∧ ∃ b ∈ st.current :: st.enclosing, b.id ≠ 0 ∧ b.name = name ∧ b.params.length = n

def State.facts (tidy : Prop) (st : State) : SourceFacts := ⟨tidy, st.Knows⟩

section Passing

variable {links links' : List String} {new : List (Binding Handle)} {st st' : State}

theorem Passes.declares (h : Passes links links' new st st') :
    ∀ f ps r, st.Declares f ps r → st'.Declares f ps r := by
  rintro f ps r (⟨g, hg, hd⟩ | hd | ⟨b, hb, hd⟩)
  · exact .inl ⟨g, h.funcs.subset hg, hd⟩
  · exact .inr (.inl (by simpa [Declared, h.id, h.name, h.params, h.ret] using hd))
  · exact .inr (.inr ⟨b, h.enclosing ▸ hb, hd⟩)

theorem Passes.knows (h : Passes links links' new st st') :
    ∀ f n more, st.Knows f n more → st'.Knows f n more := by
  rintro f n more (⟨g, hg, hk⟩ | ⟨hmore, b, hb, hk⟩)
  · exact .inl ⟨g, h.funcs.subset hg, hk⟩
  · refine .inr ⟨hmore, ?_⟩
    rcases List.mem_cons.mp hb with rfl | hb
    · exact ⟨st'.current, List.mem_cons_self, by simpa [h.id, h.name, h.params] using hk⟩
    · exact ⟨b, List.mem_cons_of_mem _ (h.enclosing ▸ hb), hk⟩

end Passing

/-- What holds between two statements of a function that returns `ret`, with `v` in sight: the
function at hand stands for `own`, and those that are done for `done`, one by one. -/
structure State.Records (tidy : Prop) (P : Policy) (ret : Ty) (v : Sight) (st : State)
    (types : List Ir.Ty) (own : List Site) (done : List (List Site)) : Prop where
  body : st.current.Bears (st.facts tidy) P st.Declares types own
  names : st.InSight (.full types)
  aware : Aware (st.facts tidy) v st.names
  done : Forall₂ (Ir.Func.Bears (st.facts tidy) P st.Declares)
    (st.module.funcs.filter (!·.isExternal)) done
  returns : ret.LowersTo st.current.ret

section

variable {tidy : Prop} {P : Policy} {ret : Ty} {v w u : Sight} {st st₁ st' : State}
  {types types' : List Ir.Ty} {own own' : List Site} {done done' : List (List Site)}
  {links links' : List String} {bs : List (Binding Handle)}

namespace State.Records

variable (h : st.Records tidy P ret v types own done)

include h

theorem poised : Poised (st.facts tidy) st.Declares v st (.full types) :=
  ⟨⟨h.body.next, h.names.handles⟩, h.aware⟩

/-- The functions that are done stay as they are. -/
theorem done_mono (hd : ∀ f ps r, st.Declares f ps r → st'.Declares f ps r)
    (hk : ∀ f n more, st.Knows f n more → st'.Knows f n more) :
    Forall₂ (Ir.Func.Bears (st'.facts tidy) P st'.Declares)
      (st.module.funcs.filter (!·.isExternal)) done :=
  h.done.imp fun _ _ hf => hf.mono hd hk

/-- What was in sight and still is. -/
theorem aware_passes (hp : Passes links links' [] st st') : Aware (st'.facts tidy) v st'.names where
  shows := h.aware.shows.gain hp.gains
  stand := by
    have hvis : st'.names.visible = st.names.visible := hp.names.visible h.names.inside
    exact hvis ▸ h.aware.stand.mono hp.knows
  tidy := h.aware.tidy

/-- From one state to another, given what becomes of the code and of the names. -/
theorem passes (hp : Passes links links' bs st st') (htypes : types <+: types')
    (hbs : ∀ b ∈ bs, b.value.Sound st'.Declares (.full types') st'.current.id ∧
      b.value.OwnedBelow st'.nextId) (haware : Aware (st'.facts tidy) w st'.names)
    (hbody : st'.current.Bears (st'.facts tidy) P st'.Declares types' own')
    (hdone : Forall₂ (Ir.Func.Bears (st'.facts tidy) P st'.Declares)
      (st'.module.funcs.filter (!·.isExternal)) done') :
    st'.Records tidy P ret w types' own' done' := by
  have hvis : st'.names.visible = bs ++ st.names.visible := hp.names.visible h.names.inside
  refine ⟨hbody, ⟨hp.names.current_lt h.names.inside, ?_, ?_, ?_⟩, haware, hdone, ?_⟩
  · intro b hb
    rw [hvis] at hb
    rcases List.mem_append.mp hb with hb | hb
    · exact (hbs b hb).1
    · rw [hp.id]
      exact Handle.Sound.mono (Ctx.full_le htypes)
        (Handle.Sound.declare hp.declares (h.names.handles b hb))
  · intro b hb
    rw [hvis] at hb
    rcases List.mem_append.mp hb with hb | hb
    · exact (hbs b hb).2
    · exact (h.names.owners b hb).mono hp.nextId
  · rw [hp.id]
    exact Nat.lt_of_lt_of_le h.names.here hp.nextId
  · rw [hp.ret]
    exact h.returns

/-- A change to the function at hand only. -/
theorem builder {b : Ir.Builder} (hp : Passes [] [] [] st { st with current := b })
    (htypes : types <+: types') (hb : b.Bears (st.facts tidy) P st.Declares types' own') :
    { st with current := b : State }.Records tidy P ret v types' own' done :=
  h.passes hp htypes (List.forall_mem_nil _) (h.aware_passes hp) (hb.mono hp.declares hp.knows)
    (h.done_mono hp.declares hp.knows)

/-- A step of expression lowering. -/
theorem addsSites {act : LowerM α} {sites : List Site} {Q : α → Ctx → Prop} {a : α}
    (hl : AddsSites (st.facts tidy) P st.Declares v act st (.full types) sites Q)
    (hrun : Runs act st a st') :
    ∃ types', types <+: types' ∧ st'.Records tidy P ret v types' (own ++ sites) done ∧
      (∃ code, st' = st.extend code) ∧ Q a (.full types') := by
  obtain ⟨code, c', rfl, hcode, hsites, hq⟩ := hl a st' hrun
  obtain ⟨types', rfl⟩ : ∃ types', c' = .full types' := ⟨_, hcode.full⟩
  exact ⟨types', hcode.le.types, h.builder (.ofBuilder rfl rfl rfl rfl) hcode.le.types
    (h.body.extend hcode hsites), ⟨code, rfl⟩, hq⟩

theorem enter :
    { st with names := st.names.enter : State }.Records tidy P ret v types own done := by
  have hvis := ScopeTable.visible_enter _ h.names.inside
  refine ⟨h.body, ⟨by simp, ?_, ?_, h.names.here⟩, ⟨h.aware.shows.enter, ?_, h.aware.tidy⟩, h.done,
    h.returns⟩
  · intro b hb
    rw [hvis] at hb
    exact h.names.handles b hb
  · intro b hb
    rw [hvis] at hb
    exact h.names.owners b hb
  · exact hvis ▸ h.aware.stand

/-- One more name, which is not that of a struct. -/
theorem bindName {x : Sighting} {b : Binding Handle} (hx : x.members = none)
    (hb : (st.names.add b).Describes x b) (hstands : b.value.Stands (st.facts tidy) (x :: v) x)
    (hsound : b.value.Sound st.Declares (.full types) st.current.id ∧
      b.value.OwnedBelow st.nextId) :
    { st with names := st.names.add b : State }.Records tidy P ret (x :: v) types own done := by
  have hp : Passes [] [] [b] st { st with names := st.names.add b } := .bindAll [] st [b]
  refine h.passes hp List.prefix_rfl ?_ ⟨h.aware.shows.gain (.add _ hb), ?_, ?_⟩ h.body h.done
  · intro b' hb'
    rw [List.mem_singleton.mp hb']
    exact hsound
  · rw [hp.names.visible h.names.inside]
    exact .cons hstands h.aware.stand
  · exact fun ht => (h.aware.tidy ht).cons hx

end State.Records

variable {sig : Signature} {s : Span}

/-- What a function is bound to. -/
theorem LoweredSig.Of.stand_func {K : SourceFacts} {low : LoweredSig} (hlow : low.Of sig st)
    (haware : Aware K v st.names) (hn : st.names.LaidOut) {isExternal : Bool}
    {knows : String → Nat → Bool → Prop}
    (hknows : knows low.name low.params.length (sig.variadic && isExternal)) :
    (low.binding sig isExternal).value.Stands ⟨K.tidy, knows⟩ (sig.sighting isExternal :: v)
      (sig.sighting isExternal) := by
  refine ⟨Ty.lower_flat hn _ hlow.ret, hknows, fun htidy => ⟨sig.ret, rfl, ?_⟩⟩
  exact (Sight.lowerIn?_cons_plain rfl _).trans (haware.lower htidy _ hlow.ret)

/-- Parameters are bound to values of the types that they are declared with. -/
theorem LoweredSig.Of.stand_params {K : SourceFacts} {low : LoweredSig} (hlow : low.Of sig st)
    (haware : Aware K v st.names) (hn : st.names.LaidOut) (owner : Nat)
      {knows : String → Nat → Bool → Prop}
    {w : Sight} (hw : ∀ ty : Ty, ty.lowerIn? w = ty.lowerIn? v) (hbs : Stand ⟨K.tidy, knows⟩ w bs) :
    Stand ⟨K.tidy, knows⟩ ((sig.params.map Param.sighting).reverse ++ w)
      ((paramBindings sig.params low.params owner).reverse ++ bs) := by
  have hsights : sig.params.map Param.sighting =
      (sig.params.zip (Ir.numbered low.params)).map fun q => q.1.sighting := by
    have hzip : (sig.params.zip (Ir.numbered low.params)).map Prod.fst = sig.params :=
      List.map_fst_zip (by simp [Ir.numbered, hlow.length])
    conv_lhs => rw [← hzip, List.map_map]
    rfl
  have hparam : ∀ q ∈ sig.params.zip (Ir.numbered low.params), ∃ ty,
      q.1.ty.lower st.names = .ok ty ∧ q.2.2 = if ty.isAggregate then .ptr ty else ty := by
    intro q hq
    have hmem : (q.1, q.2.2) ∈ sig.params.zip low.params := by
      rw [← Ir.numbered_snd low.params, List.zip_map_right]
      exact List.mem_map.mpr ⟨q, hq, rfl⟩
    exact (List.forall₂_iff_zip.mp hlow.params).2 hmem
  rw [hsights, paramBindings]
  generalize sig.params.zip (Ir.numbered low.params) = qs at hparam
  induction qs generalizing w bs with
  | nil => exact hbs
  | cons q qs ih =>
    obtain ⟨ty, hty, ht⟩ := hparam q List.mem_cons_self
    have hcons : ∀ ty : Ty, ty.lowerIn? (q.1.sighting :: w) = ty.lowerIn? v := fun ty =>
      (Sight.lowerIn?_cons_plain rfl ty).trans (hw ty)
    have hflat : q.2.2.Flat := by
      rw [ht]
      split
      · trivial
      · exact Ty.lower_flat hn _ hty
    have hq : Stand ⟨K.tidy, knows⟩ (q.1.sighting :: w)
        (.plain q.1.name.name q.1.ty (.param q.2.1 q.2.2 owner) :: bs) :=
      .cons ⟨hflat, fun htidy => ⟨ty, (hcons _).trans (haware.lower htidy _ hty), ht⟩⟩ hbs
    have hrest := ih hcons hq fun q' hq' => hparam q' (List.mem_cons_of_mem _ hq')
    simpa using hrest

section Functions

variable {sig : Signature} {low : LoweredSig}

theorem State.enterFunction_knows :
    ∀ f n more, st.Knows f n more → (st.enterFunction sig low).Knows f n more := by
  rintro f n more (h | ⟨hmore, b, hb, hk⟩)
  · exact .inl h
  · exact .inr ⟨hmore, b, List.mem_cons_of_mem _ hb, hk⟩

theorem State.leaveFunction_knows (henc : st'.enclosing = st.current :: st.enclosing) :
    ∀ f n more, st'.Knows f n more → (st.leaveFunction st').Knows f n more := by
  rintro f n more (⟨g, hg, hk⟩ | ⟨rfl, b, hb, hid, hk⟩)
  · exact .inl ⟨g, List.mem_append_left _ hg, hk⟩
  · rcases List.mem_cons.mp hb with rfl | hb
    · exact .inl ⟨st'.current.finish, List.mem_append_right _ List.mem_cons_self, hk.1, hk.2, rfl⟩
    · exact .inr ⟨rfl, b, henc ▸ hb, hid, hk⟩

/-- A body is started with the parameters in sight. -/
theorem State.Records.enterFunction (h : st.Records tidy P ret v types own done)
    (hlow : low.Of sig st) :
    (st.enterBody sig low).Records tidy P sig.ret (sig.inside v) low.params [] done := by
  have hlaid : st.names.LaidOut := h.poised.laidOut
  have hplain : ∀ ty : Ty, ty.lowerIn? (sig.sighting false :: v) = ty.lowerIn? v :=
    Sight.lowerIn?_cons_plain rfl
  have hself : (st.enterFunction sig low).Knows low.name low.params.length
      (sig.variadic && false) := by
    refine .inr ⟨Bool.and_false _, _, List.mem_cons_self, ?_, rfl, ?_⟩
    · exact Nat.ne_of_gt (Nat.lt_of_le_of_lt (Nat.zero_le _) h.names.here)
    · simp [State.enterFunction, Ir.Builder.start, Ir.numbered]
  have hstand : Stand ((st.enterFunction sig low).facts tidy) (sig.sighting false :: v)
      (low.binding sig false :: st.names.visible) :=
    .cons (hlow.stand_func h.aware hlaid hself) (h.aware.stand.mono State.enterFunction_knows)
  have hbare : (st.enterFunction sig low).Records tidy P sig.ret (sig.sighting false :: v)
      low.params [] done := by
    refine ⟨.ofStart _ _ _ _, h.names.enterFunction, ⟨?_, ?_, ?_⟩,
      h.done_mono (st.enterFunction_declares sig low) State.enterFunction_knows,
      ⟨st.names, hlaid, hlow.ret⟩⟩
    · exact h.aware.shows.gain (.add _ (hlow.describes false _))
    · exact (ScopeTable.visible_add _ _ h.names.inside) ▸ hstand
    · exact fun ht => (h.aware.tidy ht).cons rfl
  have hp := Passes.bindAll []
    { st.enterFunction sig low with names := (st.enterFunction sig low).names.enter }
    (paramBindings sig.params low.params st.nextId)
  refine hbare.enter.passes hp List.prefix_rfl ?_ ⟨hlow.inside h.aware.shows, ?_, ?_⟩ hbare.body
    hbare.done
  · intro b hb
    exact ⟨paramBindings_sound (List.mem_reverse.mp hb),
      paramBindings_owned (List.mem_reverse.mp hb)⟩
  · rw [State.visible_enterBody h.names.inside]
    exact hlow.stand_params h.aware hlaid _ hplain hstand
  · intro ht
    obtain ⟨new, heq, hnew⟩ := Sight.inside_plain sig v
    exact heq ▸ (h.aware.tidy ht).plain hnew

/-- A function that is done has a body of its own, and can be called from then on. -/
theorem State.Records.leaveFunction (h : st.Records tidy P ret v types own done)
    (hlow : low.Of sig st)
    (hp : Passes (links ++ [sig.link links]) links' [] (st.enterFunction sig low) st₁)
    (hbody : st₁.current.Bears (st₁.facts tidy) P st₁.Declares types' own')
    (hdone : Forall₂ (Ir.Func.Bears (st₁.facts tidy) P st₁.Declares)
      (st₁.module.funcs.filter (!·.isExternal)) done') :
    (st.leaveFunction st₁).Records tidy P ret (sig.sighting false :: v) types own
      (done' ++ [own']) := by
  have hd : ∀ f ps r, st₁.Declares f ps r → (st.leaveFunction st₁).Declares f ps r :=
    State.leaveFunction_declares hp.enclosing
  have hk : ∀ f n more, st₁.Knows f n more → (st.leaveFunction st₁).Knows f n more :=
    State.leaveFunction_knows hp.enclosing
  have hout : Passes links links' [low.binding sig false] st (st.leaveFunction st₁) :=
    .leaveFunction hlow hp
  have hknown : (st.leaveFunction st₁).Knows low.name low.params.length
      (sig.variadic && false) := by
    refine .inl ⟨st₁.current.finish, List.mem_append_right _ List.mem_cons_self, hp.name, ?_,
      (Bool.and_false _).symm⟩
    show st₁.current.params.length = _
    rw [hp.params]
    simp [State.enterFunction, Ir.Builder.start, Ir.numbered]
  refine h.passes hout List.prefix_rfl ?_ ⟨?_, ?_, ?_⟩ (h.body.mono hout.declares hout.knows) ?_
  · intro b hb
    rw [List.mem_singleton.mp hb]
    exact ⟨hd _ _ _ (hp.declares _ _ _ (h.names.declares_self sig low)), trivial⟩
  · exact (h.aware.shows.gain (.add _ (hlow.describes false _))).gain hp.gains
  · rw [hout.names.visible h.names.inside]
    exact .cons (hlow.stand_func h.aware h.poised.laidOut hknown) (h.aware.stand.mono hout.knows)
  · exact fun ht => (h.aware.tidy ht).cons rfl
  · have hfuncs : (st.leaveFunction st₁).module.funcs.filter (!·.isExternal) =
        st₁.module.funcs.filter (!·.isExternal) ++ [st₁.current.finish] := by
      simp [State.leaveFunction, Ir.Module.addFunc, Ir.Builder.finish]
    rw [hfuncs]
    exact List.rel_append (hdone.imp fun _ _ hf => hf.mono hd hk)
      (.cons (hbody.finish.mono hd hk) .nil)

end Functions

/-- A place in a function that returns `ret`, where `sight` is in sight. -/
structure Outpost where
  ret : Ty
  sight : Sight

/-- Through a program that obeys the policy, and in which no struct hides another if it is
`tidy`. -/
def obeying (tidy : Prop) (P : Policy) : Route Outpost where
  after k s := ⟨k.ret, s.declares ++ k.sight⟩
  past k _ := k
  beyond k _ := k
  inside k sig := ⟨sig.ret, sig.inside k.sight⟩
  cond _ e := e.Obeys P.literal
  stmt k s := s.Obeys P.law k.ret ∧ (tidy → s.Throughout .tidy k.sight)
  otherwise k a := a.Obeys P.law k.ret ∧ (tidy → a.Throughout .tidy k.sight)
  body k ss := Stmt.AllObey P.law k.ret ss ∧ (tidy → Stmt.AllThroughout .tidy k.sight ss)
  fnDef := fun ⟨hs, ht⟩ => ⟨hs.2, fun h => (ht h).2⟩
  if_ := fun ⟨hs, ht⟩ => ⟨hs.1, ⟨hs.2.1, fun h => (ht h).2.2.1⟩, hs.2.2, fun h => (ht h).2.2.2⟩
  block := fun ⟨hs, ht⟩ => ⟨hs, fun h => (ht h).2⟩
  else_ := id
  elif := fun ⟨hs, ht⟩ => ⟨hs.1, ⟨hs.2.1, fun h => (ht h).2.1⟩, hs.2.2, fun h => (ht h).2.2⟩
  cons := fun ⟨hs, ht⟩ => ⟨⟨hs.1, fun h => (ht h).1⟩, hs.2, fun h => (ht h).2⟩

/-- Sites for the function at hand, and those of functions that end. -/
def siteDeposits (tidy : Prop) (P : Policy) :
    Deposits (obeying tidy P) (List Site × List (List Site)) where
  zero := ([], [])
  add x y := (x.1 ++ y.1, x.2 ++ y.2)
  ofCond k e := (e.sites k.sight, [])
  ofStmt k s := (s.sites k.sight, s.bodies k.sight)
  ofOtherwise k a := (a.sites k.sight, a.bodies k.sight)
  ofBody k ss := (Stmt.allSites k.sight ss, Stmt.allBodies k.sight ss)
  add_zero x := by simp

/-- The sites are left between these states, and the functions that end stand for theirs. -/
def LeavesSites (tidy : Prop) (P : Policy) (k k' : Outpost) (st st' : State)
    (x : List Site × List (List Site)) : Prop :=
  ∀ types own done, st.Records tidy P k.ret k.sight types own done →
    ∃ types', types <+: types' ∧
      st'.Records tidy P k'.ret k'.sight types' (own ++ x.1) (done ++ x.2)

section Steps

variable {k k' : Outpost} {x : List Site × List (List Site)}

/-- Lowering of expressions. -/
theorem leavesSites_of_addsSites {act : LowerM α} {sites : List Site}
    (hl : ∀ K declared st c, Poised K declared k.sight st c →
      AddsSites K P declared k.sight act st c sites fun _ _ => True) :
    Relates (LeavesSites tidy P) _ k k act (sites, []) := by
  intro st a st' hrun types own done hs
  obtain ⟨types', hle, hs', -⟩ := hs.addsSites (hl _ _ _ _ hs.poised) hrun
  exact ⟨types', hle, by simpa using hs'⟩

/-- A step that changes the function at hand only, and leaves no site in it. -/
theorem leavesSites_of_builder {act : LowerM α}
    (hact : ∀ st a st', Runs act st a st' → ∃ b,
      st' = { st with current := b } ∧ Passes [] [] [] st st' ∧ ∀ K declared types own,
        st.current.Bears K P declared types own → b.Bears K P declared types own) :
    Relates (LeavesSites tidy P) _ k k act ([], []) := by
  intro st a st' hrun types own done hs
  obtain ⟨b, rfl, hp, hb⟩ := hact _ _ _ hrun
  exact ⟨types, List.prefix_rfl, by simpa using hs.builder hp List.prefix_rfl (hb _ _ _ _ hs.body)⟩

theorem openArm_leavesSites {cond : Expr} (hcond : cond.Obeys P.literal) (join : Ir.BlockId)
    (label : String) (more : Bool) :
    Relates (LeavesSites tidy P) _ k k (openArm join label cond more) (cond.sites k.sight, []) := by
  intro st no st' hrun types own done hs
  obtain ⟨x, st₁, bit, st₂, yes, n, hx, hbit, -, rfl⟩ := openArm_inv hrun
  obtain ⟨types₁, hle₁, hs₁, -, hheld⟩ :=
    hs.addsSites (value_addsSites cond hcond _ _ hs.poised) hx
  obtain ⟨types₂, hle₂, hs₂, -, hbool, hty⟩ := hs₁.addsSites
    (.ofPlain computing_plain.truthy (truthy_lowers hs₁.poised.ready hheld.1)) hbit
  rw [Operand.Held, hty] at hbool
  have ht : (Ir.Terminator.condBr bit.reg yes no).Typed P st₂.current.ret (Ctx.full types₂).Has :=
    .condBr hbool
  have hs₃ := hs₂.builder (.branch _ _ _ _) List.prefix_rfl (hs₂.body.branch ht n yes label)
  exact ⟨types₂, hle₁.trans hle₂, by simpa using hs₃⟩

/-- Names that are bound in a scope are gone with it. -/
theorem inScope_leavesSites {ss : List Stmt}
    (h : Relates (LeavesSites tidy P) _ k k' (stmts ss) x) :
    Relates (LeavesSites tidy P) _ k k (inScope s (stmts ss)) x := by
  intro st a st' hrun types own done hs
  obtain ⟨st₁, outer, hact, hleave, rfl⟩ := within_inv hrun
  obtain ⟨types', hle, hin⟩ := h _ _ _ hact _ _ _ hs.enter
  obtain ⟨new, hp, -⟩ := stmts_passes ss [] hact
  have hout := hp.leave hleave
  exact ⟨types', hle,
    hs.passes hout hle (List.forall_mem_nil _) (hs.aware_passes hout) hin.body hin.done⟩

theorem variable_leavesSites {name : Ident} {ty : Ty} {init : Option Expr}
    (hinit : ∀ e ∈ init, e.Obeys P.literal) (s : Span) :
    Relates (LeavesSites tidy P) _ k ((obeying tidy P).after k (.varDef name ty init s))
      (variable_ name ty init) (init.elim [] (·.sites k.sight), []) := by
  intro st a st' hrun types own done hs
  obtain ⟨t, ptr, st₁, hty, hcell, rfl⟩ := variable_inv hrun
  obtain ⟨types', hle, hs₁, ⟨code, rfl⟩, hptr⟩ :=
    hs.addsSites (newCell_addsSites hinit hs.poised) hcell
  refine ⟨types', hle, ?_⟩
  rw [List.append_nil]
  refine hs₁.bindName rfl (.plain rfl rfl ⟨rfl, rfl⟩ rfl rfl) ?_ ⟨fun _ => hptr, hs.names.here⟩
  refine ⟨Ty.lower_flat hs.poised.laidOut _ hty, fun ht => ?_⟩
  exact (Sight.lowerIn?_cons_plain rfl _).trans (hs.aware.lower ht _ hty)

theorem return_leavesSites {e : Option Expr} (hret : P.law.returns k.ret e.isSome)
    (he : ∀ e' ∈ e, e'.Obeys P.literal) :
    Relates (LeavesSites tidy P) _ k k (return_ e) (e.elim [] (·.sites k.sight), []) := by
  intro st a st' hrun types own done hs
  obtain ⟨r, st₁, hr, rfl⟩ := return_inv hrun
  obtain ⟨types', hle, hs₁, ⟨code, rfl⟩, hsome, hreg⟩ :=
    hs.addsSites (returned_addsSites he hs.poised) hr
  have ht : (Ir.Terminator.ret r).Typed P st.current.ret (Ctx.full types').Has := by
    have hlaw := hret _ hs.returns
    rw [← hsome] at hlaw
    cases r with
    | none => exact .bare hlaw
    | some reg => exact .value hlaw (hreg reg rfl)
  refine ⟨types', hle, ?_⟩
  rw [List.append_nil]
  exact hs₁.builder (.ofBuilder rfl rfl rfl rfl) List.prefix_rfl (hs₁.body.terminate ht)

/-- The layout that a struct is bound to is that of its members. -/
theorem struct_leavesSites {name : Ident} {members : List Param}
    (htidy : tidy → Rule.tidy.stmt k.sight (.structDef name members s)) :
    Relates (LeavesSites tidy P) _ k ((obeying tidy P).after k (.structDef name members s))
      (struct_ name members s) ([], []) := by
  intro st a st' hrun types own done hs
  obtain ⟨fields, hfields, hp, hcurrent, hfuncs⟩ :
    ∃ fields, _ ∧ Passes [] [] _ st st' ∧ _ := struct_names hrun
  have hgains := stmt_gains (s := .structDef name members s) hs.names.inside
    (by unfold stmt; exact hrun)
  refine ⟨types, List.prefix_rfl, ?_⟩
  rw [List.append_nil, List.append_nil]
  refine hs.passes hp List.prefix_rfl ?_ ⟨hs.aware.shows.gain hgains, ?_, ?_⟩ ?_ ?_
  · intro b hb
    rcases List.mem_cons.mp hb with rfl | hb
    · exact ⟨rfl, trivial⟩
    · rw [List.mem_singleton.mp hb]
      exact ⟨trivial, trivial⟩
  · rw [hp.names.visible hs.names.inside]
    refine .cons (fun ht => ⟨⟨name.name, fields⟩, ?_, rfl⟩)
      (.cons trivial (hs.aware.stand.mono hp.knows))
    refine (Sight.layout?_struct rfl).mpr ⟨rfl, hfields.imp fun m f hf => ⟨hf.1, ?_⟩⟩
    exact (Sight.lowerIn?_cons_plain rfl _).trans (hs.aware.lower ht _ hf.2)
  · exact fun ht => (hs.aware.tidy ht).declares (htidy ht)
  · rw [hcurrent]
    exact hs.body.mono hp.declares hp.knows
  · rw [hfuncs]
    exact hs.done_mono hp.declares hp.knows

theorem fnDef_leavesSites {body : List Stmt}
    (hbody : Relates (LeavesSites tidy P) _ ((obeying tidy P).inside k sig) k' (stmts body) x) :
    Relates (LeavesSites tidy P) _ k ((obeying tidy P).after k (.fnDef sig body s))
      (stmt (.fnDef sig body s)) ([], x.2 ++ [x.1]) := by
  intro st a st' hrun types own done hs
  obtain ⟨low, st₁, outer, hlow, hrun₁, hp, rfl⟩ :=
    fnDef_body (fun _ _ => stmts_passes body ([] ++ [sig.link []])) hrun
  obtain ⟨types', -, hin⟩ := hbody _ _ _ hrun₁ _ _ _ (hs.enterFunction hlow)
  have hout := hs.leaveFunction hlow hp hin.body hin.done
  refine ⟨types, List.prefix_rfl, ?_⟩
  rw [List.append_nil, ← List.append_assoc]
  exact hout

theorem fnDecl_leavesSites :
    Relates (LeavesSites tidy P) _ k ((obeying tidy P).after k (.fnDecl sig s))
      (stmt (.fnDecl sig s)) ([], []) := by
  intro st a st' hrun types own done hs
  obtain ⟨low, hlow, hp, hcurrent, hfuncs⟩ :
    ∃ low, _ ∧ Passes [] _ _ st st' ∧ _ := fnDecl_names hrun
  have hmem : .external low.name low.params low.ret sig.variadic ∈ st'.module.funcs :=
    hfuncs ▸ List.mem_append_right _ List.mem_cons_self
  have hknown : st'.Knows low.name low.params.length (sig.variadic && true) :=
    .inl ⟨_, hmem, rfl, by simp [Ir.Func.external, Ir.numbered], (Bool.and_true _).symm⟩
  refine ⟨types, List.prefix_rfl, ?_⟩
  rw [List.append_nil, List.append_nil]
  refine hs.passes hp List.prefix_rfl ?_
    ⟨hs.aware.shows.gain (stmt_gains hs.names.inside hrun), ?_, ?_⟩ ?_ ?_
  · intro b hb
    rw [List.mem_singleton.mp hb]
    exact ⟨.inl ⟨_, hmem, rfl, Ir.numbered_snd _, rfl⟩, trivial⟩
  · rw [hp.names.visible hs.names.inside]
    exact .cons (hlow.stand_func hs.aware hs.poised.laidOut hknown)
      (hs.aware.stand.mono hp.knows)
  · exact fun ht => (hs.aware.tidy ht).cons rfl
  · rw [hcurrent]
    exact hs.body.mono hp.declares hp.knows
  · have hfilter : st'.module.funcs.filter (!·.isExternal) =
        st.module.funcs.filter (!·.isExternal) := by
      simp [hfuncs, Ir.Func.external]
    rw [hfilter]
    exact hs.done_mono hp.declares hp.knows

end Steps

/-- A statement leaves its sites, and its functions theirs. -/
theorem sites_kept : (siteDeposits tidy P).Kept (Relates (LeavesSites tidy P)) where
  chained := by
    refine .relates (fun k st types own done hs => ?_) fun {k k₁ k' x y st st₁ st'} h₁ h₂ => ?_
    · exact ⟨types, List.prefix_rfl, by simpa [siteDeposits] using hs⟩
    · intro types own done hs
      obtain ⟨types₁, hle₁, hs₁⟩ := h₁ _ _ _ hs
      obtain ⟨types₂, hle₂, hs₂⟩ := h₂ _ _ _ hs₁
      exact ⟨types₂, hle₁.trans hle₂, by simpa [siteDeposits] using hs₂⟩
  reopen := by
    refine leavesSites_of_builder fun st a st' hrun => ?_
    obtain ⟨-, rfl⟩ | ⟨-, rfl⟩ := reopen_inv hrun
    · exact ⟨_, rfl, .ofBuilder rfl rfl rfl rfl, fun _ _ _ _ hb => hb.freshBlock.startBlock _ _⟩
    · exact ⟨_, rfl, .refl _ _, fun _ _ _ _ hb => hb⟩
  openIf := by
    refine leavesSites_of_builder fun st a st' hrun => ?_
    obtain ⟨first, n, rfl⟩ := openIf_inv hrun
    exact ⟨_, rfl, .branch _ _ _ _, fun _ _ _ _ hb => hb.branch .br n first _⟩
  startBlock := by
    refine leavesSites_of_builder fun st a st' hrun => ?_
    obtain rfl := runs_startBlock.mp hrun
    exact ⟨_, rfl, .ofBuilder rfl rfl rfl rfl, fun _ _ _ _ hb => hb.startBlock _ _⟩
  branchTo := by
    refine leavesSites_of_builder fun st a st' hrun => ?_
    obtain rfl := runs_terminate.mp hrun
    exact ⟨_, rfl, .ofBuilder rfl rfl rfl rfl, fun _ _ _ _ hb => hb.terminate .br⟩
  openArm he := openArm_leavesSites he _ _ _
  inScope _ hss := inScope_leavesSites hss
  fnDef _ hss := fnDef_leavesSites hss
  varDef hs := by
    unfold stmt
    exact variable_leavesSites hs.1.2 _
  structDef hs := by
    unfold stmt
    exact struct_leavesSites hs.2
  fnDecl _ := fnDecl_leavesSites
  varSet hs := by
    unfold stmt
    exact leavesSites_of_addsSites fun _ _ _ _ => assign_addsSites hs.1
  memberSet hs := by
    unfold stmt
    exact leavesSites_of_addsSites fun _ _ _ _ => assignMember_addsSites hs.1.1 hs.1.2
  expr hs := by
    unfold stmt
    exact leavesSites_of_addsSites fun _ _ _ _ => effect_addsSites hs.1
  return_ hs := by
    unfold stmt
    exact return_leavesSites hs.1.1 hs.1.2

theorem start_records (name : String) :
    (State.start name).Records tidy P .void .start [] [] [] := by
  have hsound : (State.start name).Sound P .void ⟨[], []⟩ (fun _ => []) [] := start_sound name
  have hprintf : (State.start name).Knows "printf" 1 true :=
    .inl ⟨_, List.mem_cons_self, rfl, rfl, rfl⟩
  refine ⟨.ofStart _ _ _ _, hsound.names, ⟨start_shows name, ?_, fun _ => .start⟩, .nil,
    hsound.returns⟩
  rw [start_visible]
  exact .cons ⟨trivial, hprintf, fun _ => ⟨_, rfl, rfl⟩⟩ .nil

/-- Nothing but functions of the module is known once all functions are done. -/
theorem State.Sealed.knows {m : Ir.Module} (hm : (m.funcs.map (·.name)).Nodup)
    (hsub : st.module.funcs ⊆ m.funcs) (hid : st.current.id = 0) (henc : st.enclosing = []) :
    ∀ f n more, st.Knows f n more → m.Knows f n more := by
  rintro f n more (⟨g, hg, rfl, hn, hmore⟩ | ⟨-, b, hb, hne, -⟩)
  · exact ⟨g, Ir.Module.func?_of_mem hm (hsub hg), hn, hmore⟩
  · obtain rfl : b = st.current := by simpa [henc] using hb
    exact absurd hid hne

end

end Lowering

/-- The sites of each function of a program, in the order in which these end. Top-level statements
make up the last one, unless there are only definitions. -/
def Program.functions (p : Program) : List (List Site) :=
  Stmt.allBodies .start p ++ if p.all Stmt.isDefinition then [] else [Stmt.allSites .start p]

open Lowering in
/-- The functions with a body are those of the program, one by one, and what they call and access is
what these do. -/
theorem Program.lower_bears {P : Ir.Policy} {tidy : Prop} {p : Program}
    (hp : Stmt.AllObey P.law .void p) (ht : tidy → Stmt.AllThroughout .tidy .start p)
      {name : String}
    {m : Ir.Module} (h : p.lower name = .ok m) :
    Forall₂ (Ir.Func.Bears ⟨tidy, m.Knows⟩ P m.Declares) (m.funcs.filter (!·.isExternal))
      p.functions := by
  obtain ⟨st, hrun, hst⟩ := lower_inv h
  obtain ⟨w, hleaves⟩ := sites_kept.topLevel rfl p ⟨.void, .start⟩ ⟨hp, ht⟩
  obtain ⟨types, -, hs⟩ := hleaves _ _ _ hrun _ _ _ (start_records name)
  obtain ⟨new, c, entry, -, hm, -⟩ := topLevel_keeps p p.obeys_any _ _ _ _ _ (start_sound name) hrun
  have hid : st.current.id = 0 := hm.id
  have henc : st.enclosing = [] := hm.enclosing
  have hsub : st.module.funcs ⊆ m.funcs := by
    rw [hst]
    split
    · exact List.Subset.refl _
    · exact List.subset_append_left _ _
  have hd := State.Sealed.declares (lower_unique h) hsub hid henc
  have hk := State.Sealed.knows (lower_unique h) hsub hid henc
  have hfuncs : m.funcs.filter (!·.isExternal) = st.module.funcs.filter (!·.isExternal) ++
      if p.all Stmt.isDefinition then [] else [st.current.finish] := by
    rw [hst]
    split
    · rw [List.append_nil]
    · simp [Ir.Module.addFunc, Ir.Builder.finish]
  rw [hfuncs, functions]
  refine List.rel_append (hs.done.imp fun _ _ hf => hf.mono hd hk) ?_
  split
  · exact .nil
  · exact .cons (hs.body.finish.mono hd hk) .nil

end Frontend
