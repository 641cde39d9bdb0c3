import Frontend.Proofs.Pipeline
import Frontend.Proofs.Records
import Frontend.Proofs.WellTyped

/-!
Calls and accesses to members in the module of an accepted text. Each stands for one of the source,
in the same order. A call passes as many arguments as are written, so it suits its callee if it was
written to. The address of a field is that of a field of the struct that was defined, as long as no
struct hides another.
-/
namespace Frontend

open List (Forall₂)

namespace Ir

def Op.isCall : Op → Bool
  | .call _ _ | .callPtr _ _ => true
  | _ => false

def Op.isFieldPtr : Op → Bool
  | .fieldPtr _ _ => true
  | _ => false

/-- The arguments of a call. -/
def Op.args : Op → List Reg
  | .call _ args | .callPtr _ args => args
  | _ => []

/-- Whether the function may be passed so many arguments: as many as it has parameters, or at least
as many if it is variadic. -/
def Func.admits (f : Func) (n : Nat) : Bool :=
  if f.isVariadic then f.params.length ≤ n else n = f.params.length

/-- Whether the function of this name may be passed so many. -/
def Module.admits (m : Module) (f : String) (n : Nat) : Bool := (m.func? f).any (·.admits n)

/-- Whether a call passes what its callee takes. A function value takes as many arguments as there
are parameters in its type. -/
def Module.fits (m : Module) (Γ : Reg → Ty) : Op → Bool
  | .call f args => m.admits f args.length
  | .callPtr r args =>
    match Γ r with
    | .fn params _ => args.length = params.length
    | _ => false
  | _ => true

/-- What is read or written where the register points to is of this type. -/
def Func.UsesAs (f : Func) (Γ : Reg → Ty) (r : Reg) (ty : Ty) : Prop :=
  ∀ i ∈ f.instrs, match i.op with
    | .load p t => p = r → t = ty
    | .store p v => p = r → Γ v = ty
    | .fieldPtr p _ => p = r → ty.isAggregate
    | _ => True

/-- The instruction takes the address of a field of a struct. -/
def Instr.Addresses (Γ : Reg → Ty) : Instr → Prop
  | ⟨some r, .fieldPtr p _⟩ => ∃ s, s.isAggregate ∧ Γ p = .ptr s ∧ ∃ ty, Γ r = .ptr ty
  | _ => False

/-- The instruction takes the address of this field of a struct with this layout, and the field is
used as what it is. -/
def Func.Accesses (f : Func) (Γ : Reg → Ty) (l : Layout) (field : String) : Instr → Prop
  | ⟨some r, .fieldPtr p _⟩ => Γ p = .ptr l.ty ∧
    ∃ ty, l.field? field = some ty ∧ Γ r = .ptr ty ∧ f.UsesAs Γ r ty
  | _ => False

variable {P : Policy} {declared : String → List Ty → Ty → Prop} {f : Func} {Γ : Reg → Ty}

theorem Func.WellTyped.usesAs (h : f.WellTyped P declared Γ) {r : Reg} {ty : Ty}
    (hr : Γ r = .ptr ty) : f.UsesAs Γ r ty := by
  intro i hi
  have hop := h.instrs i hi
  generalize i.op = op at hop
  generalize i.result.map Γ = t at hop
  cases hop with
  | load hp =>
    rintro rfl
    exact Ty.ptr.inj (hp.symm.trans hr)
  | store hp hv =>
    rintro rfl
    exact hv.trans (Ty.ptr.inj (hp.symm.trans hr))
  | fieldPtr hp hs =>
    rintro rfl
    exact Ty.ptr.inj (hp.symm.trans hr) ▸ hs
  | _ => trivial

theorem Func.WellTyped.cell (h : f.WellTyped P declared Γ) {r : Reg} {ty : Ty}
    (hr : ⟨some r, .alloca ty⟩ ∈ f.instrs) : Γ r = .ptr ty := by
  have hop := h.instrs _ hr
  dsimp only [Option.map] at hop
  generalize hres : some (Γ r) = t at hop
  cases hop with
  | alloca => exact Option.some.inj hres

theorem marked_filter {p : Op → Bool} (hp : ∀ op, p op → op.isMarked) (code : List Instr) :
    (marked code).filter (p ·.op) = code.filter (p ·.op) := by
  rw [marked, List.filter_filter]
  refine List.filter_congr fun i _ => ?_
  cases hi : p i.op with
  | false => rfl
  | true => simp [hp i.op hi]

end Ir

/-- Two lists that agree, with only some of each left. -/
theorem forall₂_select {R : α → β → Prop} {S : α → γ → Prop} {p : α → Bool} {g : β → Option γ}
    (h : ∀ a b, R a b → (p a = false ∧ g b = none) ∨ (p a = true ∧ ∃ c, g b = some c ∧ S a c))
    {as : List α} {bs : List β} (hab : Forall₂ R as bs) :
    Forall₂ S (as.filter p) (bs.filterMap g) := by
  induction hab with
  | nil => exact .nil
  | @cons a b as bs hr _ ih =>
    rcases h a b hr with ⟨ha, hb⟩ | ⟨ha, c, hb, hs⟩
    · simpa [ha, hb] using ih
    · rw [List.filter_cons_of_pos ha, List.filterMap_cons_some hb]
      exact .cons hs ih

namespace Ir

/-- The calls of a function suit their callees just where the calls of the source do, one by one. -/
def Func.CallsAs (f : Func) (m : Module) (Γ : Reg → Ty) (calls : List CallSite) : Prop :=
  Forall₂ (fun i c => i.op.args.length = c.passed ∧ m.fits Γ i.op = c.fits)
    (f.instrs.filter (·.op.isCall)) calls

/-- The addresses of fields that a function takes are those of structs; of the fields that the
source asks for, if no struct hides another. -/
def Func.AccessesAs (f : Func) (tidy : Prop) (Γ : Reg → Ty)
    (accesses : List (Option Layout × String)) : Prop :=
  Forall₂ (fun i a => i.Addresses Γ ∧ (tidy → ∃ l, a.1 = some l ∧ f.Accesses Γ l a.2 i))
    (f.instrs.filter (·.op.isFieldPtr)) accesses

variable {tidy : Prop} {m : Module} {P : Policy} {f : Func} {sites : List Site}

/-- A call suits its callee if the site was written to. -/
theorem Func.Bears.calls (h : f.Bears ⟨tidy, m.Knows⟩ P m.Declares sites) :
    ∃ Γ, f.WellTyped P m.Declares Γ ∧ f.CallsAs m Γ (sites.filterMap Site.call?) := by
  obtain ⟨Γ, hty, hsites⟩ := h
  refine ⟨Γ, hty, ?_⟩
  rw [CallsAs, ← marked_filter (p := Op.isCall)
    (by rintro (_ | _) <;> simp [Op.isCall, Op.isMarked])]
  refine forall₂_select (fun i s hs => ?_) hsites
  cases hs with
  | @named res g args c hargs hg =>
    obtain ⟨g', hfunc, hn, hmore⟩ := hg
    refine .inr ⟨rfl, c, rfl, hargs, ?_⟩
    simp [Module.fits, Module.admits, CallSite.fits, Func.admits, hfunc, hn, hmore, hargs]
  | @pointer res r args params ret c hargs hmore hr htakes =>
    refine .inr ⟨rfl, c, rfl, hargs, ?_⟩
    have hr : Γ r = .fn params ret := hr
    simp [Module.fits, CallSite.fits, hr, hmore, hargs, htakes]
  | field => exact .inl ⟨rfl, rfl⟩

/-- The address of a field is that of the field that the site asks for. -/
theorem Func.Bears.accesses (h : f.Bears ⟨tidy, m.Knows⟩ P m.Declares sites) :
    ∃ Γ, f.WellTyped P m.Declares Γ ∧ f.AccessesAs tidy Γ (sites.filterMap Site.access?) := by
  obtain ⟨Γ, hty, hsites⟩ := h
  refine ⟨Γ, hty, ?_⟩
  rw [AccessesAs, ← marked_filter (p := Op.isFieldPtr)
    (by rintro (_ | _) <;> simp [Op.isFieldPtr, Op.isMarked])]
  have htyped := (List.forall₂_and_left _ _).mpr
    ⟨fun i hi => hty.instrs i (List.mem_of_mem_filter hi), hsites⟩
  refine forall₂_select (fun i s his => ?_) htyped
  obtain ⟨hop, hs⟩ := his
  cases hs with
  | named | pointer => exact .inl ⟨rfl, rfl⟩
  | @field r p k layout name hfield =>
    refine .inr ⟨rfl, (layout, name), rfl, ?_, fun htidy => ?_⟩
    · generalize hres : Option.map Γ (some r) = t at hop
      cases hop with
      | fieldPtr hp hagg => exact ⟨_, hagg, hp, _, Option.some.inj hres⟩
    · obtain ⟨l, ty, hl, hname, hp, hr⟩ := hfield htidy
      exact ⟨l, hl, hp, ty, hname, hr, hty.usesAs hr⟩

end Ir

/-- What was accepted is as the typing rules ask for. -/
theorem Accepted.obeys {src : String} {ts : List Token} {p q : Program}
    {ws : List (Located Warning)}
    (h : Accepted src ts p q ws) : Stmt.AllObey Ir.Policy.strict.law .void q := by
  have hq := Program.check_obeys h.check (Grammar.program_obeys _ ts p h.read .void)
  exact Stmt.AllObey.mono Law.checked_le_strict q .void hq

/-- In the module that a text is compiled to, functions with a body stand for those of the checked
tree, and calls for the calls in them, one by one and in this order. Each passes the arguments that
are written and no more, so it suits its callee if and only if it was written to. -/
theorem compile_calls_as_written (file src : String) (out : Output)
    (h : compile file .ir src = .ok out) :
    ∃ ts p q ws m, Accepted src ts p q ws ∧ q.lower (moduleName file) = .ok m ∧
      out.artifact = m.text ∧ Forall₂ (fun f sites => ∃ Γ, f.WellTyped .strict m.Declares Γ ∧
        f.CallsAs m Γ (sites.filterMap Site.call?))
        (m.funcs.filter (!·.isExternal)) q.functions := by
  obtain ⟨ts, p, q, ws, hacc, -, -, hir⟩ := compile_inv (by decide) h
  obtain ⟨m, hm, htext⟩ := hir rfl
  have hbears := Program.lower_bears hacc.obeys (fun h : False => h.elim) hm
  exact ⟨ts, p, q, ws, m, hacc, hm, htext, hbears.imp fun _ _ hf => hf.calls⟩

/-- Calls by name and by value, of a variadic function and of one that calls itself, with too few,
too many and as many arguments as there are parameters. -/
def tallyText : String :=
  "tally : fn i32 (a: i32, b: i32) \x7b printf('%d', a, b); return tally(a); \x7d\n" ++
  "apply : fn i32 (h: fn i32) \x7b return h() + h(tally(1, 2)); \x7d\n" ++
  "tally(1, 2, 3);"

theorem compile_tallyText_calls_as_written : ∃ out, compile "main.tv" .ir tallyText = .ok out ∧
    ∃ ts p q ws m, Accepted tallyText ts p q ws ∧ q.lower "main" = .ok m ∧
      q.functions.map (·.filterMap Site.call?) =
        [[⟨1, 3, true⟩, ⟨2, 1, false⟩], [⟨0, 0, false⟩, ⟨2, 2, false⟩, ⟨0, 1, false⟩],
          [⟨2, 3, false⟩]] ∧
      Forall₂ (fun f sites => ∃ Γ, f.WellTyped .strict m.Declares Γ ∧
        f.CallsAs m Γ (sites.filterMap Site.call?))
        (m.funcs.filter (!·.isExternal)) q.functions := by
  have hrun : surveyed tallyText (fun _ q _ => do
      let _ ← (q.lower "main").toOption
      return q.functions.map (·.filterMap Site.call?)) =
        some [[⟨1, 3, true⟩, ⟨2, 1, false⟩], [⟨0, 0, false⟩, ⟨2, 2, false⟩, ⟨0, 1, false⟩],
          [⟨2, 3, false⟩]] := by
    exact surveyed_of_chars (append_ofList (append_ofList rfl)) (by decide +kernel)
  have hname : moduleName "main.tv" = "main" := by decide +kernel
  obtain ⟨ts, p, q, ws, m, hacc, hm, -⟩ := surveyed_lower hrun
  obtain ⟨out, hout⟩ := hacc.compiles (hname ▸ hm)
  obtain ⟨ts, p, q, ws, m, hacc, hm, -, hcalls⟩ := compile_calls_as_written _ _ _ hout
  rw [hname] at hm
  rw [hacc.surveyed, hm] at hrun
  exact ⟨out, hout, ts, p, q, ws, m, hacc, hm, Option.some.inj hrun, hcalls⟩

/-- It is not so that every call by name suits its callee: a function with a parameter may be passed
nothing. -/
theorem compile_call_unsuited : ¬ ∀ file src out, compile file .ir src = .ok out →
    ∀ ts p q ws m, Accepted src ts p q ws → q.lower (moduleName file) = .ok m →
    ∀ f ∈ m.funcs, ∀ i ∈ f.instrs, ∀ g args, i.op = .call g args → m.admits g args.length := by
  intro h
  have hrun : surveyed "f : fn i32 (a: i32) \x7b return a; \x7d x := f();" (fun _ q _ => do
      let m ← (q.lower (moduleName "main.tv")).toOption
      return m.funcs.any fun f => f.instrs.any fun i =>
        match i.op with
        | .call g args => !m.admits g args.length
        | _ => false) = some true := by
    decide +kernel
  obtain ⟨ts, p, q, ws, m, hacc, hm, hany⟩ := surveyed_lower hrun
  obtain ⟨out, hout⟩ := hacc.compiles hm
  obtain ⟨f, hf, hinstrs⟩ := List.any_eq_true.mp hany
  obtain ⟨i, hi, hcall⟩ := List.any_eq_true.mp hinstrs
  split at hcall
  · rename_i g args hop
    simp [h _ _ _ hout ts p q ws m hacc hm f hf i hi g args hop] at hcall
  · simp at hcall

/-- In the module of an accepted program, the addresses of fields stand for the accesses to members
of the checked tree, one by one and in this order. Each is taken of a pointer to a struct. If no
struct is defined while another of its name is in sight, that struct has the layout it was defined
to have, and what is read, written or addressed at the field has the type that the definition gives
the member. -/
theorem Program.lower_accesses (src : String) (ts : List Token) (p q : Program)
    (ws : List (Located Warning)) (name : String) (m : Ir.Module) (h : Accepted src ts p q ws)
    (hm : q.lower name = .ok m) :
    Forall₂ (fun f sites => ∃ Γ, f.WellTyped .strict m.Declares Γ ∧
      f.AccessesAs (Stmt.AllThroughout .tidy .start q) Γ (sites.filterMap Site.access?))
      (m.funcs.filter (!·.isExternal)) q.functions :=
  (lower_bears h.obeys (fun ht => ht) hm).imp fun _ _ hf => hf.accesses

/-- Members of structs in structs, read, written and addressed, of a variable, of a parameter and
through a pointer. -/
def nestText : String :=
  "P : struct \x7b a: i32; b: f64; \x7d\n" ++
  "Q : struct \x7b p: P; r: *P; \x7d\n" ++
  "f : fn f64 (q: *Q, s: Q) \x7b t : Q; t.r = q->r; t.p.a = 3; return s.p.b + q->r->b; \x7d\n"

theorem Program.lower_nest_accesses : ∃ ts p q ws m, Accepted nestText ts p q ws ∧
    q.lower "nest" = .ok m ∧ Stmt.AllThroughout .tidy .start q ∧
    q.functions.map (fun sites => (sites.filterMap Site.access?).map (·.2)) =
      [["r", "r", "p", "a", "p", "b", "r", "b"]] ∧
    Forall₂ (fun f sites => ∃ Γ, f.WellTyped .strict m.Declares Γ ∧
      f.AccessesAs (Stmt.AllThroughout .tidy .start q) Γ (sites.filterMap Site.access?))
      (m.funcs.filter (!·.isExternal)) q.functions := by
  have hrun : surveyed nestText (fun _ q _ => do
      let _ ← (q.lower "nest").toOption
      return (decide (Stmt.AllThroughout .tidy .start q),
        q.functions.map fun sites => (sites.filterMap Site.access?).map (·.2))) =
      some (true, [["r", "r", "p", "a", "p", "b", "r", "b"]]) := by
    exact surveyed_of_chars (append_ofList (append_ofList rfl)) (by decide +kernel)
  obtain ⟨ts, p, q, ws, m, hacc, hm, hq⟩ := surveyed_lower hrun
  obtain ⟨htidy, hfields⟩ := Prod.mk.inj hq
  exact ⟨ts, p, q, ws, m, hacc, hm, of_decide_eq_true htidy, hfields,
    lower_accesses nestText ts p q ws "nest" m hacc hm⟩

/-- What an instruction does with memory: its result, the address that it starts from, and the type
of the cell that it makes or reads. -/
def Ir.Instr.memory? : Instr → Option (Option Reg × Option Reg × Option Ty)
  | ⟨r, .alloca ty⟩ => some (r, none, some ty)
  | ⟨r, .fieldPtr s _⟩ => some (r, some s, none)
  | ⟨r, .load s ty⟩ => some (r, some s, some ty)
  | _ => none

section Memory

variable {i : Ir.Instr} {r : Option Ir.Reg} {s : Ir.Reg} {ty : Ir.Ty}

theorem Ir.Instr.eq_alloca (h : i.memory? = some (r, none, some ty)) : i = ⟨r, .alloca ty⟩ := by
  obtain ⟨r', op⟩ := i
  cases op <;> simp_all [memory?]

theorem Ir.Instr.eq_fieldPtr (h : i.memory? = some (r, some s, none)) :
    ∃ k, i = ⟨r, .fieldPtr s k⟩ := by
  obtain ⟨r', op⟩ := i
  cases op <;> simp_all [memory?]

theorem Ir.Instr.eq_load (h : i.memory? = some (r, some s, some ty)) : i = ⟨r, .load s ty⟩ := by
  obtain ⟨r', op⟩ := i
  cases op <;> simp_all [memory?]

end Memory

/-- A struct that hides that of a variable. -/
def hidingText : String :=
  "P : struct \x7b a: i32; \x7d " ++
  "f : fn \x7b x : P; \x7b P : struct \x7b a: f64; \x7d y := x.a; \x7d \x7d"

/-- It is not so that what is at the address of a field is always of the type of a field of that
struct. -/
theorem Program.lower_access_mistyped : ¬ ∀ src ts p q ws name m, Accepted src ts p q ws →
    q.lower name = .ok m → ∀ f ∈ m.funcs, ∀ Γ, f.WellTyped .strict m.Declares Γ →
    ∀ r s k, ⟨some r, .fieldPtr s k⟩ ∈ f.instrs →
      ∃ fields ty, Γ s = .ptr (.struct fields) ∧ ty ∈ fields ∧ f.UsesAs Γ r ty := by
  intro h
  have hrun : surveyed hidingText (fun _ q _ => do
      let m ← (q.lower "main").toOption
      return m.funcs.any fun f => !f.isExternal &&
        ((some ⟨0⟩, none, some (.struct [.i32])) ∈ f.instrs.filterMap Ir.Instr.memory?) &&
        ((some ⟨2⟩, some ⟨0⟩, none) ∈ f.instrs.filterMap Ir.Instr.memory?) &&
        ((some ⟨3⟩, some ⟨2⟩, some .f64) ∈ f.instrs.filterMap Ir.Instr.memory?)) = some true := by
    exact surveyed_of_chars (append_ofList rfl) (by decide +kernel)
  obtain ⟨ts, p, q, ws, m, hacc, hm, hany⟩ := surveyed_lower hrun
  obtain ⟨f, hf, hf'⟩ := List.any_eq_true.mp hany
  simp only [Bool.and_eq_true, Bool.not_eq_true', decide_eq_true_eq, List.mem_filterMap] at hf'
  obtain ⟨⟨⟨hext, i, hi, hi'⟩, j, hj, hj'⟩, l, hl, hl'⟩ := hf'
  obtain ⟨Γ, hty⟩ := (lower_funcs hacc.obeys hm hf hext).2
  obtain rfl := Ir.Instr.eq_alloca hi'
  obtain ⟨k, rfl⟩ := Ir.Instr.eq_fieldPtr hj'
  obtain rfl := Ir.Instr.eq_load hl'
  obtain ⟨fields, ty, hs, hmem, huses⟩ := h _ ts p q ws "main" m hacc hm f hf Γ hty _ _ _ hj
  -- the variable is a struct with an integer in it, and a float is read from there
  have hfields : fields = [.i32] := by simpa [hty.cell hi, eq_comm] using hs
  have hread : ty = .f64 := (huses _ hl rfl).symm
  simp [hfields, hread] at hmem

end Frontend
