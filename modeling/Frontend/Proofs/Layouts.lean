import Frontend.Proofs.Balance
import Frontend.Proofs.Declarations
import Frontend.Proofs.Obligations
import Frontend.Proofs.Pipeline
import Frontend.Proofs.WellTyped

/-!
Layouts of types. A type is lowered wherever it is declared and wherever a value of it is used, and
each time the structs that it names are looked up again. They are found if three things are heeded
that the check does not look at: what a function type returns is of a type in sight, the names of
structs are not taken for anything else while they can be seen, and they are not used as values.
-/
namespace Frontend

namespace Sight

/-- Whether the nearest of this name is a struct. -/
def defines (v : Sight) (name : String) : Bool := (v.lookup? name).any (·.members.isSome)

/-- What the check takes for it: whether the nearest of this name has the type of a struct. -/
def isStruct (v : Sight) (name : String) : Bool := (v.lookup? name).any (·.ty.base = .struct)

/-- No struct in sight gives its name to something else. -/
def keepsStructs (v new : Sight) : Bool := new.all fun x => x.members.isSome || !v.defines x.name

end Sight

/-- Whether values may have this type: every struct that it names, at whatever depth, is in
sight. -/
def Ty.knownIn (v : Sight) : Ty → Bool
  | .prim p _ => p ≠ .scope
  | .struct _ _ => false
  | .inst name _ => v.defines name
  | .fn ret _ => ret.knownIn v

/-- The same, but for the name that the check looks at. -/
def Ty.inwardKnown (v : Sight) : Ty → Bool
  | .inst _ _ => true
  | ty => ty.knownIn v

/-- Neither a struct nor the scope of its members. -/
def Sighting.isValue (x : Sighting) : Bool := x.ty.base ≠ .struct && x.ty.base ≠ .prim .scope

mutual

/-- The names that stand in an expression, those of members apart. -/
def Expr.names : Expr → List String
  | .literal _ _ _ => []
  | .ident id => [id.name]
  | .paren e _ | .unary _ e _ | .cast e _ _ | .member e _ _ _ => e.names
  | .binary _ lhs rhs _ => lhs.names ++ rhs.names
  | .call callee args _ => callee.names ++ Expr.allNames args

def Expr.allNames : List Expr → List String
  | [] => []
  | e :: es => e.names ++ Expr.allNames es

end

/-- Every name in the expression is used as what it is. -/
def Expr.usesValues (v : Sight) (e : Expr) : Bool :=
  e.names.all fun name => (v.lookup? name).all (·.isValue)

def Signature.inwardKnown (v : Sight) (sig : Signature) : Bool :=
  sig.ret.inwardKnown v && sig.params.all (·.ty.inwardKnown v)

/-- What a statement has to heed, its bodies and conditions apart. The type of a variable with a
value is that of the value. -/
def Stmt.heeds (v : Sight) : Stmt → Bool
  | .varDef name ty none s => ty.inwardKnown v && v.keepsStructs
      (Stmt.varDef name ty none s).declares
  | .varDef name ty (some e) s =>
    e.usesValues v && v.keepsStructs (Stmt.varDef name ty (some e) s).declares
  | .structDef name members s =>
    members.all (·.ty.inwardKnown v) && v.keepsStructs (Stmt.structDef name members s).declares
  | .fnDef sig _ _ => sig.inwardKnown v && v.keepsStructs (sig.inside [])
  | .fnDecl sig _ => sig.inwardKnown v && v.keepsStructs [sig.sighting true]
  | .varSet _ e _ | .expr e _ => e.usesValues v
  | .memberSet target e _ => target.usesValues v && e.usesValues v
  | .return_ e _ => e.all (·.usesValues v)
  | .break_ _ | .for_ .. | .if_ .. | .block .. => true

def Rule.layout : Rule where
  stmt := fun v s => s.heeds v
  cond := fun v e => e.usesValues v

instance (v : Sight) (s : Stmt) : Decidable (Rule.layout.stmt v s) :=
  inferInstanceAs (Decidable (s.heeds v = true))

instance (v : Sight) (e : Expr) : Decidable (Rule.layout.cond v e) :=
  inferInstanceAs (Decidable (e.usesValues v = true))

namespace Sight

variable {v new : Sight} {name : String}

theorem mem_of_lookup? {x : Sighting} (h : v.lookup? name = some x) : x ∈ v :=
  List.mem_of_find?_eq_some h

theorem defines_iff : v.defines name ↔ ∃ x, v.lookup? name = some x ∧ x.members.isSome := by
  simp [defines, Option.any_eq_true]

/-- A struct in sight stays in sight, or another takes its place. -/
theorem defines_append (hnew : v.keepsStructs new) (h : v.defines name) :
    Sight.defines (new ++ v) name := by
  rw [defines, lookup?, List.find?_append]
  cases hx : new.find? (·.name = name) with
  | none => simpa [defines, lookup?] using h
  | some x =>
    have hname : x.name = name := by simpa using List.find?_some hx
    have hkeep := List.all_eq_true.mp hnew x (List.mem_of_find?_eq_some hx)
    simpa [hname, h] using hkeep

theorem isStruct_of_cons {x : Sighting} (hx : x.ty.base ≠ .struct)
    (h : Sight.isStruct (x :: v) name) : v.isStruct name := by
  by_cases hname : x.name = name
  · simp [isStruct, lookup?, hname, hx] at h
  · simpa [isStruct, lookup?, hname] using h

end Sight

namespace Ty

variable {v new : Sight} {ty : Ty}

theorem knownIn_append (hnew : v.keepsStructs new) (ty : Ty) (h : ty.knownIn v) :
    ty.knownIn (new ++ v) := by
  match ty with
  | .prim p n => exact h
  | .inst name n => exact Sight.defines_append hnew h
  | .fn ret n => exact knownIn_append hnew ret h

theorem knownIn_withLevels (n : Int) : (ty.withLevels n).knownIn v = ty.knownIn v := by
  cases ty <;> rfl

theorem knownIn_of_isNumeric (h : ty.isNumeric) : ty.knownIn v := by
  cases ty with
  | prim p n => cases p <;> simp_all [isNumeric, isInteger, isFloat, base,
      Base.isInteger, Base.isFloat, knownIn]
  | _ => simp [isNumeric, isInteger, isFloat, base, Base.isInteger, Base.isFloat] at h

theorem base_of_knownIn (h : ty.knownIn v) : ty.base ≠ .struct ∧ ty.base ≠ .prim .scope := by
  cases ty <;> simp_all [knownIn, base]

theorem base_of_inwardKnown (h : ty.inwardKnown v) : ty.base ≠ .struct := by
  cases ty <;> simp_all [inwardKnown, knownIn, base]

end Ty

/-- The name is that of a struct with members of types in sight, that of a scope, or that of a value
of such a type. -/
def Sighting.Sane (v : Sight) (x : Sighting) : Prop :=
  match x.members with
  | some members => x.ty.base = .struct ∧ ∀ m ∈ members, m.ty.knownIn v
  | none => x.ty.base = .prim .scope ∨ x.ty.knownIn v

def Sight.Sane (v : Sight) : Prop := ∀ x ∈ v, x.Sane v

variable {ty ret : Ty} {v : Sight} {sig : Signature} {s r : Stmt} {Q : α → Prop}

namespace Sight.Sane

variable {v new : Sight}

theorem start : Sight.start.Sane := by
  intro x hx
  obtain rfl := List.mem_singleton.mp hx
  exact .inr rfl

theorem append (h : v.Sane) (hnew : v.keepsStructs new) (hsane : ∀ x ∈ new, x.Sane (new ++ v)) :
    Sight.Sane (new ++ v) := by
  intro x hx
  rcases List.mem_append.mp hx with hx | hx
  · exact hsane x hx
  · have hxv := h x hx
    unfold Sighting.Sane at hxv ⊢
    split at hxv
    · exact ⟨hxv.1, fun m hm => Ty.knownIn_append hnew _ (hxv.2 m hm)⟩
    · exact hxv.imp_right (Ty.knownIn_append hnew _)

/-- The check takes nothing for a struct that is none. -/
theorem defines (h : v.Sane) {name : String} (hname : v.isStruct name) : v.defines name := by
  obtain ⟨x, hx, hbase⟩ : ∃ x, v.lookup? name = some x ∧ x.ty.base = .struct := by
    simpa [Sight.isStruct, Option.any_eq_true] using hname
  have hsane := h x (Sight.mem_of_lookup? hx)
  refine Sight.defines_iff.mpr ⟨x, hx, ?_⟩
  unfold Sighting.Sane at hsane
  split at hsane
  · rename_i hmembers
    simp [hmembers]
  · rcases hsane with hscope | hknown
    · simp [hbase] at hscope
    · exact absurd hbase (Ty.base_of_knownIn hknown).1

/-- A type that the check let pass is known if it is known inward. -/
theorem known (h : v.Sane) (hname : ∀ name ∈ ty.name?, v.isStruct name) (hty : ty.inwardKnown v) :
    ty.knownIn v := by
  cases ty with
  | inst name n => exact h.defines (hname name rfl)
  | _ => exact hty

end Sight.Sane

/-- A type in sight has a layout, unless it is made of values of any type. -/
theorem Ty.lower_known {t : ScopeTable Handle} (ht : t.Shows v) (ty : Ty) (h : ty.knownIn v) :
    (∃ layout, ty.lower t = .ok layout) ∨ ty.lower t = .error (.missingLayout (.prim .any)) := by
  match ty with
  | .prim p n =>
    cases p with
    | any => exact .inr rfl
    | scope => simp [Ty.knownIn] at h
    | _ => exact .inl ⟨_, rfl⟩
  | .inst name n =>
    obtain ⟨x, hx, hmembers⟩ := Sight.defines_iff.mp h
    have hrel := ht.find? name
    rw [hx] at hrel
    generalize hb : t.find? name = b at hrel
    cases hrel with
    | @some _ b hxb =>
      have hfits : Handle.Fits x b.value := hxb.fits
      obtain ⟨layout, hvalue⟩ : ∃ layout, b.value = .struct layout := by
        cases hv : b.value with
        | struct layout => exact ⟨layout, rfl⟩
        | _ =>
          rw [hv] at hfits
          have hnone : x.members = none := hfits.1
          simp [hnone] at hmembers
      exact .inl ⟨layout.ptrs n.toNat,
        by simp [Ty.lower, ScopeTable.layout?, hb, hvalue, Handle.aggregate?]⟩
  | .fn ret n =>
    rcases Ty.lower_known ht ret h with ⟨layout, hret⟩ | hret
    · exact .inl ⟨_, by simp only [Ty.lower, hret]; rfl⟩
    · exact .inr (by simp only [Ty.lower, hret]; rfl)

theorem Ty.no_trouble {t : ScopeTable Handle} (ht : t.Shows v) (h : ty.knownIn v)
    (err : LowerError) : ¬ ty.Trouble t err := by
  rintro ⟨b, hlower, hany, -⟩
  rcases ty.lower_known ht h with ⟨layout, hok⟩ | hmissing
  · simp [hok] at hlower
  · exact hany (Except.error.inj (hlower.symm.trans hmissing))

/-- Whatever is in a table that shows `v`, nothing goes wrong with the expression. -/
def Expr.Quiet (v : Sight) (e : Expr) : Prop :=
  ∀ t : ScopeTable Handle, t.Shows v → ∀ err, ¬ e.Trouble t err

/-- The expression was checked, with `v` in sight, and heeds what else there is to heed. -/
structure Expr.Laid (u : ScopeTable Unit) (v : Sight) (e : Expr) : Prop extends e.Checked u where
  values : ∀ name ∈ e.names, ∀ x ∈ v.lookup? name, x.isValue

namespace Expr.Laid

variable {u : ScopeTable Unit} {v : Sight} {e : Expr} {s : Span}

theorem intro (hc : Check.expr u e = .ok ()) (hf : e.Fitted) (hv : e.usesValues v) :
    e.Laid u v where
  toChecked := .intro hc hf
  values := by
    intro name hname x hx
    have hall := List.all_eq_true.mp hv name hname
    rw [Option.mem_def.mp hx] at hall
    exact hall

theorem paren (h : (Expr.paren e s).Laid u v) : e.Laid u v := ⟨h.toChecked.paren, h.values⟩

theorem unary {op : UnaryOp} (h : (Expr.unary op e s).Laid u v) : e.Laid u v :=
  ⟨h.toChecked.unary, h.values⟩

theorem cast {ty : Ty} (h : (Expr.cast e ty s).Laid u v) : e.Laid u v :=
  ⟨h.toChecked.cast, h.values⟩

theorem member {field : Ident} {arrow : Bool} (h : (Expr.member e field arrow s).Laid u v) :
    e.Laid u v :=
  ⟨h.toChecked.member, h.values⟩

theorem lhs {op : BinaryOp} {rhs : Expr} (h : (Expr.binary op e rhs s).Laid u v) : e.Laid u v :=
  ⟨h.toChecked.lhs, fun name hname => h.values name (List.mem_append_left _ hname)⟩

theorem rhs {op : BinaryOp} {lhs : Expr} (h : (Expr.binary op lhs e s).Laid u v) : e.Laid u v :=
  ⟨h.toChecked.rhs, fun name hname => h.values name (List.mem_append_right _ hname)⟩

theorem callee {args : List Expr} (h : (Expr.call e args s).Laid u v) : e.Laid u v :=
  ⟨h.toChecked.callee, fun name hname => h.values name (List.mem_append_left _ hname)⟩

theorem argument {args : List Expr} (h : (Expr.call e args s).Laid u v) {a : Expr} (ha : a ∈ args) :
    a.Laid u v where
  toChecked := h.toChecked.argument ha
  values := fun name hname => h.values name (List.mem_append_right _ (mem_allNames args ha hname))
where
  mem_allNames {name : String} : ∀ args : List Expr, a ∈ args → name ∈ a.names →
      name ∈ Expr.allNames args
    | _ :: args, ha, hname => by
      rcases List.mem_cons.mp ha with rfl | ha
      · exact List.mem_append_left _ hname
      · exact List.mem_append_right _ (mem_allNames args ha hname)

/-- The values that an expression may have are of a type in sight. -/
theorem known (hu : u.Shows v) (hsane : v.Sane) (e : Expr) (h : e.Laid u v) {ty : Ty}
    (hty : e.typeIn? v = some ty) : ty.knownIn v := by
  match e with
  | .literal value ty' s =>
    obtain rfl := Option.some.inj hty
    have hfit : value.Matches ty' := h.fitted
    cases value with
    | int n => exact Ty.knownIn_of_isNumeric (by simp [Ty.isNumeric, show ty'.isInteger from hfit])
    | float x => exact Ty.knownIn_of_isNumeric (by simp [Ty.isNumeric, show ty'.isFloat from hfit])
    | str text =>
      obtain rfl : ty' = .string := hfit
      rfl
    | bool b =>
      obtain rfl : ty' = .bool := hfit
      rfl
  | .ident id =>
    obtain ⟨x, hx, rfl⟩ := Option.map_eq_some_iff.mp hty
    have hvalue := h.values id.name List.mem_cons_self x hx
    have hx := hsane x (Sight.mem_of_lookup? hx)
    unfold Sighting.Sane at hx
    split at hx
    · simp [Sighting.isValue, hx.1] at hvalue
    · exact hx.resolve_left fun hscope => by simp [Sighting.isValue, hscope] at hvalue
  | .paren inner s => exact known hu hsane inner h.paren hty
  | .unary op operand s =>
    obtain ⟨ty₀, hty₀, hop⟩ := Option.bind_eq_some_iff.mp hty
    have hknown := known hu hsane operand h.unary hty₀
    cases op with
    | not =>
      obtain rfl := Option.some.inj hop
      rfl
    | neg | bitNot =>
      obtain rfl := Option.some.inj hop
      exact hknown
    | addressOf =>
      obtain rfl := Option.some.inj hop
      rwa [Ty.addLevels, Ty.knownIn_withLevels]
    | deref =>
      simp only [UnaryOp.infer] at hop
      split at hop
      · simp [Except.toOption] at hop
      · obtain rfl := Option.some.inj hop
        rwa [Ty.addLevels, Ty.knownIn_withLevels]
  | .binary op lhs rhs s =>
    obtain rfl | hl | hr := typeIn?_binary hty
    · rfl
    · exact known hu hsane lhs h.lhs hl
    · exact known hu hsane rhs h.rhs hr
  | .cast operand ty' s =>
    obtain rfl := Option.some.inj hty
    obtain ⟨actual, hactual, rfl | hc⟩ := h.typed.castType
    · exact known hu hsane operand h.cast (hu.infer_eq_ok.mp hactual)
    · have hnumbers : ty'.isNumeric ∧ actual.isNumeric := by simpa [Ty.compatible] using hc
      exact Ty.knownIn_of_isNumeric hnumbers.1
  | .call callee args s =>
    obtain ⟨f, hf, hret⟩ := Option.bind_eq_some_iff.mp hty
    have hknown := known hu hsane callee h.callee hf
    cases f with
    | fn ret n =>
      obtain rfl := Option.some.inj hret
      exact hknown
    | _ => simp [Ty.return?] at hret
  | .member object field arrow s =>
    obtain ⟨x, hx, members, hmembers, m, hm, rfl⟩ := typeIn?_member hty
    have hxv := hsane x hx
    rw [Sighting.Sane, hmembers] at hxv
    exact hxv.2 m hm

/-- Nothing can go wrong with its names, types and layouts. -/
theorem quiet (h : e.Laid u v) (hu : u.Shows v) (hsane : v.Sane) : e.Quiet v := by
  intro t ht err herr
  have hinfer : ∀ (e : Expr) (ty : Ty), e.infer t = .ok ty ↔ e.infer u = .ok ty :=
    fun e ty => ht.infer_eq_ok.trans hu.infer_eq_ok.symm
  induction herr with
  | literal htrouble => exact Ty.no_trouble ht (known hu hsane _ h rfl) _ htrouble
  | ident hnone =>
    obtain ⟨b, hb⟩ := h.typed.ident
    obtain ⟨c, hc⟩ := hu.exists_find? ht hb
    simp [hnone] at hc
  | paren _ ih => exact ih h.paren
  | unary _ ih => exact ih h.unary
  | lhs _ ih => exact ih h.lhs
  | rhs _ ih => exact ih h.rhs
  | lhsType hop herr =>
    obtain ⟨l, r, ty, hl, -⟩ := h.typed.binary.2.2 hop
    simp [(hinfer _ _).mpr hl] at herr
  | rhsType hop herr =>
    obtain ⟨l, r, ty, -, hr, -⟩ := h.typed.binary.2.2 hop
    simp [(hinfer _ _).mpr hr] at herr
  | apart hop hl hr hjoin =>
    obtain ⟨l, r, ty, hl', hr', hty⟩ := h.typed.binary.2.2 hop
    obtain rfl := Except.ok.inj (hl'.symm.trans ((hinfer _ _).mp hl))
    obtain rfl := Except.ok.inj (hr'.symm.trans ((hinfer _ _).mp hr))
    simp [hjoin] at hty
  | joined hop hl hr hjoin htrouble =>
    refine Ty.no_trouble ht ?_ _ htrouble
    rcases Ty.join_eq hjoin with rfl | rfl
    · exact known hu hsane _ h.lhs (ht.infer_eq_ok.mp hl)
    · exact known hu hsane _ h.rhs (ht.infer_eq_ok.mp hr)
  | cast htrouble => exact Ty.no_trouble ht (known hu hsane _ h rfl) _ htrouble
  | operand _ ih => exact ih h.cast
  | callee _ ih => exact ih h.callee
  | argument ha _ ih => exact ih (h.argument ha)
  | object _ ih => exact ih h.member
  | member herr =>
    obtain ⟨ty, hty⟩ := h.typed.member.2
    simp [(hinfer _ _).mpr hty] at herr
  | memberType hty htrouble =>
    exact Ty.no_trouble ht (known hu hsane _ h (ht.infer_eq_ok.mp hty)) _ htrouble

end Expr.Laid

/-- The types that a statement declares names with. -/
def Stmt.types : Stmt → List Ty
  | .varDef _ ty _ _ => [ty]
  | .structDef _ members _ => members.map (·.ty)
  | .fnDef sig _ _ | .fnDecl sig _ => sig.ret :: sig.params.map (·.ty)
  | _ => []

namespace Check

variable {st st' : State} {v : Sight} {t : ScopeTable Unit}

theorem isStruct_eq (hv : t.Shows v) (name : String) : t.isStruct name = v.isStruct name := by
  have hrel := hv.find? name
  rw [ScopeTable.isStruct, Sight.isStruct]
  revert hrel
  generalize v.lookup? name = x
  generalize t.find? name = b
  rintro (hxb | -)
  · simp [hxb.ty]
  · rfl

theorem Known.inSight (h : Known t ty) (hv : t.Shows v) : ∀ name ∈ ty.name?, v.isStruct name := by
  intro name hname
  rw [← isStruct_eq hv]
  exact h name hname

/-- The names of parameters and members do not count, for they are not those of structs. -/
theorem Admits.inSight {ps : List Param} (h : Admits t ps) (hv : t.Shows v)
    (hps : ∀ p ∈ ps, p.ty.base ≠ .struct) : ∀ p ∈ ps, ∀ name ∈ p.ty.name?, v.isStruct name := by
  induction ps generalizing t v with
  | nil => simp
  | cons p ps ih =>
    obtain ⟨-, hknown, hrest⟩ := h
    have hbind : t.Gains (t.add (paramBinding p)) [p.sighting] :=
      .add _ (.plain rfl rfl trivial rfl rfl)
    have hrest := ih hrest (hv.gain hbind) fun q hq => hps q (List.mem_cons_of_mem _ hq)
    intro q hq name hname
    rcases List.mem_cons.mp hq with rfl | hq
    · exact hknown.inSight hv name hname
    · exact Sight.isStruct_of_cons (hps p List.mem_cons_self) (hrest q hq name hname)

/-- Parameters are declared inside, with the function in sight. -/
theorem signature_inSight {isExternal : Bool} (hret : Known t sig.ret)
    (hparams : Admits (t.add (sigBinding sig isExternal)).enter sig.params) (hv : t.Shows v)
    (hbase : ∀ ty ∈ sig.ret :: sig.params.map (·.ty), ty.base ≠ .struct) :
    ∀ ty ∈ sig.ret :: sig.params.map (·.ty), ∀ name ∈ ty.name?, v.isStruct name := by
  have hself : t.Gains (t.add (sigBinding sig isExternal)) [sig.sighting isExternal] :=
    .add _ (.plain rfl rfl trivial rfl rfl)
  intro ty hty name hname
  rcases List.mem_cons.mp hty with rfl | hty
  · exact hret.inSight hv name hname
  · obtain ⟨p, hp, rfl⟩ := List.mem_map.mp hty
    have hin := hparams.inSight (hv.gain hself).enter
      (fun q hq => hbase q.ty (List.mem_cons_of_mem _ (List.mem_map_of_mem hq))) p hp name hname
    exact Sight.isStruct_of_cons (by exact nofun) hin

/-- The check has seen that the outermost name of each type is that of a struct. -/
theorem Passes.inSight (h : Passes st (.stmt s r) st') (hv : st.names.Shows v)
    (hbase : ∀ ty ∈ s.types, ty.base ≠ .struct) :
    ∀ ty ∈ s.types, ∀ name ∈ ty.name?, v.isStruct name := by
  cases h with
  | varDef _ hknown _ _ =>
    intro ty' hty
    obtain rfl := List.mem_singleton.mp hty
    exact hknown.inSight hv
  | @structDef _ name members _ _ _ hmembers _ =>
    have hmark : st.names.Gains (st.names.add ⟨membersMarker name.name, .prim .scope 0, .none,
        some st.names.size, ()⟩) [{ name := membersMarker name.name, ty := .prim .scope 0 }] :=
      .add _ (.plain rfl rfl trivial rfl rfl)
    have hin := hmembers.inSight (hv.gain hmark).enter
      fun q hq => hbase q.ty (List.mem_map_of_mem hq)
    intro ty hty name hname
    obtain ⟨m, hmem, rfl⟩ := List.mem_map.mp hty
    exact Sight.isStruct_of_cons (by exact nofun) (hin m hmem name hname)
  | fnDef _ hret hparams _ _ | fnDecl _ hret hparams _ =>
    exact signature_inSight hret hparams hv hbase
  | _ => simp [Stmt.types]

/-- A value of a type in sight, or a number, is what a variable starts with. -/
theorem Takes.known {e e' : Expr} {ws : List (Located Warning)} (ht : t.Shows v) (hsane : v.Sane)
    (h : Takes t ty e e' ws) (he : e'.Laid t v) : ty.knownIn v := by
  cases h with
  | same hty => exact he.known ht hsane _ (ht.infer_eq_ok.mp hty)
  | @retyped actual _ _ _ hcompatible _ =>
    have hnumbers : ty.isNumeric ∧ actual.isNumeric := by simpa [Ty.compatible] using hcompatible
    exact Ty.knownIn_of_isNumeric hnumbers.1

/-- Every type that a statement declares is known. -/
theorem Passes.types (h : Passes st (.stmt s r) st') (hv : st.names.Shows v) (hsane : v.Sane)
    (hr : r.heeds v) (ho : r.Obeys .checked ret) : ∀ ty ∈ r.types, ty.knownIn v := by
  have hinward : (∀ ty ∈ s.types, ty.inwardKnown v) → ∀ ty ∈ s.types, ty.knownIn v := by
    intro hin ty hty
    have hnames := h.inSight hv fun ty h => Ty.base_of_inwardKnown (hin ty h)
    exact hsane.known (hnames ty hty) (hin ty hty)
  cases h with
  | varDef _ _ _ htakes =>
    cases htakes with
    | none =>
      refine hinward fun ty' hty => ?_
      obtain rfl := List.mem_singleton.mp hty
      exact (Bool.and_eq_true_iff.mp hr).1
    | some hexpr htakes =>
      intro ty' hty
      obtain rfl := List.mem_singleton.mp hty
      exact htakes.known hv hsane (.intro (expr_coerced htakes.coerced hexpr) (ho.2 _ rfl)
        (Bool.and_eq_true_iff.mp hr).1)
  | structDef =>
    refine hinward fun ty hty => ?_
    obtain ⟨m, hm, rfl⟩ := List.mem_map.mp hty
    exact List.all_eq_true.mp (Bool.and_eq_true_iff.mp hr).1 m hm
  | fnDef | fnDecl => exact hinward (inward _ (Bool.and_eq_true_iff.mp hr).1)
  | _ => simp [Stmt.types]
where
  inward (sig : Signature) (h : sig.inwardKnown v) :
      ∀ ty ∈ sig.ret :: sig.params.map (·.ty), ty.inwardKnown v := by
    obtain ⟨hret, hparams⟩ := Bool.and_eq_true_iff.mp h
    intro ty hty
    rcases List.mem_cons.mp hty with rfl | hty
    · exact hret
    · obtain ⟨p, hp, rfl⟩ := List.mem_map.mp hty
      exact List.all_eq_true.mp hparams p hp

end Check

namespace Sight.Sane

variable {v : Sight}

/-- What a function is declared as is sane, and so are its parameters. -/
theorem inside (h : v.Sane) (hnew : v.keepsStructs (sig.inside []))
    (hknown : ∀ ty ∈ sig.ret :: sig.params.map (·.ty), ty.knownIn v) :
    Sight.Sane (sig.inside v) := by
  have hinside : sig.inside v = sig.inside [] ++ v := by simp [Signature.inside]
  rw [hinside]
  refine h.append hnew fun x hx => ?_
  have hty : ∀ ty ∈ sig.ret :: sig.params.map (·.ty), ty.knownIn (sig.inside [] ++ v) :=
    fun ty hty => Ty.knownIn_append hnew ty (hknown ty hty)
  rcases List.mem_append.mp hx with hx | hx
  · obtain ⟨p, hp, rfl⟩ := List.mem_map.mp (List.mem_reverse.mp hx)
    exact .inr (hty p.ty (List.mem_cons_of_mem _ (List.mem_map_of_mem hp)))
  · obtain rfl := List.mem_singleton.mp hx
    exact .inr (hty sig.ret List.mem_cons_self)

/-- What a statement declares is sane. -/
theorem declares (h : v.Sane) (hs : s.heeds v) (hknown : ∀ ty ∈ s.types, ty.knownIn v) :
    Sight.Sane (s.declares ++ v) := by
  cases s with
  | varDef name ty init s =>
    have hnew : v.keepsStructs (Stmt.varDef name ty init s).declares := by
      cases init <;> exact (Bool.and_eq_true_iff.mp hs).2
    refine h.append hnew fun x hx => ?_
    obtain rfl := List.mem_singleton.mp hx
    exact .inr (Ty.knownIn_append hnew ty (hknown ty List.mem_cons_self))
  | structDef name members s =>
    have hnew := (Bool.and_eq_true_iff.mp hs).2
    refine h.append hnew fun x hx => ?_
    rcases List.mem_cons.mp hx with rfl | hx
    · exact ⟨rfl, fun m hm => Ty.knownIn_append hnew m.ty (hknown m.ty (List.mem_map_of_mem hm))⟩
    · obtain rfl := List.mem_singleton.mp hx
      exact .inl rfl
  | fnDef sig body s =>
    have hnew : v.keepsStructs [sig.sighting false] := by
      have hinside := (Bool.and_eq_true_iff.mp hs).2
      simp only [Sight.keepsStructs, Signature.inside, List.all_append, Bool.and_eq_true] at hinside
      exact hinside.2
    refine h.append hnew fun x hx => ?_
    obtain rfl := List.mem_singleton.mp hx
    exact .inr (Ty.knownIn_append hnew sig.ret (hknown _ List.mem_cons_self))
  | fnDecl sig s =>
    have hnew := (Bool.and_eq_true_iff.mp hs).2
    refine h.append hnew fun x hx => ?_
    obtain rfl := List.mem_singleton.mp hx
    exact .inr (Ty.knownIn_append hnew sig.ret (hknown _ List.mem_cons_self))
  | _ => exact h

end Sight.Sane

namespace Lowering

variable {v : Sight} {u : ScopeTable Unit}

/-- With `v` in sight, only what cannot be lowered at all stops `act`. -/
def Clear (v : Sight) (act : LowerM α) : Prop :=
  ∀ st : State, st.names.Shows v → Safe (·.isLimit) act st fun _ _ => True

/-- What consults the table. -/
theorem Safe.consulting {st : State} {act : LowerM α} (h : Consults (·.isLimit) st.names act Q) :
    Safe (·.isLimit) act st fun a st' => Q a ∧ st'.names = st.names :=
  .ofConsults (fun _ h => h) h

namespace Clear

theorem ofConsults {act : LowerM α}
    (h : ∀ t : ScopeTable Handle, t.Shows v → Consults (·.isLimit) t act Q) : Clear v act :=
  fun st hv => (Safe.consulting (h st.names hv)).mono fun _ _ _ => trivial

/-- A step that leaves the table comes first. -/
theorem after {x : LowerM α} {f : α → LowerM β}
    (hx : ∀ t : ScopeTable Handle, t.Shows v → Consults (·.isLimit) t x Q)
      (hf : ∀ a, Clear v (f a)) :
    Clear v (x >>= f) := by
  intro st hv
  refine (Safe.consulting (hx st.names hv)).bind fun a st₁ h₁ => hf a st₁ ?_
  rw [h₁.2]
  exact hv

/-- There is a scope to return to. -/
theorem inScope {act : LowerM α} {s : Span} (h : Clear v act) (hb : Balanced act) :
    Clear v (inScope s act) := by
  intro st hv
  refine (h { st with names := st.names.enter } hv.enter).within (fun hnone => ?_)
    fun _ _ _ _ _ => trivial
  obtain ⟨new, hext⟩ := hb { st with names := st.names.enter }
  rw [ScopeTable.Extends.leave?_eq (t := st.names) hext] at hnone
  simp at hnone

theorem inFunction {act : LowerM α} {s : Span} {b : Ir.Builder} (h : Clear v act)
    (hframed : Framed act) : Clear v (inFunction s b act) := by
  intro st hv
  have hact := h { st with enclosing := st.current :: st.enclosing, current := b } hv
  rw [Safe] at hact ⊢
  rw [hframed.outcome_inFunction]
  generalize outcome act _ = r at hact
  obtain ⟨r, st₁⟩ := r
  cases r <;> exact hact

end Clear

theorem variable_clear {name : Ident} {init : Option Expr} (hty : ty.knownIn v)
    (hinit : ∀ e ∈ init, e.Quiet v) : Clear v (variable_ name ty init) := by
  refine .after (fun t ht => .lowerType fun err h => absurd h (Ty.no_trouble ht hty err))
    fun irTy => ?_
  refine .after (fun t ht => .emitReg) fun ptr => ?_
  refine .after (Q := fun _ => True) (fun t ht => ?_) fun _ => ?_
  · cases init with
    | none => exact .pure trivial
    | some e => exact storeAs_consults fun err h => absurd h (hinit e rfl t ht err)
  · exact fun st hv => trivial

theorem struct_clear {name : Ident} {members : List Param} {s : Span}
    (hknown : ∀ m ∈ members, m.ty.knownIn v) : Clear v (struct_ name members s) := by
  refine .after (fun t ht => .mapM fun m hm => ?_) fun fields => ?_
  · exact (Consults.lowerType fun err h => absurd h (Ty.no_trouble ht (hknown m hm) err)).bind
      fun _ _ => .pure trivial
  refine .after (fun t ht => .get) fun st₀ st hv => ?_
  refine (Safe.within (E := (·.isLimit)) (Q := fun _ _ => True) (R := fun _ _ => True) ?_
    (fun hnone => ?_) fun _ _ _ _ _ => trivial).bind fun _ _ _ => trivial
  · rw [Safe, (runs_forM_bindName (u := ())).mpr rfl]
    trivial
  · have hmembers := composed_restores.forM
      (fun m : Param => composed_restores.bindName (.plain m.name.name m.ty .member)) members
    obtain ⟨new, hext⟩ :=
      (hmembers { st with names := st.names.enterMarked (membersMarker name.name) .marker }).names
    rw [ScopeTable.Extends.leave?_eq (t := st.names.add _) hext] at hnone
    simp at hnone

theorem signature_clear {isExternal : Bool}
    (hknown : ∀ ty ∈ sig.ret :: sig.params.map (·.ty), ty.knownIn v) :
    Clear v (signature sig isExternal) := by
  have hparam : ∀ p ∈ sig.params, p.ty.knownIn v :=
    fun p hp => hknown p.ty (List.mem_cons_of_mem _ (List.mem_map_of_mem hp))
  refine .after (fun t ht => .lowerType fun err h =>
    absurd h (Ty.no_trouble ht (hknown _ List.mem_cons_self) err)) fun ret => ?_
  refine .after (fun t ht => .mapM fun p hp => lowerParam_consults fun err h =>
    absurd h (Ty.no_trouble ht (hparam p hp) err)) fun params => ?_
  exact fun st hv => trivial

theorem fnDef_clear {body : List Stmt} {s : Span}
    (hknown : ∀ ty ∈ sig.ret :: sig.params.map (·.ty), ty.knownIn v)
    (hbody : Clear (sig.inside v) (stmts body)) : Clear v (stmt (.fnDef sig body s)) := by
  intro st hv
  unfold stmt
  have hsig : Clear v (signature sig false) := signature_clear hknown
  refine ((hsig st hv).of_runs fun _ _ => signature_inv).bind fun low st₁ hst₁ => ?_
  obtain ⟨hlow, rfl⟩ := hst₁
  have hself : (st.names.add (low.binding sig false)).Shows (sig.sighting false :: v) :=
    hv.gain (.add _ (hlow.describes false _))
  -- the parameters come into sight inside the scope of the function
  have hinside : ∀ id, Clear (sig.sighting false :: v)
      (bindParams sig.params low.params id >>= fun _ => stmts body) := by
    intro id st₂ hv₂
    have hparams : Safe (·.isLimit) (bindParams sig.params low.params id) st₂
        fun _ st₃ => st₃.names.Shows (sig.inside v) := by
      rw [Safe, (runs_bindParams (u := ())).mpr rfl]
      exact hv₂.gain (gains_params _ _ hlow.length)
    exact hparams.bind fun _ st₃ hv₃ => hbody st₃ hv₃
  have hbalanced : ∀ id, Balanced (bindParams sig.params low.params id >>= fun _ => stmts body) :=
    fun id => .of_restores (composed_restores.bind (composed_restores.bindParams _ _ id) fun _ =>
      composed_restores.stmts body)
  exact Clear.after (fun t ht => .freshId)
    (fun id => ((hinside id).inScope (hbalanced id)).inFunction (body_framed sig low body s id))
    _ hself

theorem arm_clear {join : Ir.BlockId} {label : String} {cond : Expr} {body : List Stmt} {s : Span}
    {otherwise : Option (Ir.BlockId → LowerM Unit)}
    (hcond : cond.Quiet v) (hbody : Clear v (stmts body))
    (hother : ∀ act ∈ otherwise, ∀ here, Clear v (act here)) :
    Clear v (arm join label cond (inScope s (stmts body)) otherwise) := by
  refine .after (fun t ht => openArm_consults fun err h => absurd h (hcond t ht err)) fun no => ?_
  intro st hv
  have hscope := (hbody.inScope (s := s) (stmts_balanced body) st hv).of_runs
    (R := fun _ st' => st'.names.Shows v) fun _ st' hrun =>
      hv.gain (Advances.inScope (fun _ _ => stmts_passes body []) hrun).1.gains
  refine hscope.bind fun _ st₁ hv₁ => ?_
  refine Clear.after (fun t ht => .terminate) (fun _ => ?_) st₁ hv₁
  cases otherwise with
  | none => exact .ofConsults (Q := fun _ => True) fun t ht => .pure trivial
  | some act => exact hother act rfl no

/-- Of what was checked and heeds the rest, all is lowered but what cannot be. -/
def Cleared (ret : Ty) (v : Sight) : Check.Change → Prop
  | .stmt _ r => r.Throughout .layout v → r.Obeys .checked ret → Clear v (stmt r)
  | .alternative _ r => r.Throughout .layout v → r.Obeys .checked ret →
      ∀ s join, ∀ act ∈ alternative s join r, ∀ here, Clear v (act here)
  | .stmts _ rs | .body _ rs => Stmt.AllThroughout .layout v rs → Stmt.AllObey .checked ret rs →
      Clear v (stmts rs)

theorem passes_clear {c : Check.Change} {cst cst' : Check.State} (h : Check.Passes cst c cst')
    (hc : cst.names.Shows v) (hsane : v.Sane) : Cleared ret v c := by
  induction h generalizing v ret with
  | varDef hnew hknown hvoid htakes =>
    intro hr ho
    have htypes := (Check.Passes.varDef hnew hknown hvoid htakes).types hc hsane hr ho
    unfold stmt
    refine variable_clear (htypes _ List.mem_cons_self) fun e' he => ?_
    cases htakes with
    | none => cases he
    | some hexpr htakes =>
      obtain rfl := (Option.some.inj he).symm
      have hlaid : e'.Laid _ v := .intro (Check.expr_coerced htakes.coerced hexpr)
        (ho.2 e' rfl) (Bool.and_eq_true_iff.mp hr).1
      exact hlaid.quiet hc hsane
  | structDef hnew hmembers hleave =>
    intro hr ho
    have htypes := (Check.Passes.structDef hnew hmembers hleave).types hc hsane hr ho
    unfold stmt
    exact struct_clear fun m hm => htypes m.ty (List.mem_map_of_mem hm)
  | fnDef hnew hret hparams hbody hleave ih =>
    intro hr ho
    have htypes := (Check.Passes.fnDef hnew hret hparams hbody hleave).types hc hsane hr.1 ho
    have hin := hsane.inside (Bool.and_eq_true_iff.mp hr.1).2 htypes
    exact fnDef_clear htypes (ih (Check.inside_shows _ hc) hin hr.2 ho.2)
  | fnDecl hnew hret hparams hleave =>
    intro hr ho
    have htypes := (Check.Passes.fnDecl hnew hret hparams hleave).types hc hsane hr ho
    unfold stmt
    exact fun st hv => (signature_clear htypes st hv).bind fun _ _ _ => trivial
  | varSet hb hexpr htakes =>
    intro hr ho
    have hlaid : Expr.Laid _ v _ := .intro (Check.expr_coerced htakes.coerced hexpr) ho hr
    unfold stmt
    refine .ofConsults fun t ht => assign_consults
      (fun err h => absurd h (hlaid.quiet hc hsane t ht err)) fun err h => ?_
    cases h with
    | ident hnone =>
      obtain ⟨c, hfound⟩ := hc.exists_find? ht hb
      simp [hnone] at hfound
  | memberSet htarget _ hexpr htakes =>
    intro hr ho
    obtain ⟨hvt, hve⟩ := Bool.and_eq_true_iff.mp hr
    have htlaid : Expr.Laid _ v _ := .intro htarget ho.1 hvt
    have hlaid : Expr.Laid _ v _ := .intro (Check.expr_coerced htakes.coerced hexpr) ho.2 hve
    unfold stmt
    exact .ofConsults fun t ht => assignMember_consults
      (fun err h => absurd h (htlaid.quiet hc hsane t ht err))
      fun err h => absurd h (hlaid.quiet hc hsane t ht err)
  | expr hexpr =>
    intro hr ho
    have hlaid : Expr.Laid _ v _ := .intro hexpr ho hr
    unfold stmt
    exact .ofConsults fun t ht => effect_consults
      fun err h => absurd h (hlaid.quiet hc hsane t ht err)
  | return_ _ _ htakes =>
    intro hr ho
    unfold stmt
    refine .ofConsults fun t ht => return_consults fun a ha err h => ?_
    cases htakes with
    | none => cases ha
    | some hexpr htakes =>
      obtain rfl := (Option.some.inj ha).symm
      have hlaid : a.Laid _ v :=
        .intro (Check.expr_coerced htakes.coerced hexpr) (ho.2 a rfl) hr
      exact absurd h (hlaid.quiet hc hsane t ht err)
  | break_ | for_ => exact fun _ _ st hv => rfl
  | if_ hcond hbody _ ih ih' =>
    intro hr ho
    have hlaid : Expr.Laid _ v _ := .intro hcond ho.1 hr.2.1
    have hclear := ih hc hsane hr.2.2.1 ho.2.1
    have hrest := ih' (hc.gain (hbody.gains hc.inside)) hsane hr.2.2.2 ho.2.2
    unfold stmt
    refine .after (fun t ht => openIf_consults) fun join st hv => ?_
    exact (arm_clear (hlaid.quiet hc hsane) hclear (hrest _ join) st hv).bind fun _ _ _ => trivial
  | block _ ih =>
    intro hr ho
    unfold stmt
    exact (ih hc hsane hr.2 ho).inScope (stmts_balanced _)
  | none =>
    unfold Cleared alternative
    simp
  | else_ _ ih =>
    intro hr ho s join
    have hclear := ih hc hsane hr ho
    unfold alternative
    rintro _ ⟨⟩ here
    refine .after (fun t ht => .startBlock) fun _ st hv => ?_
    exact (hclear.inScope (stmts_balanced _) st hv).bind fun _ _ _ => trivial
  | elif hcond hbody _ ih ih' =>
    intro hr ho s join
    have hlaid : Expr.Laid _ v _ := .intro hcond ho.1 hr.1
    have hclear := ih hc hsane hr.2.1 ho.2.1
    have hrest := ih' (hc.gain (hbody.gains hc.inside)) hsane hr.2.2 ho.2.2 s join
    unfold alternative
    rintro _ ⟨⟩ here
    refine .after (fun t ht => .startBlock) fun _ => ?_
    exact arm_clear (hlaid.quiet hc hsane) hclear hrest
  | nil => exact fun _ _ st hv => trivial
  | cons hs _ ih ih' =>
    intro hr ho
    unfold stmts
    refine .after (fun t ht => reopen_consults) fun _ st hv => ?_
    exact ((ih hc hsane hr.1 ho.1 st hv).of_runs
      fun _ st' hrun => hv.gain (stmt_gains hv.inside hrun)).bind
      fun _ st' hv' => ih' (hc.gain (hs.declares ▸ hs.gains hc.inside))
        (hsane.declares hr.1.here (hs.types hc hsane hr.1.here ho.1)) hr.2 ho.2 st' hv'
  | body _ _ ih => exact ih hc.enter hsane

theorem topLevel_clear {ss rs : List Stmt} {cst cst' : Check.State}
    (h : Check.Passes cst (.stmts ss rs) cst') (hc : cst.names.Shows v) (hsane : v.Sane)
    (hr : Stmt.AllThroughout .layout v rs) (ho : Stmt.AllObey .checked ret rs) :
    Clear v (topLevel rs) := by
  induction ss generalizing rs v cst with
  | nil =>
    cases h
    exact fun st hv => trivial
  | cons s ss ih =>
    cases h with
    | cons hs hss =>
      intro st hv
      exact ((passes_clear hs hc hsane hr.1 ho.1 st hv).of_runs
        fun _ st' hrun => hv.gain (stmt_gains hv.inside hrun)).bind
        fun _ st' hv' => ih hss (hc.gain (hs.declares ▸ hs.gains hc.inside))
          (hsane.declares hr.1.here (hs.types hc hsane hr.1.here ho.1)) hr.2 ho.2 st' hv'

end Lowering

/-- An accepted program that heeds what the check does not look at is only given up for something
that cannot be lowered at all. -/
theorem Accepted.lower_error {src : String} {ts : List Token} {p q : Program}
    {ws : List (Located Warning)} (h : Accepted src ts p q ws)
    (hq : Stmt.AllThroughout .layout .start q) {name : String} {e : Located LowerError}
    (he : q.lower name = .error e) : e.value.isLimit := by
  obtain ⟨cst, hpasses, -⟩ := Program.check_eq_ok.mp h.check
  have hchecked := Program.check_obeys h.check (Grammar.program_obeys _ ts p h.read .void)
  have hclear := Lowering.topLevel_clear hpasses Check.start_shows .start hq hchecked
  unfold Program.lower at he
  split at he
  · rename_i hout
    obtain rfl := Except.error.inj he
    exact (hclear _ (Lowering.start_shows name)).error hout
  · simp at he

/-- If what a function type returns is of a type in sight wherever the type is declared, if the name
of a struct in sight is given to nothing but another struct, and if the names of structs and of the
scopes of their members are not used as values, then every type of an accepted text has a layout.
The text may still be given up for something that cannot be lowered at all, such as values of type
`any`, and is then at fault itself. -/
theorem compile_finds_layouts (src : String) (ts : List Token) (p q : Program)
    (ws : List (Located Warning)) (h : Accepted src ts p q ws)
    (hq : Stmt.AllThroughout .layout .start q) :
    (∀ name e, q.lower name = .error e → ∃ what, what ≠ .illTyped ∧ e.value = .unsupported what) ∧
    ∀ file e, compile file .ir src = .error e → e.exitCode = 2 := by
  have hlower : ∀ name e, q.lower name = .error e →
      ∃ what, what ≠ .illTyped ∧ e.value = .unsupported what := by
    intro name e he
    have hlimit := h.lower_error hq he
    cases hvalue : e.value with
    | unsupported what =>
      rw [hvalue] at hlimit
      exact ⟨what, of_decide_eq_true hlimit, rfl⟩
    | unresolved name => simp [hvalue, LowerError.isLimit] at hlimit
    | breach b => simp [hvalue, LowerError.isLimit] at hlimit
  refine ⟨hlower, fun file e he => ?_⟩
  cases hm : q.lower (moduleName file) with
  | ok m =>
    simp [compile, h.scan, h.read, h.check, hm, Except.mapError, Bind.bind, Except.bind, Pure.pure,
      Except.pure] at he
  | error e' =>
    obtain ⟨what, -, hwhat⟩ := hlower _ e' hm
    obtain rfl : CompileError.ofLower e' = e := by
      simpa [compile, h.scan, h.read, h.check, hm, Except.mapError, Bind.bind,
        Except.bind, Pure.pure, Except.pure] using he
    simp [CompileError.ofLower, hwhat, CompileError.exitCode]

/-- A struct that hides another, a function type that returns one, and a value of type `any`. -/
def hiddenText : String :=
  "P : struct \x7b a: i32; \x7d\n" ++
  "f : fn P (g: fn *P, p: P) \x7b\n" ++
  "  \x7b P : struct \x7b next: *P; b: f64; \x7d q : P; x := q.b + 1; \x7d\n" ++
  "  y := g();\n" ++
  "  z := (p.a as f64) * 2;\n" ++
  "  w : any;\n" ++
  "  return p;\n" ++
  "\x7d\n"

theorem compile_hiddenText_finds_layouts : ∃ ts p q ws, Accepted hiddenText ts p q ws ∧
    Stmt.AllThroughout .layout .start q ∧ (q.lower "main").toOption = none ∧
    (∀ name e, q.lower name = .error e → ∃ what, what ≠ .illTyped ∧ e.value = .unsupported what) ∧
    ∀ file e, compile file .ir hiddenText = .error e → e.exitCode = 2 := by
  have hrun : surveyed hiddenText (fun _ q _ => some (decide (Stmt.AllThroughout .layout .start q),
      (q.lower "main").toOption.isNone)) = some (true, true) := by
    apply surveyed_of_chars
    · repeat apply append_ofList
      rfl
    · decide +kernel
  obtain ⟨ts, p, q, ws, haccepted, hq⟩ := surveyed_eq_some hrun
  obtain ⟨hheeds, hnone⟩ := Prod.mk.inj (Option.some.inj hq)
  have hlayout := of_decide_eq_true hheeds
  exact ⟨ts, p, q, ws, haccepted, hlayout, Option.isNone_iff_eq_none.mp hnone,
    compile_finds_layouts hiddenText ts p q ws haccepted hlayout⟩

/-- It is not so that every type of an accepted text has a layout. -/
theorem compile_layout_missing : ¬ ∀ src ts p q ws, Accepted src ts p q ws →
    ∀ name e, q.lower name = .error e → ∀ base, e.value ≠ .breach (.missingLayout base) := by
  intro h
  have hrun : surveyed "f : fn (g: fn Q) \x7b \x7d" (fun _ q _ =>
      some (((q.lower "main").mapError (·.value)).map fun _ => ())) =
        some (.error (.breach (.missingLayout .inst))) := by
    decide +kernel
  obtain ⟨ts, p, q, ws, haccepted, hq⟩ := surveyed_eq_some hrun
  cases hm : q.lower "main" with
  | ok m => simp [hm, Except.mapError, Except.map] at hq
  | error e =>
    rw [hm] at hq
    exact h _ ts p q ws haccepted "main" e hm .inst (Except.error.inj (Option.some.inj hq))

end Frontend
