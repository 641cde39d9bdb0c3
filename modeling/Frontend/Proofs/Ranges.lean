import Frontend.Proofs.Literals

/-!
How large the integer constants of a module are. Integers are read and converted as signed 64-bit
words, and nothing narrower is asked of them, whatever their type: a constant is the literal as it
stands in the program, so it suits its type if and only if the literal did.
-/
namespace Frontend

/-- The integer is one of the type, if the type has a number of bits. -/
def Ir.Ty.Spans (t : Ir.Ty) (n : Int) : Prop := ∀ bits ∈ t.bits?, Signed bits n

instance (t : Ir.Ty) (n : Int) : Decidable (t.Spans n) :=
  inferInstanceAs (Decidable (∀ bits ∈ t.bits?, Signed bits n))

/-- A primitive type has the bits of what it is lowered to, and nothing else has any. -/
def Ty.bits? : Ty → Option Nat
  | .prim p n => if n ≤ 0 then p.lower?.bind Ir.Ty.bits? else none
  | _ => none

def Ty.Spans (ty : Ty) (n : Int) : Prop := ∀ bits ∈ ty.bits?, Signed bits n

instance (ty : Ty) (n : Int) : Decidable (ty.Spans n) :=
  inferInstanceAs (Decidable (∀ bits ∈ ty.bits?, Signed bits n))

variable {t : Ir.Ty} {ty : Ty}

theorem Ir.Ty.bits?_ptrs {n : Nat} (hn : 0 < n) : (t.ptrs n).bits? = none := by
  cases n with
  | zero => omega
  | succ n => rfl

theorem Ty.LowersTo.bits? (h : ty.LowersTo t) : t.bits? = ty.bits? := by
  obtain ⟨u, rfl, hu⟩ := h.inv
  by_cases hlevels : ty.levels ≤ 0
  · rw [Int.toNat_of_nonpos hlevels, Ir.Ty.ptrs]
    cases ty with
    | prim p n =>
      have hn : n ≤ 0 := hlevels
      simp [Ty.bits?, hn, (hu : p.lower? = some u)]
    | struct | inst =>
      cases u <;> first | rfl | cases hu
    | fn ret n =>
      obtain ⟨r, -, rfl⟩ := hu
      rfl
  · rw [Ir.Ty.bits?_ptrs (by omega)]
    cases ty with
    | prim p n =>
      have hn : ¬ n ≤ 0 := hlevels
      simp [Ty.bits?, hn]
    | _ => rfl

theorem Ty.LowersTo.spans_iff (h : ty.LowersTo t) {n : Int} : t.Spans n ↔ ty.Spans n := by
  rw [Ir.Ty.Spans, Ty.Spans, h.bits?]

/-- An integer literal with its type. -/
def Item.integer? : Item → Option (Ty × Int)
  | .literal (.int n) ty => some (ty, n)
  | _ => none

/-- The integer literals of a program, with the types they have in it. -/
def Program.integers (p : Program) : List (Ty × Int) := p.items.filterMap Item.integer?

theorem Program.mem_integers {p : Program} {n : Int} :
    (ty, n) ∈ p.integers ↔ Item.literal (.int n) ty ∈ p.items := by
  refine List.mem_filterMap.trans ⟨?_, fun h => ⟨_, h, rfl⟩⟩
  rintro ⟨x, hx, hint⟩
  unfold Item.integer? at hint
  split at hint
  · obtain ⟨rfl, rfl⟩ := Prod.mk.inj (Option.some.inj hint)
    exact hx
  · cases hint

namespace Ir

def Op.integer? : Op → Option (Ty × Int)
  | .const ty (.int n) => some (ty, n)
  | _ => none

/-- The integer constants of a module, with their types. -/
def Module.integers (m : Module) : List (Ty × Int) :=
  m.funcs.flatMap fun f => f.instrs.filterMap (·.op.integer?)

theorem Module.mem_integers {m : Module} {ty : Ty} {n : Int} :
    (ty, n) ∈ m.integers ↔ .const ty (.int n) ∈ m.contents := by
  rw [Module.const_mem_contents]
  simp only [Module.integers, List.mem_flatMap, List.mem_filterMap]
  refine exists_congr fun f => and_congr_right fun _ => exists_congr fun i =>
    and_congr_right fun _ => ?_
  refine ⟨fun h => ?_, fun h => by rw [h]; rfl⟩
  unfold Op.integer? at h
  split at h
  · rename_i hop
    obtain ⟨rfl, rfl⟩ := Prod.mk.inj (Option.some.inj h)
    exact hop
  · cases h

end Ir

section Accepted

variable {src : String} {ts : List Token} {p q : Program} {ws : List (Located Warning)}
  {m : Ir.Module}

theorem Accepted.integers_signed (h : Accepted src ts p q ws) :
    ∀ l ∈ q.integers, Signed 64 l.2 := by
  rintro ⟨ty, n⟩ hl
  have hapt : (Value.int n).Apt ty := h.items_apt _ (Program.mem_integers.mp hl)
  exact hapt.inWord

/-- The integer constants of a module are zeros and the literals of its program, each of the type
that the literal's is lowered to. -/
theorem Accepted.lower_integers (h : Accepted src ts p q ws) {name : String}
    (hm : q.lower name = .ok m) :
    (∀ c ∈ m.integers, c.2 = 0 ∨ ∃ l ∈ q.integers, l.1.LowersTo c.1 ∧ l.2 = c.2) ∧
      ∀ l ∈ q.integers, ∃ c ∈ m.integers, l.1.LowersTo c.1 ∧ l.2 = c.2 := by
  obtain ⟨hmatches, -⟩ := h.lower_items hm
  constructor
  · rintro ⟨t, n⟩ hc
    obtain hzero | ⟨x, hx, hbec⟩ := hmatches.told _ (Ir.Module.mem_integers.mp hc)
    · obtain ⟨-, heq⟩ | ⟨-, heq⟩ := hzero
      · exact .inl (Ir.Constant.int.inj heq)
      · cases heq
    · cases x with
      | literal v ty =>
        obtain ⟨hty, heq⟩ : ty.LowersTo t ∧ Ir.Constant.int n = v.constant := hbec
        cases v with
        | int k =>
          obtain rfl := Ir.Constant.int.inj heq
          exact .inr ⟨(ty, n), Program.mem_integers.mpr hx, hty, rfl⟩
        | _ => cases heq
      | _ => cases hbec
  · rintro ⟨ty, n⟩ hl
    obtain ⟨c, hc, hbec⟩ := hmatches.shown _ (Program.mem_integers.mp hl)
    cases c with
    | const t k =>
      obtain ⟨hty, rfl⟩ : ty.LowersTo t ∧ k = .int n := hbec
      exact ⟨(t, n), Ir.Module.mem_integers.mpr hc, hty, rfl⟩
    | _ => cases hbec

end Accepted

/-- The integer constants of a module are signed 64-bit words. They all are within their own types
if and only if the integer literals of the checked program are within those that they were given. -/
theorem compile_integers_in_range (file src : String) (out : Output)
    (h : compile file .ir src = .ok out) :
    ∃ ts p q ws m, Accepted src ts p q ws ∧ q.lower (moduleName file) = .ok m ∧
      out.artifact = m.text ∧ (∀ c ∈ m.integers, Signed 64 c.2) ∧
      ((∀ c ∈ m.integers, c.1.Spans c.2) ↔ ∀ l ∈ q.integers, l.1.Spans l.2) := by
  obtain ⟨ts, p, q, ws, hacc, -, -, hir⟩ := compile_inv (by decide) h
  obtain ⟨m, hm, htext⟩ := hir rfl
  obtain ⟨hconst, hliteral⟩ := hacc.lower_integers hm
  refine ⟨ts, p, q, ws, m, hacc, hm, htext, fun c hc => ?_, fun hall l hl => ?_,
    fun hall c hc => ?_⟩
  · obtain hzero | ⟨l, hl, -, heq⟩ := hconst c hc
    · exact hzero ▸ signed_zero 64
    · exact heq ▸ hacc.integers_signed l hl
  · obtain ⟨c, hc, hty, heq⟩ := hliteral l hl
    rw [← hty.spans_iff, heq]
    exact hall c hc
  · obtain hzero | ⟨l, hl, hty, heq⟩ := hconst c hc
    · exact hzero ▸ fun bits _ => signed_zero bits
    · rw [hty.spans_iff, ← heq]
      exact hall l hl

/-- Literals that keep their type, and that are retyped to narrower and wider ones. -/
def rangesText : String := "a := 7; b : i8 = 100; c : i64 = 3000000000; d : i16 = -(5);"

theorem compile_rangesText_in_range : ∃ out, compile "main.tv" .ir rangesText = .ok out ∧
    ∃ ts p q ws m, Accepted rangesText ts p q ws ∧ q.lower (moduleName "main.tv") = .ok m ∧
      q.integers = [(.prim .i32 0, 7), (.prim .i8 0, 100), (.prim .i64 0, 3000000000),
      (.prim .i16 0, 5)] ∧
      (∀ c ∈ m.integers, Signed 64 c.2) ∧ ∀ c ∈ m.integers, c.1.Spans c.2 := by
  have hrun : surveyed rangesText (fun _ q _ => do
      let _ ← (q.lower (moduleName "main.tv")).toOption
      return q.integers) =
        some [(.prim .i32 0, 7), (.prim .i8 0, 100), (.prim .i64 0, 3000000000),
        (.prim .i16 0, 5)] := by
    exact surveyed_of_chars rfl (by decide +kernel)
  obtain ⟨ts, p, q, ws, m, hacc, hm, -⟩ := surveyed_lower hrun
  obtain ⟨out, hout⟩ := hacc.compiles hm
  obtain ⟨ts, p, q, ws, m, hacc, hm, -, hword, hrange⟩ := compile_integers_in_range _ _ _ hout
  rw [hacc.surveyed, hm] at hrun
  have hq := Option.some.inj hrun
  exact ⟨out, hout, ts, p, q, ws, m, hacc, hm, hq, hword, hrange.mpr (hq ▸ by decide)⟩

/-- It is not so that every constant is within its type: one of 32 bits may be larger. -/
theorem compile_integer_out_of_range : ¬ ∀ file src out, compile file .ir src = .ok out →
    ∀ ts p q ws m, Accepted src ts p q ws → q.lower (moduleName file) = .ok m →
    ∀ c ∈ m.integers, c.1.Spans c.2 := by
  intro h
  have hrun : surveyed "x := 3000000000;" (fun _ q _ => do
      let m ← (q.lower (moduleName "main.tv")).toOption
      return m.integers) = some [(.i32, 3000000000)] := by
    decide +kernel
  obtain ⟨ts, p, q, ws, m, hacc, hm, hints⟩ := surveyed_lower hrun
  obtain ⟨out, hout⟩ := hacc.compiles hm
  have hc : ((.i32, 3000000000) : Ir.Ty × Int) ∈ m.integers := by
    rw [hints]
    exact List.mem_singleton.mpr rfl
  exact absurd (h _ _ _ hout _ _ _ _ _ hacc hm _ hc) (by decide)

end Frontend
