import Frontend.Compile
import Frontend.Proofs.Steps

/-!
The stages by which a text becomes a checked tree, and what they say of compiling it. Since each
stage can be computed, so can what becomes of one text.
-/
namespace Frontend

/-- `src` has the tokens `ts`, which read as `p`; checked, that is `q`, with the warnings `ws`. -/
structure Accepted (src : String) (ts : List Token) (p q : Program) (ws : List (Located Warning)) :
    Prop where
  scan : tokenize src = .ok ts
  read : Program.ofTokens (Text.endSpan src) ts = .ok p
  check : p.check = .ok (q, ws)

theorem mapError_eq_ok {x : Except ε α} {f : ε → ε'} {a : α} :
    x.mapError f = .ok a ↔ x = .ok a := by
  cases x <;> simp [Except.mapError]

theorem toOption_eq_some {x : Except ε α} {a : α} : x.toOption = some a ↔ x = .ok a := by
  cases x <;> simp [Except.toOption]

variable {file src : String}

/-- Whatever is written of a text but its tokens, the text was accepted. -/
theorem compile_inv {emit : Emit} {out : Output} (hemit : emit ≠ .tokens)
    (h : compile file emit src = .ok out) :
    ∃ ts p q ws, Accepted src ts p q ws ∧ out.warnings = ws.map Warning.diagnostic ∧
      (emit = .tree → q.outline = some out.artifact) ∧
      (emit = .ir → ∃ m, q.lower (moduleName file) = .ok m ∧ out.artifact = m.text) := by
  unfold compile at h
  obtain ⟨ts, hts, h⟩ := bind_eq_ok.mp h
  rw [if_neg hemit] at h
  obtain ⟨p, hp, h⟩ := bind_eq_ok.mp h
  obtain ⟨⟨q, ws⟩, hq, h⟩ := bind_eq_ok.mp h
  refine ⟨ts, p, q, ws,
    ⟨mapError_eq_ok.mp hts, mapError_eq_ok.mp hp, mapError_eq_ok.mp hq⟩, ?_⟩
  dsimp only at h
  split at h
  · rename_i htree
    cases houtline : q.outline with
    | none => simp [houtline, throw, throwThe, MonadExceptOf.throw, Bind.bind, Except.bind] at h
    | some outline =>
      rw [houtline] at h
      obtain rfl := Except.ok.inj h
      exact ⟨rfl, fun _ => rfl, fun hir => by simp [hir] at htree⟩
  · rename_i htree
    obtain ⟨m, hm, h⟩ := bind_eq_ok.mp h
    obtain rfl := Except.ok.inj h
    exact ⟨rfl, fun h => absurd h htree, fun _ => ⟨m, mapError_eq_ok.mp hm, rfl⟩⟩

/-- An accepted text that can be lowered can be compiled. -/
theorem Accepted.compiles {ts : List Token} {p q : Program} {ws : List (Located Warning)}
    (h : Accepted src ts p q ws) {m : Ir.Module} (hm : q.lower (moduleName file) = .ok m) :
    ∃ out, compile file .ir src = .ok out := by
  refine ⟨⟨ws.map Warning.diagnostic, m.text⟩, ?_⟩
  simp [compile, h.scan, h.read, h.check, hm, Except.mapError, Bind.bind, Except.bind, Pure.pure,
    Except.pure]

/-- What a function finds in the trees of a text. -/
def surveyed (src : String) (f : Program → Program → List (Located Warning) → Option β) :
    Option β := do
  let ts ← (tokenize src).toOption
  let p ← (Program.ofTokens (Text.endSpan src) ts).toOption
  let (q, ws) ← p.check.toOption
  f p q ws

/-- A text is accepted in one way. -/
theorem Accepted.surveyed {src : String} {ts : List Token} {p q : Program}
    {ws : List (Located Warning)} (h : Accepted src ts p q ws)
    (f : Program → Program → List (Located Warning) → Option β) : surveyed src f = f p q ws := by
  simp [Frontend.surveyed, h.scan, h.read, h.check, Except.toOption]

theorem surveyed_eq_some {f : Program → Program → List (Located Warning) → Option β} {b : β}
    (h : surveyed src f = some b) : ∃ ts p q ws, Accepted src ts p q ws ∧ f p q ws = some b := by
  obtain ⟨ts, hts, h⟩ := Option.bind_eq_some_iff.mp h
  obtain ⟨p, hp, h⟩ := Option.bind_eq_some_iff.mp h
  obtain ⟨⟨q, ws⟩, hq, h⟩ := Option.bind_eq_some_iff.mp h
  exact ⟨ts, p, q, ws,
    ⟨toOption_eq_some.mp hts, toOption_eq_some.mp hp, toOption_eq_some.mp hq⟩, h⟩

theorem surveyed_lower {name : String} {f : Program → Ir.Module → β} {b : β}
    (h : surveyed src (fun _ q _ => do
      let m ← (q.lower name).toOption
      return f q m) = some b) :
    ∃ ts p q ws m, Accepted src ts p q ws ∧ q.lower name = .ok m ∧ f q m = b := by
  obtain ⟨ts, p, q, ws, hacc, h⟩ := surveyed_eq_some h
  obtain ⟨m, hm, h⟩ := Option.bind_eq_some_iff.mp h
  exact ⟨ts, p, q, ws, m, hacc, toOption_eq_some.mp hm, Option.some.inj h⟩

/-- What a function finds in the trees of a text that is given by its characters. -/
def surveyedChars (stop : Span) (cs : List Char)
    (f : Program → Program → List (Located Warning) → Option β) : Option β := do
  let (ts, fault) := scanFrom .start cs
  guard fault.isNone
  let p ← (Program.ofTokens stop ts).toOption
  let (q, ws) ← p.check.toOption
  f p q ws

-- To decode the bytes of a string takes the kernel longer than all that is done with its
-- characters.
theorem surveyed_of_chars {cs : List Char} {b : β}
    {f : Program → Program → List (Located Warning) → Option β} (h : src = String.ofList cs)
    (hrun : surveyedChars (Text.endSpan src) cs f = some b) : surveyed src f = some b := by
  have hcs : src.toList = cs := by rw [h, String.toList_ofList]
  rw [← hrun, ← hcs]
  unfold surveyed surveyedChars tokenize scan
  rcases scanFrom .start src.toList with ⟨ts, _ | fault⟩ <;> rfl

theorem append_ofList {cs ds : List Char} (h : src = String.ofList cs) :
    src ++ String.ofList ds = String.ofList (cs ++ ds) := by
  rw [h, String.ofList_append]

end Frontend
