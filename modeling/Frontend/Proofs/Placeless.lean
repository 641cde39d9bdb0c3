import Frontend.Ir.Listing
import Frontend.Proofs.Pipeline
import Frontend.Proofs.RelocatedReading
import Frontend.Proofs.RelocatedWalks

/-!
What is made of a text hangs on its tokens alone, not on where they stand: with all spans moved to
one place, the tokens are read, checked and lowered to the same end, and two texts of the same
lexemes are then one.
-/
namespace Frontend

/-- The statements without their places. -/
def Program.unplaced (p : Program) : Program := Stmt.relocateAll (fun _ => .nowhere) p

/-- The walks that may refuse a program. -/
inductive Stage where
  | reading | checking | lowering
  deriving DecidableEq, Repr

/-- What comes of a program, whatever the places in it. -/
inductive Verdict where
  | refused (stage : Stage) (code message : String)
  /-- The trees before and after the check, what was warned of and the listing of the module. -/
  | accepted (read checked : Program) (warnings : List String) (listing : String)

/-- What comes of the tokens of a text that ends at `eof`. -/
def verdict (moduleName : String) (eof : Span) (ts : List Token) : Verdict :=
  match Program.ofTokens eof ts with
  | .error e => .refused .reading e.value.code e.value.message
  | .ok p =>
    match p.check with
    | .error e => .refused .checking e.value.code e.value.message
    | .ok (q, ws) =>
      match q.lower moduleName with
      | .error e => .refused .lowering e.value.code e.value.message
      | .ok m => .accepted p.unplaced q.unplaced (ws.map (·.value.message)) m.text

/-- What comes of a text, once it has been cut into tokens. -/
def judged (moduleName src : String) : Except (Located Fault) Verdict :=
  (tokenize src).map (verdict moduleName (Text.endSpan src))

theorem keepsStretches_nowhere : KeepsStretches fun _ => .nowhere := fun _ _ => rfl

/-- Two results that are one once their spans are moved: the same error at two places, or the same
value but for places. -/
theorem relocated_eq_relocated {f : Span → Span} {g : α → β} {x y : Except (Located ε) α}
    (h : relocated f g x = relocated f g y) :
    (∃ e e', x = .error e ∧ y = .error e' ∧ e.value = e'.value) ∨
      ∃ a b, x = .ok a ∧ y = .ok b ∧ g a = g b := by
  cases x with
  | error e =>
    cases y with
    | error e' =>
      have hvalue := congrArg Located.value (Except.error.inj h)
      exact .inl ⟨e, e', rfl, rfl, hvalue⟩
    | ok b => cases h
  | ok a =>
    cases y with
    | error e' => cases h
    | ok b => exact .inr ⟨a, b, rfl, rfl, Except.ok.inj h⟩

/-- Kind and text make up a lexeme. -/
theorem Lexeme.eq_of_kind_of_text? {l l' : Lexeme} (hkind : l.kind = l'.kind)
    (htext : l.text? = l'.text?) : l = l' := by
  cases l <;> cases l' <;> simp_all [Lexeme.kind, Lexeme.text?]

theorem Token.map_relocate_nowhere_eq {ts ts' : List Token}
    (h : ts.map (fun t => (t.kind, t.lexeme.text?)) = ts'.map fun t => (t.kind, t.lexeme.text?)) :
    ts.map (Token.relocate fun _ => .nowhere) = ts'.map (Token.relocate fun _ => .nowhere) := by
  induction ts generalizing ts' with
  | nil =>
    obtain rfl := List.map_eq_nil_iff.mp h.symm
    rfl
  | cons t ts ih =>
    obtain ⟨t', us, rfl, ht, hts⟩ := List.map_eq_cons_iff.mp h.symm
    obtain ⟨hkind, htext⟩ := Prod.mk.inj ht
    have hlexeme := Lexeme.eq_of_kind_of_text? hkind htext
    rw [List.map_cons, List.map_cons, ih hts.symm, Token.relocate, Token.relocate, hlexeme]

/-- Programs that are one but for places are lowered to the same end. -/
theorem Program.lower_unplaced {q q' : Program} (h : q.unplaced = q'.unplaced)
    (moduleName : String) :
    (∃ e e', q.lower moduleName = .error e ∧ q'.lower moduleName = .error e' ∧ e.value = e'.value) ∨
      ∃ m m', q.lower moduleName = .ok m ∧ q'.lower moduleName = .ok m' ∧ m = m' := by
  have hmoved := Program.lower_relocate (fun _ => .nowhere) q moduleName
  have hmoved' := Program.lower_relocate (fun _ => .nowhere) q' moduleName
  rw [Program.unplaced, Program.unplaced] at h
  rw [h, hmoved'] at hmoved
  exact relocated_eq_relocated hmoved.symm

/-- Programs that are one but for places are checked to the same end. -/
theorem Program.check_unplaced {p p' : Program} (h : p.unplaced = p'.unplaced) :
    (∃ e e', p.check = .error e ∧ p'.check = .error e' ∧ e.value = e'.value) ∨
      ∃ q q' ws ws', p.check = .ok (q, ws) ∧ p'.check = .ok (q', ws') ∧ q.unplaced = q'.unplaced ∧
        ws.map (·.value) = ws'.map (·.value) := by
  have hmoved := Program.check_relocate (fun _ => .nowhere) p
  have hmoved' := Program.check_relocate (fun _ => .nowhere) p'
  rw [Program.unplaced, Program.unplaced] at h
  rw [h, hmoved'] at hmoved
  obtain herror | ⟨⟨q, ws⟩, ⟨q', ws'⟩, hq, hq', heq⟩ := relocated_eq_relocated hmoved.symm
  · exact .inl herror
  · obtain ⟨hqq, hws⟩ := Prod.mk.inj heq
    have hvalues := congrArg (List.map Located.value) hws
    rw [List.map_map, List.map_map] at hvalues
    exact .inr ⟨q, q', ws, ws', hq, hq', hqq, hvalues⟩

/-- Tokens that agree in kind and text come to the same end, wherever they stand. -/
theorem verdict_eq_of_lexemes (moduleName : String) (eof eof' : Span) {ts ts' : List Token}
    (h : ts.map (fun t => (t.kind, t.lexeme.text?)) = ts'.map fun t => (t.kind, t.lexeme.text?)) :
    verdict moduleName eof ts = verdict moduleName eof' ts' := by
  have hmoved := Program.ofTokens_relocate keepsStretches_nowhere eof ts
  have hmoved' := Program.ofTokens_relocate keepsStretches_nowhere eof' ts'
  rw [Token.map_relocate_nowhere_eq h, hmoved'] at hmoved
  unfold verdict
  obtain ⟨e, e', he, he', hvalue⟩ | ⟨p, p', hp, hp', hpp⟩ := relocated_eq_relocated hmoved.symm
  · simp only [he, he', hvalue]
  · obtain ⟨e, e', he, he', hvalue⟩ | ⟨q, q', ws, ws', hq, hq', hqq, hws⟩ :=
      Program.check_unplaced hpp
    · simp only [hp, hp', he, he', hvalue]
    · obtain ⟨e, e', he, he', hvalue⟩ | ⟨m, _, hm, hm', rfl⟩ :=
        Program.lower_unplaced hqq moduleName
      · simp only [hp, hp', hq, hq', he, he', hvalue]
      · have hmessages := congrArg (List.map Warning.message) hws
        rw [List.map_map, List.map_map] at hmessages
        have hread : Program.unplaced p = Program.unplaced p' := hpp
        simp only [hp, hp', hq, hq', hm, hm', hread, hqq]
        exact congrArg (Verdict.accepted _ _ · _) hmessages

/-- The layout of a text does not matter. Texts whose tokens agree in kind and text come to the same
end: they are refused by the same walk with the same code and message, or accepted with the same
trees but for places, the same warnings in the same order and the same listing. -/
theorem judged_of_same_lexemes (moduleName src src' : String) (ts ts' : List Token)
    (hts : tokenize src = .ok ts) (hts' : tokenize src' = .ok ts')
    (h : ts.map (fun t => (t.kind, t.lexeme.text?)) = ts'.map fun t => (t.kind, t.lexeme.text?)) :
    ∃ v, judged moduleName src = .ok v ∧ judged moduleName src' = .ok v := by
  refine ⟨verdict moduleName (Text.endSpan src) ts, ?_, ?_⟩
  · rw [judged, hts]
    rfl
  · rw [judged, hts', verdict_eq_of_lexemes moduleName (Text.endSpan src) (Text.endSpan src') h]
    rfl

def tightText : String := "f:fn i8(a:i8)\x7breturn a+2.5 as i8;\x7d x:i8=1.5;"

def looseText : String :=
  "// a sum\nf : fn i8 ( a : i8 )\n\x7b\n  return a + /* cut */ 2.5\n    as i8;\n\x7d\n\n" ++
  "x : i8 = 1.5 ;\n"

theorem judged_looseText : ∃ ts ts' v, tokenize tightText = .ok ts ∧ tokenize looseText = .ok ts' ∧
    ts ≠ ts' ∧ judged "m" tightText = .ok v ∧ judged "m" looseText = .ok v := by
  have hsame : (tokenize tightText).toOption.map (·.map fun t => (t.kind, t.lexeme.text?)) =
      (tokenize looseText).toOption.map (·.map fun t => (t.kind, t.lexeme.text?)) := by
    decide +kernel
  have hmoved : (tokenize tightText).toOption.isSome ∧
      (tokenize tightText).toOption ≠ (tokenize looseText).toOption := by
    decide +kernel
  obtain ⟨ts, hts⟩ := Option.isSome_iff_exists.mp hmoved.1
  rw [hts] at hsame hmoved
  obtain ⟨ts', hts', hsame⟩ := Option.map_eq_some_iff.mp hsame.symm
  rw [hts'] at hmoved
  rw [toOption_eq_some] at hts hts'
  obtain ⟨v, hv, hv'⟩ := judged_of_same_lexemes "m" _ _ ts ts' hts hts' hsame.symm
  exact ⟨ts, ts', v, hts, hts', fun h => hmoved.2 (congrArg some h), hv, hv'⟩

end Frontend
