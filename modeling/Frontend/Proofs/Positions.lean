import Frontend.Proofs.Layers
import Frontend.Proofs.Nesting
import Frontend.Proofs.RelocatedReading
import Frontend.Proofs.RelocatedWalks

/-!
Spans are faithful to the text. The span of every statement and expression runs from the first byte
of its first token to the last byte of its last one; so it holds the spans of its parts, which
follow each other. Every span in a tree, and every span at which something is reported, says on
which line and in which column its first byte stands; only the span past the end of the text has no
such byte.
-/
namespace Frontend

/-- The position of the span counts the lines before its first character and the characters before
it on its line. -/
def Span.Points (src : String) (s : Span) : Prop :=
  ∃ before c after, src.toList = before ++ c :: after ∧ byteLength before = s.lo ∧
    s.pos = ⟨1 + before.count '\n', 1 + (before.reverse.takeWhile (· ≠ '\n')).length⟩

/-- Only where a span starts matters. -/
theorem Span.Points.of_start {src : String} {s s' : Span} (h : s.Points src) (hlo : s'.lo = s.lo)
    (hpos : s'.pos = s.pos) : s'.Points src := by
  obtain ⟨before, c, after, hsrc, hbefore, hat⟩ := h
  exact ⟨before, c, after, hsrc, hbefore.trans hlo.symm, hpos.trans hat⟩

theorem Token.Placed.points {src : String} {t : Token} (h : t.Placed src) : t.span.Points src := by
  obtain ⟨before, after, hsrc, hbefore, hpos⟩ := h.position
  have hinside := h.inside
  have hnonempty := h.nonempty
  simp only [hsrc, byteLength_append, Span.hi, ← hbefore] at hinside
  cases after with
  | nil => simp at hinside; omega
  | cons c after => exact ⟨before, c, after, hsrc, hbefore, hpos⟩

section Tokens

variable {src : String} {ts : List Token}

/-- A fault is found where a piece is cut off. -/
theorem scanFrom_fault_points {fault : Located Fault} (here : Place) (cs before : List Char)
    (h : (scanFrom here cs).2 = some fault) (hsrc : src.toList = before ++ cs)
    (hhere : here = Place.start.after before) : fault.span.Points src := by
  unfold scanFrom at h
  split at h
  · simp at h
  · rename_i c cs
    have hlt := cut_rest_length c cs
    have hcut : src.toList = (before ++ (cut c cs).front) ++ (cut c cs).rest := by
      rw [List.append_assoc, cut_append]
      exact hsrc
    have hplace : here.after (cut c cs).front = Place.start.after (before ++ (cut c cs).front) := by
      rw [hhere, ← Place.after_append]
    dsimp only at h
    split at h
    -- the piece is the fault, and starts here
    · obtain rfl := Option.some.inj h
      refine ⟨before, c, cs, hsrc, ?_, ?_⟩
      · rw [hhere]
        exact (Nat.zero_add _).symm
      · rw [hhere]
        exact Position.after_start before
    · exact scanFrom_fault_points _ _ _ h hcut hplace
    · exact scanFrom_fault_points _ _ _ h hcut hplace
termination_by cs.length
decreasing_by all_goals grind

theorem tokenize_fault_points {fault : Located Fault} (h : tokenize src = .error fault) :
    fault.span.Points src := by
  unfold tokenize scan at h
  split at h
  · simp at h
  · rename_i hscan
    obtain rfl := Except.error.inj h
    exact scanFrom_fault_points .start src.toList [] (congrArg Prod.snd hscan) rfl rfl

theorem tokenize_points (h : tokenize src = .ok ts) : ∀ t ∈ ts, t.span.Points src ∧
    t.span.hi ≤ byteLength src.toList := by
  have hsrc : src.toList = [] ++ src.toList := rfl
  intro t ht
  have hplaced := (tokenize_tiles h).placed hsrc rfl t ht
  exact ⟨hplaced.points, hplaced.inside⟩

theorem points_of_starts (h : tokenize src = .ok ts) {ss : List Span}
    (hss : ∀ s ∈ ss, ∃ t ∈ ts, s.lo = t.span.lo ∧ s.pos = t.span.pos) : ∀ s ∈ ss, s.Points src := by
  intro s hs
  obtain ⟨t, ht, hlo, hpos⟩ := hss s hs
  exact (tokenize_points h t ht).1.of_start hlo hpos

end Tokens

/-- Keeps the spans that start where one of `starts` does and end by byte `n`, and no others. -/
def Span.settle (starts : List Span) (n : Nat) (s : Span) : Span :=
  ⟨min s.lo n, min s.hi n - min s.lo n,
    if ∃ t ∈ starts, t.lo = s.lo ∧ t.pos = s.pos then s.pos else ⟨s.pos.line + 1, s.pos.column⟩⟩

section Settle

variable {starts : List Span} {n : Nat} {s : Span}

theorem Span.settle_hi (s : Span) : (s.settle starts n).hi = min s.hi n := by
  have hle : s.lo ≤ s.hi := Nat.le_add_right _ _
  change min s.lo n + (min s.hi n - min s.lo n) = min s.hi n
  omega

theorem keepsStretches_settle (starts : List Span) (n : Nat) :
    KeepsStretches (Span.settle starts n) := by
  intro s t
  have hend : min (max s.hi t.hi) n = max (min s.hi n) (min t.hi n) := by omega
  conv_rhs => rw [Span.through, Span.settle_hi, Span.settle_hi, ← hend, ← Span.through_hi]
  rfl

theorem Span.settle_of_mem (hs : s ∈ starts) (hn : s.hi ≤ n) : s.settle starts n = s := by
  obtain ⟨lo, len, pos⟩ := s
  simp only [Span.hi] at hn
  simp only [Span.settle, Span.hi, if_pos (⟨_, hs, rfl, rfl⟩ : ∃ t ∈ starts,
    t.lo = lo ∧ t.pos = pos)]
  congr 1 <;> omega

theorem Span.settle_eq_self (h : s.settle starts n = s) :
    s.hi ≤ n ∧ ∃ t ∈ starts, t.lo = s.lo ∧ t.pos = s.pos := by
  have hhi := congrArg Span.hi h
  have hpos := congrArg Span.pos h
  rw [Span.settle_hi] at hhi
  refine ⟨by omega, ?_⟩
  by_contra hnone
  rw [Span.settle, if_neg hnone] at hpos
  have hline := congrArg Position.line hpos
  simp at hline

end Settle

section Reports

variable {src : String} {ts : List Token} {s : Span} {e : Located ParseError}

variable (h : tokenize src = .ok ts)

include h

/-- A span that is made only of those of the tokens and of the end of the text starts as one of them
does and ends in the text. -/
theorem starts_and_ends_of_kept
    (hs : ∀ f, KeepsStretches f → f (Text.endSpan src) = Text.endSpan src →
      ts.map (Token.relocate f) = ts → f s = s) :
    s.hi ≤ byteLength src.toList ∧
      ∃ t ∈ Text.endSpan src :: ts.map (·.span), t.lo = s.lo ∧ t.pos = s.pos := by
  -- Settling on the starts of the tokens moves every span that this does not allow.
  let starts := Text.endSpan src :: ts.map (·.span)
  let n := byteLength src.toList
  have hkept : ts.map (Token.relocate (Span.settle starts n)) = ts := by
    refine (List.map_congr_left fun t ht => ?_).trans (List.map_id ts)
    rw [Token.relocate, Span.settle_of_mem
      (List.mem_cons_of_mem _ (List.mem_map_of_mem ht)) (tokenize_points h t ht).2]
    rfl
  exact Span.settle_eq_self (hs _ (keepsStretches_settle starts n)
    (Span.settle_of_mem List.mem_cons_self (Nat.le_refl _)) hkept)

/-- A span that is made only of those of the tokens and of the end of the text starts at a token, or
is the end of the text. -/
theorem eq_endSpan_or_starts
    (hs : ∀ f, KeepsStretches f → f (Text.endSpan src) = Text.endSpan src →
      ts.map (Token.relocate f) = ts → f s = s) :
    s = Text.endSpan src ∨ ∃ t ∈ ts, s.lo = t.span.lo ∧ s.pos = t.span.pos := by
  obtain ⟨hhi, start, hstart, hlo, hpos⟩ := starts_and_ends_of_kept h hs
  obtain rfl | hstart := List.mem_cons.mp hstart
  · left
    obtain ⟨lo, len, pos⟩ := s
    simp only [Text.endSpan, Span.hi] at hlo hpos hhi ⊢
    subst hlo hpos
    congr 1
    omega
  · right
    obtain ⟨t, ht, rfl⟩ := List.mem_map.mp hstart
    exact ⟨t, ht, hlo.symm, hpos.symm⟩

theorem eq_endSpan_or_points
    (hs : ∀ f, KeepsStretches f → f (Text.endSpan src) = Text.endSpan src →
      ts.map (Token.relocate f) = ts → f s = s) : s = Text.endSpan src ∨ s.Points src := by
  refine (eq_endSpan_or_starts h hs).imp_right ?_
  rintro ⟨t, ht, hlo, hpos⟩
  exact (tokenize_points h t ht).1.of_start hlo hpos

theorem Program.ofTokens_error_starts (he : Program.ofTokens (Text.endSpan src) ts = .error e) :
    e.span = Text.endSpan src ∨ ∃ t ∈ ts, e.span.lo = t.span.lo ∧ e.span.pos = t.span.pos := by
  refine eq_endSpan_or_starts h fun f hf heof hts => ?_
  have hmoved := Program.ofTokens_relocate hf (Text.endSpan src) ts
  rw [heof, hts, he] at hmoved
  exact (congrArg Located.span (Except.error.inj hmoved)).symm

theorem Program.ofTokens_error_points (he : Program.ofTokens (Text.endSpan src) ts = .error e) :
    e.span = Text.endSpan src ∨ e.span.Points src := by
  refine (Program.ofTokens_error_starts h he).imp_right ?_
  rintro ⟨t, ht, hlo, hpos⟩
  exact (tokenize_points h t ht).1.of_start hlo hpos

theorem Expr.ofTokens_error_points (he : Expr.ofTokens (Text.endSpan src) ts = .error e) :
    e.span = Text.endSpan src ∨ e.span.Points src := by
  refine eq_endSpan_or_points h fun f hf heof hts => ?_
  have hmoved := Expr.ofTokens_relocate hf (Text.endSpan src) ts
  rw [heof, hts, he] at hmoved
  exact (congrArg Located.span (Except.error.inj hmoved)).symm

end Reports

/-- The expression stands over all the tokens, and its spans lie in the text as it does. -/
structure Expr.Faithful (src : String) (ts : List Token) (e : Expr) : Prop where
  stands : e.Stands .placed ts []
  nested : e.layout.Nested
  points : ∀ s ∈ e.spans, s.Points src

/-- The statements stand one after the other over all the tokens, and their spans lie in the text as
they do. -/
structure Program.Faithful (src : String) (ts : List Token) (p : Program) : Prop where
  stands : Stmt.AllStand p ts []
  apart : Layout.Apart (Stmt.layouts p)
  nested : Layout.AllNested (Stmt.layouts p)
  points : ∀ s ∈ Stmt.allSpans p, s.Points src

section Trees

variable {src : String} {ts : List Token}

theorem Expr.ofTokens_faithful (h : tokenize src = .ok ts) {eof : Span} {e : Expr}
    (he : Expr.ofTokens eof ts = .ok e) : e.Faithful src ts := by
  have hts : InOrder ts := (tokenize_tiles h).apart
  rw [Grammar.ofTokens_eq_whole] at he
  have hstands := Grammar.expr_stands (Grammar.whole_eq_ok.mp he) hts
  refine ⟨hstands, hstands.fits.nested hts, points_of_starts h ?_⟩
  rw [← Expr.spans_layout]
  exact hstands.fits.starts

theorem Program.ofTokens_faithful (h : tokenize src = .ok ts) {eof : Span} {p : Program}
    (hp : Program.ofTokens eof ts = .ok p) : Program.Faithful src ts p := by
  have hts : InOrder ts := (tokenize_tiles h).apart
  have hstands := Grammar.program_stands ⟨eof, .start⟩ ts p hp hts
  refine ⟨hstands, hstands.fit.apart hts, hstands.fit.nested hts, points_of_starts h ?_⟩
  rw [← Stmt.allSpans_layouts]
  exact hstands.fit.starts

end Trees

/-- Spans are faithful. What is read of a text stands over its tokens, each node from its first to
its last one, so that spans are nested and those of neighbours in order; and the spans of the trees
before and after the check, of the warnings and of every fault point to the line and column of their
first byte. Only reading may report at the end of the text. -/
theorem spans_faithful (src : String) :
    (∀ fault, tokenize src = .error fault → fault.span.Points src) ∧
    ∀ ts, tokenize src = .ok ts →
      (∀ e, Expr.ofTokens (Text.endSpan src) ts = .ok e → e.Faithful src ts) ∧
      (∀ err, Expr.ofTokens (Text.endSpan src) ts = .error err →
        err.span = Text.endSpan src ∨ err.span.Points src) ∧
      (∀ err, Program.ofTokens (Text.endSpan src) ts = .error err →
        err.span = Text.endSpan src ∨ err.span.Points src) ∧
      ∀ p, Program.ofTokens (Text.endSpan src) ts = .ok p → Program.Faithful src ts p ∧
        (∀ err, p.check = .error err → err.span.Points src) ∧
        ∀ q ws, p.check = .ok (q, ws) → (∀ s ∈ Stmt.allSpans q, s.Points src) ∧
          (∀ w ∈ ws, w.span.Points src) ∧
          ∀ moduleName err, q.lower moduleName = .error err → err.span.Points src := by
  refine ⟨fun fault => tokenize_fault_points, fun ts hts => ⟨fun e => Expr.ofTokens_faithful hts,
    fun err => Expr.ofTokens_error_points hts, fun err => Program.ofTokens_error_points hts, ?_⟩⟩
  intro p hp
  have hfaithful := Program.ofTokens_faithful hts hp
  refine ⟨hfaithful, ?_, ?_⟩
  · intro err herr
    exact hfaithful.points _ (Program.span_mem_of_check_eq_error herr)
  · intro q ws hq
    obtain ⟨htree, hwarnings⟩ := Program.spans_of_check_eq_ok hq
    refine ⟨fun s hs => hfaithful.points s (htree s hs),
      fun w hw => hfaithful.points _ (hwarnings w hw), ?_⟩
    intro moduleName err herr
    exact hfaithful.points _ (htree _ (Program.span_mem_of_lower_eq_error herr))

/-- A chain of alternatives with a warning on the third line, after a character of two bytes. -/
def crookedText : String :=
  "f: fn i8(b: i8)\n\x7b\n  if b \x7b /* é */ x: i32 = 2.5; \x7d\n  elif (b\n)" ++
    "\x7breturn f(b);\x7d else \x7b b = 3; \x7d return b; \x7d"

/-- A global is read inside a function, which only lowering refuses. -/
def farText : String := "x: i8 = 1;\nf: fn i8()\x7b\n  return x; \x7d"

theorem spans_of_crookedText :
    (∃ ts p q w, tokenize crookedText = .ok ts ∧
      Program.ofTokens (Text.endSpan crookedText) ts = .ok p ∧ p.check = .ok (q, [w]) ∧
      w.span.pos = ⟨3, 27⟩ ∧ Program.Faithful crookedText ts p ∧
      (∀ s ∈ Stmt.allSpans q, s.Points crookedText) ∧ w.span.Points crookedText) ∧
    ∃ ts p q ws err, tokenize farText = .ok ts ∧
      Program.ofTokens (Text.endSpan farText) ts = .ok p ∧ p.check = .ok (q, ws) ∧
      q.lower "m" = .error err ∧ err.span.Points farText := by
  have hcrooked : ((tokenize crookedText).toOption.bind fun ts =>
      (Program.ofTokens (Text.endSpan crookedText) ts).toOption.bind fun p =>
      p.check.toOption.map fun r => r.2.map (·.span.pos)) = some [⟨3, 27⟩] := by
    decide +kernel
  have hfar : ((tokenize farText).toOption.bind fun ts =>
      (Program.ofTokens (Text.endSpan farText) ts).toOption.bind fun p =>
      p.check.toOption.map fun r => (r.1.lower "m").toOption.isNone) = some true := by
    decide +kernel
  constructor
  · obtain ⟨ts, hts, hrun⟩ := Option.bind_eq_some_iff.mp hcrooked
    obtain ⟨p, hp, hrun⟩ := Option.bind_eq_some_iff.mp hrun
    obtain ⟨⟨q, ws⟩, hq, hws⟩ := Option.map_eq_some_iff.mp hrun
    rw [toOption_eq_some] at hts hp hq
    obtain ⟨w, rfl, hpos⟩ := List.map_eq_singleton_iff.mp hws
    obtain ⟨hfaithful, -, hchecked⟩ := ((spans_faithful crookedText).2 ts hts).2.2.2 p hp
    obtain ⟨htree, hwarnings, -⟩ := hchecked q [w] hq
    exact ⟨ts, p, q, w, hts, hp, hq, hpos, hfaithful, htree, hwarnings w List.mem_cons_self⟩
  · obtain ⟨ts, hts, hrun⟩ := Option.bind_eq_some_iff.mp hfar
    obtain ⟨p, hp, hrun⟩ := Option.bind_eq_some_iff.mp hrun
    obtain ⟨⟨q, ws⟩, hq, hnone⟩ := Option.map_eq_some_iff.mp hrun
    rw [toOption_eq_some] at hts hp hq
    obtain ⟨-, -, hchecked⟩ := ((spans_faithful farText).2 ts hts).2.2.2 p hp
    obtain ⟨-, -, hlower⟩ := hchecked q ws hq
    cases hm : q.lower "m" with
    | ok m => simp [hm, Except.toOption] at hnone
    | error err => exact ⟨ts, p, q, ws, err, hts, hp, hq, hm, hlower "m" err hm⟩

end Frontend
