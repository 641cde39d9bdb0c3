import Frontend.Proofs.Pipeline
import Frontend.Proofs.Positions

/-!
What is reported of a text points into it. Three counts of lines and columns meet here: the one that
goes on while the text is cut into tokens, the place past the last line, and the lines among which
the one to be shown is looked up. A token or a fault starts with a character that no end of line
takes away, so that the character stands in its line where the first count says.
-/
namespace Frontend

namespace Text

/-- How many characters stand behind the last line feed. -/
def column (cs : List Char) : Nat := (cs.reverse.takeWhile (· ≠ '\n')).length

variable {cs l : List Char} {c : Char}

theorem takeWhile_reverse (h : '\n' ∉ cs) : cs.reverse.takeWhile (· ≠ '\n') = cs.reverse := by
  rw [List.takeWhile_eq_self_iff]
  intro c hc
  exact decide_eq_true fun heq => h (heq ▸ List.mem_reverse.mp hc)

theorem column_of_not_mem (h : '\n' ∉ cs) : column cs = cs.length := by
  rw [column, takeWhile_reverse h, List.length_reverse]

theorem column_cons_of_mem (c : Char) (h : '\n' ∈ cs) : column (c :: cs) = column cs := by
  have hstop : (cs.reverse.takeWhile (· ≠ '\n')).length ≠ cs.reverse.length := by
    intro hlength
    have hall := (List.takeWhile_prefix _).eq_of_length hlength
    have htrue := List.takeWhile_eq_self_iff.mp hall '\n' (List.mem_reverse.mpr h)
    simp at htrue
  rw [column, column, List.reverse_cons, List.takeWhile_append, if_neg hstop]

theorem column_cons_newline (cs : List Char) : column ('\n' :: cs) = column cs := by
  by_cases h : '\n' ∈ cs
  · exact column_cons_of_mem '\n' h
  · rw [column_of_not_mem h, column, List.reverse_cons, List.takeWhile_append, takeWhile_reverse h]
    simp

theorem column_cons_of_not_mem (hc : c ≠ '\n') (h : '\n' ∉ cs) :
    column (c :: cs) = column cs + 1 := by
  rw [column_of_not_mem h, column_of_not_mem (by simp [hc.symm, h]), List.length_cons]

/-- A line that does not end here goes on. -/
theorem splitLines_cons {ls : List (List Char)} (hc : c ≠ '\n')
    (hcs : ∀ r, c = '\r' → cs ≠ '\n' :: r)
    (h : splitLines cs = l :: ls) : splitLines (c :: cs) = (c :: l) :: ls := by
  rw [splitLines.eq_4 c cs hc hcs, h]

theorem splitLines_ne_nil (h : cs ≠ []) : splitLines cs ≠ [] := by
  fun_cases splitLines cs with
  | case1 => exact absurd rfl h
  | case2 | case3 => simp
  | case4 | case5 => simp_all

/-- A character that no end of line takes away stands in its line behind those before it. -/
theorem splitLines_getElem? (before after : List Char) (hn : c ≠ '\n') (hr : c ≠ '\r') :
    ∃ l, (splitLines (before ++ c :: after))[before.count '\n']? = some l ∧
      l[column before]? = some c := by
  induction before with
  | nil =>
    rw [List.nil_append, splitLines.eq_4 c after hn fun _ h => absurd h hr]
    split <;> exact ⟨_, rfl, rfl⟩
  | cons d before ih =>
    obtain ⟨l, hl, hc⟩ := ih
    rw [List.cons_append]
    by_cases hd : d = '\n'
    · subst hd
      refine ⟨l, ?_, by rwa [column_cons_newline]⟩
      rw [splitLines, List.count_cons_self, List.getElem?_cons_succ, hl]
    have hcount : (d :: before).count '\n' = before.count '\n' := List.count_cons_of_ne hd
    rw [hcount]
    by_cases hend : ∃ r, d = '\r' ∧ before ++ c :: after = '\n' :: r
    · -- the carriage return goes with the line feed, which stands before the character
      obtain ⟨r, rfl, hfeed⟩ := hend
      have hmem : '\n' ∈ before := by
        cases before with
        | nil => exact absurd (List.cons.inj hfeed).1 hn
        | cons e before => exact (List.cons.inj hfeed).1 ▸ List.mem_cons_self
      refine ⟨l, ?_, by rwa [column_cons_of_mem _ hmem]⟩
      rwa [hfeed, splitLines, ← splitLines, ← hfeed]
    · have hne : before ++ c :: after ≠ [] := by simp
      obtain ⟨first, ls, hlines⟩ := List.exists_cons_of_ne_nil (splitLines_ne_nil hne)
      rw [splitLines_cons hd (fun r hr' heq => hend ⟨r, hr', heq⟩) hlines]
      rw [hlines] at hl
      by_cases hmem : '\n' ∈ before
      · obtain ⟨n, hn'⟩ := Nat.exists_eq_succ_of_ne_zero (List.count_pos_iff.mpr hmem).ne'
        rw [hn'] at hl ⊢
        exact ⟨l, hl, by rwa [column_cons_of_mem _ hmem]⟩
      · rw [List.count_eq_zero.mpr hmem] at hl ⊢
        obtain rfl := Option.some.inj hl
        refine ⟨d :: first, rfl, ?_⟩
        rwa [column_cons_of_not_mem hd hmem, List.getElem?_cons_succ]

theorem not_mem_of_mem_splitLines (h : l ∈ splitLines cs) : '\n' ∉ l := by
  fun_induction splitLines cs generalizing l with
  | case1 => simp at h
  | case2 cs ih | case3 cs ih =>
    rcases List.mem_cons.mp h with rfl | h
    · simp
    · exact ih h
  | case4 c cs hc _ _ _ =>
    obtain rfl := List.mem_singleton.mp h
    simpa using fun heq => hc heq.symm
  | case5 c cs hc _ first ls hlines ih =>
    rw [hlines] at ih
    rcases List.mem_cons.mp h with rfl | h
    · have hfirst := ih List.mem_cons_self
      simpa [hfirst] using fun heq => hc heq.symm
    · exact ih (List.mem_cons_of_mem _ h)

end Text

theorem Punct.spelling_head (p : Punct) : ∃ c cs, p.spelling = c :: cs ∧ c ≠ '\n' ∧ c ≠ '\r' := by
  cases p <;> exact ⟨_, _, rfl, by decide, by decide⟩

/-- The ends of lines are blank. -/
theorem cut_lineEnd {c : Char} (hc : c = '\n' ∨ c = '\r') (cs : List Char) :
    (cut c cs).piece = .blank := by
  unfold cut
  split
  · rfl
  · rfl
  split
  · rename_i p hp
    obtain ⟨d, ds, hspelling, hn, hr⟩ := p.spelling_head
    obtain ⟨rest, hrest⟩ := isPrefixOf_at? hp
    rw [hspelling] at hrest
    obtain ⟨rfl, -⟩ := List.cons.inj hrest
    exact absurd hc (by simp [hn, hr])
  · rcases hc with rfl | rfl <;> rfl

section Starts

variable {src : String} {ts : List Token}

/-- The span starts at a character of a line, and says where. -/
def Span.Begins (src : String) (s : Span) : Prop :=
  ∃ before c after, src.toList = before ++ c :: after ∧ byteLength before = s.lo ∧
    s.pos = Position.start.after before ∧ c ≠ '\n' ∧ c ≠ '\r'

theorem Span.Begins.of_start {s s' : Span} (h : s.Begins src) (hlo : s'.lo = s.lo)
    (hpos : s'.pos = s.pos) : s'.Begins src := by
  obtain ⟨before, c, after, hsrc, hbefore, hat, hline⟩ := h
  exact ⟨before, c, after, hsrc, hbefore.trans hlo.symm, hpos.trans hat, hline⟩

/-- What is cut off and is not blank does not start with the end of a line. -/
theorem cut_begins {c : Char} {cs before : List Char} (h : (cut c cs).piece ≠ .blank)
    (hsrc : src.toList = before ++ c :: cs) :
    ((Place.start.after before).span (cut c cs).front).Begins src := by
  refine ⟨before, c, cs, hsrc, (Nat.zero_add _).symm, rfl, ?_, ?_⟩
  · exact fun hc => h (cut_lineEnd (.inl hc) cs)
  · exact fun hc => h (cut_lineEnd (.inr hc) cs)

theorem scanFrom_begins (cs before : List Char) (hsrc : src.toList = before ++ cs) :
    (∀ t ∈ (scanFrom (Place.start.after before) cs).1, t.span.Begins src) ∧
      ∀ fault ∈ (scanFrom (Place.start.after before) cs).2, fault.span.Begins src := by
  unfold scanFrom
  split
  · simp
  · rename_i c cs
    have hlt := cut_rest_length c cs
    have hcut : src.toList = (before ++ (cut c cs).front) ++ (cut c cs).rest := by
      rw [List.append_assoc, cut_append]
      exact hsrc
    have hrest := scanFrom_begins (cut c cs).rest _ hcut
    rw [Place.after_append] at hrest
    dsimp only
    split
    · rename_i hpiece
      refine ⟨by simp, ?_⟩
      rintro _ ⟨⟩
      exact cut_begins (by simp [hpiece]) hsrc
    · exact hrest
    · rename_i hpiece
      refine ⟨fun t ht => ?_, hrest.2⟩
      rcases List.mem_cons.mp ht with rfl | ht
      · exact cut_begins (by simp [hpiece]) hsrc
      · exact hrest.1 t ht
termination_by cs.length
decreasing_by grind

theorem tokenize_begins (h : tokenize src = .ok ts) : ∀ t ∈ ts, t.span.Begins src := by
  unfold tokenize scan at h
  split at h
  · rename_i hscan
    obtain rfl := Except.ok.inj h
    have hbegins := (scanFrom_begins src.toList [] rfl).1
    rwa [Place.after_nil, hscan] at hbegins
  · simp at h

theorem fault_begins {fault : Located Fault} (h : tokenize src = .error fault) :
    fault.span.Begins src := by
  unfold tokenize scan at h
  split at h
  · simp at h
  · rename_i hscan
    obtain rfl := Except.error.inj h
    have hbegins := (scanFrom_begins src.toList [] rfl).2
    rw [Place.after_nil, hscan] at hbegins
    exact hbegins _ rfl

theorem parse_begins (h : tokenize src = .ok ts) {e : Located ParseError}
    (he : Program.ofTokens (Text.endSpan src) ts = .error e) :
    e.span = Text.endSpan src ∨ e.span.Begins src := by
  refine (Program.ofTokens_error_starts h he).imp_right ?_
  rintro ⟨t, ht, hlo, hpos⟩
  exact (tokenize_begins h t ht).of_start hlo hpos

theorem spans_begin (h : tokenize src = .ok ts) {eof : Span} {p : Program}
    (hp : Program.ofTokens eof ts = .ok p) : ∀ s ∈ Stmt.allSpans p, s.Begins src := by
  have hts : InOrder ts := (tokenize_tiles h).apart
  have hstands := Grammar.program_stands ⟨eof, .start⟩ ts p hp hts
  rw [← Stmt.allSpans_layouts]
  intro s hs
  obtain ⟨t, ht, hlo, hpos⟩ := hstands.fit.starts s hs
  exact (tokenize_begins h t ht).of_start hlo hpos

end Starts

/-- What is reported, with the span at which it is found. A fault of the compiler is found
nowhere. -/
def CompileError.diagnosed (s : Span) : CompileError → List (Located Diagnostic)
  | .diagnostic d => [⟨s, d⟩]
  | .breach _ => []

/-- All that compiling a text reports, with the spans at which it is found. -/
def findings (file : String) (emit : Emit) (src : String) : List (Located Diagnostic) :=
  match tokenize src with
  | .error e => (CompileError.ofFault e).diagnosed e.span
  | .ok ts =>
    if emit = .tokens then []
    else match Program.ofTokens (Text.endSpan src) ts with
      | .error e => (CompileError.ofParse e).diagnosed e.span
      | .ok p =>
        match p.check with
        | .error e => (CompileError.ofCheck e).diagnosed e.span
        | .ok (q, ws) =>
          let warnings := ws.map fun w => ⟨w.span, Warning.diagnostic w⟩
          if emit = .tree then q.outline.elim [] fun _ => warnings
          else match q.lower (moduleName file) with
            | .error e => (CompileError.ofLower e).diagnosed e.span
            | .ok _ => warnings

/-- What is reported: the error with which compiling ends, or the warnings. -/
def reported : Except CompileError Output → List Diagnostic
  | .error (.diagnostic d) => [d]
  | .error (.breach _) => []
  | .ok out => out.warnings

theorem reported_error (e : CompileError) (s : Span) :
    reported (.error e) = (e.diagnosed s).map (·.value) := by
  cases e <;> rfl

/-- Compiling reports what is found. -/
theorem reported_compile (file : String) (emit : Emit) (src : String) :
    reported (compile file emit src) = (findings file emit src).map (·.value) := by
  unfold compile findings
  cases tokenize src with
  | error e => exact reported_error _ e.span
  | ok ts =>
    simp only [Except.mapError, Bind.bind, Except.bind]
    by_cases htokens : emit = .tokens
    · rw [if_pos htokens, if_pos htokens]
      rfl
    rw [if_neg htokens, if_neg htokens]
    cases Program.ofTokens (Text.endSpan src) ts with
    | error e => exact reported_error _ e.span
    | ok p =>
      dsimp only
      cases p.check with
      | error e => exact reported_error _ e.span
      | ok checked =>
        obtain ⟨q, ws⟩ := checked
        dsimp only
        by_cases htree : emit = .tree
        · rw [if_pos htree, if_pos htree]
          cases q.outline with
          | none => rfl
          | some outline => simp [reported, Pure.pure, Except.pure, Function.comp_def]
        rw [if_neg htree, if_neg htree]
        cases q.lower (moduleName file) with
        | error e => exact reported_error _ e.span
        | ok m => simp [reported, Pure.pure, Except.pure, Function.comp_def]

section Findings

variable {src : String}

theorem ofParse_diagnosed (e : Located ParseError) :
    ∀ x ∈ (CompileError.ofParse e).diagnosed e.span, x.span = e.span ∧
    x.value.pos = e.span.pos := by
  unfold CompileError.ofParse
  split <;> simp [CompileError.diagnosed, Diagnostic.critical]

theorem ofCheck_diagnosed (e : Located CheckError) :
    ∀ x ∈ (CompileError.ofCheck e).diagnosed e.span, x.span = e.span ∧
    x.value.pos = e.span.pos := by
  unfold CompileError.ofCheck
  split <;> simp [CompileError.diagnosed, Diagnostic.critical]

theorem ofLower_diagnosed (e : Located LowerError) :
    ∀ x ∈ (CompileError.ofLower e).diagnosed e.span, x.span = e.span ∧
    x.value.pos = e.span.pos := by
  unfold CompileError.ofLower
  split <;> simp [CompileError.diagnosed, Diagnostic.critical]

/-- A finding has the position of its span, which starts in a line or is the end of the text. -/
theorem findings_begin {file : String} {emit : Emit} : ∀ x ∈ findings file emit src,
    x.value.pos = x.span.pos ∧ (x.span = Text.endSpan src ∨ x.span.Begins src) := by
  intro x hx
  unfold findings at hx
  split at hx
  · rename_i e he
    obtain rfl := List.mem_singleton.mp hx
    exact ⟨rfl, .inr (fault_begins he)⟩
  rename_i ts hts
  split at hx
  · simp at hx
  split at hx
  · rename_i e he
    obtain ⟨hspan, hpos⟩ := ofParse_diagnosed e x hx
    rw [hspan]
    exact ⟨hpos, parse_begins hts he⟩
  rename_i p hp
  have hbegin := spans_begin hts hp
  split at hx
  · rename_i e he
    obtain ⟨hspan, hpos⟩ := ofCheck_diagnosed e x hx
    rw [hspan]
    exact ⟨hpos, .inr (hbegin _ (Program.span_mem_of_check_eq_error he))⟩
  rename_i q ws hq
  obtain ⟨htree, hwarnings⟩ := Program.spans_of_check_eq_ok hq
  have hwarned : x ∈ ws.map (fun w => (⟨w.span, Warning.diagnostic w⟩ : Located Diagnostic)) →
      x.value.pos = x.span.pos ∧ (x.span = Text.endSpan src ∨ x.span.Begins src) := by
    intro hx
    obtain ⟨w, hw, rfl⟩ := List.mem_map.mp hx
    exact ⟨rfl, .inr (hbegin _ (hwarnings w hw))⟩
  dsimp only at hx
  split at hx
  · cases houtline : q.outline with
    | none => simp [houtline] at hx
    | some outline =>
      rw [houtline] at hx
      exact hwarned hx
  split at hx
  · rename_i e he
    obtain ⟨hspan, hpos⟩ := ofLower_diagnosed e x hx
    rw [hspan]
    exact ⟨hpos, .inr (hbegin _ (htree _ (Program.span_mem_of_lower_eq_error he)))⟩
  · exact hwarned hx

end Findings

/-- The position is one of the line `l` of the text, or right behind it. A text without lines has
the first position only. -/
def Position.StandsIn (src : String) (p : Position) (l : List Char) : Prop :=
  Text.lines src = [] ∧ p = ⟨1, 1⟩ ∧ l = [] ∨
    1 ≤ p.line ∧ p.line ≤ (Text.lines src).length ∧ (Text.lines src)[p.line - 1]? = some l ∧
      1 ≤ p.column ∧ p.column ≤ l.length + 1

/-- A diagnostic with the line `l` whole, and the caret under its column. -/
def Diagnostic.under (file : String) (d : Diagnostic) (l : List Char) : String :=
  d.severity.heading ++ " line " ++ toString d.pos.line ++ ", column " ++ toString d.pos.column ++
    ", " ++ file ++ "\n" ++ String.ofList l ++ "\n" ++
    String.ofList (List.replicate (d.pos.column - 1) ' ') ++ "^\n" ++
    String.ofList (List.replicate (d.pos.column - 2) '_') ++ "/\n" ++ d.message

/-- The line `l` is shown with the caret under the column of the diagnostic, as far as carets can be
indented. Further to the right nothing is shown. -/
def Diagnostic.ShowsLine (file src : String) (d : Diagnostic) (l : List Char) : Prop :=
  '\n' ∉ l ∧ d.render file src = if d.pos.column ≤ 65536 then some (d.under file l) else none

/-- The position is that of the character at the first byte of the span. At the end of the text it
is right behind the last line, as far as columns go. -/
def Span.StartsAt (src : String) (s : Span) (p : Position) : Prop :=
  (s.lo = byteLength src.toList → Text.lines src = [] ∧ p = ⟨1, 1⟩ ∨
    ∃ l, (Text.lines src).getLast? = some l ∧
      p = ⟨(Text.lines src).length, min (l.length + 1) (2 ^ 32 - 1)⟩) ∧
  (s.lo ≠ byteLength src.toList → ∃ before c after, src.toList = before ++ c :: after ∧
    byteLength before = s.lo ∧
    p = ⟨1 + before.count '\n', 1 + (before.reverse.takeWhile (· ≠ '\n')).length⟩ ∧
    (Text.lines src)[p.line - 1]?.bind (·[p.column - 1]?) = some c)

section Placement

variable {src : String}

theorem endPosition_cases (src : String) :
    Text.lines src = [] ∧ Text.endPosition src = ⟨1, 1⟩ ∨ ∃ l, (Text.lines src).getLast? = some l ∧
      Text.endPosition src = ⟨(Text.lines src).length, min (l.length + 1) (2 ^ 32 - 1)⟩ := by
  unfold Text.endPosition
  dsimp only
  split
  · rename_i hnone
    exact .inl ⟨List.getLast?_eq_none_iff.mp hnone, rfl⟩
  · rename_i l hlast
    exact .inr ⟨l, hlast, rfl⟩

theorem endPosition_standsIn (src : String) : ∃ l, (Text.endPosition src).StandsIn src l := by
  rcases endPosition_cases src with ⟨hnone, hpos⟩ | ⟨l, hlast, hpos⟩
  · exact ⟨[], .inl ⟨hnone, hpos, rfl⟩⟩
  · have hne : Text.lines src ≠ [] := by
      rintro hnone
      simp [hnone] at hlast
    have hlength := List.length_pos_iff.mpr hne
    refine ⟨l, .inr ?_⟩
    rw [hpos]
    refine ⟨hlength, Nat.le_refl _, ?_, Nat.le_min.mpr ⟨Nat.le_add_left 1 _, by decide⟩,
      Nat.min_le_left _ _⟩
    rw [← List.getLast?_eq_getElem?]
    exact hlast

theorem Position.StandsIn.shows {d : Diagnostic} {l : List Char} (h : d.pos.StandsIn src l)
    (file : String) : d.ShowsLine file src l := by
  have hline : (Text.lines src)[d.pos.line - 1]?.getD [] = l := by
    rcases h with ⟨hnone, -, rfl⟩ | ⟨-, -, hl, -⟩
    · simp [hnone]
    · simp [hl]
  constructor
  · rcases h with ⟨-, -, rfl⟩ | ⟨-, -, hl, -⟩
    · simp
    · exact Text.not_mem_of_mem_splitLines (List.mem_of_getElem? hl)
  · rw [Diagnostic.render, Diagnostic.sourceLine, hline, Text.blanks?]
    by_cases hwide : d.pos.column - 1 ≤ Text.widest
    · rw [if_pos hwide, if_pos (by rw [Text.widest] at hwide; omega)]
      rfl
    · rw [if_neg hwide, if_neg (by rw [Text.widest] at hwide; omega)]
      rfl

theorem Span.Begins.lo_lt {s : Span} (h : s.Begins src) : s.lo < byteLength src.toList := by
  obtain ⟨before, c, after, hsrc, hbefore, -⟩ := h
  have hpos := c.utf8Size_pos
  rw [hsrc, byteLength_append, byteLength_cons]
  omega

/-- The character that a span starts with is found in its line. -/
theorem Span.Begins.placed {s : Span} (h : s.Begins src) :
    (∃ l, s.pos.StandsIn src l) ∧ s.StartsAt src s.pos := by
  have hlt := h.lo_lt
  obtain ⟨before, c, after, hsrc, hbefore, hpos, hn, hr⟩ := h
  rw [Position.after_start] at hpos
  obtain ⟨l, hl, hc⟩ := Text.splitLines_getElem? before after hn hr
  rw [← hsrc] at hl
  have hline : (Text.lines src)[s.pos.line - 1]? = some l := by
    rw [hpos, Nat.add_sub_cancel_left]
    exact hl
  have hcolumn : l[s.pos.column - 1]? = some c := by
    rw [hpos, Nat.add_sub_cancel_left]
    exact hc
  obtain ⟨hlines, -⟩ := List.getElem?_eq_some_iff.mp hline
  obtain ⟨hlength, -⟩ := List.getElem?_eq_some_iff.mp hcolumn
  have hfirst : 1 ≤ s.pos.line ∧ 1 ≤ s.pos.column := by
    rw [hpos]
    exact ⟨Nat.le_add_right _ _, Nat.le_add_right _ _⟩
  refine ⟨⟨l, .inr ⟨hfirst.1, by omega, hline, hfirst.2, by omega⟩⟩, ?_, ?_⟩
  · intro hend
    omega
  · intro _
    exact ⟨before, c, after, hsrc, hbefore, hpos, by rw [hline]; exact hcolumn⟩

theorem endSpan_placed (src : String) :
    (∃ l, (Text.endSpan src).pos.StandsIn src l) ∧
      (Text.endSpan src).StartsAt src (Text.endSpan src).pos :=
  ⟨endPosition_standsIn src, fun _ => endPosition_cases src, fun hne => absurd rfl hne⟩

end Placement

/-- All that compiling a text reports points into the text. The position is in one of its lines, or
right behind one; that line is shown, with the caret under the column, unless the column is so far
to the right that nothing can be; and it is the position of the character at the first byte of the
span where the fault was found, or, at the end of the text, the one behind its last line. -/
theorem compile_points (file : String) (emit : Emit) (src : String) :
    reported (compile file emit src) = (findings file emit src).map (·.value) ∧
    ∀ x ∈ findings file emit src,
      (∃ l, x.value.pos.StandsIn src l ∧ x.value.ShowsLine file src l) ∧
      x.span.StartsAt src x.value.pos := by
  refine ⟨reported_compile file emit src, fun x hx => ?_⟩
  obtain ⟨hpos, hspan⟩ := findings_begin x hx
  have hplaced : (∃ l, x.value.pos.StandsIn src l) ∧ x.span.StartsAt src x.value.pos := by
    rw [hpos]
    rcases hspan with hend | hbegins
    · rw [hend]
      exact endSpan_placed src
    · exact hbegins.placed
  obtain ⟨⟨l, hl⟩, hstarts⟩ := hplaced
  exact ⟨⟨l, hl, hl.shows file⟩, hstarts⟩

/-- A stray character behind one of two bytes, and lines that end in two ways. -/
def strayText : String := "f : fn \x7b\r\n 'é'; ?\n"

/-- A body that is not closed, and an empty line at the end. -/
def openText : String := "f : fn \x7b\r\n\r\n"

theorem compile_strayText_points :
    (∃ x, findings "main.tv" .ir strayText = [x] ∧ x.span.lo = 17 ∧ x.value.pos = ⟨2, 7⟩ ∧
      (∃ l, x.value.ShowsLine "main.tv" strayText l) ∧ x.span.StartsAt strayText ⟨2, 7⟩) ∧
    ∃ x, findings "main.tv" .ir openText = [x] ∧ x.span.lo = byteLength openText.toList ∧
      x.value.pos = ⟨2, 1⟩ ∧ x.span.StartsAt openText ⟨2, 1⟩ := by
  have hstray : (findings "main.tv" .ir strayText).map (fun x => (x.span.lo, x.value.pos)) =
      [(17, ⟨2, 7⟩)] := by
    decide +kernel
  have hopen : (findings "main.tv" .ir openText).map (fun x => (x.span.lo, x.value.pos)) =
      [(byteLength openText.toList, ⟨2, 1⟩)] := by
    decide +kernel
  constructor
  · obtain ⟨x, hx, hat⟩ := List.map_eq_singleton_iff.mp hstray
    obtain ⟨hlo, hpos⟩ := Prod.mk.inj hat
    obtain ⟨⟨l, -, hshows⟩, hstarts⟩ := (compile_points "main.tv" .ir strayText).2 x (by simp [hx])
    rw [hpos] at hstarts
    exact ⟨x, hx, hlo, hpos, ⟨l, hshows⟩, hstarts⟩
  · obtain ⟨x, hx, hat⟩ := List.map_eq_singleton_iff.mp hopen
    obtain ⟨hlo, hpos⟩ := Prod.mk.inj hat
    have hstarts := ((compile_points "main.tv" .ir openText).2 x (by simp [hx])).2
    rw [hpos] at hstarts
    exact ⟨x, hx, hlo, hpos, hstarts⟩

/-- Blanks, and then a character that cannot be read. -/
def indented (n : Nat) : String := String.ofList (List.replicate n ' ' ++ ['$'])

theorem tokenize_indented (n : Nat) :
    ∃ e, tokenize (indented n) = .error e ∧ e.span.pos = ⟨1, 1 + n⟩ := by
  have hgap : Gap false (List.replicate n ' ') := by
    induction n with
    | zero => exact .nil
    | succ n ih => exact .blank (by decide) ih
  have hpos : (Place.start.after (List.replicate n ' ')).pos = ⟨1, 1 + n⟩ := by
    have hline : '\n' ∉ List.replicate n ' ' := by simp [List.mem_replicate]
    have hcolumn := Text.column_of_not_mem hline
    rw [List.length_replicate, Text.column] at hcolumn
    rw [Place.after, Place.start, Position.after_start, hcolumn, List.count_eq_zero.mpr hline]
  refine ⟨⟨(Place.start.after (List.replicate n ' ')).span ['$'], .unexpectedChar '$'⟩, ?_, hpos⟩
  unfold tokenize scan indented
  rw [String.toList_ofList, hgap.scanFrom (by simp), scanFrom_fault rfl]
  rfl

/-- It is not so that every diagnostic can be shown. -/
theorem compile_unshown : ¬ ∀ file emit src, ∀ d ∈ reported (compile file emit src),
    ∃ l, d.pos.StandsIn src l ∧ d.render file src = some (d.under file l) := by
  intro h
  obtain ⟨e, he, hpos⟩ := tokenize_indented 65536
  have hreported : reported (compile "main.tv" .ir (indented 65536)) =
      [.critical e.value.code e.span.pos e.value.message] := by
    rw [reported_compile, findings, he]
    rfl
  obtain ⟨l, hl, hrender⟩ := h "main.tv" .ir (indented 65536) _
    (hreported ▸ List.mem_singleton.mpr rfl)
  have hshows := (hl.shows "main.tv").2
  rw [hrender, if_neg (by simp [Diagnostic.critical, hpos])] at hshows
  cases hshows

end Frontend
