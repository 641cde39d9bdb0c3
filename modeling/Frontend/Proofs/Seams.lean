import Frontend.Proofs.RelocatedReading
import Frontend.Proofs.Tiling

/-!
Texts put together. The end of a line is a seam: unless it falls into a comment, what stands before
and after it is cut as it is cut alone, but for where it stands. And so is a single blank between
lexemes, so that tokens can be written down again.
-/
namespace Frontend

/-- The span moved down by bytes and lines. -/
def Span.shift (bytes lines : Nat) (s : Span) : Span :=
  ⟨s.lo + bytes, s.len, ⟨s.pos.line + lines, s.pos.column⟩⟩

/-- Where a span of a text is that stands below another one, the end of a line between them. -/
def Span.below (src : String) : Span → Span :=
  Span.shift (byteLength src.toList + 1) (src.toList.count '\n' + 1)

section Shift

variable {bytes lines : Nat}

def Place.shift (bytes lines : Nat) (p : Place) : Place :=
  ⟨p.offset + bytes, ⟨p.pos.line + lines, p.pos.column⟩⟩

theorem Position.after_shift (p : Position) (cs : List Char) :
    Position.after ⟨p.line + lines, p.column⟩ cs =
      ⟨(p.after cs).line + lines, (p.after cs).column⟩ := by
  induction cs generalizing p with
  | nil => rfl
  | cons c cs ih =>
    rw [after_cons, after_cons, ← ih]
    by_cases hc : c = '\n'
    · simp [next, hc, Nat.add_right_comm]
    · simp [next, hc]

theorem Place.after_shift (p : Place) (cs : List Char) :
    (p.shift bytes lines).after cs = (p.after cs).shift bytes lines := by
  simp only [after, shift, Position.after_shift, Nat.add_right_comm]

/-- A text that stands below another one begins in the first column. -/
theorem Place.after_line (cs : List Char) :
    Place.start.after (cs ++ ['\n']) = Place.start.shift (byteLength cs + 1)
      (cs.count '\n' + 1) := by
  refine congrArg₂ Place.mk ?_ ?_
  · rw [byteLength_append]
    rfl
  · change Position.start.after (cs ++ ['\n']) = _
    rw [Position.after_append, Position.after_start]
    rfl

/-- What is cut does not depend on where it stands. -/
theorem Tokenizes.shift {here : Place} {cs : List Char} {ts : List Token}
    {fault : Option (Located Fault)} (h : Tokenizes here cs ts fault) :
    Tokenizes (here.shift bytes lines) cs (ts.map (Token.relocate (Span.shift bytes lines)))
      (fault.map (Located.relocate (Span.shift bytes lines))) := by
  induction h with
  | done hgap => exact .done hgap
  | @stuck here gap c cs f hgap hfault =>
    have hstuck : Tokenizes (here.shift bytes lines) (gap ++ c :: cs) _ _ := .stuck hgap hfault
    rwa [Place.after_shift] at hstuck
  | @token here gap text rest l ts fault hgap hcut _ ih =>
    rw [← Place.after_shift] at ih
    have htoken := Tokenizes.token hgap hcut ih
    rwa [Place.after_shift] at htoken

end Shift

/-- The text ends in a block comment that is not closed. -/
def EndsInComment (src : String) (ts : List Token) : Prop :=
  ∃ before gap body, src.toList = before ++ (gap ++ '/' :: '*' :: body) ∧
    byteLength before = tokensEnd 0 ts ∧ Gap false gap ∧ ∀ front, front <+: body → ¬ Closes 0 front

/-- The end of a line closes a comment that runs to it. -/
theorem Gap.closeLine {gap : List Char} (h : Gap true gap)
    (hclosed : ∀ before body, gap = before ++ '/' :: '*' :: body → Gap false before →
      ∃ front, front <+: body ∧ Closes 0 front) : Gap false (gap ++ ['\n']) := by
  induction h with
  | nil => exact .blank (by decide) .nil
  | @blank c cs hc _ ih =>
    refine .blank hc (ih (fun before body heq hbefore => ?_))
    exact hclosed (c :: before) body (by rw [heq]; rfl) (.blank hc hbefore)
  | @line body cs hbody _ ih =>
    rw [List.cons_append, List.cons_append, List.append_assoc]
    refine .line hbody (ih (fun before inside heq hbefore => ?_))
    cases before with
    | nil => simp at heq
    | cons c before =>
      obtain ⟨rfl, rfl⟩ := List.cons.inj heq
      exact hclosed ('/' :: '/' :: (body ++ '\n' :: before)) inside (by simp) (.line hbody hbefore)
  | @block body cs hbody _ ih =>
    rw [List.cons_append, List.cons_append, List.append_assoc]
    refine .block hbody (ih (fun before inside heq hbefore => ?_))
    exact hclosed ('/' :: '*' :: (body ++ before)) inside (by simp [heq]) (.block hbody hbefore)
  | @lastLine body _ hbody =>
    exact .line hbody (.blank (by decide) .nil)
  | @unclosed body _ hopen =>
    obtain ⟨front, hfront, hcloses⟩ := hclosed [] body rfl .nil
    exact absurd hcloses (hopen front hfront)

theorem Continues.append_blank {c : Char} (hc : Text.isBlank c) {cs rest : List Char} :
    Continues cs (cs ++ c :: rest) := by
  cases cs with
  | nil =>
    rintro _ ⟨⟩
    exact .inl hc
  | cons d ds => exact fun _ hd => .inr hd

/-- A text below another one is cut as it is cut alone. -/
theorem Tokenizes.underneath {src : String} {ts₁ ts₂ : List Token} {fault : Option (Located Fault)}
    {cs : List Char} (h₁ : Tokenizes .start src.toList ts₁ none) (hclosed : ¬ EndsInComment src ts₁)
    (h₂ : Tokenizes .start cs ts₂ fault) :
    Tokenizes .start (src.toList ++ '\n' :: cs) (ts₁ ++ ts₂.map (Token.relocate (Span.below src)))
      (fault.map (Located.relocate (Span.below src))) := by
  obtain ⟨before, gap, hsrc, htail, hend, -, hreplace⟩ := h₁.after_tokens
  have hgap : Gap true gap := by
    cases htail with
    | done hgap => exact hgap
  have hline : Gap false (gap ++ ['\n']) := by
    refine hgap.closeLine fun front body heq hfront => ?_
    by_contra hopen
    rw [heq] at hsrc
    exact hclosed ⟨before, front, body, hsrc, by simpa [Place.start] using hend.symm, hfront,
      fun front hprefix hcloses =>
      hopen ⟨front, hprefix, hcloses⟩⟩
  have hplace : (Place.start.after before).after (gap ++ ['\n']) =
      Place.start.shift (byteLength src.toList + 1) (src.toList.count '\n' + 1) := by
    rw [← Place.after_append, ← List.append_assoc, ← hsrc, Place.after_line]
  have hbelow : Tokenizes ((Place.start.after before).after (gap ++ ['\n'])) cs _ _ :=
    hplace ▸ h₂.shift
  have hjoined := hreplace _ _ _ ?_ (hbelow.prepend hline)
  · rwa [List.append_assoc, ← List.append_assoc, ← hsrc] at hjoined
  · rw [List.append_assoc]
    exact .append_blank (by decide)

/-- The lines below a text do not change what it is cut into, and are cut as they are cut alone,
except that they stand further down. Only a comment that is not closed would take them in. -/
theorem tokenize_below (src₁ src₂ : String) (ts : List Token) (h : tokenize src₁ = .ok ts)
    (hclosed : ¬ EndsInComment src₁ ts) :
    tokenize (src₁ ++ "\n" ++ src₂) =
      relocated (Span.below src₁) (ts ++ ·.map (Token.relocate (Span.below src₁)))
      (tokenize src₂) := by
  have htext : (src₁ ++ "\n" ++ src₂).toList = src₁.toList ++ '\n' :: src₂.toList := by simp
  have h₁ := tokenize_eq_ok_iff.mp h
  cases h₂ : tokenize src₂ with
  | ok ts₂ =>
    rw [relocated_ok, tokenize_eq_ok_iff, htext]
    exact h₁.underneath hclosed (tokenize_eq_ok_iff.mp h₂)
  | error fault =>
    obtain ⟨ts₂, h₂⟩ := tokenize_eq_error_iff.mp h₂
    rw [relocated_error, tokenize_eq_error_iff, htext]
    exact ⟨_, h₁.underneath hclosed h₂⟩

/-- Comments, closed ones in one another and one to the end of the line, and a string that looks
like one. -/
def upperText : String := "s := 'é/*'; /* a /* b */ */ x // end /*"

theorem tokenize_upperText_below :
    ∃ ts, tokenize upperText = .ok ts ∧ ¬ EndsInComment upperText ts ∧
    ∃ fault, tokenize (upperText ++ "\n" ++ "y = $") = .error fault ∧
      fault.value = .unexpectedChar '$' ∧ fault.span = ⟨45, 1, 2, 5⟩ := by
  have hupper : (tokenize upperText).toOption.map (tokensEnd 0) = some 30 := by decide +kernel
  have hlower : (scan "y = $").2.map (fun e => (e.value, e.span)) =
      some (.unexpectedChar '$', ⟨4, 1, 1, 5⟩) := by
    decide +kernel
  obtain ⟨ts, hts, hend⟩ := Option.map_eq_some_iff.mp hupper
  obtain ⟨fault, hfault, heq⟩ := Option.map_eq_some_iff.mp hlower
  have hopen : ¬ EndsInComment upperText ts := by
    rintro ⟨before, gap, body, hsrc, hbefore, hgap, -⟩
    have hsplit := splitBytes?_append before (gap ++ '/' :: '*' :: body)
    rw [hbefore, hend, ← hsrc] at hsplit
    have htail : splitBytes? 30 upperText.toList = some ("s := 'é/*'; /* a /* b */ */ x".toList,
        ' ' :: '/' :: '/' :: [' ', 'e', 'n', 'd', ' ', '/', '*']) := by
      decide +kernel
    have htext := (Prod.mk.inj (Option.some.inj (htail.symm.trans hsplit))).2
    -- a gap that ends before the opening of the last comment would have to end in the one before it
    cases hgap with
    | @blank _ gap _ hgap =>
      replace htext := (List.cons.inj htext).2
      cases hgap with
      | blank hc =>
        obtain ⟨rfl, -⟩ := List.cons.inj htext
        exact absurd hc (by decide)
      | @line line rest hline =>
        replace htext := (List.cons.inj (List.cons.inj htext).2).2
        have hmem : '\n' ∈ [' ', 'e', 'n', 'd', ' ', '/', '*'] := by simp [htext]
        exact absurd hmem (by decide)
      | nil | block => simp at htext
      | lastLine hlast | unclosed hlast => cases hlast
    | nil | line | block => simp at htext
    | lastLine hlast | unclosed hlast => cases hlast
  have hok := toOption_eq_some.mp hts
  have hstuck : scan "y = $" = ((scan "y = $").1, some fault) := Prod.ext rfl hfault
  have hbelow := tokenize_below upperText "y = $" ts hok hopen
  rw [tokenize_eq_error_iff.mpr ⟨_, scan_eq_iff.mp hstuck⟩, relocated_error] at hbelow
  obtain ⟨hvalue, hspan⟩ := Prod.mk.inj heq
  have hmoved : Span.below upperText ⟨4, 1, 1, 5⟩ = ⟨45, 1, 2, 5⟩ := by decide +kernel
  exact ⟨ts, hok, hopen, _, hbelow, hvalue, (congrArg (Span.below upperText) hspan).trans hmoved⟩

/-- Tokens can be written down again: each stands in the text as a stretch that is cut into it
alone. -/
theorem Tokenizes.texts {src : String} {here : Place} {cs before : List Char} {ts : List Token}
    {fault : Option (Located Fault)} (h : Tokenizes here cs ts fault)
      (hsrc : src.toList = before ++ cs)
    (hhere : here.offset = byteLength before) :
    ∃ texts, ts.mapM (·.span.text? src) = some texts ∧
      List.Forall₂ (fun t text => CutsOff t.lexeme text.toList []) ts texts := by
  induction h generalizing before with
  | done | stuck => exact ⟨[], rfl, .nil⟩
  | @token here gap text rest l ts fault hgap hcut _ ih =>
    have htext : src.toList = (before ++ gap) ++ (text ++ rest) := by simpa using hsrc
    have hplace : (here.after gap).offset = byteLength (before ++ gap) := by
      simp [Place.after, hhere]
    obtain ⟨texts, htexts, hcuts⟩ := @ih (before ++ gap ++ text) (by simpa using hsrc)
      (by simp [Place.after, hhere])
    refine ⟨String.ofList text :: texts, ?_, .cons ?_ hcuts⟩
    · simp [Place.text?_span htext hplace, htexts]
    · rw [String.toList_ofList]
      exact hcut.follow .nil

/-- Lexemes that are written with a blank between them are read again. -/
theorem tokenizes_spaced {ts : List Token} {texts : List String}
    (h : List.Forall₂ (fun t text => CutsOff t.lexeme text.toList []) ts texts) (here : Place) :
    ∃ ts', Tokenizes here (" ".intercalate texts).toList ts' none ∧
      ts'.map (·.lexeme) = ts.map (·.lexeme) := by
  induction h generalizing here with
  | nil => exact ⟨[], .done .nil, rfl⟩
  | @cons t text ts texts hcut hrest ih =>
    -- after the first text comes the end, or a blank
    obtain ⟨tail, ts', htail, htext, hrest, hlexemes⟩ : ∃ tail ts', Continues [] tail ∧
        (" ".intercalate (text :: texts)).toList = text.toList ++ tail ∧
        Tokenizes (here.after text.toList) tail ts' none ∧
          ts'.map (·.lexeme) = ts.map (·.lexeme) := by
      cases hrest with
      | nil => exact ⟨[], [], .nil, by simp, .done .nil, rfl⟩
      | @cons u next us nexts _ _ =>
        obtain ⟨ts', hts', hlexemes⟩ := ih ((here.after text.toList).after [' '])
        refine ⟨[' '] ++ (" ".intercalate (next :: nexts)).toList, ts', ?_, by simp, ?_, hlexemes⟩
        · exact .append_blank (by decide)
        · exact hts'.prepend (.blank (by decide) .nil)
    rw [htext]
    have htoken : Tokenizes here ([] ++ (text.toList ++ tail)) _ none :=
      .token .nil (hcut.follow htail) hrest
    exact ⟨_, htoken, by simp [hlexemes]⟩

/-- The stretches of the text that are tokens, written with single blanks between them, are cut into
the same lexemes. -/
theorem tokenize_spaced (src : String) (ts : List Token) (h : tokenize src = .ok ts) :
    ∃ texts, ts.mapM (·.span.text? src) = some texts ∧
      ∃ ts', tokenize (" ".intercalate texts) = .ok ts' ∧
        ts'.map (·.lexeme) = ts.map (·.lexeme) := by
  have hsrc : src.toList = [] ++ src.toList := rfl
  obtain ⟨texts, htexts, hcuts⟩ := (tokenize_eq_ok_iff.mp h).texts hsrc rfl
  obtain ⟨ts', hts', hlexemes⟩ := tokenizes_spaced hcuts .start
  exact ⟨texts, htexts, ts', tokenize_eq_ok_iff.mpr hts', hlexemes⟩

/-- Lexemes that touch, among them points, slashes and quotes, and comments where blanks could
be. -/
def packedText : String := "a:=1.;b/'\\''/**/*c...x//'\n-> -1.5#def>>=\"/*\""

theorem tokenize_packedText_spaced : ∃ ts texts, tokenize packedText = .ok ts ∧
    ts.mapM (·.span.text? packedText) = some texts ∧
    " ".intercalate texts = "a := 1. ; b / '\\'' * c ... x -> - 1.5 #def >> = \"/*\"" ∧
    ∃ ts', tokenize (" ".intercalate texts) = .ok ts' ∧ ts'.map (·.lexeme) = ts.map (·.lexeme) := by
  have hrun : ((tokenize packedText).toOption.bind fun ts =>
      (ts.mapM fun t : Token => t.span.text? packedText).map (" ".intercalate ·)) =
        some "a := 1. ; b / '\\'' * c ... x -> - 1.5 #def >> = \"/*\"" := by
    decide +kernel
  obtain ⟨ts, hts, hrun⟩ := Option.bind_eq_some_iff.mp hrun
  obtain ⟨texts, htexts, hspaced⟩ := Option.map_eq_some_iff.mp hrun
  have hok := toOption_eq_some.mp hts
  obtain ⟨texts', htexts', hrest⟩ := tokenize_spaced packedText ts hok
  obtain rfl := Option.some.inj (htexts.symm.trans htexts')
  exact ⟨ts, texts, hok, htexts, hspaced, hrest⟩

end Frontend
