import Frontend.Proofs.Lookahead

/-!
What scanning comes to, told without the scanner: gaps and lexemes by turns, then the end of the
text or, after a last gap, what cannot be cut. A text that cannot be cut further on was cut up to
there as it would have been cut alone.
-/
namespace Frontend

section Steps

variable {here : Place} {c : Char} {cs : List Char}

theorem scanFrom_nil (here : Place) : scanFrom here [] = ([], none) := by
  rw [scanFrom]

theorem scanFrom_skip (h : (cut c cs).piece = .blank) :
    scanFrom here (c :: cs) = scanFrom (here.after (cut c cs).front) (cut c cs).rest := by
  rw [scanFrom, h]

theorem scanFrom_fault {f : Fault} (h : (cut c cs).piece = .fault f) :
    scanFrom here (c :: cs) = ([], some ⟨here.span (cut c cs).front, f⟩) := by
  rw [scanFrom, h]

/-- Blanks may be skipped one by one. -/
theorem scanFrom_blank (hc : Text.isBlank c) :
    scanFrom here (c :: cs) = scanFrom (here.after [c]) cs := by
  have hskip : ∀ {here cs c}, Text.isBlank c → scanFrom here (c :: cs) =
      scanFrom (here.after (c :: cs.takeWhile Text.isBlank)) (cs.dropWhile Text.isBlank) := by
    intro here cs c hc
    rw [scanFrom_skip (by rw [cut_blank hc]; rfl), cut_blank hc]
    rfl
  rw [hskip hc]
  cases cs with
  | nil => rfl
  | cons d ds =>
    by_cases hd : Text.isBlank d
    · rw [hskip hd, List.takeWhile_cons_of_pos hd,
        List.dropWhile_cons_of_pos hd, ← Place.after_append, List.singleton_append]
    · rw [List.takeWhile_cons_of_neg hd, List.dropWhile_cons_of_neg hd]

theorem cut_line (cs : List Char) : cut '/' ('/' :: cs) =
    cutBlank ('/' :: '/' :: cs.takeWhile (· ≠ '\n')) (cs.dropWhile (· ≠ '\n')) := rfl

theorem cut_block (cs : List Char) : cut '/' ('*' :: cs) =
    cutBlank ('/' :: '*' :: (blockComment 0 cs).1) (blockComment 0 cs).2 := rfl

/-- The end of a line is no part of what cannot be skipped. -/
theorem ne_lineEnd (h : (cut c cs).piece ≠ .blank) : c ≠ '\n' := by
  rintro rfl
  have hblank : Text.isBlank '\n' := by decide
  rw [cut_blank hblank] at h
  exact h rfl

theorem CutsOff.scanFrom {l : Lexeme} {front rest : List Char} (h : CutsOff l front rest) :
    scanFrom here (front ++ rest) = (⟨l, here.span front⟩ :: (scanFrom (here.after front) rest).1,
      (scanFrom (here.after front) rest).2) := by
  obtain ⟨c, cs, htext, hcut⟩ := h
  rw [htext, Frontend.scanFrom, hcut]

end Steps

namespace Gap

variable {last : Bool} {gap gap' : List Char}

theorem mono (h : Gap false gap) : Gap last gap := by
  induction h with
  | nil => exact .nil
  | blank hc _ ih => exact .blank hc ih
  | line hbody _ ih => exact .line hbody ih
  | block hbody _ ih => exact .block hbody ih
  | lastLine hlast | unclosed hlast => simp at hlast

theorem append (h : Gap false gap) (h' : Gap last gap') : Gap last (gap ++ gap') := by
  induction h with
  | nil => exact h'
  | blank hc _ ih => exact .blank hc ih
  | line hbody _ ih => simpa using Gap.line hbody ih
  | block hbody _ ih => simpa using Gap.block hbody ih
  | lastLine hlast | unclosed hlast => simp at hlast

/-- A gap is skipped. One that is not closed, or the last line, must have nothing after it. -/
theorem scanFrom (h : Gap last gap) {after : List Char} (hafter : last → after = [])
    (here : Place) : scanFrom here (gap ++ after) = scanFrom (here.after gap) after := by
  induction h generalizing here with
  | nil => rfl
  | @blank c cs hc _ ih =>
    rw [List.cons_append, scanFrom_blank hc, ih, ← Place.after_append, List.singleton_append]
  | @line body cs hbody _ ih =>
    have hall : ∀ c ∈ body, (decide (c ≠ '\n')) = true := fun c hc =>
      decide_eq_true fun heq => hbody (heq ▸ hc)
    have htake : (body ++ '\n' :: (cs ++ after)).takeWhile (· ≠ '\n') = body := by
      rw [List.takeWhile_append_of_pos hall]
      simp
    have hdrop : (body ++ '\n' :: (cs ++ after)).dropWhile (· ≠ '\n') = '\n' :: (cs ++ after) := by
      rw [List.dropWhile_append_of_pos hall]
      simp
    have hrest := ih (here.after ('/' :: '/' :: body))
    rw [List.cons_append, ← Place.after_append] at hrest
    rw [List.cons_append, List.cons_append, List.append_assoc, List.cons_append,
      scanFrom_skip (by rw [cut_line]; rfl), cut_line, cutBlank, htake, hdrop, hrest]
    rfl
  | @block body cs hbody _ ih =>
    have hrest := ih (here.after ('/' :: '*' :: body))
    rw [← Place.after_append] at hrest
    rw [List.cons_append, List.cons_append, List.append_assoc,
      scanFrom_skip (by rw [cut_block]; rfl), cut_block, cutBlank, hbody.blockComment, hrest]
    rfl
  | @lastLine body hlast hbody =>
    have hall : ∀ c ∈ body, (decide (c ≠ '\n')) = true := fun c hc =>
      decide_eq_true fun heq => hbody (heq ▸ hc)
    rw [hafter hlast, List.append_nil, scanFrom_skip (by rw [cut_line]; rfl), cut_line, cutBlank,
      List.takeWhile_eq_self_iff.mpr hall, List.dropWhile_eq_nil_iff.mpr hall]
  | @unclosed body hlast hbody =>
    -- what is never closed runs to the end
    have hnil : (Frontend.blockComment 0 body).2 = [] :=
      (blockComment_closes 0 body).resolve_left
        (hbody _ ⟨_, blockComment_append 0 body⟩)
    have hall : (Frontend.blockComment 0 body).1 = body := by
      simpa [hnil] using blockComment_append 0 body
    rw [hafter hlast, List.append_nil, scanFrom_skip (by rw [cut_block]; rfl), cut_block,
      cutBlank, hall, hnil]

end Gap

/-- Reading `cs` from `here` gives the tokens and the fault. -/
inductive Tokenizes : Place → List Char → List Token → Option (Located Fault) → Prop where
  | done {here gap} : Gap true gap → Tokenizes here gap [] none
  | stuck {here gap c cs f} : Gap false gap → (cut c cs).piece = .fault f →
      Tokenizes here (gap ++ c :: cs) [] (some ⟨(here.after gap).span (cut c cs).front, f⟩)
  | token {here gap text rest l ts fault} : Gap false gap → CutsOff l text rest →
      Tokenizes (here.after (gap ++ text)) rest ts fault →
      Tokenizes here (gap ++ (text ++ rest)) (⟨l, (here.after gap).span text⟩ :: ts) fault

namespace Tokenizes

variable {here : Place} {cs : List Char} {ts : List Token} {fault : Option (Located Fault)}

theorem scanFrom (h : Tokenizes here cs ts fault) : scanFrom here cs = (ts, fault) := by
  induction h with
  | @done here gap hgap =>
    have hskip : Frontend.scanFrom here (gap ++ []) = _ := hgap.scanFrom (fun _ => rfl) here
    rwa [List.append_nil, scanFrom_nil] at hskip
  | @stuck here gap c cs f hgap hfault => rw [hgap.scanFrom nofun, scanFrom_fault hfault]
  | @token here gap text rest l ts fault hgap hcut _ ih =>
    rw [hgap.scanFrom nofun, hcut.scanFrom, ← Place.after_append, ih]

/-- What is skipped goes to the gap after it. -/
theorem skip {c : Char} (h : (cut c cs).piece = .blank)
    (hrest : Tokenizes (here.after (cut c cs).front) (cut c cs).rest ts fault) :
    Tokenizes here (c :: cs) ts fault := by
  rw [← cut_append c cs]
  generalize htext : (cut c cs).rest = rest at hrest
  generalize hplace : here.after (cut c cs).front = place at hrest
  cases hrest with
  | done hgap =>
    exact .done (cut_gap h (htext.trans (List.append_nil _).symm) hgap (.inl ⟨rfl, rfl⟩))
  | @stuck _ gap d ds f hgap hfault =>
    subst hplace
    have hne : d ≠ '\n' := ne_lineEnd (show (cut d ds).piece ≠ .blank by simp [hfault])
    have hfront := cut_gap h htext hgap (.inr ⟨d, ds, rfl, hne⟩)
    rw [← Place.after_append, ← List.append_assoc]
    exact .stuck hfront hfault
  | @token _ gap text rest l ts _ hgap hcut hts =>
    subst hplace
    obtain ⟨d, ds, hd, hne⟩ := hcut.spells.head
    have hfront := cut_gap h htext hgap (.inr ⟨d, ds ++ rest, by simp [hd], hne⟩)
    rw [← Place.after_append, ← List.append_assoc]
    refine .token hfront hcut ?_
    rwa [← Place.after_append, ← List.append_assoc] at hts

end Tokenizes

theorem scanFrom_tokenizes (here : Place) (cs : List Char) :
    Tokenizes here cs (scanFrom here cs).1 (scanFrom here cs).2 := by
  cases cs with
  | nil =>
    rw [scanFrom_nil]
    exact .done .nil
  | cons c cs =>
    have hlt := cut_rest_length c cs
    have hrest := scanFrom_tokenizes (here.after (cut c cs).front) (cut c cs).rest
    cases hpiece : (cut c cs).piece with
    | fault f =>
      rw [scanFrom_fault hpiece]
      have hstuck : Tokenizes here ([] ++ c :: cs) _ _ := .stuck .nil hpiece
      exact hstuck
    | blank =>
      rw [scanFrom_skip hpiece]
      exact .skip hpiece hrest
    | lexeme l =>
      have hcut := cut_cutsOff hpiece
      rw [← cut_append c cs, hcut.scanFrom]
      have htoken : Tokenizes here ([] ++ ((cut c cs).front ++ (cut c cs).rest)) _ _ :=
        .token .nil hcut hrest
      exact htoken
termination_by cs.length

variable {ts : List Token} {src : String}

/-- The scanner does what is told, and nothing else is told. -/
theorem scanFrom_eq_iff {here : Place} {cs : List Char} {fault : Option (Located Fault)} :
    scanFrom here cs = (ts, fault) ↔ Tokenizes here cs ts fault := by
  refine ⟨fun h => ?_, Tokenizes.scanFrom⟩
  have htokenizes := scanFrom_tokenizes here cs
  rwa [h] at htokenizes

theorem scan_eq_iff {fault : Option (Located Fault)} :
    scan src = (ts, fault) ↔ Tokenizes .start src.toList ts fault := scanFrom_eq_iff

theorem tokenize_eq_ok_iff : tokenize src = .ok ts ↔ Tokenizes .start src.toList ts none := by
  rw [← scan_eq_iff, tokenize]
  split
  · rename_i h
    simp [h]
  · rename_i h
    simp [h]

theorem tokenize_eq_error_iff {fault : Located Fault} :
    tokenize src = .error fault ↔ ∃ ts, Tokenizes .start src.toList ts (some fault) := by
  simp only [← scan_eq_iff, tokenize]
  split
  · rename_i h
    simp [h]
  · rename_i h
    simp [h]

theorem Continues.of_append (before after : List Char) : Continues (before ++ after) before := by
  intro d hd
  cases before with
  | nil => simp at hd
  | cons c cs => exact .inr hd

/-- Where the last of the tokens ends, if there is one. -/
def tokensEnd (lo : Nat) : List Token → Nat
  | [] => lo
  | t :: ts => tokensEnd t.span.hi ts

namespace Tokenizes

variable {here : Place} {cs : List Char} {ts : List Token} {fault : Option (Located Fault)}

/-- A gap may be put in front. -/
theorem prepend {gap : List Char} (hgap : Gap false gap)
    (h : Tokenizes (here.after gap) cs ts fault) : Tokenizes here (gap ++ cs) ts fault := by
  generalize hplace : here.after gap = place at h
  cases h with
  | done hlast => exact .done (hgap.append hlast)
  | @stuck _ gap' c cs f hgap' hfault =>
    subst hplace
    rw [← Place.after_append, ← List.append_assoc]
    exact .stuck (hgap.append hgap') hfault
  | @token _ gap' text rest l ts _ hgap' hcut hts =>
    subst hplace
    rw [← Place.after_append, ← List.append_assoc]
    refine .token (hgap.append hgap') hcut ?_
    rwa [← Place.after_append, ← List.append_assoc] at hts

/-- A text is cut after its last token. What follows there is cut alone, and can be replaced by what
begins with a blank, or as it does itself. -/
theorem after_tokens (h : Tokenizes here cs ts fault) :
    ∃ before tail, cs = before ++ tail ∧ Tokenizes (here.after before) tail [] fault ∧
      tokensEnd here.offset ts = here.offset + byteLength before ∧
      (∀ t ∈ ts, t.span.hi ≤ here.offset + byteLength before) ∧
      ∀ after ts' fault', Continues tail after → Tokenizes (here.after before) after ts' fault' →
        Tokenizes here (before ++ after) (ts ++ ts') fault' := by
  induction h with
  | @done here gap hgap =>
    exact ⟨[], gap, rfl, .done hgap, rfl, by simp, fun _ _ _ _ hafter => hafter⟩
  | @stuck here gap c cs f hgap hfault =>
    exact ⟨[], gap ++ c :: cs, rfl, .stuck hgap hfault, rfl, by simp, fun _ _ _ _ hafter => hafter⟩
  | @token here gap text rest l ts fault hgap hcut _ ih =>
    obtain ⟨before, tail, rfl, htail, hend, hle, hreplace⟩ := ih
    have hoffset : (here.after (gap ++ text)).offset + byteLength before =
        here.offset + byteLength (gap ++ (text ++ before)) := by
      simp only [Place.after, byteLength_append]
      omega
    have hhi : ((here.after gap).span text).hi = (here.after (gap ++ text)).offset := by
      simp only [Place.after, Place.span, Span.hi, byteLength_append]
      omega
    have hplace : (here.after (gap ++ text)).after before =
        here.after (gap ++ (text ++ before)) := by
      rw [← Place.after_append, List.append_assoc]
    rw [hplace] at htail hreplace
    rw [hoffset] at hend hle
    refine ⟨gap ++ (text ++ before), tail, by simp, htail, ?_, ?_, ?_⟩
    · rw [tokensEnd, hhi, hend]
    · intro t ht
      rcases List.mem_cons.mp ht with rfl | ht
      · rw [hhi, ← hoffset]
        exact Nat.le_add_right _ _
      · exact hle t ht
    · intro after ts' fault' hcontinues hafter
      rw [List.append_assoc, List.append_assoc]
      refine .token hgap (hcut.follow ?_) (hreplace after ts' fault' hcontinues hafter)
      cases before with
      | nil => exact hcontinues
      | cons d before => exact fun _ hd => .inr hd

end Tokenizes

/-- What was cut before a fault is what the text up to it is cut into. -/
theorem scan_before_fault (src : String) (ts : List Token) (fault : Located Fault)
    (h : scan src = (ts, some fault)) :
    ∃ before after, src.toList = before ++ after ∧ byteLength before = fault.span.lo ∧
      tokenize (String.ofList before) = .ok ts ∧ ∀ t ∈ ts, t.span.hi ≤ fault.span.lo := by
  obtain ⟨before, tail, hsrc, htail, -, hle, hreplace⟩ := (scan_eq_iff.mp h).after_tokens
  cases htail with
  | @stuck _ gap c cs f hgap hfault =>
    have hlo : ((Place.start.after before).after gap).offset = byteLength (before ++ gap) := by
      simp [Place.after, Place.start]
    refine ⟨before ++ gap, c :: cs, by rw [hsrc, List.append_assoc], hlo.symm, ?_, ?_⟩
    · rw [tokenize_eq_ok_iff, String.toList_ofList]
      simpa using hreplace gap [] none (Continues.of_append gap _) (.done hgap.mono)
    · intro t ht
      calc t.span.hi ≤ Place.start.offset + byteLength before := hle t ht
        _ ≤ byteLength (before ++ gap) := by simp [Place.start]
        _ = _ := hlo.symm

/-- A string with a character of two bytes, comments, and a number that goes wrong at its second
point. -/
def spoiledText : String := "x := 'é'; /* y */ // z\n x + 1.2.3"

theorem scan_spoiledText_before_fault : ∃ ts fault, scan spoiledText = (ts, some fault) ∧
    fault.value = .malformedNumber ∧ fault.span = ⟨29, 4, 2, 6⟩ ∧
    ts.map (·.lexeme) = [.identifier "x", .punct .quickAssign, .string "é", .punct .semicolon,
      .identifier "x", .punct .plus] ∧
    ∃ before after, spoiledText.toList = before ++ after ∧ byteLength before = 29 ∧
      tokenize (String.ofList before) = .ok ts ∧ ∀ t ∈ ts, t.span.hi ≤ 29 := by
  have hfault : (scan spoiledText).2.map (fun e => (e.value, e.span)) =
      some (.malformedNumber, ⟨29, 4, 2, 6⟩) := by
    decide +kernel
  have hlexemes : (scan spoiledText).1.map (·.lexeme) =
      [.identifier "x", .punct .quickAssign, .string "é",
      .punct .semicolon, .identifier "x", .punct .plus] := by
    decide +kernel
  obtain ⟨fault, hsome, heq⟩ := Option.map_eq_some_iff.mp hfault
  obtain ⟨hvalue, hspan⟩ := Prod.mk.inj heq
  have hscan : scan spoiledText = ((scan spoiledText).1, some fault) := Prod.ext rfl hsome
  have hbefore := scan_before_fault spoiledText _ fault hscan
  rw [hspan] at hbefore
  exact ⟨_, fault, hscan, hvalue, hspan, hlexemes, hbefore⟩

end Frontend
