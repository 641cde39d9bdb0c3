import Frontend.Proofs.Cuts
import Mathlib.Data.List.Infix

/-!
How far a cut looks ahead. The first character tells what kind of piece is cut off, and where a
lexeme ends is told by the one character after it: a blank ends every lexeme, and so does what ended
it before.
-/
namespace Frontend

namespace Punct

variable {p q : Punct}

theorem spelling_injective (h : p.spelling = q.spelling) : p = q := by
  revert p q
  have hall : ∀ p ∈ all, ∀ q ∈ all, p.spelling = q.spelling → p = q := by decide +kernel
  exact fun {p q} h => hall p p.mem_all q q.mem_all h

/-- What begins a spelling is a spelling. -/
theorem exists_spelling_of_prefix {p : Punct} {cs : List Char} (h : cs <+: p.spelling)
    (hne : cs ≠ []) : ∃ q : Punct, q.spelling = cs := by
  have hall : ∀ p ∈ all, ∀ cs ∈ p.spelling.inits, cs ≠ [] → ∃ q ∈ all, q.spelling = cs := by
    decide +kernel
  obtain ⟨q, -, hq⟩ := hall p p.mem_all cs ((List.mem_inits cs _).mpr h) hne
  exact ⟨q, hq⟩

variable {c quote : Char} {cs : List Char}

/-- No character of a spelling can start, or end, anything else but a comment. -/
theorem not_mem_spelling (hc : c ∈ p.spelling) :
    Text.isBlank c = false ∧ isWordStart c = false ∧ c.isDigit = false ∧ c ≠ '"' ∧
    c ≠ '\'' ∧ c ≠ '#' := by
  have hall : ∀ p ∈ all, p.spelling.all fun c => Text.isBlank c = false ∧ isWordStart c = false ∧
      c.isDigit = false ∧ c ≠ '"' ∧ c ≠ '\'' ∧ c ≠ '#' := by
    decide +kernel
  exact of_decide_eq_true (List.all_eq_true.mp (hall p p.mem_all) c hc)

theorem at?_longest (h : at? cs = some p) (hq : q.spelling <+: cs) :
    q.spelling.length ≤ p.spelling.length := by
  have hsorted : all.Pairwise fun p q => q.spelling.length ≤ p.spelling.length := by
    decide +kernel
  obtain ⟨-, as, bs, hsplit, hnone⟩ := List.find?_eq_some_iff_append.mp h
  have hmem := q.mem_all
  rw [hsplit] at hsorted hmem
  rcases List.mem_append.mp hmem with hmem | hmem
  · have hnot := hnone q hmem
    simp [List.isPrefixOf_iff_prefix.mpr hq] at hnot
  · rcases List.mem_cons.mp hmem with rfl | hmem
    · exact Nat.le_refl _
    · exact List.rel_of_pairwise_cons (List.pairwise_append.mp hsorted).2.1 hmem

theorem at?_eq_some (hp : p.spelling <+: cs)
    (hlongest : ∀ q : Punct, q.spelling <+: cs → q.spelling.length ≤ p.spelling.length) :
    at? cs = some p := by
  have hsome : (at? cs).isSome :=
    List.find?_isSome.mpr ⟨p, p.mem_all, List.isPrefixOf_iff_prefix.mpr hp⟩
  obtain ⟨q, hq⟩ := Option.isSome_iff_exists.mp hsome
  have hprefix := isPrefixOf_at? hq
  have hlength := Nat.le_antisymm (hlongest q hprefix) (at?_longest hq hp)
  have hle := Nat.le_of_eq hlength
  have hspelling := (List.prefix_of_prefix_length_le hprefix hp hle).eq_of_length hlength
  rw [hq, spelling_injective hspelling]

theorem at?_eq_none (h : ∀ p : Punct, c ∉ p.spelling) (cs : List Char) : at? (c :: cs) = none := by
  refine List.find?_eq_none.mpr fun p _ hp => ?_
  have hprefix := List.isPrefixOf_iff_prefix.mp hp
  obtain ⟨d, ds, hd⟩ := List.exists_cons_of_ne_nil p.spelling_ne_nil
  rw [hd, List.cons_prefix_cons] at hprefix
  exact h p (by simp [hd, hprefix.1])

end Punct

section Kinds

variable {c : Char} {cs : List Char}

theorem isAlpha_iff_toNat : c.isAlpha ↔
    65 ≤ c.toNat ∧ c.toNat ≤ 90 ∨ 97 ≤ c.toNat ∧ c.toNat ≤ 122 := by
  change (decide (65 ≤ c.val ∧ c.val ≤ 90) || (decide (97 ≤ c.val) && decide (c.val ≤ 122))) =
    true ↔ _
  simp [UInt32.le_iff_toNat_le]

theorem isWordPart_of_isBlank (h : Text.isBlank c) : isWordPart c = false := by
  simp only [Text.isBlank, Text.blankRanges, List.any_cons, List.any_nil, Bool.or_false,
    Bool.or_eq_true, Bool.and_eq_true, decide_eq_true_eq] at h
  by_contra hc
  simp only [isWordPart, Char.isAlphanum, Bool.not_eq_false, Bool.or_eq_true, decide_eq_true_eq,
    isAlpha_iff_toNat, Char.isDigit_iff_toNat, Char.reduceToNat] at hc
  rcases hc with (hc | hc) | rfl
  · omega
  · omega
  · simp at h

theorem isAlpha_of_isBlank (h : Text.isBlank c) : c.isAlpha = false := by
  have hword := isWordPart_of_isBlank h
  simp only [isWordPart, Char.isAlphanum, Bool.or_eq_false_iff] at hword
  exact hword.1.1

theorem isDigit_of_isBlank (h : Text.isBlank c) : c.isDigit = false := by
  have hword := isWordPart_of_isBlank h
  simp only [isWordPart, Char.isAlphanum, Bool.or_eq_false_iff] at hword
  exact hword.1.2

theorem isDigit_of_isWordStart (h : isWordStart c) : c.isDigit = false := by
  by_contra hc
  simp only [Bool.not_eq_false, Char.isDigit_iff_toNat, Char.reduceToNat] at hc
  simp only [isWordStart, Bool.or_eq_true, decide_eq_true_eq, isAlpha_iff_toNat] at h
  rcases h with h | rfl
  · omega
  · simp at hc

/-- What cannot be punctuation or a comment. -/
theorem cut_of_not_punct (h : ∀ p : Punct, c ∉ p.spelling) : cut c cs =
    if c = '"' ∨ c = '\'' then cutString c cs
    else if c = '#' then cutDirective cs
    else if c.isDigit then cutNumber (c :: cs)
    else if isWordStart c then cutWord (c :: cs)
    else if Text.isBlank c then cutBlank (c :: cs.takeWhile Text.isBlank)
      (cs.dropWhile Text.isBlank)
    else ⟨[c], cs, .fault (.unexpectedChar c)⟩ := by
  have hslash : c ≠ '/' := fun hc => h .slash (by simp [hc, Punct.spelling])
  rw [cut]
  · rw [Punct.at?_eq_none h]
  · exact fun _ hc => absurd hc hslash
  · exact fun _ hc => absurd hc hslash

theorem cut_string (hc : c = '"' ∨ c = '\'') : cut c cs = cutString c cs := by
  have hnot : ∀ p : Punct, c ∉ p.spelling := fun p hmem => by
    have := Punct.not_mem_spelling hmem
    tauto
  rw [cut_of_not_punct hnot, if_pos hc]

theorem cut_directive (cs : List Char) : cut '#' cs = cutDirective cs := rfl

theorem cut_digit (hc : c.isDigit) : cut c cs = cutNumber (c :: cs) := by
  have hnot : ∀ p : Punct, c ∉ p.spelling := fun p hmem => by
    simp [Punct.not_mem_spelling hmem] at hc
  have hquote : ¬ (c = '"' ∨ c = '\'') := by
    rintro (rfl | rfl) <;> simp at hc
  have hhash : c ≠ '#' := by
    rintro rfl
    simp at hc
  rw [cut_of_not_punct hnot, if_neg hquote, if_neg hhash, if_pos hc]

theorem cut_wordStart (hc : isWordStart c) : cut c cs = cutWord (c :: cs) := by
  have hnot : ∀ p : Punct, c ∉ p.spelling := fun p hmem => by
    simp [Punct.not_mem_spelling hmem] at hc
  have hquote : ¬ (c = '"' ∨ c = '\'') := by
    rintro (rfl | rfl) <;> simp [isWordStart] at hc
  have hhash : c ≠ '#' := by
    rintro rfl
    simp [isWordStart] at hc
  have hdigit : ¬ c.isDigit := by simp [isDigit_of_isWordStart hc]
  rw [cut_of_not_punct hnot, if_neg hquote, if_neg hhash, if_neg hdigit, if_pos hc]

theorem cut_blank (hc : Text.isBlank c) :
    cut c cs = cutBlank (c :: cs.takeWhile Text.isBlank) (cs.dropWhile Text.isBlank) := by
  have hnot : ∀ p : Punct, c ∉ p.spelling := fun p hmem => by
    simp [Punct.not_mem_spelling hmem] at hc
  have hquote : ¬ (c = '"' ∨ c = '\'') := by
    rintro (rfl | rfl) <;> simp [Text.isBlank, Text.blankRanges] at hc
  have hhash : c ≠ '#' := by
    rintro rfl
    simp [Text.isBlank, Text.blankRanges] at hc
  have hword := isWordPart_of_isBlank hc
  have hstart : ¬ isWordStart c := fun h => by simp [isWordPart_of_isWordStart h] at hword
  have hdigit : ¬ c.isDigit := by simp [isDigit_of_isBlank hc]
  rw [cut_of_not_punct hnot, if_neg hquote, if_neg hhash, if_neg hdigit, if_neg hstart, if_pos hc]

end Kinds

/-- The text `after` begins with a blank or as `rest` does, or it is empty. -/
def Continues (rest after : List Char) : Prop := ∀ d ∈ after.head?, Text.isBlank d ∨ d ∈ rest.head?

section Ends

variable {cs rest after : List Char}

theorem Continues.nil : Continues rest [] := by simp [Continues]

theorem Continues.not_head {p : Char → Bool} (h : Continues rest after)
    (hblank : ∀ c, Text.isBlank c → p c = false) (hrest : ∀ d ∈ rest.head?, p d = false) :
    ∀ d ∈ after.head?, p d = false :=
  fun d hd => (h d hd).elim (hblank d) (hrest d)

/-- A stretch ends where it did. -/
theorem takeWhile_follow {p : Char → Bool} (hblank : ∀ c, Text.isBlank c → p c = false)
    (h : Continues (cs.dropWhile p) after) :
    (cs.takeWhile p ++ after).takeWhile p = cs.takeWhile p ∧
      (cs.takeWhile p ++ after).dropWhile p = after := by
  have hall : ∀ c ∈ cs.takeWhile p, p c := fun c hc => List.mem_takeWhile_imp hc
  have hhead := h.not_head hblank fun d hd => by
    have hnot := List.head?_dropWhile_not p cs
    rw [Option.mem_def.mp hd] at hnot
    simpa using hnot
  rw [List.takeWhile_append_of_pos hall, List.dropWhile_append_of_pos hall]
  cases after with
  | nil => simp
  | cons d after =>
    have hd := hhead d rfl
    simp [hd]

theorem stringBody_cons (hc : c ≠ '\\') : stringBody quote (c :: cs) =
    if c = quote then some ([], cs)
    else (stringBody quote cs).map fun (body, rest) => (c :: body, rest) := by
  rw [stringBody]
  · exact fun h => absurd h hc
  · exact fun _ _ h => absurd h hc

theorem ne_backslash (hlast : c = '\\' → cs = [] → False)
    (hescape : ∀ d ds, c = '\\' → cs = d :: ds → False) : c ≠ '\\' := by
  intro hc
  cases cs with
  | nil => exact hlast hc rfl
  | cons d ds => exact hescape d ds hc rfl

/-- A string ends at its quote. -/
theorem stringBody_follow {body : List Char} (h : stringBody quote cs = some (body, rest)) :
    stringBody quote (body ++ quote :: after) = some (body, after) := by
  fun_induction stringBody quote cs generalizing body rest with
  | case1 => simp at h
  | case2 => simp at h
  | case3 c cs ih =>
    obtain ⟨⟨b, r⟩, hb, heq⟩ := Option.map_eq_some_iff.1 h
    obtain ⟨rfl, rfl⟩ := Prod.mk.inj heq
    simp [stringBody, ih hb]
  | case4 cs hlast hescape =>
    obtain ⟨rfl, rfl⟩ := Prod.mk.inj (Option.some.inj h)
    rw [List.nil_append, stringBody_cons (ne_backslash hlast hescape), if_pos rfl]
  | case5 c cs hlast hescape hquote ih =>
    obtain ⟨⟨b, r⟩, hb, heq⟩ := Option.map_eq_some_iff.1 h
    obtain ⟨rfl, rfl⟩ := Prod.mk.inj heq
    rw [List.cons_append, stringBody_cons (ne_backslash hlast hescape), if_neg hquote, ih hb]
    rfl

theorem cutWord_follow (h : Continues (cutWord cs).rest after) :
    cutWord ((cutWord cs).front ++ after) = { cutWord cs with rest := after } := by
  obtain ⟨htake, hdrop⟩ := takeWhile_follow (fun _ => isWordPart_of_isBlank) h
  simp only [cutWord, htake, hdrop]

theorem cutDirective_follow (h : Continues (cutDirective cs).rest after) :
    cutDirective (cs.takeWhile Char.isAlpha ++ after) = { cutDirective cs with rest := after } := by
  obtain ⟨htake, hdrop⟩ := takeWhile_follow (fun _ => isAlpha_of_isBlank) h
  simp only [cutDirective, htake, hdrop]

theorem Continues.not_point (h : Continues rest after) (hrest : ∀ r, rest ≠ '.' :: r) :
    ∀ r, after ≠ '.' :: r := by
  rintro r rfl
  rcases h '.' rfl with hblank | hmem
  · simp [Text.isBlank, Text.blankRanges] at hblank
  · obtain ⟨r', rfl⟩ := List.head?_eq_some_iff.mp hmem
    exact hrest r' rfl

theorem cutNumber_whole (h : Continues (cs.dropWhile Char.isDigit) after)
    (hpoint : ∀ r, cs.dropWhile Char.isDigit ≠ '.' :: r) :
    cutNumber (cs.takeWhile Char.isDigit ++ after) =
      ⟨cs.takeWhile Char.isDigit, after,
      .lexeme (.number (String.ofList (cs.takeWhile Char.isDigit)))⟩ := by
  obtain ⟨htake, hdrop⟩ := takeWhile_follow (fun _ => isDigit_of_isBlank) h
  have hnot := h.not_point hpoint
  rw [cutNumber, htake, hdrop]
  split
  · exact absurd rfl (hnot _)
  · rfl

theorem cutNumber_follow {l : Lexeme} (hl : (cutNumber cs).piece = .lexeme l)
    (h : Continues (cutNumber cs).rest after) :
    cutNumber ((cutNumber cs).front ++ after) = { cutNumber cs with rest := after } := by
  have hwhole : ∀ r, cs.dropWhile Char.isDigit = '.' :: r → ∀ after,
      (cs.takeWhile Char.isDigit ++ '.' :: after).takeWhile Char.isDigit =
        cs.takeWhile Char.isDigit ∧
        (cs.takeWhile Char.isDigit ++ '.' :: after).dropWhile Char.isDigit = '.' :: after :=
    fun r hr after => takeWhile_follow (fun _ => isDigit_of_isBlank) (by simp [Continues, hr])
  revert hl h
  unfold cutNumber
  dsimp only
  split
  · rename_i r hr
    split
    · simp
    · rename_i hpoint
      intro _ h
      obtain ⟨htake, hdrop⟩ := takeWhile_follow (fun _ => isDigit_of_isBlank) h
      have hnot := h.not_point hpoint
      obtain ⟨htake', hdrop'⟩ := hwhole r hr (r.takeWhile Char.isDigit ++ after)
      simp only [List.append_assoc, List.cons_append, htake', hdrop', htake, hdrop]
  · rename_i hpoint
    intro _ h
    exact cutNumber_whole h hpoint

/-- The longest punctuation stays so, since what begins a longer one is punctuation as well. -/
theorem Punct.at?_follow {p : Punct} (hp : Punct.at? cs = some p)
    (h : Continues (cs.drop p.spelling.length) after) :
    Punct.at? (p.spelling ++ after) = some p := by
  obtain ⟨rest, rfl⟩ := isPrefixOf_at? hp
  rw [List.drop_left] at h
  refine Punct.at?_eq_some (List.prefix_append _ _) fun q hq => ?_
  by_contra hlt
  -- the longer one has one character more at least, which follows in the old text too
  obtain ⟨more, hmore⟩ : p.spelling <+: q.spelling :=
    List.prefix_of_prefix_length_le (List.prefix_append _ _) hq (by omega)
  cases more with
  | nil =>
    rw [List.append_nil] at hmore
    simp [hmore] at hlt
  | cons d more =>
    rw [← hmore, List.prefix_append_right_inj] at hq
    obtain ⟨after, rfl⟩ := hq
    have hd : d ∈ q.spelling := by simp [← hmore]
    obtain hblank | hmem := h d rfl
    · simp [Punct.not_mem_spelling hd] at hblank
    obtain ⟨rest, rfl⟩ := List.head?_eq_some_iff.mp hmem
    obtain ⟨r, hr⟩ := @Punct.exists_spelling_of_prefix q (p.spelling ++ [d])
      ⟨more, by simp [← hmore]⟩ (by simp)
    have hle := Punct.at?_longest hp (q := r) ⟨rest, by simp [hr]⟩
    simp only [hr, List.length_append, List.length_singleton] at hle
    omega

end Ends

/-- The text begins with `front`, which is cut off as the lexeme `l`. -/
def CutsOff (l : Lexeme) (front rest : List Char) : Prop :=
  ∃ c cs, front ++ rest = c :: cs ∧ cut c cs = ⟨front, rest, .lexeme l⟩

theorem cut_cutsOff {l : Lexeme} (h : (cut c cs).piece = .lexeme l) :
    CutsOff l (cut c cs).front (cut c cs).rest :=
  ⟨c, cs, cut_append c cs, by rw [← h]⟩

namespace CutsOff

variable {l : Lexeme} {front rest after : List Char}

theorem ne_nil (h : CutsOff l front rest) : front ≠ [] := by
  obtain ⟨c, cs, -, hcut⟩ := h
  have hne := cut_front_ne_nil c cs
  rwa [hcut] at hne

theorem spells (h : CutsOff l front rest) : l.Spells front := by
  obtain ⟨c, cs, -, hcut⟩ := h
  have hspells := @cut_spells c cs l (by rw [hcut])
  rwa [hcut] at hspells

theorem punct {p : Punct} (hp : Punct.at? (c :: cs) = some p) (hline : ∀ r, c = '/' → cs ≠ '/' :: r)
    (hblock : ∀ r, c = '/' → cs ≠ '*' :: r)
      (h : Continues ((c :: cs).drop p.spelling.length) after) :
    CutsOff (.punct p) p.spelling after := by
  have hat := Punct.at?_follow hp h
  obtain ⟨d, ds, hspelling⟩ := List.exists_cons_of_ne_nil p.spelling_ne_nil
  have hhead := isPrefixOf_at? hp
  rw [hspelling, List.cons_prefix_cons] at hhead
  obtain ⟨rfl, -⟩ := hhead
  -- only a slash could open a comment, and it is followed by what did not
  have hslash : d = '/' → ds = [] := by
    have hall : ∀ p ∈ Punct.all, p.spelling.head? = some '/' →
        p.spelling = ['/'] := by decide +kernel
    rintro rfl
    simpa [hspelling] using hall p p.mem_all
  have hcomment : ∀ e r, Text.isBlank e = false → d = '/' → ds ++ after = e :: r →
      ∃ r', cs = e :: r' := by
    intro e r hblank hd heq
    obtain rfl := hslash hd
    obtain rfl : after = e :: r := heq
    rw [hspelling] at h
    rcases h e rfl with he | he
    · simp [he] at hblank
    · exact List.head?_eq_some_iff.mp he
  refine ⟨d, ds ++ after, by rw [hspelling, List.cons_append], ?_⟩
  rw [hspelling, List.cons_append] at hat
  rw [cut]
  · simp [hat, hspelling]
  · intro r hd heq
    obtain ⟨r', hr'⟩ := hcomment '/' r (by decide) hd heq
    exact hline r' hd hr'
  · intro r hd heq
    obtain ⟨r', hr'⟩ := hcomment '*' r (by decide) hd heq
    exact hblock r' hd hr'

/-- Where a lexeme ends is told by the next character. -/
theorem follow (h : CutsOff l front rest) (hafter : Continues rest after) :
    CutsOff l front after := by
  obtain ⟨d, ds, rfl⟩ := List.exists_cons_of_ne_nil h.ne_nil
  obtain ⟨c, cs, htext, hcut⟩ := h
  obtain ⟨rfl, hcs⟩ := List.cons.inj htext
  unfold cut at hcut
  split at hcut
  · simp [cutBlank] at hcut
  · simp [cutBlank] at hcut
  rename_i hline hblock
  split at hcut
  · rename_i p hp
    obtain ⟨hfront, rfl, hl⟩ := Cut.mk.inj hcut
    obtain rfl := Piece.lexeme.inj hl
    rw [← hfront]
    exact punct hp (fun r hd heq => hline r hd heq) (fun r hd heq => hblock r hd heq) hafter
  refine ⟨d, ds ++ after, rfl, ?_⟩
  split at hcut
  · rename_i hquote
    rw [cut_string hquote]
    unfold cutString at hcut ⊢
    split at hcut
    · simp at hcut
    · rename_i body rest' hbody
      obtain ⟨hfront, rfl, hl⟩ := Cut.mk.inj hcut
      obtain rfl := (List.cons.inj hfront).2
      rw [List.append_assoc, List.singleton_append, stringBody_follow hbody, ← hl]
  split at hcut
  · rename_i hhash
    subst hhash
    obtain rfl : cs.takeWhile Char.isAlpha = ds := (List.cons.inj (congrArg Cut.front hcut)).2
    have hdirective := @cutDirective_follow cs after (by rwa [hcut])
    rw [hcut] at hdirective
    exact (cut_directive _).trans hdirective
  split at hcut
  · rename_i hdigit
    have hnumber := @cutNumber_follow (d :: cs) after l (by rw [hcut]) (by rwa [hcut])
    rw [hcut] at hnumber
    exact (cut_digit hdigit).trans hnumber
  split at hcut
  · rename_i hstart
    have hword := @cutWord_follow (d :: cs) after (by rwa [hcut])
    rw [hcut] at hword
    exact (cut_wordStart hstart).trans hword
  split at hcut
  · simp [cutBlank] at hcut
  · simp at hcut

end CutsOff

end Frontend
