import Frontend.Token.Scan
import Mathlib.Data.List.TakeWhile

/-!
What may be cut off the front of a text. What is skipped is made of blanks and comments, and a
lexeme is cut as it is spelled.
-/
namespace Frontend

/-- With `depth` comments open around it, a block comment ends with this text, and not before.
Comments nest. -/
inductive Closes : Nat → List Char → Prop where
  | close : Closes 0 ['*', '/']
  | leave {depth cs} : Closes depth cs → Closes (depth + 1) ('*' :: '/' :: cs)
  | enter {depth cs} : Closes (depth + 1) cs → Closes depth ('/' :: '*' :: cs)
  | skip {depth c cs} : ¬ ['/', '*'] <+: c :: cs → ¬ ['*', '/'] <+: c :: cs → Closes depth cs →
      Closes depth (c :: cs)

/-- What may stand between tokens. A comment to the end of a line has that end after it, and a block
comment is closed, unless the text ends there. -/
inductive Gap (last : Bool) : List Char → Prop where
  | nil : Gap last []
  | blank {c cs} : Text.isBlank c → Gap last cs → Gap last (c :: cs)
  | line {body cs} : '\n' ∉ body → Gap last ('\n' :: cs) →
      Gap last ('/' :: '/' :: (body ++ '\n' :: cs))
  | block {body cs} : Closes 0 body → Gap last cs → Gap last ('/' :: '*' :: (body ++ cs))
  | lastLine {body} : last → '\n' ∉ body → Gap last ('/' :: '/' :: body)
  | unclosed {body} : last → (∀ front, front <+: body → ¬ Closes 0 front) →
      Gap last ('/' :: '*' :: body)

/-- How a lexeme is written. A number is made of digits and at most one point, and a string is what
stands between two equal quotes. -/
def Lexeme.Spells (text : List Char) : Lexeme → Prop
  | .punct p => text = p.spelling
  | .keyword k => text = k.spelling.toList
  | .directive d => text = '#' :: d.spelling.toList
  | .identifier name => text = name.toList ∧ (∃ c cs, text = c :: cs ∧ isWordStart c) ∧
    (∀ c ∈ text, isWordPart c) ∧ ∀ k : Keyword, k.spelling ≠ name
  | .number digits => text = digits.toList ∧ (∃ c cs, text = c :: cs ∧ c.isDigit) ∧
    (∀ c ∈ text, c.isDigit ∨ c = '.') ∧ text.count '.' ≤ 1
  | .string raw => ∃ quote, (quote = '"' ∨ quote = '\'') ∧ text = quote :: (raw.toList ++ [quote])

section Comments

variable {depth : Nat} {cs front rest : List Char}

theorem Closes.ne_nil (h : Closes depth cs) : cs ≠ [] := by
  cases h <;> simp

/-- A character that neither opens nor closes a comment stays in it. -/
theorem blockComment_skip {c : Char} (hopen : ¬ ['/', '*'] <+: c :: cs)
    (hclose : ¬ ['*', '/'] <+: c :: cs) :
    blockComment depth (c :: cs) = (c :: (blockComment depth cs).1, (blockComment depth cs).2) := by
  cases cs with
  | nil => simp [blockComment]
  | cons d ds =>
    rw [blockComment]
    · rintro _ rfl ⟨⟩
      simp at hopen
    · rintro _ - rfl ⟨⟩
      simp at hclose
    · rintro _ _ - rfl ⟨⟩
      simp at hclose

/-- Where a comment closes, it is cut. -/
theorem Closes.blockComment (h : Closes depth front) (rest : List Char) :
    blockComment depth (front ++ rest) = (front, rest) := by
  induction h with
  | close => rfl
  | leave _ ih => simp [Frontend.blockComment, ih]
  | enter _ ih => simp [Frontend.blockComment, ih]
  | @skip depth c cs hopen hclose hcs ih =>
    obtain ⟨d, ds, rfl⟩ := List.exists_cons_of_ne_nil hcs.ne_nil
    rw [List.cons_append, blockComment_skip (by simpa using hopen) (by simpa using hclose), ih]

/-- A comment is cut where it closes, or it takes the whole text. -/
theorem blockComment_closes (depth : Nat) (cs : List Char) :
    Closes depth (blockComment depth cs).1 ∨ (blockComment depth cs).2 = [] := by
  fun_induction blockComment depth cs with
  | case1 => exact .inr rfl
  | case2 depth cs inside rest heq ih =>
    rw [heq] at ih
    exact ih.imp_left .enter
  | case3 cs => exact .inl .close
  | case4 depth cs inside rest heq ih =>
    rw [heq] at ih
    exact ih.imp_left .leave
  | case5 depth c cs hopen hclose hclose' inside rest heq ih =>
    have happend := blockComment_append depth cs
    rw [heq] at ih happend
    obtain rfl : inside ++ rest = cs := happend
    refine ih.imp_left (.skip ?_ ?_)
    · rintro ⟨t, ht⟩
      obtain ⟨rfl, rfl⟩ := List.cons.inj ht
      exact hopen _ rfl rfl
    · rintro ⟨t, ht⟩
      obtain ⟨rfl, rfl⟩ := List.cons.inj ht
      cases depth with
      | zero => exact hclose _ rfl rfl rfl
      | succ depth => exact hclose' _ _ rfl rfl rfl

end Comments

namespace Gap

variable {last : Bool} {gap : List Char}

theorem blanks {cs : List Char} (hcs : ∀ c ∈ cs, Text.isBlank c) (h : Gap last gap) :
    Gap last (cs ++ gap) := by
  induction cs with
  | nil => exact h
  | cons c cs ih =>
    exact .blank (hcs c List.mem_cons_self) (ih fun d hd => hcs d (List.mem_cons_of_mem _ hd))

end Gap

/-- What cannot be part of the gap before it: the end of the text, or the start of a lexeme. -/
def Bounds (last : Bool) (after : List Char) : Prop :=
  last ∧ after = [] ∨ ∃ c cs, after = c :: cs ∧ c ≠ '\n'

variable {cs gap after text : List Char} {c : Char} {l : Lexeme}

theorem Gap.lineComment {last : Bool} (hrest : cs.dropWhile (· ≠ '\n') = gap ++ after)
    (hgap : Gap last gap)
    (hafter : Bounds last after) : Gap last ('/' :: '/' :: (cs.takeWhile (· ≠ '\n') ++ gap)) := by
  have hbody : '\n' ∉ cs.takeWhile (· ≠ '\n') := fun hmem => by
    simpa using List.mem_takeWhile_imp hmem
  have hhead : ∀ c r, cs.dropWhile (· ≠ '\n') = c :: r → c = '\n' := by
    intro c r hdrop
    have hnot := List.head?_dropWhile_not (· ≠ '\n') cs
    rw [hdrop] at hnot
    simpa using hnot
  cases gap with
  | nil =>
    rcases hafter with ⟨hlast, -⟩ | ⟨c, r, rfl, hc⟩
    · simpa using Gap.lastLine hlast hbody
    · exact absurd (hhead c r hrest) hc
  | cons c gap =>
    obtain rfl := hhead c (gap ++ after) hrest
    exact .line hbody hgap

theorem Gap.blockComment {last : Bool} {cs gap after : List Char}
    (hrest : (blockComment 0 cs).2 = gap ++ after) (hgap : Gap last gap)
      (hafter : Bounds last after) :
    Gap last ('/' :: '*' :: ((blockComment 0 cs).1 ++ gap)) := by
  by_cases hcloses : Closes 0 (Frontend.blockComment 0 cs).1
  · exact .block hcloses hgap
  -- what is not closed runs to the end of the text
  have hnil := (blockComment_closes 0 cs).resolve_left hcloses
  have hall : (Frontend.blockComment 0 cs).1 = cs := by
    simpa [hnil] using blockComment_append 0 cs
  obtain ⟨rfl, rfl⟩ : gap = [] ∧ after = [] := by simpa [hnil] using hrest.symm
  have hlast : last := by
    rcases hafter with ⟨hlast, -⟩ | ⟨c, r, hcons, -⟩
    · exact hlast
    · simp at hcons
  rw [List.append_nil, hall]
  refine .unclosed hlast ?_
  rintro front ⟨rest, rfl⟩ hfront
  rw [hfront.blockComment] at hcloses
  exact hcloses hfront

/-- What may be cut off the front of a text. -/
inductive CutAs (c : Char) (cs : List Char) : Cut → Prop where
  | line {r} : c = '/' → cs = '/' :: r → CutAs c cs
      (cutBlank ('/' :: '/' :: r.takeWhile (· ≠ '\n')) (r.dropWhile (· ≠ '\n')))
  | block {r} : c = '/' → cs = '*' :: r → CutAs c cs
      (cutBlank ('/' :: '*' :: (blockComment 0 r).1) (blockComment 0 r).2)
  | punct (p) : CutAs c cs ⟨p.spelling, (c :: cs).drop p.spelling.length, .lexeme (.punct p)⟩
  | string : c = '"' ∨ c = '\'' → CutAs c cs (cutString c cs)
  | directive : c = '#' → CutAs c cs (cutDirective cs)
  | number : c.isDigit → CutAs c cs (cutNumber (c :: cs))
  | word : isWordStart c → CutAs c cs (cutWord (c :: cs))
  | blanks : Text.isBlank c → CutAs c cs
      (cutBlank (c :: cs.takeWhile Text.isBlank) (cs.dropWhile Text.isBlank))
  | stray : CutAs c cs ⟨[c], cs, .fault (.unexpectedChar c)⟩

theorem cut_as (c : Char) (cs : List Char) : CutAs c cs (cut c cs) := by
  unfold cut
  split
  · exact .line rfl rfl
  · exact .block rfl rfl
  split
  · exact .punct _
  split
  · rename_i hquote
    exact .string hquote
  split
  · rename_i hhash
    exact .directive hhash
  split
  · rename_i hdigit
    exact .number hdigit
  split
  · rename_i hstart
    exact .word hstart
  split
  · rename_i hblank
    exact .blanks hblank
  · exact .stray

theorem cutString_piece (quote : Char) (cs : List Char) : (cutString quote cs).piece ≠ .blank := by
  unfold cutString
  split <;> simp

theorem cutDirective_piece (cs : List Char) : (cutDirective cs).piece ≠ .blank := by
  unfold cutDirective
  dsimp only
  split <;> simp

theorem cutNumber_piece (cs : List Char) : (cutNumber cs).piece ≠ .blank := by
  unfold cutNumber
  dsimp only
  repeat' split
  all_goals simp

theorem cutWord_piece (cs : List Char) : (cutWord cs).piece ≠ .blank := by
  unfold cutWord
  dsimp only
  split <;> simp

/-- A piece that is no lexeme can be part of a gap. -/
theorem cut_gap (h : (cut c cs).piece = .blank) {last : Bool}
    (hrest : (cut c cs).rest = gap ++ after)
    (hgap : Gap last gap) (hafter : Bounds last after) : Gap last ((cut c cs).front ++ gap) := by
  have hcut := cut_as c cs
  generalize cut c cs = k at h hrest hcut
  cases hcut with
  | line => exact Gap.lineComment hrest hgap hafter
  | block => exact Gap.blockComment hrest hgap hafter
  | blanks hc =>
    refine .blanks (fun d hd => ?_) hgap
    rcases List.mem_cons.mp hd with rfl | hd
    · exact hc
    · exact List.mem_takeWhile_imp hd
  | punct | stray => simp at h
  | string => exact absurd h (cutString_piece _ _)
  | directive => exact absurd h (cutDirective_piece _)
  | number => exact absurd h (cutNumber_piece _)
  | word => exact absurd h (cutWord_piece _)

theorem cutString_spells {quote : Char} (hq : quote = '"' ∨ quote = '\'')
    (h : (cutString quote cs).piece = .lexeme l) : l.Spells (cutString quote cs).front := by
  unfold cutString at h ⊢
  split at h
  · simp at h
  · obtain rfl := Piece.lexeme.inj h
    exact ⟨quote, hq, by simp⟩

theorem cutDirective_spells (h : (cutDirective cs).piece = .lexeme l) :
    l.Spells (cutDirective cs).front := by
  unfold cutDirective at h ⊢
  dsimp only at h ⊢
  split at h
  · rename_i d hd
    obtain rfl := Piece.lexeme.inj h
    have hspelling : d.spelling = String.ofList (cs.takeWhile Char.isAlpha) := by
      simpa using List.find?_some hd
    simp [Lexeme.Spells, hspelling]
  · simp at h

/-- Digits, with or without a point and more digits. -/
theorem spells_number (hc : c.isDigit)
    (h : text = (c :: cs).takeWhile Char.isDigit ∨
      ∃ r : List Char, text = (c :: cs).takeWhile Char.isDigit ++ '.' :: r.takeWhile Char.isDigit) :
    (Lexeme.number (String.ofList text)).Spells text := by
  have hdigit : ∀ r : List Char, ∀ d ∈ r.takeWhile Char.isDigit, d.isDigit :=
    fun r d hd => List.mem_takeWhile_imp hd
  have hnone : ∀ r : List Char, (r.takeWhile Char.isDigit).count '.' = 0 := by
    intro r
    refine List.count_eq_zero.mpr fun hmem => ?_
    exact absurd (hdigit r _ hmem) (by decide)
  have hhead : (c :: cs).takeWhile Char.isDigit = c :: cs.takeWhile Char.isDigit :=
    List.takeWhile_cons_of_pos hc
  refine ⟨by simp, ?_, ?_, ?_⟩
  · rcases h with rfl | ⟨r, rfl⟩ <;> rw [hhead] <;> exact ⟨c, _, rfl, hc⟩
  · intro d hd
    rcases h with rfl | ⟨r, rfl⟩
    · exact .inl (hdigit _ d hd)
    · rcases List.mem_append.mp hd with hd | hd
      · exact .inl (hdigit _ d hd)
      · rcases List.mem_cons.mp hd with rfl | hd
        · exact .inr rfl
        · exact .inl (hdigit r d hd)
  · rcases h with rfl | ⟨r, rfl⟩ <;> simp [hnone]

theorem cutNumber_spells (hc : c.isDigit) (h : (cutNumber (c :: cs)).piece = .lexeme l) :
    l.Spells (cutNumber (c :: cs)).front := by
  revert h
  unfold cutNumber
  dsimp only
  split
  · rename_i r hr
    split
    · simp
    · intro h
      obtain rfl := Piece.lexeme.inj h
      exact spells_number hc (.inr ⟨r, rfl⟩)
  · intro h
    obtain rfl := Piece.lexeme.inj h
    exact spells_number hc (.inl rfl)

theorem cutWord_spells (hc : isWordStart c) (h : (cutWord (c :: cs)).piece = .lexeme l) :
    l.Spells (cutWord (c :: cs)).front := by
  unfold cutWord at h ⊢
  dsimp only at h ⊢
  split at h
  · rename_i k hk
    obtain rfl := Piece.lexeme.inj h
    have hspelling : k.spelling = String.ofList ((c :: cs).takeWhile isWordPart) := by
      simpa using List.find?_some hk
    simp [Lexeme.Spells, hspelling]
  · rename_i hnone
    obtain rfl := Piece.lexeme.inj h
    refine ⟨by simp, ⟨c, cs.takeWhile isWordPart, ?_, hc⟩,
      fun d hd => List.mem_takeWhile_imp hd, ?_⟩
    · exact List.takeWhile_cons_of_pos (isWordPart_of_isWordStart hc)
    · intro k
      simpa using List.find?_eq_none.mp hnone k k.mem_all

/-- A lexeme is cut as it is spelled. -/
theorem cut_spells {c : Char} {cs : List Char} {l : Lexeme} (h : (cut c cs).piece = .lexeme l) :
    l.Spells (cut c cs).front := by
  have hcut := cut_as c cs
  generalize cut c cs = k at h hcut
  cases hcut with
  | punct p =>
    obtain rfl := Piece.lexeme.inj h
    rfl
  | string hq => exact cutString_spells hq h
  | directive => exact cutDirective_spells h
  | number hc => exact cutNumber_spells hc h
  | word hc => exact cutWord_spells hc h
  | line | block | blanks => simp [cutBlank] at h
  | stray => simp at h

/-- No lexeme starts with the end of a line. -/
theorem Lexeme.Spells.head (h : l.Spells text) : ∃ c cs, text = c :: cs ∧ c ≠ '\n' := by
  cases l with
  | punct p => cases p <;> exact ⟨_, _, h, by decide⟩
  | keyword k => cases k <;> exact ⟨_, _, h, by decide⟩
  | directive d => exact ⟨_, _, h, by decide⟩
  | identifier name | number digits =>
    obtain ⟨-, ⟨c, cs, rfl, hc⟩, -⟩ := h
    refine ⟨c, cs, rfl, ?_⟩
    rintro rfl
    exact absurd hc (by decide)
  | string raw =>
    obtain ⟨quote, hq, rfl⟩ := h
    refine ⟨quote, _, rfl, ?_⟩
    rintro rfl
    simp at hq

end Frontend
