import Frontend.Proofs.Pipeline
import Frontend.Proofs.Scanning
import Mathlib.Data.List.Induction

/-!
Tokens tile their source. What stands between two of them, before the first and after the last is
made of blanks and comments; each token is written at its span as its lexeme is spelled, and the
span starts at the position that the text before it leads to.
-/
namespace Frontend

theorem splitBytes?_append (xs ys : List Char) :
    splitBytes? (byteLength xs) (xs ++ ys) = some (xs, ys) := by
  induction xs with
  | nil => simp [splitBytes?]
  | cons c xs ih =>
    obtain ⟨n, hn⟩ : ∃ n, byteLength (c :: xs) = n + 1 :=
      Nat.exists_eq_succ_of_ne_zero (by have := c.utf8Size_pos; simp; omega)
    have hle : c.utf8Size ≤ n + 1 := by
      rw [← hn]
      exact Nat.le_add_right _ _
    have hsub : n + 1 - c.utf8Size = byteLength xs := by
      rw [← hn]
      exact Nat.add_sub_cancel_left _ _
    rw [hn, List.cons_append, splitBytes?, if_pos hle, hsub, ih]
    rfl

/-- The span of a stretch of text leads back to it. -/
theorem Place.text?_span {src : String} {before front after : List Char} {here : Place}
    (hsrc : src.toList = before ++ (front ++ after)) (hoff : here.offset = byteLength before) :
    (here.span front).text? src = some (String.ofList front) := by
  simp [Span.text?, Place.span, hsrc, hoff, splitBytes?_append]

/-- The text read from `here` is made of gaps and tokens by turns. -/
inductive Tiles : Place → List Char → List Token → Prop where
  | last {here gap} : Gap true gap → Tiles here gap []
  | token {here gap text rest l ts} : Gap false gap → l.Spells text →
      Tiles (here.after (gap ++ text)) rest ts →
      Tiles here (gap ++ (text ++ rest)) (⟨l, (here.after gap).span text⟩ :: ts)

theorem Tokenizes.tiles {here : Place} {cs : List Char} {ts : List Token}
    (h : Tokenizes here cs ts none) : Tiles here cs ts := by
  generalize hnone : none = fault at h
  induction h with
  | done hgap => exact .last hgap
  | stuck => cases hnone
  | token hgap hcut _ ih => exact .token hgap hcut.spells (ih hnone)

theorem tokenize_tiles {src : String} {ts : List Token} (h : tokenize src = .ok ts) :
    Tiles .start src.toList ts := (tokenize_eq_ok_iff.mp h).tiles

/-- The stretch of a text from byte `lo` to byte `hi`. -/
def Covers (src : String) (lo hi : Nat) (text : List Char) : Prop :=
  ∃ before after, src.toList = before ++ (text ++ after) ∧ byteLength before = lo ∧
    lo + byteLength text = hi

/-- From byte `lo` on, all that stands between the spans of the tokens and after the last of them is
made of gaps. -/
def Gapped (src : String) : Nat → List Token → Prop
  | lo, [] => ∃ gap, Covers src lo (byteLength src.toList) gap ∧ Gap true gap
  | lo, t :: ts => (∃ gap, Covers src lo t.span.lo gap ∧ Gap false gap) ∧ Gapped src t.span.hi ts

/-- The span of a token is a stretch of the text in which the lexeme is spelled. Its position counts
the lines before it and the characters before it on its line. -/
structure Token.Placed (src : String) (t : Token) : Prop where
  nonempty : 0 < t.span.len
  inside : t.span.hi ≤ byteLength src.toList
  text : ∃ text, t.span.text? src = some text ∧ t.lexeme.Spells text.toList
  position : ∃ before after, src.toList = before ++ after ∧ byteLength before = t.span.lo ∧
    t.span.pos = ⟨1 + before.count '\n', 1 + (before.reverse.takeWhile (· ≠ '\n')).length⟩

/-- Lines are counted by their ends, and columns from the last of them. -/
theorem Position.after_eq (p : Position) (cs : List Char) : p.after cs = ⟨p.line + cs.count '\n',
    if '\n' ∈ cs then 1 + (cs.reverse.takeWhile (· ≠ '\n')).length else p.column + cs.length⟩ := by
  induction cs using List.reverseRecOn with
  | nil => rfl
  | append_singleton cs c ih =>
    rw [after_append, ih, after_cons, after_nil, next]
    by_cases hc : c = '\n'
    · simp [hc, Nat.add_assoc]
    · by_cases hcs : '\n' ∈ cs <;> simp [hc, Ne.symm hc, hcs, Nat.add_assoc, Nat.add_comm]

/-- The position after a text counts its lines, and the characters of the last one. -/
theorem Position.after_start (cs : List Char) : Position.start.after cs =
    ⟨1 + cs.count '\n', 1 + (cs.reverse.takeWhile (· ≠ '\n')).length⟩ := by
  rw [after_eq]
  split
  · rfl
  · rename_i hcs
    have hline : ∀ c ∈ cs.reverse, decide (c ≠ '\n') = true := fun c hc =>
      decide_eq_true fun heq => hcs (heq ▸ List.mem_reverse.mp hc)
    rw [List.takeWhile_eq_self_iff.mpr hline, List.length_reverse]
    rfl

namespace Tiles

variable {src : String} {here : Place} {before cs : List Char} {ts : List Token}

theorem gapped (h : Tiles here cs ts) (hsrc : src.toList = before ++ cs)
    (hhere : here.offset = byteLength before) : Gapped src here.offset ts := by
  induction h generalizing before with
  | @last here gap hgap =>
    exact ⟨gap, ⟨before, [], by simpa using hsrc, hhere.symm, by simp [hsrc, hhere]⟩, hgap⟩
  | @token here gap text rest l ts hgap _ _ ih =>
    refine ⟨⟨gap, ⟨before, text ++ rest, hsrc, hhere.symm, rfl⟩, hgap⟩, ?_⟩
    have hrest := @ih (before ++ gap ++ text) (by simpa using hsrc) (by simp [Place.after, hhere])
    rwa [Place.after_append] at hrest

theorem le_lo (h : Tiles here cs ts) : ∀ t ∈ ts, here.offset ≤ t.span.lo := by
  induction h with
  | last => simp
  | @token here gap text rest l ts _ _ _ ih =>
    intro t ht
    rcases List.mem_cons.mp ht with rfl | ht
    · exact Nat.le_add_right _ _
    · exact Nat.le_trans (Nat.le_add_right _ _) (ih t ht)

theorem apart (h : Tiles here cs ts) : ts.Pairwise fun s t => s.span.hi ≤ t.span.lo := by
  induction h with
  | last => exact .nil
  | @token here gap text rest l ts _ _ hts ih =>
    refine .cons (fun t ht => ?_) ih
    have hle := hts.le_lo t ht
    rwa [Place.after_append] at hle

theorem placed (h : Tiles here cs ts) (hsrc : src.toList = before ++ cs)
    (hhere : here = Place.start.after before) : ∀ t ∈ ts, t.Placed src := by
  induction h generalizing before with
  | last => simp
  | @token here gap text rest l ts hgap hl _ ih =>
    have htext : src.toList = (before ++ gap) ++ (text ++ rest) := by simpa using hsrc
    have hplace : here.after gap = Place.start.after (before ++ gap) := by
      rw [hhere, ← Place.after_append]
    intro t ht
    rcases List.mem_cons.mp ht with rfl | ht
    · rw [hplace]
      obtain ⟨c, r, hcons, -⟩ := hl.head
      have hoffset : (Place.start.after (before ++ gap)).offset = byteLength (before ++ gap) :=
        Nat.zero_add _
      refine ⟨?_, ?_, ⟨_, Place.text?_span htext hoffset, by simpa using hl⟩, ?_⟩
      · have hpos := c.utf8Size_pos
        simp only [Place.span, hcons, byteLength_cons]
        omega
      · simp only [Place.span, Span.hi, hoffset, htext, byteLength_append]
        omega
      · exact ⟨before ++ gap, text ++ rest, htext, hoffset.symm, Position.after_start _⟩
    · refine @ih (before ++ gap ++ text) (by simpa using htext) ?_ t ht
      rw [Place.after_append, hplace, ← Place.after_append]

end Tiles

/-- The tokens of a text tile it. Their spans are stretches of the text, one after the other and
none of them empty, in which their lexemes are spelled; between them, before the first and after
the last there are only blanks and comments; and each says on which line and in which column it
starts. -/
theorem tokenize_tiled (src : String) (ts : List Token) (h : tokenize src = .ok ts) :
    (∀ t ∈ ts, t.Placed src) ∧ (ts.Pairwise fun s t => s.span.hi ≤ t.span.lo) ∧
    Gapped src 0 ts := by
  have htiles := tokenize_tiles h
  have hsrc : src.toList = [] ++ src.toList := rfl
  exact ⟨htiles.placed hsrc rfl, htiles.apart, htiles.gapped hsrc rfl⟩

/-- Nested comments, a character of two bytes, a directive, a string, and a comment that is not
closed. -/
def collageText : String := "/* é /* */ */ x:=1.5;// y\n #def 'a' /* z"

theorem tokenize_collage_tiled : ∃ ts, tokenize collageText = .ok ts ∧
    ts.map (fun t => (t.lexeme, t.span)) =
      [(.identifier "x", ⟨15, 1, 1, 15⟩), (.punct .quickAssign, ⟨16, 2, 1, 16⟩),
        (.number "1.5", ⟨18, 3, 1, 18⟩), (.punct .semicolon, ⟨21, 1, 1, 21⟩),
        (.directive .define, ⟨28, 4, 2, 2⟩), (.string "a", ⟨33, 3, 2, 7⟩)] ∧
    (∀ t ∈ ts, t.Placed collageText) ∧ (ts.Pairwise fun s t => s.span.hi ≤ t.span.lo) ∧
    Gapped collageText 0 ts := by
  have hrun : (tokenize collageText).toOption.map (·.map fun t => (t.lexeme, t.span)) =
      some [(.identifier "x", ⟨15, 1, 1, 15⟩), (.punct .quickAssign, ⟨16, 2, 1, 16⟩),
        (.number "1.5", ⟨18, 3, 1, 18⟩), (.punct .semicolon, ⟨21, 1, 1, 21⟩),
        (.directive .define, ⟨28, 4, 2, 2⟩), (.string "a", ⟨33, 3, 2, 7⟩)] := by
    decide +kernel
  obtain ⟨ts, hts, hmap⟩ := Option.map_eq_some_iff.mp hrun
  have hok := toOption_eq_some.mp hts
  exact ⟨ts, hok, hmap, tokenize_tiled collageText ts hok⟩

end Frontend
