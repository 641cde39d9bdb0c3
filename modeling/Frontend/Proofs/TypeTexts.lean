import Frontend.Ir.Ty
import Frontend.Proofs.Rereading
import Frontend.Proofs.Scanning

/-!
Texts of types. The text of a lowered type is the text of no other, and no type's text is the start
of another's unless a letter or a digit follows there. The text of a type that can be written in a
source reads as that type.
-/
namespace Frontend.Ir.Ty

/-- What may stand after the text of a type, which may end in a letter or a digit. -/
def Delimits (r : List Char) : Prop := ∀ c ∈ r.head?, c.isAlphanum = false

/-- What stands in a list after its first type. -/
def listTail : List Ty → List Char
  | [] => []
  | ts => ',' :: ' ' :: (listText ts).toList

theorem listText_cons (t : Ty) (ts : List Ty) :
    (listText (t :: ts)).toList = t.text.toList ++ listTail ts := by
  cases ts <;> simp [listText, listTail]

theorem text_starts (t : Ty) : ∃ c cs, t.text.toList = c :: cs ∧ c ≠ '\x7d' ∧ c ≠ ')' := by
  cases t <;> simp [text]

section Closing

variable {r r' : List Char} {close : Char} (hclose : close = '\x7d' ∨ close = ')')
include hclose

theorem delimits_close : Delimits (close :: r) := by
  rcases hclose with rfl | rfl <;> simp [Delimits]

theorem delimits_tail (ts : List Ty) : Delimits (listTail ts ++ close :: r) := by
  cases ts with
  | nil => exact delimits_close hclose
  | cons t ts => simp [Delimits, listTail]

theorem listText_ne_close (t : Ty) (ts : List Ty) :
    (listText (t :: ts)).toList ++ r ≠ close :: r' := by
  obtain ⟨c, cs, htext, hbrace, hparen⟩ := text_starts t
  rcases hclose with rfl | rfl <;> simp [listText_cons, htext, hbrace, hparen]

end Closing

mutual

/-- A text is read as one type, up to where the type ends. -/
theorem text_unique (s t : Ty) {r r' : List Char} (hr : Delimits r) (hr' : Delimits r')
    (h : s.text.toList ++ r = t.text.toList ++ r') : s = t ∧ r = r' := by
  cases s with
  | ptr s =>
    cases t with
    | ptr t =>
      obtain ⟨rfl, rfl⟩ := text_unique s t hr hr' (by simpa [text] using h)
      exact ⟨rfl, rfl⟩
    | _ => simp [text] at h
  | struct ss =>
    cases t with
    | struct ts =>
      obtain ⟨rfl, rfl⟩ := listText_unique ss ts (.inl rfl) (by simpa [text] using h)
      exact ⟨rfl, rfl⟩
    | _ => simp [text] at h
  | fn ss s =>
    cases t with
    | fn ts t =>
      obtain ⟨rfl, hret⟩ := listText_unique ss ts (.inr rfl) (by simpa [text] using h)
      obtain ⟨rfl, rfl⟩ := text_unique s t hr hr' (List.cons.inj hret).2
      exact ⟨rfl, rfl⟩
    | _ => simp [text] at h
  | _ =>
    -- Of the words only `i1` starts another, and that one goes on with a digit.
    cases t <;> simp [text] at h <;> subst h <;> simp_all [Delimits]

theorem listText_unique (ss ts : List Ty) {r r' : List Char} {close : Char}
    (hclose : close = '\x7d' ∨ close = ')')
    (h : (listText ss).toList ++ close :: r = (listText ts).toList ++ close :: r') :
    ss = ts ∧ r = r' := by
  match ss, ts with
  | [], [] => exact ⟨rfl, (List.cons.inj h).2⟩
  | [], t :: ts => exact absurd h.symm (listText_ne_close hclose t ts)
  | s :: ss, [] => exact absurd h (listText_ne_close hclose s ss)
  | s :: ss, t :: ts =>
    rw [listText_cons, listText_cons, List.append_assoc, List.append_assoc] at h
    obtain ⟨rfl, htail⟩ := text_unique s t (delimits_tail hclose ss) (delimits_tail hclose ts) h
    match ss, ts with
    | [], [] => exact ⟨rfl, (List.cons.inj htail).2⟩
    | [], _ :: _ | _ :: _, [] => rcases hclose with rfl | rfl <;> simp [listTail] at htail
    | s' :: ss, t' :: ts =>
      obtain ⟨heq, rfl⟩ := listText_unique (s' :: ss) (t' :: ts) hclose
        (by simpa [listTail] using htail)
      exact ⟨by rw [heq], rfl⟩

end

/-- Two lowered types are written alike only if they are one. -/
theorem text_inj (s t : Ty) : s.text = t.text ↔ s = t := by
  constructor
  · intro h
    have hend : Delimits [] := by simp [Delimits]
    exact (text_unique s t hend hend (by rw [h])).1
  · rintro rfl
    rfl

end Frontend.Ir.Ty

namespace Frontend

/-- A type that can be written in a source. -/
def Ty.Denotable : Ty → Prop
  | .prim p n => p ≠ .scope ∧ 0 ≤ n ∧ n ≤ 127
  | .struct _ _ => False
  | .inst name n => (Lexeme.identifier name).Spells name.toList ∧ 0 ≤ n ∧ n ≤ 127
  | .fn ret n => ret.Denotable ∧ 0 ≤ n ∧ n ≤ 127

theorem CutsOff.star (rest : List Char) : CutsOff (.punct .star) ['*'] rest := ⟨'*', rest, rfl, rfl⟩

theorem CutsOff.keyword (k : Keyword) : CutsOff (.keyword k) k.spelling.toList [] := by
  cases k <;> exact ⟨_, _, rfl, by decide +kernel⟩

theorem Lexeme.Spells.cutsOff {name : String} (h : (Lexeme.identifier name).Spells name.toList) :
    CutsOff (.identifier name) name.toList [] := by
  obtain ⟨-, ⟨c, cs, hname, hstart⟩, hpart, hkeyword⟩ := h
  have hnone : Keyword.ofWord? name = none := by
    simpa [Keyword.ofWord?, List.find?_eq_none] using fun k _ => hkeyword k
  refine ⟨c, cs, by rw [List.append_nil, hname], ?_⟩
  rw [cut_wordStart hstart, ← hname, cutWord, List.takeWhile_eq_self_iff.mpr hpart,
    List.dropWhile_eq_nil_iff.mpr hpart, String.ofList_toList, hnone]

theorem Tokenizes.cons {here : Place} {l : Lexeme} {text rest : List Char} {ts : List Token}
    (hcut : CutsOff l text rest) (h : Tokenizes (here.after text) rest ts none) :
    Tokenizes here (text ++ rest) (⟨l, here.span text⟩ :: ts) none :=
  .token .nil hcut h

/-- The text is cut into tokens that read as the type, wherever it stands. -/
def Reads (cs : List Char) (ty : Ty) : Prop :=
  ∀ here, ∃ ts, Tokenizes here cs ts none ∧ Manner.read.type ty ts []

namespace Reads

variable {cs : List Char} {ty : Ty}

theorem single {l : Lexeme} (hcut : CutsOff l cs [])
    (h : ∀ t : Token, t.lexeme = l → Manner.read.type ty [t] []) : Reads cs ty := by
  intro here
  have htoken : Tokenizes here (cs ++ []) _ none := .cons hcut (.done .nil)
  rw [List.append_nil] at htoken
  exact ⟨_, htoken, h _ rfl⟩

theorem raise (h : Reads cs ty) : Reads ('*' :: cs) (ty.addLevels 1) := by
  intro here
  obtain ⟨ts, hts, hty⟩ := h (here.after ['*'])
  exact ⟨_, .cons (.star cs) hts, .star rfl hty⟩

/-- So many stars are so many levels, as long as these can be counted. -/
theorem stars (ty : Ty) (h : Reads cs (ty.withLevels 0)) {n : Int} (hn : 0 ≤ n ∧ n ≤ 127) :
    Reads ((Ty.text.stars n).toList ++ cs) (ty.withLevels n) := by
  obtain ⟨n, rfl⟩ := Int.eq_ofNat_of_zero_le hn.1
  rw [Ty.text.stars, String.toList_ofList, Int.toNat_natCast]
  induction n with
  | zero => exact h
  | succ n ih =>
    have hlevels : (ty.withLevels n).addLevels 1 = ty.withLevels (n + 1 : Nat) := by
      have hclamp : clampLevels (n + 1) = (n + 1 : Nat) := by
        unfold clampLevels
        omega
      rw [Ty.addLevels, Ty.levels_withLevels, hclamp]
      cases ty <;> rfl
    rw [← hlevels]
    exact (ih (by omega)).raise

theorem fn (h : Reads cs ty) : Reads ("fn ".toList ++ cs) (.fn ty 0) := by
  intro here
  have hblank : Text.isBlank ' ' := by decide
  have hcut : CutsOff (.keyword .fn) ['f', 'n'] (' ' :: cs) :=
    (CutsOff.keyword .fn).follow (by simp [Continues, hblank])
  obtain ⟨ts, hts, hty⟩ := h ((here.after ['f', 'n']).after [' '])
  have htoken := Tokenizes.cons hcut (hts.prepend (.blank hblank .nil))
  exact ⟨_, htoken, .fn rfl hty⟩

end Reads

theorem Prim.exists_keyword {p : Prim} (hp : p ≠ .scope) :
    ∃ k ∈ Keyword.all, k.base? = some (.prim p) ∧ k.spelling = p.name := by
  revert hp
  cases p <;> decide +kernel

theorem Ty.Denotable.reads {ty : Ty} (h : ty.Denotable) : Reads ty.text.toList ty := by
  induction ty with
  | prim p n =>
    obtain ⟨k, -, hprim, hname⟩ := Prim.exists_keyword h.1
    rw [text, String.toList_append, ← hname]
    exact .stars (.prim p n) (.single (.keyword k) fun t ht => .prim ht hprim) h.2
  | struct => exact h.elim
  | inst name n =>
    rw [text, String.toList_append]
    exact .stars (.inst name n) (.single h.1.cutsOff fun t ht => .named ht) h.2
  | fn ret n ih =>
    rw [text, String.append_assoc, String.toList_append, String.toList_append]
    exact .stars (.fn ret n) (ih h.1).fn h.2

/-- What is written of a type that a source can name is read as that type, to the last token. -/
theorem typeExpr_text (ty : Ty) (h : ty.Denotable) : ∃ ts, tokenize ty.text = .ok ts ∧
    ∀ eof, ∃ r, Grammar.typeExpr eof ts = .ok r ∧ r.value.1 = ty ∧ r.rest = [] := by
  obtain ⟨ts, hts, hty⟩ := h.reads .start
  refine ⟨ts, tokenize_eq_ok_iff.mpr hts, fun eof => ?_⟩
  obtain ⟨last, -, r, hr, hvalue, hrest⟩ := Grammar.typeExpr_gives eof hty
  exact ⟨r, hr, by rw [hvalue], hrest⟩

/-- A star before `fn` is not one after it. -/
theorem typeExpr_text_node : (Ty.fn (.inst "node" 1) 2).Denotable ∧
    ∃ ts, tokenize (Ty.fn (.inst "node" 1) 2).text = .ok ts ∧
      ∀ eof, ∃ r, Grammar.typeExpr eof ts = .ok r ∧
      r.value.1 = .fn (.inst "node" 1) 2 ∧ r.rest = [] := by
  have hname : (Lexeme.identifier "node").Spells "node".toList :=
    ⟨rfl, ⟨'n', ['o', 'd', 'e'], rfl, rfl⟩,
      List.all_eq_true.mp (by decide), by rintro ⟨⟩ <;> decide⟩
  have h : (Ty.fn (.inst "node" 1) 2).Denotable := ⟨⟨hname, by decide⟩, by decide⟩
  exact ⟨h, typeExpr_text _ h⟩

end Frontend
