import Frontend.Proofs.Handles
import Frontend.Proofs.Tiling
import Frontend.Scope.Prelude

/-!
The texts of a source that need handles are its names, with one more for each struct: they cannot be
more than half its bytes, since two words never touch.
-/
namespace Frontend

/-- Keywords and names. -/
def Token.isWord (t : Token) : Bool :=
  match t.lexeme with
  | .identifier _ | .keyword _ => true
  | _ => false

/-- Whether a name before these tokens is that of a struct. -/
def Token.afterStructName : List Token → Bool
  | ⟨.punct .colon, _⟩ :: ⟨.keyword .struct, _⟩ :: _ => true
  | _ => false

/-- The texts of tokens that need handles: each name, and the marker of each struct. -/
def Token.keptTexts : List Token → List String
  | [] => []
  | t :: ts =>
    match t.lexeme with
    | .identifier name =>
      name :: ((if afterStructName ts then [membersMarker name] else []) ++ keptTexts ts)
    | _ => keptTexts ts

section Words

variable {c : Char} {cs : List Char}

/-- A word is cut off as a whole. -/
theorem cut_word {l : Lexeme} {s : Span} (h : (cut c cs).piece = .lexeme l)
    (hl : (⟨l, s⟩ : Token).isWord) :
    isWordStart c ∧ (cut c cs).rest = (c :: cs).dropWhile isWordPart := by
  have hcut := cut_as c cs
  generalize cut c cs = k at h hcut
  cases hcut with
  | word hc => exact ⟨hc, rfl⟩
  | line | block | blanks | stray => cases h
  | punct p =>
    obtain rfl := Piece.lexeme.inj h
    cases hl
  | string hq =>
    unfold cutString at h
    split at h
    · cases h
    · obtain rfl := Piece.lexeme.inj h
      cases hl
  | directive hc =>
    simp only [cutDirective] at h
    split at h
    · obtain rfl := Piece.lexeme.inj h
      cases hl
    · cases h
  | number hc =>
    simp only [cutNumber] at h
    split at h
    · split at h
      · cases h
      · obtain rfl := Piece.lexeme.inj h
        cases hl
    · obtain rfl := Piece.lexeme.inj h
      cases hl

/-- Whether the text starts with a part of a word. -/
def startsInWord (cs : List Char) : Bool := cs.head?.any isWordPart

theorem startsInWord_dropWhile (cs : List Char) :
    startsInWord (cs.dropWhile isWordPart) = false := by
  have hhead := List.head?_dropWhile_not isWordPart cs
  unfold startsInWord
  cases h : (cs.dropWhile isWordPart).head? with
  | none => rfl
  | some c =>
    rw [h] at hhead
    exact hhead

/-- A word takes a byte, and so does what parts it from the next one. -/
theorem scanFrom_words (here : Place) (cs : List Char) :
    2 * (scanFrom here cs).1.countP Token.isWord ≤ byteLength cs + (startsInWord cs).toNat := by
  unfold scanFrom
  split
  · exact Nat.zero_le _
  · rename_i c cs
    have hlt := cut_rest_length c cs
    have hrest := scanFrom_words (here.after (cut c cs).front) (cut c cs).rest
    have hfront : 0 < byteLength (cut c cs).front := by
      obtain ⟨d, ds, hd⟩ := List.exists_cons_of_ne_nil (cut_front_ne_nil c cs)
      rw [hd, byteLength_cons]
      exact Nat.add_pos_left d.utf8Size_pos _
    have hbytes : byteLength (cut c cs).front + byteLength (cut c cs).rest =
        byteLength (c :: cs) := by
      rw [← byteLength_append, cut_append]
    have hle := Bool.toNat_le (startsInWord (cut c cs).rest)
    dsimp only
    split
    · exact Nat.zero_le _
    · omega
    · rename_i l hpiece
      rw [List.countP_cons]
      split
      · rename_i hl
        obtain ⟨hc, hword⟩ := cut_word hpiece hl
        have hin : startsInWord (c :: cs) = true := isWordPart_of_isWordStart hc
        rw [hword, startsInWord_dropWhile, ← hword] at hrest
        simp only [Bool.toNat_false] at hrest
        rw [hin, Bool.toNat_true]
        omega
      · omega
termination_by cs.length
decreasing_by grind

/-- Whether the keyword of a struct comes next, or after a colon. -/
def Token.beforeStruct : List Token → Bool
  | ⟨.keyword .struct, _⟩ :: _ => true
  | ts => afterStructName ts

theorem Token.afterStructName_le (ts : List Token) :
    (afterStructName ts).toNat ≤ (beforeStruct ts).toNat := by
  unfold beforeStruct
  split
  · exact Bool.toNat_le _
  · exact Nat.le_refl _

variable {ts : List Token}

/-- Only the colon comes between the two words. -/
theorem Token.beforeStruct_of_cons {p : Punct} {s : Span} (h : beforeStruct (⟨.punct p, s⟩ :: ts)) :
    beforeStruct ts := by
  change afterStructName (⟨.punct p, s⟩ :: ts) = true at h
  unfold afterStructName at h
  split at h
  · rename_i heq
    obtain ⟨-, rfl⟩ := List.cons.inj heq
    rfl
  · cases h

/-- Each text that is kept is paid for by a word: a name, or the keyword of a struct. -/
theorem Token.length_keptTexts_le (ts : List Token) :
    (keptTexts ts).length + (beforeStruct ts).toNat ≤ ts.countP Token.isWord := by
  induction ts with
  | nil => exact Nat.le_refl _
  | cons t ts ih =>
    obtain ⟨l, s⟩ := t
    cases l with
    | identifier name =>
      have hle := afterStructName_le ts
      have hmarker : (if afterStructName ts then [membersMarker name] else []).length =
          (afterStructName ts).toNat := by
        cases afterStructName ts <;> rfl
      have hword : (⟨.identifier name, s⟩ : Token).isWord = true := rfl
      have hahead : beforeStruct (⟨.identifier name, s⟩ :: ts) = false := rfl
      rw [List.countP_cons_of_pos hword, hahead]
      simp only [keptTexts, List.length_cons, List.length_append, hmarker, Bool.toNat_false]
      omega
    | keyword k =>
      have hle := Bool.toNat_le (beforeStruct (⟨.keyword k, s⟩ :: ts))
      have hword : (⟨.keyword k, s⟩ : Token).isWord = true := rfl
      rw [List.countP_cons_of_pos hword]
      simp only [keptTexts]
      omega
    | punct p =>
      have hle : (beforeStruct (⟨.punct p, s⟩ :: ts)).toNat ≤ (beforeStruct ts).toNat := by
        cases h : beforeStruct (⟨.punct p, s⟩ :: ts) with
        | false => exact Nat.zero_le _
        | true => rw [beforeStruct_of_cons h]
      rw [List.countP_cons_of_neg (by simp [isWord])]
      exact Nat.le_trans (Nat.add_le_add_left hle _) ih
    | directive d | number text | string raw =>
      rw [List.countP_cons_of_neg (by simp [isWord])]
      exact Nat.le_trans (Nat.le_add_right _ _) ih

theorem Token.keptTexts_subset_of_suffix {all : List Token} (h : ts <:+ all) :
    keptTexts ts ⊆ keptTexts all := by
  obtain ⟨front, rfl⟩ := h
  induction front with
  | nil => exact List.Subset.refl _
  | cons t front ih =>
    refine List.Subset.trans ih ?_
    rw [List.cons_append]
    conv_rhs => unfold keptTexts
    split
    · exact fun x hx => List.mem_cons_of_mem _ (List.mem_append_right _ hx)
    · exact List.Subset.refl _

theorem Token.mem_keptTexts {t : Token} {name : String} (ht : t ∈ ts)
    (hname : t.lexeme = .identifier name) : name ∈ keptTexts ts := by
  obtain ⟨front, rest, rfl⟩ := List.append_of_mem ht
  refine keptTexts_subset_of_suffix (List.suffix_append front (t :: rest)) ?_
  rw [keptTexts, hname]
  exact List.mem_cons_self

end Words

/-- All texts that need handles where these tokens are read. -/
def Token.texts (ts : List Token) : List String := prelude.map (·.name) ++ keptTexts ts

theorem Token.length_texts_le {src : String} (h : tokenize src = .ok ts) :
    2 * (texts ts).length ≤ byteLength src.toList + 3 := by
  have hscan : (scanFrom .start src.toList).1 = ts := by
    unfold tokenize scan at h
    split at h
    · rename_i hts
      rw [hts]
      exact Except.ok.inj h
    · cases h
  have hwords := scanFrom_words .start src.toList
  have hkept := length_keptTexts_le ts
  have hle := Bool.toNat_le (startsInWord src.toList)
  have hprelude : (prelude.map (·.name)).length = 1 := rfl
  rw [hscan] at hwords
  rw [texts, List.length_append, hprelude]
  omega

/-- Of a source below four GiB, whatever is interned, and in whatever order, every handle fits in 32
bits and is good for its text from then on. -/
theorem NamePool.handle_fits {src : String} (hscan : tokenize src = .ok ts)
    (hsmall : byteLength src.toList < 2 ^ 32) {xs ys : List String} {x : String}
    (htexts : xs ++ x :: ys ⊆ Token.texts ts) :
    (empty.internAll (xs ++ x :: ys)).get? ((empty.internAll xs).intern x).1 = some x ∧
      0 < ((empty.internAll xs).intern x).1.number ∧
      ((empty.internAll xs).intern x).1.number < 2 ^ 32 := by
  have hgood : (empty.internAll (xs ++ x :: ys)).get? ((empty.internAll xs).intern x).1 =
      some x := by
    rw [internAll_append]
    exact get?_internAll _ x ys
  have hsize := size_internAll_le htexts
  have hlen := Token.length_texts_le hscan
  obtain ⟨hpos, hle⟩ := number_le_size hgood
  exact ⟨hgood, hpos, by omega⟩

end Frontend
