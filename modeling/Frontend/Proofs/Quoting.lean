import Frontend.Proofs.Tiling
import Frontend.Token.Escape

/-!
String literals as they are written. What stands between two quotes is made of items: a character by
itself, or one after a backslash. The quotes cut the literal where the items end, and reading the
items gives one character for each.
-/
namespace Frontend

/-- A character in a string literal, by itself or after a backslash. -/
inductive StringItem where
  | plain (c : Char)
  | escaped (c : Char)
  deriving DecidableEq, Repr

namespace StringItem

/-- By itself a backslash would escape what follows, and a quote would end the literal. -/
def Fits (quote : Char) : StringItem → Prop
  | plain c => c ≠ '\\' ∧ c ≠ quote
  | escaped _ => True

def text : StringItem → List Char
  | plain c => [c]
  | escaped c => ['\\', c]

def char : StringItem → Char
  | plain c => c
  | escaped 'n' => '\n'
  | escaped 't' => '\t'
  | escaped 'r' => '\r'
  | escaped '0' => '\x00'
  | escaped c => c

theorem unescapeChar_eq (c : Char) : unescapeChar c = (escaped c).char := by
  unfold unescapeChar char
  grind

/-- An item for each character. -/
def of (quote c : Char) : StringItem := if c = '\\' ∨ c = quote then escaped c else plain c

theorem of_fits (quote c : Char) : (of quote c).Fits quote := by
  unfold of
  split
  · trivial
  · simp_all [Fits]

theorem char_of {quote : Char} (hq : quote = '"' ∨ quote = '\'') (c : Char) :
    (of quote c).char = c := by
  unfold of
  split
  next hc =>
    rcases hc with rfl | rfl
    · rfl
    · rcases hq with rfl | rfl <;> rfl
  next => rfl

end StringItem

/-- The text of the items between two quotes. -/
def quoted (quote : Char) (items : List StringItem) : List Char :=
  quote :: (items.flatMap StringItem.text ++ [quote])

section Items

variable {quote : Char} {items : List StringItem}

theorem unescape_plain {c : Char} (hc : c ≠ '\\') (cs : List Char) :
    unescape (c :: cs) = c :: unescape cs := by
  rw [unescape]
  · exact fun h => absurd h hc
  · exact fun _ _ h => absurd h hc

/-- Each item is read as its character. -/
theorem unescape_items (hfits : ∀ i ∈ items, i.Fits quote) :
    unescape (items.flatMap StringItem.text) = items.map StringItem.char := by
  induction items with
  | nil => rfl
  | cons i items ih =>
    rw [List.forall_mem_cons] at hfits
    cases i with
    | plain c => simp [StringItem.text, StringItem.char, unescape_plain hfits.1.1, ih hfits.2]
    | escaped c => simp [StringItem.text, unescape, StringItem.unescapeChar_eq, ih hfits.2]

/-- Items end where the quote stands by itself. -/
theorem stringBody_items (hquote : quote ≠ '\\') (hfits : ∀ i ∈ items, i.Fits quote)
    (rest : List Char) : stringBody quote (items.flatMap StringItem.text ++ quote :: rest) =
      some (items.flatMap StringItem.text, rest) := by
  induction items with
  | nil => rw [List.flatMap_nil, List.nil_append, stringBody_cons hquote, if_pos rfl]
  | cons i items ih =>
    rw [List.forall_mem_cons] at hfits
    cases i with
    | plain c => simp [StringItem.text, stringBody_cons hfits.1.1, hfits.1.2, ih hfits.2]
    | escaped c => simp [StringItem.text, stringBody, ih hfits.2]

/-- What is cut at a quote is made of items. -/
theorem exists_items_of_stringBody {cs body rest : List Char}
    (h : stringBody quote cs = some (body, rest)) :
    ∃ items : List StringItem, (∀ i ∈ items, i.Fits quote) ∧
    items.flatMap StringItem.text = body := by
  fun_induction stringBody quote cs generalizing body rest with
  | case1 => simp at h
  | case2 => simp at h
  | case3 c cs ih =>
    obtain ⟨⟨b, r⟩, hb, heq⟩ := Option.map_eq_some_iff.1 h
    obtain ⟨rfl, rfl⟩ := Prod.mk.inj heq
    obtain ⟨items, hfits, rfl⟩ := ih hb
    exact ⟨.escaped c :: items, by simpa [StringItem.Fits] using hfits, rfl⟩
  | case4 cs =>
    obtain ⟨rfl, rfl⟩ := Prod.mk.inj (Option.some.inj h)
    exact ⟨[], by simp, rfl⟩
  | case5 c cs hlast hescape hquote ih =>
    obtain ⟨⟨b, r⟩, hb, heq⟩ := Option.map_eq_some_iff.1 h
    obtain ⟨rfl, rfl⟩ := Prod.mk.inj heq
    obtain ⟨items, hfits, rfl⟩ := ih hb
    have hplain : (StringItem.plain c).Fits quote := ⟨ne_backslash hlast hescape, hquote⟩
    exact ⟨.plain c :: items, List.forall_mem_cons.mpr ⟨hplain, hfits⟩, rfl⟩

/-- A literal is cut off whole, whatever follows. -/
theorem quoted_cutsOff (hquote : quote = '"' ∨ quote = '\'') (hfits : ∀ i ∈ items, i.Fits quote)
    (rest : List Char) :
    CutsOff (.string (String.ofList (items.flatMap StringItem.text)))
      (quoted quote items) rest := by
  have hne : quote ≠ '\\' := by rcases hquote with rfl | rfl <;> decide
  refine ⟨quote, items.flatMap StringItem.text ++ quote :: rest, by simp [quoted], ?_⟩
  rw [cut_string hquote, cutString, stringBody_items hne hfits]
  rfl

/-- A string that is cut off is a literal. -/
theorem CutsOff.quoted {raw : String} {front rest : List Char}
    (h : CutsOff (.string raw) front rest) : ∃ (quote : Char) (items : List StringItem),
      (quote = '"' ∨ quote = '\'') ∧ (∀ i ∈ items, i.Fits quote) ∧
      raw = String.ofList (items.flatMap StringItem.text) ∧
      front = Frontend.quoted quote items := by
  obtain ⟨quote, hquote, hfront⟩ := h.spells
  obtain ⟨c, cs, htext, hcut⟩ := h
  rw [hfront] at htext
  obtain ⟨rfl, -⟩ := List.cons.inj htext
  rw [cut_string hquote, cutString] at hcut
  split at hcut
  · simp at hcut
  next body rest' hbody =>
    obtain ⟨items, hfits, rfl⟩ := exists_items_of_stringBody hbody
    obtain rfl := Lexeme.string.inj (Piece.lexeme.inj (congrArg Cut.piece hcut))
    exact ⟨_, items, hquote, hfits, rfl, by simpa [Frontend.quoted] using hfront⟩

end Items

/-- A token stands at its span as it was cut off. -/
theorem Tokenizes.cutsOff {src : String} {here : Place} {before cs : List Char} {ts : List Token}
    {fault : Option (Located Fault)} (h : Tokenizes here cs ts fault)
      (hsrc : src.toList = before ++ cs)
    (hhere : here.offset = byteLength before) :
    ∀ t ∈ ts, ∃ front rest, CutsOff t.lexeme front rest ∧
      t.span.text? src = some (String.ofList front) := by
  induction h generalizing before with
  | done | stuck => simp
  | @token here gap text rest l ts fault hgap hcut _ ih =>
    have hgapped : src.toList = (before ++ gap) ++ (text ++ rest) := by simpa using hsrc
    have hplace : (here.after gap).offset = byteLength (before ++ gap) := by
      simp [Place.after, hhere]
    rw [List.forall_mem_cons]
    refine ⟨⟨text, rest, hcut, Place.text?_span hgapped hplace⟩, ?_⟩
    exact @ih (before ++ gap ++ text) (by simpa using hsrc) (by simp [Place.after, hhere])

/-- A string literal with its items is one token over the whole text, and is read back item by item,
so that there is a literal for every text. And every string that is found in a text is such a
literal there, so that reading it loses nothing but the backslashes that escape. -/
theorem string_literals_decode :
    (∀ (quote : Char) (items : List StringItem),
      quote = '"' ∨ quote = '\'' → (∀ i ∈ items, i.Fits quote) →
      let src := String.ofList (quoted quote items)
      let raw := String.ofList (items.flatMap StringItem.text)
      tokenize src = .ok [⟨.string raw, ⟨0, byteLength src.toList, .start⟩⟩] ∧
        (unescaped raw).toList = items.map StringItem.char) ∧
    (∀ (quote : Char) (text : String), quote = '"' ∨ quote = '\'' →
      ∃ items : List StringItem, (∀ i ∈ items, i.Fits quote) ∧
        items.map StringItem.char = text.toList) ∧
    ∀ (src : String) (ts : List Token), tokenize src = .ok ts →
      ∀ t ∈ ts, ∀ raw, t.lexeme = .string raw → ∃ (quote : Char) (items : List StringItem),
        (quote = '"' ∨ quote = '\'') ∧ (∀ i ∈ items, i.Fits quote) ∧
          t.span.text? src = some (String.ofList (quoted quote items)) ∧
          raw = String.ofList (items.flatMap StringItem.text) ∧
          (unescaped raw).toList = items.map StringItem.char := by
  refine ⟨fun quote items hquote hfits => ⟨?_, ?_⟩, fun quote text hquote => ?_,
    fun src ts hts t ht raw hraw => ?_⟩
  · have htoken : Tokenizes .start ([] ++ (quoted quote items ++ [])) _ none :=
      .token .nil (quoted_cutsOff hquote hfits []) (.done .nil)
    rw [List.nil_append, List.append_nil] at htoken
    exact tokenize_eq_ok_iff.mpr (by simpa [Place.span, Place.start] using htoken)
  · simp [unescaped, unescape_items hfits]
  · refine ⟨text.toList.map (StringItem.of quote), by simp [StringItem.of_fits], ?_⟩
    simp [Function.comp_def, StringItem.char_of hquote]
  · have hsrc : src.toList = [] ++ src.toList := rfl
    obtain ⟨front, rest, hcut, htext⟩ := (tokenize_eq_ok_iff.mp hts).cutsOff hsrc rfl t ht
    rw [hraw] at hcut
    obtain ⟨quote, items, hquote, hfits, rfl, rfl⟩ := hcut.quoted
    exact ⟨quote, items, hquote, hfits, htext, rfl, by simp [unescaped, unescape_items hfits]⟩

/-- An escaped quote, an escape that stands for another character, and one that stands for
itself. -/
theorem string_literals_decode_sample :
    tokenize "'a\\'\\n\\y\"'" =
        .ok [⟨.string "a\\'\\n\\y\"", ⟨0, 10, .start⟩⟩] ∧
      (unescaped "a\\'\\n\\y\"").toList = ['a', '\'', '\n', 'y', '"'] ∧
      (∃ items : List StringItem, (∀ i ∈ items, i.Fits '"') ∧
        items.map StringItem.char = "\"\\n\n".toList) ∧
      ∃ ts, tokenize "x := \"\\0'\";" = .ok ts ∧ ∃ t ∈ ts, t.lexeme = .string "\\0'" ∧
        ∃ (quote : Char) (items : List StringItem),
          (quote = '"' ∨ quote = '\'') ∧ (∀ i ∈ items, i.Fits quote) ∧
          t.span.text? "x := \"\\0'\";" = some (String.ofList (quoted quote items)) ∧
          "\\0'" = String.ofList (items.flatMap StringItem.text) ∧
          (unescaped "\\0'").toList = items.map StringItem.char := by
  obtain ⟨hwritten, hevery, hfound⟩ := string_literals_decode
  obtain ⟨htokens, hread⟩ := hwritten '\''
    [.plain 'a', .escaped '\'', .escaped 'n', .escaped 'y', .plain '"'] (.inr rfl)
    (by simp [StringItem.Fits])
  have hrun : (tokenize "x := \"\\0'\";").toOption =
      some [⟨.identifier "x", ⟨0, 1, .start⟩⟩, ⟨.punct .quickAssign, ⟨2, 2, ⟨1, 3⟩⟩⟩,
        ⟨.string "\\0'", ⟨5, 5, ⟨1, 6⟩⟩⟩, ⟨.punct .semicolon, ⟨10, 1, ⟨1, 11⟩⟩⟩] := by
    decide +kernel
  have hok := toOption_eq_some.mp hrun
  have hmem : ∀ a b c d : Token, c ∈ [a, b, c, d] := by simp
  exact ⟨htokens, hread, hevery '"' _ (.inl rfl), _, hok, _, hmem _ _ _ _, rfl,
    hfound _ _ hok _ (hmem _ _ _ _) _ rfl⟩

end Frontend
