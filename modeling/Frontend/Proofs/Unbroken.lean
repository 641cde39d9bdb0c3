import Frontend.Proofs.Descent
import Frontend.Proofs.Interning
import Frontend.Proofs.Outlays
import Frontend.Proofs.Surroundings

/-!
Nothing is asked for that is not there. Of a source below four GiB, whatever it says, each stretch
of it that is looked at lies in it and is made of whole characters; positions, spans, handles and
numbers of scopes fit in 32 bits, and each number is one of a scope; no scope is closed that was not
opened; and code is made only where a function is under construction. Of all that the passes take
for granted, one thing can fail: a tree may be too deep to be written.
-/
namespace Frontend

/-- The bytes of a text from `lo` up to `hi`, if those are in it, in this order, and both at the
boundary of a character. -/
def Text.slice? (s : String) (lo hi : Nat) : Option String :=
  if lo ≤ hi then (⟨lo, hi - lo, .start⟩ : Span).text? s else none

theorem Text.slice?_eq_some {s : String} {front text after : List Char}
    (h : s.toList = front ++ (text ++ after)) :
    slice? s (byteLength front) (byteLength front + byteLength text) =
      some (String.ofList text) := by
  rw [slice?, if_pos (Nat.le_add_right _ _), Nat.add_sub_cancel_left]
  have hhere : (⟨byteLength front, .start⟩ : Place).offset = byteLength front := rfl
  exact Place.text?_span h hhere

/-- Cutting up the text comes to `cs`, at `here`. -/
inductive Scans (src : String) : Place → List Char → Prop where
  | start : Scans src .start src.toList
  | next {here c cs} : Scans src here (c :: cs) → (∀ f, (cut c cs).piece ≠ .fault f) →
      Scans src (here.after (cut c cs).front) (cut c cs).rest

/-- Skipping a block comment, whose text begins with `text`, comes to `cs` with `depth` more
comments open around the innermost one. -/
inductive Comments (text : List Char) : Nat → List Char → Prop where
  | start : Comments text 0 text
  | opened {depth cs} : Comments text depth ('/' :: '*' :: cs) → Comments text (depth + 1) cs
  | closed {depth cs} : Comments text (depth + 1) ('*' :: '/' :: cs) → Comments text depth cs
  | other {depth c cs} : Comments text depth (c :: cs) → ¬ ['/', '*'] <+: c :: cs →
      ¬ ['*', '/'] <+: c :: cs → Comments text depth cs

/-- What is cut off at `here` is a stretch of the text. Of a string, what stands between its quotes
is taken out of this stretch, and of a directive, what follows its sign. A comment has two signs. -/
structure Cut.Legible (src : String) (here : Place) (k : Cut) : Prop where
  text : Text.slice? src here.offset (here.after k.front).offset = some (String.ofList k.front)
  fits : (here.after k.front).offset < 2 ^ 32
  string : ∀ raw, k.piece = .lexeme (.string raw) → 1 ≤ byteLength k.front ∧
    Text.slice? (String.ofList k.front) 1 (byteLength k.front - 1) = some raw
  directive : ∀ d, k.piece = .lexeme (.directive d) →
    Text.slice? (String.ofList k.front) 1 (byteLength k.front) = some d.spelling
  unknown : ∀ name, k.piece = .fault (.unknownDirective name) →
    Text.slice? (String.ofList k.front) 1 (byteLength k.front) = some name
  comment : k.piece = .blank → k.front.head? = some '/' →
    ∃ sign rest, k.front = '/' :: sign :: rest ∧ (sign = '/' ∨ sign = '*')

section Cuts

variable {src : String} {here : Place} {c : Char} {cs : List Char}

theorem Scans.stands (h : Scans src here cs) :
    ∃ before, src.toList = before ++ cs ∧ here = Place.start.after before := by
  induction h with
  | start => exact ⟨[], rfl, rfl⟩
  | @next here c cs _ _ ih =>
    obtain ⟨before, hsrc, rfl⟩ := ih
    refine ⟨before ++ (cut c cs).front, ?_, (Place.after_append _ _ _).symm⟩
    rw [hsrc, List.append_assoc, cut_append]

/-- What follows a sign of one byte in a piece of text. -/
theorem slice?_after_sign (sign : Char) (hsign : sign.utf8Size = 1) (text after : List Char) :
    Text.slice? (String.ofList (sign :: (text ++ after))) 1 (1 + byteLength text) =
      some (String.ofList text) := by
  have hlist : (String.ofList (sign :: (text ++ after))).toList = [sign] ++ (text ++ after) :=
    String.toList_ofList
  have hslice := Text.slice?_eq_some hlist
  rwa [byteLength_cons, hsign, byteLength_nil] at hslice

theorem slice?_directive (name : String) :
    Text.slice? (String.ofList ('#' :: name.toList)) 1 (byteLength ('#' :: name.toList)) =
      some name := by
  have hslice := slice?_after_sign '#' rfl name.toList []
  rwa [List.append_nil, String.ofList_toList] at hslice

/-- An unknown directive is written like one that is known. -/
theorem cut_unknownDirective {name : String}
    (h : (cut c cs).piece = .fault (.unknownDirective name)) :
    (cut c cs).front = '#' :: name.toList := by
  have hcut := cut_as c cs
  generalize cut c cs = k at h hcut
  cases hcut with
  | line | block | punct | blanks | stray => cases h
  | string =>
    unfold cutString at h
    split at h <;> cases h
  | directive =>
    simp only [cutDirective] at h ⊢
    split at h
    · cases h
    · obtain rfl := Fault.unknownDirective.inj (Piece.fault.inj h)
      rw [String.toList_ofList]
  | number =>
    simp only [cutNumber] at h
    split at h
    · split at h <;> cases h
    · cases h
  | word =>
    simp only [cutWord] at h
    split at h <;> cases h

theorem cut_comment (h : (cut c cs).piece = .blank) (hslash : (cut c cs).front.head? = some '/') :
    ∃ sign rest, (cut c cs).front = '/' :: sign :: rest ∧ (sign = '/' ∨ sign = '*') := by
  have hcut := cut_as c cs
  generalize cut c cs = k at h hslash hcut
  cases hcut with
  | line => exact ⟨'/', _, rfl, .inl rfl⟩
  | block => exact ⟨'*', _, rfl, .inr rfl⟩
  | punct | stray => cases h
  | string => exact absurd h (cutString_piece c cs)
  | directive => exact absurd h (cutDirective_piece cs)
  | number => exact absurd h (cutNumber_piece _)
  | word => exact absurd h (cutWord_piece _)
  | blanks hblank =>
    obtain rfl : c = '/' := by simpa [cutBlank] using hslash
    exact absurd hblank (by decide)

/-- The comment is cut off as it would be from the start. -/
theorem Comments.cut {text cs : List Char} {depth : Nat} (h : Comments text depth cs) :
    ∃ front, text = front ++ cs ∧ 2 * depth ≤ front.length ∧ blockComment 0 text =
      (front ++ (blockComment depth cs).1, (blockComment depth cs).2) := by
  induction h with
  | start => exact ⟨[], rfl, Nat.le_refl _, rfl⟩
  | @opened depth cs _ ih =>
    obtain ⟨front, htext, hlength, hcut⟩ := ih
    refine ⟨front ++ ['/', '*'], by simpa using htext, by simp; omega, ?_⟩
    rw [hcut, blockComment]
    simp
  | @closed depth cs _ ih =>
    obtain ⟨front, htext, hlength, hcut⟩ := ih
    refine ⟨front ++ ['*', '/'], by simpa using htext, by simp; omega, ?_⟩
    rw [hcut, blockComment]
    simp
  | @other depth c cs _ hopen hclose ih =>
    obtain ⟨front, htext, hlength, hcut⟩ := ih
    refine ⟨front ++ [c], by simpa using htext, by simp; omega, ?_⟩
    rw [hcut, blockComment_skip hopen hclose]
    simp

/-- What is cut off is found again, and so are its parts. -/
theorem Scans.legible (h : Scans src here (c :: cs)) (hsmall : byteLength src.toList < 2 ^ 32) :
    (cut c cs).Legible src here := by
  obtain ⟨before, hsrc, rfl⟩ := h.stands
  rw [← cut_append c cs] at hsrc
  have hbytes := congrArg byteLength hsrc
  simp only [byteLength_append] at hbytes
  refine ⟨?_, ?_, fun raw hraw => ?_, fun d hd => ?_, fun name hname => ?_, cut_comment⟩
  · simpa [Place.after, Place.start] using Text.slice?_eq_some hsrc
  · simp only [Place.after, Place.start]
    omega
  · obtain ⟨quote, hquote, hfront⟩ := cut_spells hraw
    have hsize : quote.utf8Size = 1 := by rcases hquote with rfl | rfl <;> rfl
    have hlen : byteLength (cut c cs).front = 1 + byteLength raw.toList + 1 := by
      simp only [hfront, byteLength_cons, byteLength_append, byteLength_nil, hsize]
      omega
    refine ⟨by omega, ?_⟩
    rw [hlen, hfront, Nat.add_sub_cancel, slice?_after_sign quote hsize, String.ofList_toList]
  · rw [show (cut c cs).front = '#' :: d.spelling.toList from cut_spells hd]
    exact slice?_directive d.spelling
  · rw [cut_unknownDirective hname]
    exact slice?_directive name

theorem length_le_byteLength (cs : List Char) : cs.length ≤ byteLength cs := by
  induction cs with
  | nil => exact Nat.le_refl 0
  | cons c cs ih =>
    have hpos := c.utf8Size_pos
    simp only [List.length_cons, byteLength_cons]
    omega

/-- Comments nest less deep than they are long. -/
theorem Scans.comments_lt {depth : Nat} (h : Scans src here ('/' :: '*' :: cs))
    (hsmall : byteLength src.toList < 2 ^ 32) {cs' : List Char} (hcs : Comments cs depth cs') :
    depth + 1 < 2 ^ 32 := by
  obtain ⟨before, hsrc, -⟩ := h.stands
  obtain ⟨front, rfl, hdepth, -⟩ := hcs.cut
  have hlength := length_le_byteLength src.toList
  rw [hsrc] at hlength hsmall
  simp only [List.length_append, List.length_cons] at hlength
  omega

theorem Position.after_start_lt {n : Nat} (cs : List Char) (h : cs.length < n) :
    (Position.start.after cs).line ≤ n ∧ (Position.start.after cs).column ≤ n := by
  have hline := List.count_le_length (a := '\n') (l := cs)
  have hcolumn := (List.takeWhile_prefix (· ≠ '\n') (l := cs.reverse)).length_le
  rw [List.length_reverse] at hcolumn
  rw [Position.after_start]
  exact ⟨by dsimp only; omega, by dsimp only; omega⟩

/-- Every character of the text has a position that fits, and so has its end unless the text is as
long as it can be. -/
theorem position_fits {before after : List Char} (hsrc : src.toList = before ++ after)
    (hsmall : byteLength src.toList < 2 ^ 32)
    (h : after ≠ [] ∨ byteLength src.toList < 2 ^ 32 - 1) :
    (Position.start.after before).line < 2 ^ 32 ∧
    (Position.start.after before).column < 2 ^ 32 := by
  have hlength := length_le_byteLength before
  have hafter := length_le_byteLength after
  have hbytes := congrArg byteLength hsrc
  rw [byteLength_append] at hbytes
  have hlt : before.length < 2 ^ 32 - 1 := by
    rcases h with hne | hlt
    · have := List.length_pos_iff.mpr hne
      omega
    · omega
  obtain ⟨hline, hcolumn⟩ := Position.after_start_lt before hlt
  omega

theorem endPosition_fits (src : String) (hsmall : byteLength src.toList < 2 ^ 32) :
    (Text.endPosition src).line < 2 ^ 32 ∧ (Text.endPosition src).column < 2 ^ 32 := by
  have hlength := (Text.length_splitLines_le src.toList).trans (length_le_byteLength _)
  unfold Text.endPosition Text.lines
  dsimp only
  split
  · exact ⟨by decide, by decide⟩
  · exact ⟨by dsimp only; omega, by dsimp only; omega⟩

end Cuts

/-- Spans that can be made out of those of the tokens and the end of the text. -/
inductive Token.MakeSpan (eof : Span) (ts : List Token) : Span → Prop where
  | token {t} : t ∈ ts → MakeSpan eof ts t.span
  | eof : MakeSpan eof ts eof
  | through {s t} : MakeSpan eof ts s → MakeSpan eof ts t → MakeSpan eof ts (s.through t)

section Tokens

variable {src : String} {ts : List Token}

theorem tokenize_placed (hscan : tokenize src = .ok ts) : ∀ t ∈ ts, t.Placed src := by
  have hsrc : src.toList = [] ++ src.toList := rfl
  exact (tokenize_tiles hscan).placed hsrc rfl

theorem Token.MakeSpan.hi_le (hscan : tokenize src = .ok ts) {s : Span}
    (h : MakeSpan (Text.endSpan src) ts s) : s.hi ≤ byteLength src.toList := by
  induction h with
  | token ht => exact (tokenize_placed hscan _ ht).inside
  | eof => exact Nat.le_refl _
  | through _ _ ihs iht =>
    rw [Span.through_hi]
    exact Nat.max_le.mpr ⟨ihs, iht⟩

/-- Tokens take a byte each. -/
theorem length_le_of_apart {lo hi : Nat} (hapart : ts.Pairwise fun s t => s.span.hi ≤ t.span.lo)
    (hlo : ∀ t ∈ ts, lo ≤ t.span.lo) (hlen : ∀ t ∈ ts, 0 < t.span.len)
    (hhi : ∀ t ∈ ts, t.span.hi ≤ hi) (hle : lo ≤ hi) : lo + ts.length ≤ hi := by
  induction ts generalizing lo with
  | nil => exact hle
  | cons t ts ih =>
    obtain ⟨hnext, hapart⟩ := List.pairwise_cons.mp hapart
    have hrest := ih hapart hnext (fun u hu => hlen u (List.mem_cons_of_mem t hu))
      (fun u hu => hhi u (List.mem_cons_of_mem t hu)) (hhi t List.mem_cons_self)
    have := hlo t List.mem_cons_self
    have := hlen t List.mem_cons_self
    simp only [Span.hi] at hrest
    simp only [List.length_cons]
    omega

theorem tokenize_length_le (hscan : tokenize src = .ok ts) : ts.length ≤ byteLength src.toList := by
  have hplaced := tokenize_placed hscan
  have hle := length_le_of_apart (tokenize_tiles hscan).apart (fun _ _ => Nat.zero_le _)
    (fun t ht => (hplaced t ht).nonempty) (fun t ht => (hplaced t ht).inside) (Nat.zero_le _)
  rwa [Nat.zero_add] at hle

end Tokens

theorem ScopeTable.HasRoom.of_le {V : Type} {t : ScopeTable V} {most most' n : Nat}
    (h : t.HasRoom most n) (hle : most ≤ most') : t.HasRoom most' n :=
  ⟨h.inRange, h.room.trans hle⟩

namespace CompileError

def isPanic : CompileError → Bool
  | diagnostic _ => false
  | breach b => b.isPanic

theorem ofParse_reported {e : Located ParseError} (h : e.value.isPanic = false) :
    (ofParse e).isPanic = false := by
  unfold ofParse
  split
  · rename_i hb
    rwa [hb] at h
  · rfl

theorem ofCheck_reported {e : Located CheckError} (h : e.value.isPanic = false) :
    (ofCheck e).isPanic = false := by
  unfold ofCheck
  split
  · rename_i hb
    rwa [hb] at h
  · rfl

theorem ofLower_reported {e : Located LowerError} (h : e.value.isPanic = false) :
    (ofLower e).isPanic = false := by
  unfold ofLower
  split
  · rename_i hb
    rwa [hb] at h
  · rfl

end CompileError

namespace Program

theorem ofTokens_fails (eof : Span) (ts : List Token) :
    FailsWith (·.value.isPanic = false) (ofTokens eof ts) := by
  intro e h
  have hmeets := Grammar.program_meets ⟨eof, .start⟩ ts
  rwa [show Grammar.program ⟨eof, .start⟩ ts = .error e from h] at hmeets

theorem check_fails (p : Program) : FailsWith (·.value.isPanic = false) p.check := by
  have hclean := (Check.stmts_clean p .start).fails
  unfold check
  split
  · exact .ok
  · rename_i e st hrun
    rw [show outcome (Check.stmts p) .start = (.error e, st) from hrun] at hclean
    exact .error (hclean e rfl)

theorem lower_fails (q : Program) (name : String) :
    FailsWith (·.value.isPanic = false) (q.lower name) := by
  have hclean := (Lowering.topLevel_clean q (.start name)).fails
  unfold lower
  split
  · rename_i e st hrun
    rw [show outcome (Lowering.topLevel q) (.start name) = (.error e, st) from hrun] at hclean
    exact .error (hclean e rfl)
  · exact .ok

end Program

theorem OutlineLine.write?_eq_none {l : OutlineLine} : l.write? = none ↔ 32768 ≤ l.depth := by
  have hwidest : Text.widest = 65535 := rfl
  rw [write?, Option.map_eq_none_iff, Text.blanks?]
  split
  · simp only [reduceCtorEq, false_iff]
    omega
  · simp only [true_iff]
    omega

/-- An outline cannot be written if a line of it stands too deep. -/
theorem writeOutline_eq_none {ls : List OutlineLine} :
    writeOutline ls = none ↔ ∃ l ∈ ls, 32768 ≤ l.depth := by
  rw [writeOutline, Option.map_eq_none_iff]
  induction ls with
  | nil => simp
  | cons l ls ih =>
    simp only [List.mem_cons, exists_eq_or_imp, ← ih]
    rw [← OutlineLine.write?_eq_none, List.mapM_cons]
    cases l.write? with
    | none => simp
    | some text => cases ls.mapM OutlineLine.write? <;> simp

/-- A statement that is no expression has a line of its own. -/
theorem Stmt.outline_eq_cons (s : Stmt) (hs : ∀ e sp, s ≠ .expr e sp) (depth : Nat) :
    ∃ text rest, s.outline depth = ⟨depth, text⟩ :: rest := by
  cases s <;> unfold outline
  case expr => exact absurd rfl (hs _ _)
  all_goals exact ⟨_, _, rfl⟩

/-- The source is accepted, and its tree cannot be written. -/
def TooDeep (src : String) : Prop :=
  ∃ ts p q ws, Accepted src ts p q ws ∧ ∃ l ∈ outlineStmts 0 q, 32768 ≤ l.depth

/-- Compiling fails with what is reported, or because the tree that was asked for is too deep. -/
theorem compile_fails (file : String) (emit : Emit) (src : String) :
    FailsWith (fun e => e.isPanic = false ∨ e = .breach .tooWide ∧ emit = .tree ∧ TooDeep src)
      (compile file emit src) := by
  unfold compile
  cases hts : tokenize src with
  | error e => exact .error (.inl rfl)
  | ok ts =>
    simp only [Except.mapError, Bind.bind, Except.bind]
    split
    · exact .ok
    cases hp : Program.ofTokens (Text.endSpan src) ts with
    | error e =>
      exact .error (.inl (CompileError.ofParse_reported (Program.ofTokens_fails _ _ e hp)))
    | ok p =>
      dsimp only
      cases hq : p.check with
      | error e => exact .error (.inl (CompileError.ofCheck_reported (p.check_fails e hq)))
      | ok checked =>
        obtain ⟨q, ws⟩ := checked
        dsimp only
        split
        · rename_i htree
          cases houtline : q.outline with
          | none => exact .error (.inr ⟨rfl, htree, ts, p, q, ws, ⟨hts, hp, hq⟩,
              writeOutline_eq_none.mp houtline⟩)
          | some outline => exact .ok
        · cases hm : q.lower (moduleName file) with
          | error e => exact .error (.inl (CompileError.ofLower_reported (q.lower_fails _ e hm)))
          | ok m => exact .ok

/-- No promise is broken but that of a tree that is not too deep. -/
theorem compile_breaks_iff (file : String) (emit : Emit) (src : String) (b : Breach)
    (hb : b.isPanic) : compile file emit src = .error (.breach b) ↔
      b = .tooWide ∧ emit = .tree ∧ TooDeep src := by
  constructor
  · intro h
    obtain hfalse | ⟨heq, htree, hdeep⟩ := compile_fails file emit src _ h
    · rw [CompileError.isPanic, hb] at hfalse
      cases hfalse
    · exact ⟨CompileError.breach.inj heq, htree, hdeep⟩
  · rintro ⟨rfl, rfl, ts, p, q, ws, hacc, hdeep⟩
    have houtline : q.outline = none := writeOutline_eq_none.mpr hdeep
    simp [compile, hacc.scan, hacc.read, hacc.check, houtline, Except.mapError,
      Bind.bind, Except.bind, throw, throwThe, MonadExceptOf.throw]

namespace Grammar

/-- What a reader finds where it is called, of the tokens `all`, and the spans of what it makes. -/
structure Task.InBounds (src : String) (all : List Token) (k : Task) (env : Env) (ts : List Token) :
    Prop where
  tokens : ∀ t ∈ ts, t.Placed src
  ident : ∀ r, identifier env ts = .ok r → r.value.span.text? src = some r.value.name
  names : ∀ t ∈ ts, ∀ name, t.lexeme = .identifier name → name ∈ Token.texts all
  marker : ∀ name, k = .structDef name → membersMarker name.name ∈ Token.texts all
  scopes : env.scopes.HasRoom (2 ^ 32) k.opens
  spans : ∀ s ∈ k.spans env ts, s.hi < 2 ^ 32

variable {src : String} {eof : Span} {all ts : List Token} {k : Task} {env : Env}

/-- The name that is read is the text at its span. -/
theorem identifier_text (hts : ∀ t ∈ ts, t.Placed src) {r : Step ts.length Ident}
    (h : identifier env ts = .ok r) : r.value.span.text? src = some r.value.name := by
  match ts with
  | ⟨lexeme, s⟩ :: ts =>
    obtain ⟨text, htext, hspells⟩ := (hts ⟨lexeme, s⟩ List.mem_cons_self).text
    cases lexeme with
    | identifier name =>
      obtain rfl := Except.ok.inj h
      rw [← String.toList_inj.mp hspells.1]
      exact htext
    | _ => cases h

theorem Sound.start (eof : Span) (all : List Token) : Sound eof all .program ⟨eof, .start⟩ all where
  eof := rfl
  suffix := List.suffix_rfl
  room := (ScopeTable.HasRoom.start (fun _ => ()) all.length).mono (Nat.le_of_eq (Nat.zero_add _))

/-- The marker of a struct is kept for its name, which stands before its keyword. -/
theorem Calls.marker_mem {name : Ident} {env₁ : Env} {ts₁ : List Token}
    (h : Calls k env₁ ts₁ (.structDef name) env ts) :
    membersMarker name.name ∈ Token.keptTexts ts₁ := by
  cases h
  exact List.mem_cons_of_mem _ (List.mem_append_left _ (List.mem_singleton_self _))

theorem Reaches.marker_mem {name : Ident}
    (h : Reaches .program ⟨eof, .start⟩ all (.structDef name) env ts) :
    membersMarker name.name ∈ Token.keptTexts all := by
  obtain heq | ⟨⟨k₁, env₁, ts₁⟩, hbefore, hcall⟩ := Relation.ReflTransGen.cases_tail h
  · cases heq
  · have hsuffix : ts₁ <:+ all := (Reaches.sound hbefore (Sound.start eof all)).suffix
    exact Token.keptTexts_subset_of_suffix hsuffix (Calls.marker_mem hcall)

theorem Reaches.inBounds (hscan : tokenize src = .ok all) (hsmall : byteLength src.toList < 2 ^ 32)
    (h : Reaches .program ⟨Text.endSpan src, .start⟩ all k env ts) : k.InBounds src all env ts := by
  have hsound := h.sound (Sound.start _ all)
  have hplaced := tokenize_placed hscan
  have hlen := tokenize_length_le hscan
  have hts : ∀ t ∈ ts, t.Placed src := fun t ht => hplaced t (hsound.suffix.subset ht)
  refine ⟨hts, fun _ => identifier_text hts, fun t ht name hname => ?_, ?_, ?_, ?_⟩
  · exact List.mem_append_right _ (Token.mem_keptTexts (hsound.suffix.subset ht) hname)
  · rintro name rfl
    exact List.mem_append_right _ h.marker_mem
  · exact (hsound.room.mono (Nat.le_add_right _ _)).of_le (by omega)
  · exact fun s hs => Nat.lt_of_le_of_lt (hsound.spans_end hscan s hs) hsmall

end Grammar

section Walks

variable {src : String} {ts : List Token} {p q : Program} {ws : List (Located Warning)}

/-- A program opens no more scopes than its text has bytes, and takes four numbers for each of them
at most. -/
theorem Program.affords (hscan : tokenize src = .ok ts)
    (hread : Program.ofTokens (Text.endSpan src) ts = .ok p) :
    Stmt.totalWeight p ≤ byteLength src.toList ∧
      Stmt.totalOutlay p ≤ 4 * byteLength src.toList := by
  obtain ⟨_, hparses⟩ := Grammar.program_parses _ ts hread
  obtain ⟨hweight, houtlay⟩ := hparses.affords
  have hlen := tokenize_length_le hscan
  simp only [List.length_nil] at hweight houtlay
  omega

theorem Check.Reaches.inBounds (hscan : tokenize src = .ok ts)
    (hread : Program.ofTokens (Text.endSpan src) ts = .ok p)
      (hsmall : byteLength src.toList < 2 ^ 32)
    {t : Check.Task} {st : Check.State} (h : Check.Reaches (.stmts p) .start t st) :
    st.names.HasRoom (2 ^ 32) t.weight := by
  obtain ⟨hweight, -⟩ := Program.affords hscan hread
  refine h.hasRoom ((ScopeTable.HasRoom.start (fun _ => ()) (Stmt.totalWeight p)).of_le ?_)
  omega

namespace Lowering

/-- What lowering finds where it comes to `t`. A definition at the top level leaves the function of
the top-level statements alone, and all that it calls on stands in a function of its own. That
function has a block that is last. Of registers, blocks and functions less than 2 ^ 32 are numbered
if `src` is below one GiB. -/
structure Task.InBounds (src : String) (t : Task) (st : State) : Prop where
  scopes : st.names.HasRoom (2 ^ 32) t.weight
  numbers : st.numbers ≤ 4 * byteLength src.toList + 2
  block : st.current.blocks.getLast? = some st.current.block
  params : ∀ sig body s, t = .stmt (.fnDef sig body s) → sig.params.length < 2 ^ 32
  apart : ∀ s ss, t = .topLevel (s :: ss) → s.isDefinition → Indifferent (Lowering.stmt s) st
  inside : ∀ s ss, t = .topLevel (s :: ss) → s.isDefinition → ∀ t' st',
    Reaches (.stmt s) st t' st' → (t' = .stmt s ∧ st' = st) ∨ st'.enclosing ≠ []

theorem Reaches.inBounds (hacc : Accepted src ts p q ws) (hsmall : byteLength src.toList < 2 ^ 32)
    {name : String} {t : Task} {st : State} (h : Reaches (.topLevel q) (.start name) t st) :
    t.InBounds src st := by
  obtain ⟨_, hpasses, -⟩ := Program.check_eq_ok.mp hacc.check
  obtain ⟨hweight, houtlay⟩ := Program.affords hacc.scan hacc.read
  obtain ⟨hsame, hsame'⟩ : Stmt.totalWeight q = Stmt.totalWeight p ∧
    Stmt.totalOutlay q = Stmt.totalOutlay p := hpasses.retains
  rw [← hsame] at hweight
  have hroom : st.names.HasRoom (2 ^ 32) t.weight := by
    have hstart : (State.start name).names.HasRoom (Stmt.totalWeight q + 1) (Stmt.totalWeight q) :=
      .start (fun f =>
        Handle.func f.name (preludeParams f) (preludeRet f) f.attributes.isVariadic) _
    exact h.hands.room _ (hstart.of_le (by omega))
  refine ⟨hroom, ?_, List.getLast?_concat, ?_, ?_, ?_⟩
  · have hnumbers : st.numbers + t.outlay ≤ 2 + Stmt.totalOutlay q := h.outlay_le
    omega
  · rintro sig body s rfl
    have hle := hroom.room
    simp only [Task.weight, Stmt.weight] at hle
    omega
  · rintro s ss rfl hs
    exact stmt_indifferent hs st
  · rintro s ss rfl hs t' st' h'
    exact h'.in_function hs

end Lowering

end Walks

/-- In every pass over a source, whatever is asked for is there. -/
structure InBounds (file src : String) : Prop where
  promises : ∀ emit b, b.isPanic → (compile file emit src = .error (.breach b) ↔
    b = .tooWide ∧ emit = .tree ∧ TooDeep src)
  cuts : ∀ here c cs, Scans src here (c :: cs) → (cut c cs).Legible src here
  comments : ∀ here cs depth cs', Scans src here ('/' :: '*' :: cs) → Comments cs depth cs' →
    depth + 1 < 2 ^ 32
  positions : ∀ before after, src.toList = before ++ after →
    (after ≠ [] ∨ byteLength src.toList < 2 ^ 32 - 1) →
    (Position.start.after before).line < 2 ^ 32 ∧ (Position.start.after before).column < 2 ^ 32
  ends : (Text.endPosition src).line < 2 ^ 32 ∧ (Text.endPosition src).column < 2 ^ 32
  spans : ∀ ts s, tokenize src = .ok ts → Token.MakeSpan (Text.endSpan src) ts s → s.hi < 2 ^ 32
  handles : ∀ ts xs x ys, tokenize src = .ok ts → xs ++ x :: ys ⊆ Token.texts ts →
    (NamePool.empty.internAll (xs ++ x :: ys)).get?
      ((NamePool.empty.internAll xs).intern x).1 = some x ∧
      0 < ((NamePool.empty.internAll xs).intern x).1.number ∧
      ((NamePool.empty.internAll xs).intern x).1.number < 2 ^ 32
  reading : ∀ ts k env ts', tokenize src = .ok ts →
    Grammar.Reaches .program ⟨Text.endSpan src, .start⟩ ts k env ts' → k.InBounds src ts env ts'
  checking : ∀ ts p t st, tokenize src = .ok ts → Program.ofTokens (Text.endSpan src) ts = .ok p →
    Check.Reaches (.stmts p) .start t st → st.names.HasRoom (2 ^ 32) t.weight
  lowering : ∀ ts p q ws t st, Accepted src ts p q ws →
    Lowering.Reaches (.topLevel q) (.start (moduleName file)) t st → t.InBounds src st
  writing : ∀ s : Stmt, (∀ e sp, s ≠ .expr e sp) → ∀ depth,
    ∃ text rest, s.outline depth = ⟨depth, text⟩ :: rest

/-- A struct, a string of two bytes, a nested function, a comment and a statement at the top
level. -/
def boundsText : String :=
  "P : struct \x7b n: i32; \x7d\n" ++
  "f : fn i32 (a: i32) \x7b g : fn i32 () \x7b return 1; \x7d return a + g(); \x7d\n" ++
  "printf('é', f(2)); // end"

end Frontend
