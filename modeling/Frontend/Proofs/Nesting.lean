import Frontend.Proofs.Extents
import Frontend.Proofs.Relocation

/-!
How the spans of a tree lie. The layout of a tree is the tree of its spans, those of names among
them, in the order of the text. Where each span runs from its first to its last token, it holds
those of its parts, the parts follow each other without overlap, and all start where tokens start.
-/
namespace Frontend

inductive Layout where
  | node (span : Span) (parts : List Layout)

namespace Layout

def span : Layout → Span
  | .node s _ => s

mutual

def spans : Layout → List Span
  | .node s parts => s :: allSpans parts

def allSpans : List Layout → List Span
  | [] => []
  | l :: ls => l.spans ++ allSpans ls

end

mutual

/-- Each span runs from its first to its last token, those of parts over tokens of the whole. -/
def Fits : Layout → List Token → List Token → Prop
  | .node s parts, ts, rest => s.Stretches ts rest ∧ AllFit parts ts rest

/-- One after the other, not always without tokens between them. -/
def AllFit : List Layout → List Token → List Token → Prop
  | [], ts, rest => rest <:+ ts
  | l :: ls, ts, rest => ∃ start mid, start <:+ ts ∧ l.Fits start mid ∧ AllFit ls mid rest

end

/-- The spans are in the order of the text and do not overlap. -/
def Apart (ls : List Layout) : Prop := ls.Pairwise fun l l' => l.span.hi ≤ l'.span.lo

mutual

/-- Every span holds those of its parts, and the parts are apart. -/
def Nested : Layout → Prop
  | .node s parts =>
    (∀ l ∈ parts, s.lo ≤ l.span.lo ∧ l.span.hi ≤ s.hi) ∧ Apart parts ∧ AllNested parts

def AllNested : List Layout → Prop
  | [] => True
  | l :: ls => l.Nested ∧ AllNested ls

end

end Layout

namespace Span.Stretches

variable {s s' : Span} {ts start mid rest : List Token}

/-- What stretches over tokens of the whole lies inside it. -/
theorem holds (hts : InOrder ts) (h : s.Stretches ts rest) (hstart : start <:+ ts)
    (h' : s'.Stretches start mid) (hrest : rest <:+ mid) : s.lo ≤ s'.lo ∧ s'.hi ≤ s.hi := by
  obtain ⟨first, last, hfirst, hlast, hlo, -, hhi⟩ := h
  obtain ⟨first', last', hfirst', hlast', hlo', -, hhi'⟩ := h'
  have hle : ∀ t : Token, t.span.lo ≤ t.span.hi := fun t => Nat.le_add_right _ _
  constructor
  · obtain ⟨tail, rfl⟩ : ∃ tail, ts = first :: tail := List.head?_eq_some_iff.mp hfirst
    obtain ⟨tail', rfl⟩ : ∃ tail', start = first' :: tail' := List.head?_eq_some_iff.mp hfirst'
    rw [hlo, hlo']
    obtain heq | hstart := List.suffix_cons_iff.mp hstart
    · obtain ⟨rfl, -⟩ := List.cons.inj heq
      exact Nat.le_refl _
    · exact Nat.le_trans (hle first)
        (List.rel_of_pairwise_cons hts (hstart.subset List.mem_cons_self))
  · have hlast'' := hlast'.trans hstart
    rw [hhi, hhi']
    obtain hlt | heq := Nat.lt_or_eq_of_le hrest.length_le
    · have hmem : last ∈ mid := (List.suffix_of_suffix_length_le hlast
        ((List.suffix_cons last' mid).trans hlast'') hlt).subset List.mem_cons_self
      exact Nat.le_trans (List.rel_of_pairwise_cons (hts.suffix hlast'') hmem) (hle last)
    · obtain rfl := hrest.eq_of_length heq
      have hsame := (List.suffix_of_suffix_length_le hlast hlast'' (Nat.le_refl _)).eq_of_length rfl
      obtain ⟨rfl, -⟩ := List.cons.inj hsame
      exact Nat.le_refl _

theorem before (hts : InOrder ts) (h : s.Stretches ts mid) (hstart : start <:+ mid)
    (h' : s'.Stretches start rest) : s.hi ≤ s'.lo := by
  obtain ⟨-, last, -, hlast, -, -, hhi⟩ := h
  obtain ⟨first', -, hfirst', -, hlo', -⟩ := h'
  rw [hhi, hlo']
  exact List.rel_of_pairwise_cons (hts.suffix hlast)
    (hstart.subset (List.mem_of_head? hfirst'))

end Span.Stretches

namespace Layout

variable {l : Layout} {ls : List Layout} {ts mid rest : List Token}

theorem Fits.stretches (h : l.Fits ts rest) : l.span.Stretches ts rest := by
  cases l
  exact h.1

theorem AllFit.suffix (h : AllFit ls ts rest) : rest <:+ ts := by
  induction ls generalizing ts with
  | nil => exact h
  | cons l ls ih =>
    obtain ⟨start, mid, hstart, hl, hls⟩ := h
    exact (ih hls).trans (hl.stretches.rest.trans hstart)

/-- Parts may be looked for from further left. -/
theorem AllFit.widen {all : List Token} (h : AllFit ls ts rest) (hts : ts <:+ all) :
    AllFit ls all rest := by
  cases ls with
  | nil => exact h.trans hts
  | cons l ls =>
    obtain ⟨start, mid, hstart, h⟩ := h
    exact ⟨start, mid, hstart.trans hts, h⟩

/-- Parts may end further left. -/
theorem AllFit.lengthen (h : AllFit ls ts mid) (hrest : rest <:+ mid) : AllFit ls ts rest := by
  induction ls generalizing ts with
  | nil => exact hrest.trans h
  | cons l ls ih =>
    obtain ⟨start, mid', hstart, hl, hls⟩ := h
    exact ⟨start, mid', hstart, hl, ih hls⟩

theorem AllFit.append {ls' : List Layout} (h : AllFit ls ts mid) (h' : AllFit ls' mid rest) :
    AllFit (ls ++ ls') ts rest := by
  induction ls generalizing ts with
  | nil => exact h'.widen h
  | cons l ls ih =>
    obtain ⟨start, mid', hstart, hl, hls⟩ := h
    exact ⟨start, mid', hstart, hl, ih hls⟩

theorem AllFit.stretches (h : AllFit ls ts rest) :
    ∀ l ∈ ls, ∃ start mid, start <:+ ts ∧ l.span.Stretches start mid ∧ rest <:+ mid := by
  induction ls generalizing ts with
  | nil => simp
  | cons l ls ih =>
    obtain ⟨start, mid, hstart, hl, hls⟩ := h
    have hmid := hl.stretches.rest.trans hstart
    intro l' hl'
    rcases List.mem_cons.mp hl' with rfl | hl'
    · exact ⟨start, mid, hstart, hl.stretches, hls.suffix⟩
    · obtain ⟨start', mid', hstart', h'⟩ := ih hls l' hl'
      exact ⟨start', mid', hstart'.trans hmid, h'⟩

theorem AllFit.apart (hts : InOrder ts) (h : AllFit ls ts rest) : Apart ls := by
  induction ls generalizing ts with
  | nil => exact .nil
  | cons l ls ih =>
    obtain ⟨start, mid, hstart, hl, hls⟩ := h
    have hmid := hl.stretches.rest.trans hstart
    refine .cons (fun l' hl' => ?_) (ih (hts.suffix hmid) hls)
    obtain ⟨start', mid', hstart', hl'', -⟩ := hls.stretches l' hl'
    exact hl.stretches.before (hts.suffix hstart) hstart' hl''

mutual

theorem Fits.nested {l : Layout} {ts rest : List Token} (hts : InOrder ts) (h : l.Fits ts rest) :
    l.Nested := by
  cases l with
  | node s parts =>
    obtain ⟨hs, hparts⟩ := h
    refine ⟨fun l hl => ?_, hparts.apart hts, hparts.nested hts⟩
    obtain ⟨start, mid, hstart, hl, hrest⟩ := hparts.stretches l hl
    exact hs.holds hts hstart hl hrest

theorem AllFit.nested {ls : List Layout} {ts rest : List Token} (hts : InOrder ts)
    (h : AllFit ls ts rest) : AllNested ls := by
  cases ls with
  | nil => trivial
  | cons l ls =>
    obtain ⟨start, mid, hstart, hl, hls⟩ := h
    exact ⟨hl.nested (hts.suffix hstart),
      hls.nested (hts.suffix (hl.stretches.rest.trans hstart))⟩

end

mutual

/-- All spans start at tokens. -/
theorem Fits.starts {l : Layout} {ts rest : List Token} (h : l.Fits ts rest) :
    ∀ s ∈ l.spans, ∃ t ∈ ts, s.lo = t.span.lo ∧ s.pos = t.span.pos := by
  cases l with
  | node s parts =>
    obtain ⟨⟨first, last, hfirst, -, hlo, hpos, -⟩, hparts⟩ := h
    intro s' hs'
    rcases List.mem_cons.mp hs' with rfl | hs'
    · exact ⟨first, List.mem_of_head? hfirst, hlo, hpos⟩
    · exact hparts.starts s' hs'

theorem AllFit.starts {ls : List Layout} {ts rest : List Token} (h : AllFit ls ts rest) :
    ∀ s ∈ allSpans ls, ∃ t ∈ ts, s.lo = t.span.lo ∧ s.pos = t.span.pos := by
  cases ls with
  | nil => simp [allSpans]
  | cons l ls =>
    obtain ⟨start, mid, hstart, hl, hls⟩ := h
    have hmid := hl.stretches.rest.trans hstart
    intro s hs
    rcases List.mem_append.mp hs with hs | hs
    · obtain ⟨t, ht, hst⟩ := hl.starts s hs
      exact ⟨t, hstart.subset ht, hst⟩
    · obtain ⟨t, ht, hst⟩ := hls.starts s hs
      exact ⟨t, hmid.subset ht, hst⟩

end

end Layout

def Ident.layout (id : Ident) : Layout := .node id.span []

mutual

def Expr.layout : Expr → Layout
  | .literal _ _ s => .node s []
  | .ident id => id.layout
  | .paren inner s => .node s [inner.layout]
  | .unary _ operand s => .node s [operand.layout]
  | .binary _ lhs rhs s => .node s [lhs.layout, rhs.layout]
  | .cast operand _ s => .node s [operand.layout]
  | .call callee args s => .node s (callee.layout :: Expr.layouts args)
  | .member object field _ s => .node s [object.layout, field.layout]

def Expr.layouts : List Expr → List Layout
  | [] => []
  | e :: es => e.layout :: Expr.layouts es

end

def Signature.layouts (sig : Signature) : List Layout :=
  sig.name.layout :: sig.params.map (·.name.layout)

def Expr.layout? (e : Option Expr) : List Layout := (e.map Expr.layout).toList

mutual

def Stmt.layout : Stmt → Layout
  | .varDef name _ init s => .node s (name.layout :: Expr.layout? init)
  | .structDef name members s => .node s (name.layout :: members.map (·.name.layout))
  | .fnDef sig body s => .node s (sig.layouts ++ Stmt.layouts body)
  | .fnDecl sig s => .node s sig.layouts
  | .varSet target value s => .node s [target.layout, value.layout]
  | .memberSet target value s => .node s [target.layout, value.layout]
  | .expr e s => .node s [e.layout]
  | .return_ value s => .node s (Expr.layout? value)
  | .break_ s => .node s []
  | .for_ cond body s => .node s (cond.layout :: Stmt.layouts body)
  | .if_ cond body otherwise s =>
    .node s (cond.layout :: (Stmt.layouts body ++ otherwise.layouts))
  | .block body s => .node s (Stmt.layouts body)

def Alternative.layouts : Alternative → List Layout
  | .none => []
  | .else_ body => Stmt.layouts body
  | .elif cond body otherwise => cond.layout :: (Stmt.layouts body ++ otherwise.layouts)

def Stmt.layouts : List Stmt → List Layout
  | [] => []
  | s :: ss => s.layout :: Stmt.layouts ss

end

section Spans

theorem Ident.allSpans_layout (ps : List Param) :
    Layout.allSpans (ps.map (·.name.layout)) = ps.map (·.name.span) := by
  induction ps with
  | nil => rfl
  | cons p ps ih => exact congrArg (p.name.span :: ·) ih

mutual

theorem Expr.spans_layout (e : Expr) : e.layout.spans = e.spans := by
  cases e with
  | literal | ident => rfl
  | paren inner | unary _ inner | cast inner =>
    simp [Expr.layout, Expr.spans, Layout.spans, Layout.allSpans, Expr.spans_layout inner]
  | binary op lhs rhs =>
    simp [Expr.layout, Expr.spans, Layout.spans, Layout.allSpans, Expr.spans_layout lhs,
      Expr.spans_layout rhs]
  | call callee args =>
    simp [Expr.layout, Expr.spans, Layout.spans, Layout.allSpans, Expr.spans_layout callee,
      Expr.allSpans_layouts args]
  | member object field =>
    simp [Expr.layout, Expr.spans, Layout.spans, Layout.allSpans, Expr.spans_layout object,
      Ident.layout]

theorem Expr.allSpans_layouts (es : List Expr) :
    Layout.allSpans (Expr.layouts es) = Expr.allSpans es := by
  cases es with
  | nil => rfl
  | cons e es =>
    simp [Expr.layouts, Expr.allSpans, Layout.allSpans, Expr.spans_layout e,
      Expr.allSpans_layouts es]

end

theorem Layout.allSpans_append (ls ls' : List Layout) :
    allSpans (ls ++ ls') = allSpans ls ++ allSpans ls' := by
  induction ls with
  | nil => rfl
  | cons l ls ih => simp [allSpans, ih]

theorem Expr.allSpans_layout? (e : Option Expr) :
    Layout.allSpans (Expr.layout? e) = (e.map Expr.spans).getD [] := by
  cases e with
  | none => rfl
  | some e => simp [Expr.layout?, Layout.allSpans, Expr.spans_layout]

theorem Signature.allSpans_layouts (sig : Signature) : Layout.allSpans sig.layouts = sig.spans :=
  congrArg (sig.name.span :: ·) (Ident.allSpans_layout sig.params)

mutual

theorem Stmt.spans_layout (s : Stmt) : s.layout.spans = s.spans := by
  cases s with
  | varDef name ty init =>
    simp [Stmt.layout, Stmt.spans, Layout.spans, Layout.allSpans, Ident.layout,
      Expr.allSpans_layout?]
  | structDef name members =>
    change _ :: name.span :: Layout.allSpans (members.map (·.name.layout)) = _
    rw [Ident.allSpans_layout, Stmt.spans]
  | fnDef sig body =>
    simp [Stmt.layout, Stmt.spans, Layout.spans, Layout.allSpans_append, Signature.allSpans_layouts,
      Stmt.allSpans_layouts body]
  | fnDecl sig => simp [Stmt.layout, Stmt.spans, Layout.spans, Signature.allSpans_layouts]
  | varSet target value =>
    simp [Stmt.layout, Stmt.spans, Layout.spans, Layout.allSpans, Ident.layout, Expr.spans_layout]
  | memberSet target value =>
    simp [Stmt.layout, Stmt.spans, Layout.spans, Layout.allSpans, Expr.spans_layout]
  | expr e => simp [Stmt.layout, Stmt.spans, Layout.spans, Layout.allSpans, Expr.spans_layout]
  | return_ value => simp [Stmt.layout, Stmt.spans, Layout.spans, Expr.allSpans_layout?]
  | break_ => rfl
  | for_ cond body =>
    simp [Stmt.layout, Stmt.spans, Layout.spans, Layout.allSpans, Expr.spans_layout,
      Stmt.allSpans_layouts body]
  | if_ cond body otherwise =>
    simp [Stmt.layout, Stmt.spans, Layout.spans, Layout.allSpans, Layout.allSpans_append,
      Expr.spans_layout, Stmt.allSpans_layouts body, Alternative.allSpans_layouts otherwise]
  | block body => simp [Stmt.layout, Stmt.spans, Layout.spans, Stmt.allSpans_layouts body]

theorem Alternative.allSpans_layouts (a : Alternative) : Layout.allSpans a.layouts = a.spans := by
  cases a with
  | none => rfl
  | else_ body => simp [Alternative.layouts, Alternative.spans, Stmt.allSpans_layouts body]
  | elif cond body otherwise =>
    simp [Alternative.layouts, Alternative.spans, Layout.allSpans, Layout.allSpans_append,
      Expr.spans_layout, Stmt.allSpans_layouts body, Alternative.allSpans_layouts otherwise]

theorem Stmt.allSpans_layouts (ss : List Stmt) :
    Layout.allSpans (Stmt.layouts ss) = Stmt.allSpans ss := by
  cases ss with
  | nil => rfl
  | cons s ss =>
    simp [Stmt.layouts, Stmt.allSpans, Layout.allSpans, Stmt.spans_layout s,
      Stmt.allSpans_layouts ss]

end

end Spans

section Standing

variable {ts mid rest : List Token}

theorem Ident.Names.fits {id : Ident} {t : Token} (h : id.Names t) (rest : List Token) :
    id.layout.Fits (t :: rest) rest := by
  refine ⟨?_, List.suffix_cons t rest⟩
  rw [h.2]
  exact .token t rest

mutual

theorem Expr.Stands.fits {e : Expr} {ts rest : List Token} (h : e.Stands .placed ts rest) :
    e.layout.Fits ts rest := by
  have hspan : e.span.Stretches ts rest := h.span
  cases e with
  | literal | ident => exact ⟨hspan, h.rest⟩
  | paren inner =>
    obtain ⟨l, r, mid, rfl, -, hinner, -⟩ := h
    exact ⟨hspan, mid, _, List.suffix_cons l mid, hinner.fits, List.suffix_cons r rest⟩
  | unary op operand =>
    obtain ⟨t, mid, rfl, -, hoperand, -⟩ := h
    exact ⟨hspan, mid, _, List.suffix_cons t mid, hoperand.fits, List.suffix_rfl⟩
  | binary op lhs rhs =>
    obtain ⟨t, mid, hlhs, -, hrhs, -⟩ := h
    exact ⟨hspan, ts, _, List.suffix_rfl, hlhs.fits, mid, _, List.suffix_cons t mid, hrhs.fits,
      List.suffix_rfl⟩
  | cast operand =>
    obtain ⟨t, mid, hoperand, -, hty, -⟩ := h
    exact ⟨hspan, ts, _, List.suffix_rfl, hoperand.fits,
      (Manner.placed.type_rest hty).trans (List.suffix_cons t mid)⟩
  | call callee args =>
    obtain ⟨l, r, mid, hcallee, -, hargs, -⟩ | ⟨rfl, hcallee, -⟩ := h
    · exact ⟨hspan, ts, _, List.suffix_rfl, hcallee.fits,
        (hargs.fit.lengthen (List.suffix_cons r rest)).widen (List.suffix_cons l mid)⟩
    · exact ⟨hspan, ts, _, List.suffix_rfl, hcallee.fits, List.suffix_rfl⟩
  | member object field =>
    obtain ⟨t, i, hobject, -, hi, hfield, -⟩ := h
    have hnames : field.Names i := ⟨hi, hfield.unique (.token i rest)⟩
    exact ⟨hspan, ts, _, List.suffix_rfl, hobject.fits, i :: rest, _, List.suffix_cons t _,
      hnames.fits rest, List.suffix_rfl⟩

theorem Expr.AllStand.fit {es : List Expr} {ts rest : List Token}
    (h : Expr.AllStand .placed es ts rest) : Layout.AllFit (Expr.layouts es) ts rest := by
  cases es with
  | nil =>
    obtain rfl : ts = rest := h
    exact List.suffix_rfl
  | cons e es =>
    obtain ⟨rfl, he⟩ | ⟨c, mid, he, -, hes⟩ := h
    · exact ⟨ts, rest, List.suffix_rfl, he.fits, List.suffix_rfl⟩
    · exact ⟨ts, _, List.suffix_rfl, he.fits, hes.fit.widen (List.suffix_cons c mid)⟩

end

theorem Expr.MayStand.fit {e : Option Expr} (h : Expr.MayStand e ts rest) :
    Layout.AllFit (Expr.layout? e) ts rest := by
  cases e with
  | none =>
    obtain rfl : ts = rest := h
    exact List.suffix_rfl
  | some e =>
    have he : e.Stands .placed ts rest := h
    exact ⟨ts, rest, List.suffix_rfl, he.fits, List.suffix_rfl⟩

theorem Expr.MayFollow.fit {e : Option Expr} (h : Expr.MayFollow e ts rest) :
    Layout.AllFit (Expr.layout? e) ts rest := by
  cases e with
  | none =>
    obtain rfl : ts = rest := h
    exact List.suffix_rfl
  | some e =>
    obtain ⟨a, mid, rfl, -, he⟩ := h
    exact ⟨mid, rest, List.suffix_cons a mid, he.fits, List.suffix_rfl⟩

/-- A parameter's name, and what comes after its type. -/
theorem Param.Stands.fit {p : Param} {ls : List Layout} (h : p.Stands ts mid)
    (hls : Layout.AllFit ls mid rest) : Layout.AllFit (p.name.layout :: ls) ts rest := by
  obtain ⟨n, c, mid', rfl, hn, -, hty⟩ := h
  exact ⟨_, _, List.suffix_rfl, hn.fits _,
    hls.widen ((Manner.placed.type_rest hty).trans (List.suffix_cons c mid'))⟩

theorem Param.MembersStand.fit {ps : List Param} (h : Param.MembersStand ps ts rest) :
    Layout.AllFit (ps.map (·.name.layout)) ts rest := by
  induction ps generalizing ts with
  | nil =>
    obtain rfl : ts = rest := h
    exact List.suffix_rfl
  | cons p ps ih =>
    obtain ⟨semi, mid, hp, -, hps⟩ := h
    exact hp.fit ((ih hps).widen (List.suffix_cons semi mid))

theorem Param.AllStand.fit {variadic : Bool} {ps : List Param}
    (h : Param.AllStand variadic ps ts rest) : Layout.AllFit (ps.map (·.name.layout)) ts rest := by
  induction ps generalizing ts with
  | nil =>
    cases variadic with
    | true =>
      obtain ⟨dots, rfl, -⟩ := h
      exact List.suffix_cons dots rest
    | false =>
      obtain rfl : ts = rest := h
      exact List.suffix_rfl
  | cons p ps ih =>
    obtain ⟨rfl, -, hp⟩ | ⟨c, mid, hp, -, hps⟩ := h
    · exact hp.fit List.suffix_rfl
    · exact hp.fit ((ih hps).widen (List.suffix_cons c mid))

theorem Signature.Stands.fit {sig : Signature} (h : sig.Stands ts rest) :
    Layout.AllFit sig.layouts ts rest := by
  obtain ⟨n, c, f, mid, mid', rfl, hn, -, -, hret, hparams⟩ := h
  have hmid : mid' <:+ c :: f :: mid := by
    obtain hty | ⟨-, rfl⟩ := hret
    · exact (Manner.placed.type_rest hty).trans ⟨[c, f], rfl⟩
    · exact ⟨[c, f], rfl⟩
  have hfit : Layout.AllFit (sig.params.map (·.name.layout)) mid' rest := by
    obtain ⟨hnone, -, rfl⟩ | ⟨l, r, inner, rfl, -, hps, -⟩ := hparams
    · rw [hnone]
      exact List.suffix_rfl
    · exact (hps.fit.lengthen (List.suffix_cons r rest)).widen (List.suffix_cons l inner)
  exact ⟨_, _, List.suffix_rfl, hn.fits _, hfit.widen hmid⟩

theorem InBraces.fit {inner : List Token → List Token → Prop} {ls : List Layout}
    (h : InBraces inner ts rest) (hinner : ∀ ts rest, inner ts rest → Layout.AllFit ls ts rest) :
    Layout.AllFit ls ts rest := by
  obtain ⟨l, r, mid, rfl, -, hmid, -⟩ := h
  exact ((hinner _ _ hmid).lengthen (List.suffix_cons r rest)).widen (List.suffix_cons l mid)

mutual

theorem Stmt.Stands.fits {s : Stmt} {ts rest : List Token} (h : s.Stands ts rest) :
    s.layout.Fits ts rest := by
  have hspan := h.span
  cases s with
  | varDef name ty init =>
    obtain ⟨-, n, t, semi, mid, rfl, hn, -, hcase⟩ := h
    refine ⟨hspan, _, _, List.suffix_rfl, hn.fits _, ?_⟩
    obtain ⟨mid', -, hty, hinit⟩ | ⟨e, -, rfl, he⟩ := hcase
    · exact (hinit.fit.lengthen (List.suffix_cons semi rest)).widen
        ((Manner.placed.type_rest hty).trans (List.suffix_cons t mid))
    · exact ⟨mid, _, List.suffix_cons t mid, he.fits, List.suffix_cons semi rest⟩
  | structDef name members =>
    obtain ⟨-, n, c, k, mid, rfl, hn, -, -, hmembers⟩ := h
    exact ⟨hspan, _, _, List.suffix_rfl, hn.fits _,
      (hmembers.fit fun _ _ h => Param.MembersStand.fit h).widen ⟨[c, k], rfl⟩⟩
  | fnDef sig body =>
    obtain ⟨-, mid, hsig, hbody⟩ := h
    exact ⟨hspan, hsig.fit.append (hbody.fit fun _ _ h => h.fit)⟩
  | fnDecl sig =>
    obtain ⟨-, semi, hsig, -⟩ := h
    exact ⟨hspan, hsig.fit.lengthen (List.suffix_cons semi rest)⟩
  | varSet target value =>
    obtain ⟨-, n, a, semi, mid, rfl, hn, -, hvalue, -⟩ := h
    exact ⟨hspan, _, _, List.suffix_rfl, hn.fits _, mid, _, List.suffix_cons a mid, hvalue.fits,
      List.suffix_cons semi rest⟩
  | memberSet target value =>
    obtain ⟨-, a, semi, mid, htarget, -, hvalue, -⟩ := h
    exact ⟨hspan, ts, _, List.suffix_rfl, htarget.fits, mid, _, List.suffix_cons a mid, hvalue.fits,
      List.suffix_cons semi rest⟩
  | expr e =>
    obtain ⟨-, semi, he, -⟩ := h
    exact ⟨hspan, ts, _, List.suffix_rfl, he.fits, List.suffix_cons semi rest⟩
  | return_ value =>
    obtain ⟨-, t, semi, mid, rfl, -, hvalue, -⟩ := h
    exact ⟨hspan, (hvalue.fit.lengthen (List.suffix_cons semi rest)).widen (List.suffix_cons t mid)⟩
  | break_ => exact ⟨hspan, hspan.rest⟩
  | for_ cond body =>
    obtain ⟨-, t, mid, mid', rfl, -, hcond, hbody⟩ := h
    exact ⟨hspan, mid, mid', List.suffix_cons t mid, hcond.fits, hbody.fit fun _ _ h => h.fit⟩
  | if_ cond body otherwise =>
    obtain ⟨-, t, mid, mid', after, rfl, -, hcond, hbody, hotherwise⟩ := h
    exact ⟨hspan, mid, mid', List.suffix_cons t mid, hcond.fits,
      (hbody.fit fun _ _ h => h.fit).append hotherwise.fit⟩
  | block body => exact ⟨hspan, h.2.fit fun _ _ h => h.fit⟩

theorem Alternative.Stands.fit {a : Alternative} {ts rest : List Token} (h : a.Stands ts rest) :
    Layout.AllFit a.layouts ts rest := by
  cases a with
  | none =>
    obtain rfl : ts = rest := h
    exact List.suffix_rfl
  | else_ body =>
    obtain ⟨t, mid, rfl, -, hbody⟩ := h
    exact (hbody.fit fun _ _ h => h.fit).widen (List.suffix_cons t mid)
  | elif cond body otherwise =>
    obtain ⟨t, mid, mid', after, rfl, -, hcond, hbody, hotherwise⟩ := h
    exact ⟨mid, mid', List.suffix_cons t mid, hcond.fits,
      (hbody.fit fun _ _ h => h.fit).append hotherwise.fit⟩

theorem Stmt.AllStand.fit {ss : List Stmt} {ts rest : List Token} (h : Stmt.AllStand ss ts rest) :
    Layout.AllFit (Stmt.layouts ss) ts rest := by
  cases ss with
  | nil =>
    obtain rfl : ts = rest := h
    exact List.suffix_rfl
  | cons s ss =>
    obtain ⟨mid, hs, hss⟩ := h
    exact ⟨ts, mid, List.suffix_rfl, hs.fits, hss.fit⟩

end

end Standing

end Frontend
