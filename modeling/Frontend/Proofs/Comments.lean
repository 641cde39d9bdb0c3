import Frontend.Proofs.Tiling

/-!
Block comments by their grammar: a comment is opened, holds comments and plain characters by turns,
and is closed. The scanner counts the comments that are open where the grammar nests, and it stops
where the grammar has a comment for the first time.
-/
namespace Frontend

/-- What a comment may hold. A character is judged with what follows it up to the close of the
comment. -/
inductive CommentBody : List Char → Prop where
  | nil : CommentBody []
  | comment {inner body} : CommentBody inner → CommentBody body →
      CommentBody ('/' :: '*' :: (inner ++ '*' :: '/' :: body))
  | char {c body} : ¬ ['/', '*'] <+: c :: (body ++ ['*', '/']) →
      ¬ ['*', '/'] <+: c :: (body ++ ['*', '/']) → CommentBody body → CommentBody (c :: body)

def Comment (text : List Char) : Prop :=
  ∃ body, CommentBody body ∧ text = '/' :: '*' :: (body ++ ['*', '/'])

section Grammar

variable {depth : Nat} {cs : List Char}

theorem cons_prefix_close {a b c : Char} (body tail : List Char) :
    [a, b] <+: c :: (body ++ '*' :: '/' :: tail) ↔ [a, b] <+: c :: (body ++ ['*', '/']) := by
  cases body <;> simp

/-- With a comment's body in front, as many comments are closed as before. -/
theorem CommentBody.closes {body tail : List Char} (hbody : CommentBody body)
    (h : Closes depth ('*' :: '/' :: tail)) : Closes depth (body ++ '*' :: '/' :: tail) := by
  induction hbody generalizing depth tail with
  | nil => exact h
  | comment _ _ ih ih' =>
    rw [List.cons_append, List.cons_append, List.append_assoc]
    exact .enter (ih (.leave (ih' h)))
  | @char c body hopen hclose _ ih =>
    rw [← cons_prefix_close body tail] at hopen hclose
    exact .skip hopen hclose (ih h)

/-- What closes a comment, and the ones around it, is as many bodies, each with a close after it. -/
theorem Closes.bodies (h : Closes depth cs) :
    ∃ bodies : List (List Char), bodies.length = depth + 1 ∧
    (∀ body ∈ bodies, CommentBody body) ∧ cs = bodies.flatMap (· ++ ['*', '/']) := by
  induction h with
  | close => exact ⟨[[]], rfl, by simp [CommentBody.nil], rfl⟩
  | leave _ ih =>
    obtain ⟨bodies, hlength, hbodies, rfl⟩ := ih
    exact ⟨[] :: bodies, by simp [hlength], List.forall_mem_cons.mpr ⟨.nil, hbodies⟩, rfl⟩
  | enter _ ih =>
    obtain ⟨bodies, hlength, hbodies, rfl⟩ := ih
    match bodies with
    | inner :: body :: bodies =>
      obtain ⟨hinner, hbodies⟩ := List.forall_mem_cons.mp hbodies
      obtain ⟨hbody, hbodies⟩ := List.forall_mem_cons.mp hbodies
      refine ⟨('/' :: '*' :: (inner ++ '*' :: '/' :: body)) :: bodies, by simpa using hlength,
        ?_, by simp⟩
      exact List.forall_mem_cons.mpr ⟨.comment hinner hbody, hbodies⟩
  | @skip depth c cs hopen hclose _ ih =>
    obtain ⟨bodies, hlength, hbodies, rfl⟩ := ih
    match bodies with
    | body :: bodies =>
      obtain ⟨hbody, hbodies⟩ := List.forall_mem_cons.mp hbodies
      rw [List.flatMap_cons, List.append_assoc, List.cons_append, List.singleton_append,
        cons_prefix_close] at hopen hclose
      exact ⟨(c :: body) :: bodies, hlength,
        List.forall_mem_cons.mpr ⟨.char hopen hclose hbody, hbodies⟩, rfl⟩

/-- Counting and nesting agree. -/
theorem closes_iff_comment : Closes 0 cs ↔ Comment ('/' :: '*' :: cs) := by
  constructor
  · intro h
    obtain ⟨bodies, hlength, hbodies, rfl⟩ := h.bodies
    obtain ⟨body, rfl⟩ := List.length_eq_one_iff.mp hlength
    exact ⟨body, hbodies body List.mem_cons_self, by simp⟩
  · rintro ⟨body, hbody, heq⟩
    obtain rfl : cs = body ++ ['*', '/'] := by simpa using heq
    exact hbody.closes .close

end Grammar

/-- What `front` adds to an opening is a comment, and no shorter start of `cs` does so. -/
structure Completes (front cs : List Char) : Prop where
  start : front <+: cs
  comment : Comment ('/' :: '*' :: front)
  shortest : ∀ other, other <+: cs → Comment ('/' :: '*' :: other) → front.length ≤ other.length

theorem blockComment_completes {cs front : List Char} (hstart : front <+: cs)
    (hfront : Comment ('/' :: '*' :: front)) : (blockComment 0 cs).1 = front := by
  obtain ⟨rest, rfl⟩ := hstart
  rw [(closes_iff_comment.mpr hfront).blockComment]

/-- After an opening, the shortest text that completes a comment is skipped, or all of it if none
does. The scanner goes on behind it: by so many bytes, on the line and in the column that its
characters lead to. -/
theorem blockComment_skips (here : Place) (cs : List Char) :
    ∃ skipped rest, blockComment 0 cs = (skipped, rest) ∧ skipped ++ rest = cs ∧
      (Completes skipped cs ∨
        (∀ front, front <+: cs → ¬ Comment ('/' :: '*' :: front)) ∧ skipped = cs) ∧
      scanFrom here ('/' :: '*' :: cs) = scanFrom
        ⟨here.offset + 2 + byteLength skipped, here.pos.line + skipped.count '\n',
          if '\n' ∈ skipped then 1 + (skipped.reverse.takeWhile (· ≠ '\n')).length
          else here.pos.column + 2 + skipped.length⟩ rest := by
  have happend := blockComment_append 0 cs
  refine ⟨_, _, rfl, happend, ?_, ?_⟩
  · by_cases hsome : ∃ front, front <+: cs ∧ Comment ('/' :: '*' :: front)
    · obtain ⟨front, hstart, hfront⟩ := hsome
      rw [blockComment_completes hstart hfront]
      refine .inl ⟨hstart, hfront, fun other hother hcomment => ?_⟩
      -- Whatever completes a comment is what is skipped.
      rw [← blockComment_completes hstart hfront, blockComment_completes hother hcomment]
    · push Not at hsome
      refine .inr ⟨hsome, ?_⟩
      obtain hcloses | hrest := blockComment_closes 0 cs
      · exact absurd (closes_iff_comment.mp hcloses) (hsome _ ⟨_, happend⟩)
      · rwa [hrest, List.append_nil] at happend
  · have hbytes : byteLength ('/' :: '*' :: (blockComment 0 cs).1) =
        2 + byteLength (blockComment 0 cs).1 := (Nat.add_assoc 1 1 _).symm
    rw [scanFrom_skip (by rw [cut_block]; rfl), cut_block, cutBlank, Place.after, hbytes,
      Position.after_cons, Position.after_cons, Position.after_eq, Nat.add_assoc here.offset]
    rfl

end Frontend
