import MiniJava.Proofs.Token.Lossless

/-!
# Comments

Where the comments of a text are, said without the scanner. A comment begins at a double slash, or
at the opening mark of a block comment that is closed somewhere, unless that place lies in a comment
itself.
-/

namespace MiniJava

open List

variable {c : Char} {cs text rest : List Char}

/-- The text is a comment in front of this rest: a line comment up to a line break or the end, or a
block comment up to the first closing mark. -/
inductive IsComment (rest : List Char) : List Char → Prop
  | line {body : List Char} (hbody : ∀ c ∈ body, ¬ IsLineBreak c)
      (hend : ∀ c ∈ rest.head?, IsLineBreak c) : IsComment rest ('/' :: '/' :: body)
  | block {body : List Char} (hbody : ¬ ['*', '/'] <:+: body ++ ['*']) :
      IsComment rest ('/' :: '*' :: body ++ ['*', '/'])

/-- A comment lies at these bytes of the text, which is read from its beginning: no comment begins
in another one, and none begins behind the opening mark of a block comment that is never closed. -/
inductive CommentAt : List Char → Nat → Nat → Prop
  | here {comment rest : List Char} (hcomment : IsComment rest comment) :
      CommentAt (comment ++ rest) 0 (utf8Length comment)
  | behind {comment rest : List Char} {start stop : Nat} (hcomment : IsComment rest comment)
      (h : CommentAt rest start stop) :
      CommentAt (comment ++ rest) (utf8Length comment + start) (utf8Length comment + stop)
  | past {c : Char} {cs : List Char} {start stop : Nat} (hline : ¬ ['/', '/'] <+: c :: cs)
      (hblock : ¬ ['/', '*'] <+: c :: cs) (h : CommentAt cs start stop) :
      CommentAt (c :: cs) (c.utf8Size + start) (c.utf8Size + stop)

variable {rest' comment body : List Char}

/-- A line comment ends at one place only. -/
theorem lineComment_unique {body' : List Char} (hbody : ∀ c ∈ body, ¬ IsLineBreak c)
    (hend : ∀ c ∈ rest.head?, IsLineBreak c) (hbody' : ∀ c ∈ body', ¬ IsLineBreak c)
    (hend' : ∀ c ∈ rest'.head?, IsLineBreak c) (h : body ++ rest = body' ++ rest') :
    body = body' := by
  induction body generalizing body' with
  | nil =>
    cases body' with
    | nil => rfl
    | cons c =>
      rw [nil_append] at h
      exact absurd (hend c (by rw [h]; rfl)) (hbody' c mem_cons_self)
  | cons c _ ih =>
    obtain ⟨hc, hbody⟩ := forall_mem_cons.mp hbody
    cases body' with
    | nil =>
      rw [nil_append] at h
      exact absurd (hend' c (by rw [← h]; rfl)) hc
    | cons =>
      obtain ⟨rfl, hothers⟩ := cons.inj h
      rw [ih hbody (forall_mem_cons.mp hbody').2 hothers]

/-- A block comment does not end at its first character if that is in front of its first closing
mark. -/
theorem closing_ne_cons (hbody : ¬ ['*', '/'] <:+: c :: body ++ ['*']) :
    '*' :: '/' :: rest ≠ c :: body ++ '*' :: '/' :: rest' := by
  intro h
  obtain ⟨rfl, hothers⟩ := cons.inj h
  cases body with
  | nil => cases hothers
  | cons _ body =>
    obtain ⟨rfl, -⟩ := cons.inj hothers
    exact hbody ⟨[], body ++ ['*'], rfl⟩

/-- A block comment ends at one place only. -/
theorem blockComment_unique {body' : List Char} (hbody : ¬ ['*', '/'] <:+: body ++ ['*'])
    (hbody' : ¬ ['*', '/'] <:+: body' ++ ['*'])
    (h : body ++ '*' :: '/' :: rest = body' ++ '*' :: '/' :: rest') : body = body' := by
  induction body generalizing body' with
  | nil =>
    cases body' with
    | nil => rfl
    | cons => exact absurd h (closing_ne_cons hbody')
  | cons c _ ih =>
    cases body' with
    | nil => exact absurd h.symm (closing_ne_cons hbody)
    | cons =>
      obtain ⟨rfl, hothers⟩ := cons.inj h
      -- A text that does not close a comment has no part that does.
      have hinner : ∀ {ds : List Char}, ¬ ['*', '/'] <:+: c :: ds ++ ['*'] →
          ¬ ['*', '/'] <:+: ds ++ ['*'] := by
        intro _ hds hclosing
        exact hds (hclosing.trans (suffix_cons c _).isInfix)
      rw [ih (hinner hbody) (hinner hbody') hothers]

/-- At most one comment stands at the head of a text. -/
theorem IsComment.unique {comment' : List Char} (h : IsComment rest comment)
    (h' : IsComment rest' comment') (happend : comment ++ rest = comment' ++ rest') :
    comment = comment' ∧ rest = rest' := by
  have hcomment : comment = comment' := by
    cases h with
    | line hbody hend =>
      cases h' with
      | line hbody' hend' =>
        simp only [cons_append, cons.injEq, true_and] at happend
        rw [lineComment_unique hbody hend hbody' hend' happend]
      | block => cases happend
    | block hbody =>
      cases h' with
      | line => cases happend
      | block hbody' =>
        simp only [append_assoc, cons_append, cons.injEq, true_and, nil_append] at happend
        rw [blockComment_unique hbody hbody' happend]
  rw [hcomment] at happend
  exact ⟨hcomment, append_cancel_left happend⟩

theorem IsComment.beginsLayout (h : IsComment rest comment) : BeginsLayout (comment ++ rest) := by
  cases h with
  | line => exact .lineComment
  | @block body => exact .blockComment ⟨body, rest, by simp⟩

/-- These bytes are those of a comment in the text that follows after a number of bytes. -/
def CommentBehind (bytes : Nat) (text : List Char) (start stop : Nat) : Prop :=
  ∃ start' stop', start = bytes + start' ∧ stop = bytes + stop' ∧ CommentAt text start' stop'

theorem CommentBehind.add {bytes more start stop start' stop' : Nat}
    (hstart : start = bytes + start')
    (hstop : stop = bytes + stop') (h : CommentBehind more text start' stop') :
    CommentBehind (bytes + more) text start stop := by
  obtain ⟨a, b, rfl, rfl, hcomment⟩ := h
  exact ⟨a, b, by omega, by omega, hcomment⟩

namespace CommentAt

variable {start stop : Nat}

/-- In a text that begins with a comment, the other comments lie behind that one. -/
theorem of_isComment (hcomment : IsComment rest comment)
    (h : CommentAt (comment ++ rest) start stop) :
    stop ≤ utf8Length comment ∨ CommentBehind (utf8Length comment) rest start stop := by
  generalize htext : comment ++ rest = text at h
  cases h with
  | here hfirst =>
    obtain ⟨rfl, -⟩ := hcomment.unique hfirst htext
    exact .inl (Nat.le_refl _)
  | behind hfirst h =>
    obtain ⟨rfl, rfl⟩ := hcomment.unique hfirst htext
    exact .inr ⟨_, _, rfl, rfl, h⟩
  | past hline hblock =>
    cases hcomment with
    | line => exact absurd ⟨_, htext⟩ hline
    | block =>
      rw [append_assoc] at htext
      exact absurd ⟨_, htext⟩ hblock

/-- In a text that does not begin with a comment, the comments lie behind the first character, and
that is not the first one of an opening mark. -/
theorem of_not_beginsLayout (hc : ¬ BeginsLayout (c :: cs)) (h : CommentAt (c :: cs) start stop) :
    ¬ ['/', '*'] <+: c :: cs ∧ CommentBehind c.utf8Size cs start stop := by
  generalize htext : c :: cs = text at h
  cases h with
  | here hcomment | behind hcomment => exact absurd (htext ▸ hcomment.beginsLayout) hc
  | past _ hblock h =>
    cases htext
    exact ⟨hblock, _, _, rfl, rfl, h⟩

/-- A comment does not begin with a character other than a slash. -/
theorem of_ne_slash (hc : c ≠ '/') (h : CommentAt (c :: cs) start stop) :
    CommentBehind c.utf8Size cs start stop := by
  generalize htext : c :: cs = text at h
  cases h with
  | past _ _ h =>
    cases htext
    exact ⟨_, _, rfl, rfl, h⟩
  | here hcomment | behind hcomment =>
    cases hcomment with
    | line | block =>
      obtain ⟨rfl, -⟩ := cons.inj htext
      exact absurd rfl hc

theorem of_append {ds : List Char} (hds : ∀ d ∈ ds, d ≠ '/')
    (h : CommentAt (ds ++ rest) start stop) : CommentBehind (utf8Length ds) rest start stop := by
  induction ds generalizing start stop with
  | nil => exact ⟨start, stop, (Nat.zero_add _).symm, (Nat.zero_add _).symm, h⟩
  | cons _ _ ih =>
    obtain ⟨hd, hds⟩ := forall_mem_cons.mp hds
    obtain ⟨_, _, hstart, hstop, hothers⟩ := of_ne_slash hd h
    exact .add hstart hstop (ih hds hothers)

variable {gap : List Char}

/-- If the comments behind a first part lie in a gap or behind it, they do so with that part in
front of the gap. -/
theorem le_or_behind {first : List Char}
    (h : CommentBehind (utf8Length first) (gap ++ rest) start stop)
    (hgap : ∀ {start stop : Nat}, CommentAt (gap ++ rest) start stop →
      stop ≤ utf8Length gap ∨ CommentBehind (utf8Length gap) rest start stop) :
    stop ≤ utf8Length (first ++ gap) ∨ CommentBehind
      (utf8Length (first ++ gap)) rest start stop := by
  obtain ⟨_, _, hstart, hstop, hothers⟩ := h
  rw [utf8Length_append]
  rcases hgap hothers with _ | hbehind
  · exact .inl (by omega)
  · exact .inr (.add hstart hstop hbehind)

/-- The comments of a text that begins with layout are in the layout or behind it. -/
theorem of_isLayout (hgap : IsLayout rest gap) (h : CommentAt (gap ++ rest) start stop) :
    stop ≤ utf8Length gap ∨ CommentBehind (utf8Length gap) rest start stop := by
  induction hgap generalizing start stop with
  | nil => exact .inr ⟨start, stop, (Nat.zero_add _).symm, (Nat.zero_add _).symm, h⟩
  | @blank c gap hc _ ih =>
    have hslash : c ≠ '/' := by
      intro hslash
      subst hslash
      exact absurd hc (by decide)
    -- No comment begins with a blank.
    have hbehind : CommentBehind (utf8Length [c]) (gap ++ _) start stop := of_ne_slash hslash h
    exact le_or_behind hbehind ih
  | @lineComment body gap hbody hend _ ih =>
    rw [append_assoc] at h
    rcases of_isComment (.line hbody hend) h with hle | hbehind
    · rw [utf8Length_append]
      exact .inl (Nat.le_add_right_of_le hle)
    · exact le_or_behind hbehind ih
  | @blockComment body gap hbody _ ih =>
    have hparts : '/' :: '*' :: body ++ '*' :: '/' :: gap =
        ('/' :: '*' :: body ++ ['*', '/']) ++ gap := by simp
    rw [hparts, append_assoc] at h
    rw [hparts]
    rcases of_isComment (.block hbody) h with hle | hbehind
    · rw [utf8Length_append _ gap]
      exact .inl (Nat.le_add_right_of_le hle)
    · exact le_or_behind hbehind ih

/-- Only the first character of a lexeme can be a slash, unless the lexeme is an open comment. -/
theorem exists_text_lexeme (c : Char) (cs : List Char) :
    ['/', '*'] <+: c :: cs ∨ ∃ ds, (lexeme c cs).text = c :: ds ∧ ∀ d ∈ ds, d ≠ '/' := by
  have hslash : ∀ {p : Char → Bool}, p '/' = false → ∀ d ∈ cs.takeWhile p, d ≠ '/' := by
    intro p hp d hd heq
    have hpd : p d = true := all_eq_true.mp all_takeWhile d hd
    rw [heq, hp] at hpd
    cases hpd
  have hfound := found_lexeme c cs
  generalize lexeme c cs = l at hfound ⊢
  cases hfound with
  | word | number | underscoreWord => exact .inr ⟨_, rfl, hslash (by decide)⟩
  | openComment hc hcs =>
    subst hc hcs
    exact .inl ⟨_, rfl⟩
  | @symbol s rest _ hsymbol =>
    -- No mark of the language has a slash but at its front.
    have htail : ∃ d ds, s.text.toList = d :: ds ∧ ds.all (· != '/') = true := by
      cases s <;> exact ⟨_, _, rfl, by decide⟩
    obtain ⟨d, ds, htext, hds⟩ := htail
    have happend := symbol?_append hsymbol
    rw [htext] at happend
    obtain ⟨rfl, -⟩ := cons.inj happend
    exact .inr ⟨ds, htext, fun d hd => bne_iff_ne.mp (all_eq_true.mp hds d hd)⟩
  | stray => exact .inr ⟨[], rfl, nofun⟩

/-- The comments of a text that begins with a lexeme are behind the lexeme. -/
theorem of_lexeme (hc : ¬ BeginsLayout (c :: cs)) (h : CommentAt (c :: cs) start stop) :
    CommentBehind (utf8Length (lexeme c cs).text) (lexeme c cs).rest start stop := by
  obtain ⟨hopen, _, _, hstart, hstop, hothers⟩ := of_not_beginsLayout hc h
  rcases exists_text_lexeme c cs with hslash | ⟨_, htext, hds⟩
  · exact absurd hslash hopen
  · have happend := lexeme_append c cs
    rw [htext] at happend
    obtain ⟨-, hcs⟩ := cons.inj happend
    rw [← hcs] at hothers
    rw [htext]
    exact .add hstart hstop (of_append hds hothers)

/-- The comments of a text that begins with a gap and a lexeme are in the gap or behind the
lexeme. -/
theorem of_gap (hgap : IsLayout (c :: cs) gap) (hc : ¬ BeginsLayout (c :: cs))
    (h : CommentAt (gap ++ c :: cs) start stop) :
    stop ≤ utf8Length gap ∨
      CommentBehind (utf8Length gap + utf8Length (lexeme c cs).text)
        (lexeme c cs).rest start stop := by
  rcases of_isLayout hgap h with hle | ⟨_, _, hstart, hstop, hothers⟩
  · exact .inl hle
  · exact .inr (.add hstart hstop (of_lexeme hc hothers))

end CommentAt

end MiniJava
