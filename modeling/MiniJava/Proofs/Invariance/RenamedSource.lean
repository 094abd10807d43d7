import MiniJava.Proofs.Grammar.RoundTrip
import MiniJava.Proofs.Invariance.Renaming
import MiniJava.Proofs.Layout.Compiled
import MiniJava.Proofs.Token.Tokens

/-!
# Renaming a variable in a source

A source whose variables have other names is compiled to the same image (`compile_renameLocal`). The
renamed program has a source: the terminals that form a program form the renamed one after the names
in them have been changed (`writable_class`), no `else` moves to another `if`, and terminals that
can be written have a text.
-/

namespace MiniJava

open Grammar

/-! ## Tokens that can be written -/

/-- All of the terminals can be written. -/
def Written (ts : List Terminal) : Prop := ∀ t ∈ ts, t.Lexical

@[simp]
theorem written_nil : Written [] := List.forall_mem_nil _

variable {ts : List Terminal}

@[simp]
theorem written_cons {t : Terminal} :
    Written (t :: ts) ↔ t.Lexical ∧ Written ts :=
  List.forall_mem_cons

@[simp]
theorem written_append {us : List Terminal} : Written (ts ++ us) ↔ Written ts ∧ Written us :=
  List.forall_mem_append

@[simp]
theorem lexical_keyword (k : Keyword) : (Terminal.keyword k).Lexical := .keyword k

@[simp]
theorem lexical_symbol (s : Symbol) : (Terminal.symbol s).Lexical := .symbol s

section

variable {α β : Type} {L : Nonterminal α} {M : Nonterminal β} {f : α → β}

/-- Something is formed by terminals that can be written. -/
def Writable (L : Nonterminal α) (a : α) : Prop := ∃ ts, L ts a ∧ Written ts

variable {as : List α}

theorem writable_many (hitem : ∀ ts a, L ts a → Written ts → Writable M (f a)) (h : Many L ts as)
    (hts : Written ts) : Writable (Many M) (as.map f) := by
  induction h with
  | nil => exact ⟨[], .nil, written_nil⟩
  | cons ha _ ih =>
    rw [written_append] at hts
    obtain ⟨us, hus, hwritten⟩ := hitem _ _ ha hts.1
    obtain ⟨vs, hvs, hwrittens⟩ := ih hts.2
    exact ⟨us ++ vs, .cons hus hvs, by simp [hwritten, hwrittens]⟩

theorem writable_separated (hitem : ∀ ts a, L ts a → Written ts → Writable M (f a))
    (h : Separated L ts as) (hts : Written ts) :
    Writable (Separated M) (as.map f) := by
  induction h with
  | single ha =>
    obtain ⟨us, hus, hwritten⟩ := hitem _ _ ha hts
    exact ⟨us, .single hus, hwritten⟩
  | cons ha _ ih =>
    rw [written_append, written_cons] at hts
    obtain ⟨us, hus, hwritten⟩ := hitem _ _ ha hts.1
    obtain ⟨vs, hvs, hwrittens⟩ := ih hts.2.2
    exact ⟨us ++ .symbol .comma :: vs, .cons hus hvs, by simp [hwritten, hwrittens]⟩

/-- Items with commas between them have what each of them has. -/
theorem forall_mem_of_separated {P : α → Prop} (hitem : ∀ ts a, L ts a → Written ts → P a)
    (h : Separated L ts as) (hts : Written ts) :
    ∀ a ∈ as, P a := by
  induction h with
  | single ha => exact List.forall_mem_singleton.mpr (hitem _ _ ha hts)
  | cons ha _ ih =>
    rw [written_append, written_cons] at hts
    exact List.forall_mem_cons.mpr ⟨hitem _ _ ha hts.1, ih hts.2.2⟩

end

/-! ## Names -/

/-- All new names are identifiers. -/
def NewWords (pairs : List (String × String)) : Prop :=
  ∀ b ∈ pairs, (Terminal.identifier b.2).Lexical

section

variable {x : Ident} {y : String} {pairs : List (String × String)}

theorem lexical_newName (h : NewWords pairs) {name : String}
    (hname : (Terminal.identifier name).Lexical) :
    (Terminal.identifier (newName pairs name)).Lexical := by
  unfold newName
  cases hlookup : pairs.lookup name with
  | none => exact hname
  | some _ => exact h _ (mem_of_lookup hlookup)

theorem lexical_renamed (hy : (Terminal.identifier y).Lexical) {d : Ident}
    (hd : (Terminal.identifier d.value).Lexical) :
    (Terminal.identifier (renamed x y d).value).Lexical := by
  unfold renamed
  split
  · exact hy
  · exact hd

/-! ## References and expressions -/

theorem writable_ref (h : NewWords pairs) {r : Ref} (hr : FormsRef ts r) (hts : Written ts) :
    Writable FormsRef (r.rename pairs) := by
  induction hr with
  | this => exact ⟨_, .this, hts⟩
  | name =>
    refine ⟨_, .name, ?_⟩
    simp only [written_cons, written_nil, and_true] at hts ⊢
    exact lexical_newName h hts
  | member _ ih =>
    rw [written_append] at hts
    obtain ⟨_, hus, hwritten⟩ := ih hts.1
    exact ⟨_, .member hus, written_append.mpr ⟨hwritten, hts.2⟩⟩

theorem Expr.rename_withSpan (span : Span) (e : Expr) :
    (e.withSpan span).rename pairs = (e.rename pairs).withSpan span := by
  cases e with
  | ref target => cases target <;> rfl
  | _ => rfl

theorem renameAll_eq_map (es : List Expr) :
    Expr.renameAll pairs es = es.map (Expr.rename pairs) := by
  induction es with
  | nil => rfl
  | cons _ _ ih => rw [Expr.renameAll, ih, List.map_cons]

theorem writable_expr (h : NewWords pairs) {n : Nat} {e : Expr} (he : FormsExpr n ts e)
    (hts : Written ts) : Writable (FormsExpr n) (e.rename pairs) := by
  induction he using FormsExpr.induct with
  | binary hop _ _ ihleft ihright =>
    simp only [written_append, written_cons] at hts
    obtain ⟨_, hus, hleft⟩ := ihleft hts.1
    obtain ⟨_, hvs, hright⟩ := ihright hts.2.2
    exact ⟨_, .binary hop hus hvs, by simp [hleft, hright]⟩
  | tighter _ ih =>
    obtain ⟨us, hus, hwritten⟩ := ih hts
    exact ⟨us, .tighter hus, hwritten⟩
  | unary hop _ ih =>
    obtain ⟨_, hus, hwritten⟩ := ih (written_cons.mp hts).2
    exact ⟨_, .unary hop hus, by simp [hwritten]⟩
  | number hrange => exact ⟨_, .number hrange, hts⟩
  | true => exact ⟨_, .true, hts⟩
  | false => exact ⟨_, .false, hts⟩
  | null => exact ⟨_, .null, hts⟩
  | paren _ ih =>
    simp only [written_append, written_cons] at hts
    obtain ⟨_, hus, hwritten⟩ := ih hts.1.2
    rw [Expr.rename_withSpan]
    exact ⟨_, .paren hus, by simp [hwritten]⟩
  | newObject => exact ⟨_, .newObject, hts⟩
  | newArray _ ih =>
    simp only [written_append, written_cons] at hts
    obtain ⟨_, hus, hwritten⟩ := ih hts.1.2.2.2
    exact ⟨_, .newArray hus, by simp [hts, hwritten]⟩
  | newIntArray _ ih =>
    simp only [written_append, written_cons] at hts
    obtain ⟨_, hus, hwritten⟩ := ih hts.1.2.2.2
    exact ⟨_, .newIntArray hus, by simp [hwritten]⟩
  | ref hr =>
    obtain ⟨us, hus, hwritten⟩ := writable_ref h hr hts
    exact ⟨us, .ref hus, hwritten⟩
  | index hr _ ih =>
    simp only [written_append, written_cons] at hts
    obtain ⟨_, hus, hwritten⟩ := writable_ref h hr hts.1.1
    obtain ⟨_, hvs, hposition⟩ := ih hts.1.2.2
    exact ⟨_, .index hus hvs, by simp [hwritten, hposition]⟩
  | callNone hr =>
    simp only [written_append] at hts
    obtain ⟨_, hus, hwritten⟩ := writable_ref h hr hts.1
    exact ⟨_, .callNone hus, by simp [hwritten]⟩
  | call hr _ ih =>
    simp only [written_append, written_cons] at hts
    obtain ⟨_, hus, hwritten⟩ := writable_ref h hr hts.1.1
    obtain ⟨_, hvs, hargs⟩ := writable_separated (fun _ _ ⟨_, h⟩ => h) ih hts.1.2.2
    rw [Expr.rename, renameAll_eq_map]
    exact ⟨_, .call hus hvs, by simp [hwritten, hargs]⟩

theorem writable_args (h : NewWords pairs) {args : List Expr}
    (hargs : Separated (FormsExpr 0) ts args) (hts : Written ts) :
    Writable (Separated (FormsExpr 0)) (Expr.renameAll pairs args) := by
  rw [renameAll_eq_map]
  exact writable_separated (fun _ _ he => writable_expr h he) hargs hts

/-! ## Statements -/

theorem newWords_pair (hy : (Terminal.identifier y).Lexical) (h : NewWords pairs) {s : Stmt}
    (hs : FormsStmt ts s) (hts : Written ts) :
    NewWords ((s.pair? x y).toList ++ pairs) := by
  cases hs with
  | declare =>
    simp only [written_append, written_cons] at hts
    exact List.forall_mem_cons.mpr ⟨lexical_renamed hy hts.1.2.1, h⟩
  | _ => exact h

mutual

theorem writable_stmt (hy : (Terminal.identifier y).Lexical) :
    ∀ (s : Stmt) {pairs : List (String × String)} {ts : List Terminal}, NewWords pairs →
      FormsStmt ts s → Written ts → Writable FormsStmt (s.rename x y pairs)
  | .block _ body, _, _, h, .block hbody, hts => by
    simp only [written_append, written_cons] at hts
    obtain ⟨_, hus, hwritten⟩ := writable_stmts hy body h hbody hts.1.2
    exact ⟨_, .block hus, by simp [hwritten]⟩
  | .declare _ _ d _, pairs, _, h, .declare htype hinit, hts => by
    simp only [written_append, written_cons] at hts
    have hd : (Terminal.identifier (renamed x y d).value).Lexical := lexical_renamed hy hts.1.2.1
    -- The variable is in scope in its own initializer.
    have hinner : NewWords (namePair x y d :: pairs) := List.forall_mem_cons.mpr ⟨hd, h⟩
    obtain ⟨_, hus, hwritten⟩ := writable_expr hinner hinit hts.1.2.2.2
    exact ⟨_, .declare htype hus, by simp [hts.1.1, hd, hwritten]⟩
  | .assign _ _ _, _, _, h, .assign hr hvalue, hts => by
    simp only [written_append, written_cons] at hts
    obtain ⟨_, hus, htarget⟩ := writable_ref h hr hts.1.1
    obtain ⟨_, hvs, hwritten⟩ := writable_expr h hvalue hts.1.2.2
    exact ⟨_, .assign hus hvs, by simp [htarget, hwritten]⟩
  | .assignIndex _ _ _ _, _, _, h, .assignIndex hr hposition hvalue, hts => by
    simp only [written_append, written_cons] at hts
    obtain ⟨_, hus, htarget⟩ := writable_ref h hr hts.1.1.1
    obtain ⟨_, hvs, hindex⟩ := writable_expr h hposition hts.1.1.2.2
    obtain ⟨_, hws, hwritten⟩ := writable_expr h hvalue hts.1.2.2.2
    exact ⟨_, .assignIndex hus hvs hws, by simp [htarget, hindex, hwritten]⟩
  | .call _ _ _, _, _, h, .callNone hr, hts => by
    obtain ⟨_, hus, hwritten⟩ := writable_ref h hr (written_append.mp hts).1
    exact ⟨_, .callNone hus, by simp [hwritten]⟩
  | .call _ _ _, _, _, h, .call hr hargs, hts => by
    simp only [written_append, written_cons] at hts
    obtain ⟨_, hus, hmethod⟩ := writable_ref h hr hts.1.1
    obtain ⟨_, hvs, hwritten⟩ := writable_args h hargs hts.1.2.2
    exact ⟨_, .call hus hvs, by simp [hmethod, hwritten]⟩
  | .ret _ none, _, _, _, .retNone, hts => ⟨_, .retNone, hts⟩
  | .ret _ (some _), _, _, h, .ret hvalue, hts => by
    simp only [written_append, written_cons] at hts
    obtain ⟨_, hus, hwritten⟩ := writable_expr h hvalue hts.1.2
    exact ⟨_, .ret hus, by simp [hwritten]⟩
  | .ifThen _ _ a, _, _, h, .ifThen htest ha, hts => by
    simp only [written_append, written_cons] at hts
    obtain ⟨_, hus, hwritten⟩ := writable_expr h htest hts.1.2.2
    obtain ⟨_, hvs, hthen⟩ := writable_stmt hy a h ha hts.2.2
    exact ⟨_, .ifThen hus hvs, by simp [hwritten, hthen]⟩
  | .ifThenElse _ _ a b, _, _, h, .ifThenElse htest ha hb, hts => by
    simp only [written_append, written_cons] at hts
    obtain ⟨_, hus, hwritten⟩ := writable_expr h htest hts.1.1.2.2
    obtain ⟨_, hvs, hthen⟩ := writable_stmt hy a h ha hts.1.2.2
    obtain ⟨_, hws, helse⟩ := writable_stmt hy b h hb hts.2.2
    exact ⟨_, .ifThenElse hus hvs hws, by simp [hwritten, hthen, helse]⟩
  | .loop _ _ a, _, _, h, .loop htest ha, hts => by
    simp only [written_append, written_cons] at hts
    obtain ⟨_, hus, hwritten⟩ := writable_expr h htest hts.1.2.2
    obtain ⟨_, hvs, hbody⟩ := writable_stmt hy a h ha hts.2.2
    exact ⟨_, .loop hus hvs, by simp [hwritten, hbody]⟩

theorem writable_stmts (hy : (Terminal.identifier y).Lexical) :
    ∀ (ss : List Stmt) {pairs : List (String × String)} {ts : List Terminal}, NewWords pairs →
      Many FormsStmt ts ss → Written ts → Writable (Many FormsStmt) (Stmt.renameAll x y pairs ss)
  | [], _, _, _, .nil, _ => ⟨[], .nil, written_nil⟩
  | s :: ss, _, _, h, .cons hs hss, hts => by
    rw [written_append] at hts
    obtain ⟨us, hus, hwritten⟩ := writable_stmt hy s h hs hts.1
    obtain ⟨vs, hvs, hwrittens⟩ := writable_stmts hy ss (newWords_pair hy h hs hts.1) hss hts.2
    exact ⟨us ++ vs, .cons hus hvs, by simp [hwritten, hwrittens]⟩

end

/-! ## The nearest `if` -/

theorem Stmt.endsOpen_rename (pairs : List (String × String)) :
    ∀ s : Stmt, (s.rename x y pairs).EndsOpen ↔ s.EndsOpen
  | .ifThenElse _ _ _ b => Stmt.endsOpen_rename pairs b
  | .loop _ _ a => Stmt.endsOpen_rename pairs a
  | .block _ _ | .declare _ _ _ _ | .assign _ _ _ | .assignIndex _ _ _ _ | .call _ _ _ | .ret _ _
  | .ifThen _ _ _ => Iff.rfl

mutual

theorem Stmt.elseBound_rename (pairs : List (String × String)) :
    ∀ s : Stmt, (s.rename x y pairs).ElseBound ↔ s.ElseBound
  | .block _ body => Stmt.allElseBound_renameAll pairs body
  | .ifThen _ _ a => Stmt.elseBound_rename pairs a
  | .ifThenElse _ _ a b =>
    and_congr (not_congr (a.endsOpen_rename pairs))
      (and_congr (Stmt.elseBound_rename pairs a) (Stmt.elseBound_rename pairs b))
  | .loop _ _ a => Stmt.elseBound_rename pairs a
  | .declare _ _ _ _ | .assign _ _ _ | .assignIndex _ _ _ _ | .call _ _ _ | .ret _ _ => Iff.rfl

theorem Stmt.allElseBound_renameAll (pairs : List (String × String)) :
    ∀ ss : List Stmt, Stmt.AllElseBound (Stmt.renameAll x y pairs ss) ↔ Stmt.AllElseBound ss
  | [] => Iff.rfl
  | s :: ss => and_congr (Stmt.elseBound_rename pairs s) (Stmt.allElseBound_renameAll _ ss)

end

variable {p : Program}

theorem elseBound_renameLocal (h : p.ElseBound) : (p.renameLocal x y).ElseBound := by
  refine List.forall_mem_map.mpr fun c hc => List.forall_mem_map.mpr fun m hm => ?_
  exact (Stmt.allElseBound_renameAll _ m.body).mpr (h c hc m hm)

/-! ## Programs -/

theorem writable_params (hy : (Terminal.identifier y).Lexical) {qs : List Param}
    (h : FormsParams ts qs) (hts : Written ts) :
    Writable FormsParams (qs.map fun q => { q with name := renamed x y q.name }) := by
  cases h with
  | none => exact ⟨[], .none, written_nil⟩
  | some h =>
    have hitem : ∀ us q, FormsParam us q → Written us →
        Writable FormsParam { q with name := renamed x y q.name } := by
      rintro _ _ ⟨htype⟩ hus
      simp only [written_append, written_cons] at hus
      exact ⟨_, .mk htype, by simp [hus.1, lexical_renamed hy hus.2.1]⟩
    obtain ⟨us, hus, hwritten⟩ := writable_separated hitem h hts
    exact ⟨us, .some hus, hwritten⟩

theorem newWords_params (hy : (Terminal.identifier y).Lexical) {qs : List Param}
    (h : FormsParams ts qs) (hts : Written ts) :
    NewWords (qs.reverse.map fun q => namePair x y q.name) := by
  cases h with
  | none => exact List.forall_mem_nil _
  | some h =>
    have hnames : ∀ q ∈ qs, (Terminal.identifier q.name.value).Lexical := by
      refine forall_mem_of_separated ?_ h hts
      rintro _ _ ⟨-⟩ hus
      simp only [written_append, written_cons] at hus
      exact hus.2.1
    refine List.forall_mem_map.mpr fun q hq => ?_
    exact lexical_renamed hy (hnames q (List.mem_reverse.mp hq))

/-- Renames one variable in a member. -/
def Grammar.Member.rename (x : Ident) (y : String) : Member → Member
  | .field f => .field f
  | .method m => .method (m.rename x y)

theorem writable_member (hy : (Terminal.identifier y).Lexical) {owner : String} {a : Member}
    (h : FormsMember owner ts a) (hts : Written ts) :
    Writable (FormsMember owner) (a.rename x y) := by
  cases h with
  | field haccess hstatic htype => exact ⟨_, .field haccess hstatic htype, hts⟩
  | method haccess hstatic hreturns hparams hbody =>
    simp only [written_append, written_cons] at hts
    obtain ⟨⟨⟨hfront, hname, -, hps⟩, -, -, hbs⟩, -⟩ := hts
    obtain ⟨_, hus, hwritten⟩ := writable_params hy hparams hps
    obtain ⟨_, hvs, hwrittens⟩ := writable_stmts hy _ (newWords_params hy hparams hps) hbody hbs
    exact ⟨_, .method haccess hstatic hreturns hus hvs,
      by simp [hfront, hname, hwritten, hwrittens]⟩

theorem fields_rename (members : List Member) :
    (members.map (Member.rename x y)).filterMap Member.field? =
    members.filterMap Member.field? := by
  rw [List.filterMap_map]
  congr 1
  funext a
  cases a <;> rfl

theorem methods_rename (members : List Member) :
    (members.map (Member.rename x y)).filterMap Member.method? =
      (members.filterMap Member.method?).map (·.rename x y) := by
  rw [List.filterMap_map, List.map_filterMap]
  congr 1
  funext a
  cases a <;> rfl

theorem writable_class (hy : (Terminal.identifier y).Lexical) {c : ClassDecl} (h : FormsClass ts c)
    (hts : Written ts) :
    Writable FormsClass { c with methods := c.methods.map (·.rename x y) } := by
  obtain ⟨hmembers⟩ := h
  simp only [written_append, written_cons] at hts
  obtain ⟨_, hus, hwritten⟩ :=
    writable_many (f := Member.rename x y) (fun _ _ h => writable_member hy h) hmembers hts.1.2.2.2
  simp only [← methods_rename]
  rw [← fields_rename (x := x) (y := y)]
  exact ⟨_, .mk hus, by simp [hts.1.2.1, hwritten]⟩

theorem classes_of_formsProgram (h : FormsProgram (ts ++ [.endOfFile]) p) :
    Many FormsClass ts p.classes := by
  generalize hall : ts ++ [.endOfFile] = all at h
  obtain ⟨hclasses⟩ := h
  obtain rfl := List.append_cancel_right hall
  exact hclasses

/-- The renamed program is the tree of a source. -/
theorem exists_isTreeOf_renameLocal {source : String} (hp : parse source = .ok p)
    (hy : (Terminal.identifier y).Lexical) : ∃ source', (p.renameLocal x y).IsTreeOf source' := by
  have htree := isTreeOf_of_parse_eq_ok hp
  obtain ⟨-, ts, hts, hrespells⟩ := spelled_program htree.forms
  have hwritten : Written ts := (valid_of_respells hts hrespells).2
  have hclasses := classes_of_formsProgram (hts ▸ htree.forms)
  obtain ⟨us, hus, hwritten'⟩ :=
    writable_many (fun _ _ h => writable_class (x := x) hy h) hclasses hwritten
  refine ⟨textOf us, ?_, elseBound_renameLocal htree.elseBound⟩
  rw [terminalsOf_textOf hwritten']
  exact .mk hus

/-- What is printed for the renamed program reads as it. -/
theorem parsesAs_renameLocal {source : String} (hp : parse source = .ok p)
    (hy : (Terminal.identifier y).Lexical) :
    ParsesAs (p.renameLocal x y).print (p.renameLocal x y) := by
  obtain ⟨_, htree⟩ := exists_isTreeOf_renameLocal (x := x) hp hy
  obtain ⟨_, hq, hbare⟩ := parsesAs_of_isTreeOf htree
  -- Printing does not see ranges, so the program is printed as what was read from its source.
  obtain ⟨q', hq', hbare'⟩ := parsesAs_of_isTreeOf (isTreeOf_print hq)
  refine ⟨q', ?_, hbare'.trans hbare⟩
  rw [← Program.print_bare, ← hbare, Program.print_bare]
  exact hq'

theorem compile_of_bare_eq {p' : Program} {source' : String} {image : List UInt8}
    (howned : p.MembersOwned) (hbuild : p.build = .ok image) (hp' : parse source' = .ok p')
    (hbare : p'.bare = p.bare) : compile source' = .ok image := by
  have hsame := build_of_bare_eq howned (membersOwned_of_parse hp') hbare.symm
  obtain ⟨_, hbuild', rfl⟩ := hsame.exists_ok hbuild
  rw [compile_eq_build, hp']
  exact hbuild'

/-- Let a source be compiled to an image, and let a name be given to one of its variables that no
variable has and no reference begins with. Then the program has this image still, and so has every
source that reads as the renamed program but for the ranges. If the name is an identifier, what is
printed for the renamed program is such a source. -/
theorem compile_renameLocal {source : String} {p : Program} {image : List UInt8}
    (hp : parse source = .ok p) (hcompile : compile source = .ok image) (hy : y ∉ p.names) :
    (p.renameLocal x y).locals = p.locals.map (renamed x y) ∧
    (p.renameLocal x y).build = .ok image ∧
    (∀ source' p', parse source' = .ok p' → p'.bare = (p.renameLocal x y).bare →
      compile source' = .ok image) ∧
    ((Terminal.identifier y).Lexical → ParsesAs (p.renameLocal x y).print (p.renameLocal x y) ∧
      compile (p.renameLocal x y).print = .ok image) := by
  have howned := membersOwned_of_parse hp
  rw [compile_eq_build, hp] at hcompile
  have hbuild : (p.renameLocal x y).build = .ok image := build_renameLocal howned hcompile hy
  have hsources : ∀ source' p', parse source' = .ok p' → p'.bare = (p.renameLocal x y).bare →
      compile source' = .ok image :=
    fun _ _ => compile_of_bare_eq (membersOwned_renameLocal howned) hbuild
  refine ⟨locals_renameLocal p, hbuild, hsources, fun hword => ?_⟩
  obtain ⟨p', hp', hbare⟩ := parsesAs_renameLocal (x := x) hp hword
  exact ⟨⟨p', hp', hbare⟩, hsources _ _ hp' hbare⟩

end

/-- A parameter that is called like a field and like a variable of an inner block. -/
def hiddenSource : String :=
  "class A\x7bint n;int f(int n)\x7bn=n+this.n;\x7bint n=this.n;\x7dreturn n;\x7d" ++
    "public static void main(String[]a)\x7b\x7d\x7d"

/-- The same source, where the parameter has another name. -/
def apartSource : String :=
  "class A\x7bint n;int f(int size)\x7bsize=size+this.n;\x7bint n=this.n;\x7dreturn size;\x7d" ++
    "public static void main(String[]a)\x7b\x7d\x7d"

/-- What it reads as, without the ranges. -/
def apartTree : Program :=
  ⟨[{ span := .builtin
      name := ⟨"A", .builtin⟩
      fields := [⟨.builtin, false, false, ⟨.int, .builtin⟩, ⟨"n", .builtin⟩, "A"⟩]
      methods := [
        { span := .builtin, isPrivate := false, isStatic := false, returns := ⟨.int, .builtin⟩
          name := ⟨"f", .builtin⟩, owner := "A"
          params := [⟨.builtin, ⟨.int, .builtin⟩, ⟨"size", .builtin⟩⟩]
          body := [
            .assign .builtin (.name .builtin "size") (.binary .builtin .add
              (.ref (.name .builtin "size"))
              (.ref (.member .builtin (.this .builtin) ⟨"n", .builtin⟩))),
            .block .builtin [.declare .builtin ⟨.int, .builtin⟩ ⟨"n", .builtin⟩
              (.ref (.member .builtin (.this .builtin) ⟨"n", .builtin⟩))],
            .ret .builtin (some (.ref (.name .builtin "size")))] },
        { span := .builtin, isPrivate := false, isStatic := true, returns := ⟨.void, .builtin⟩
          name := ⟨"main", .builtin⟩, owner := "A"
          params := [⟨.builtin, ⟨.array (.object "String"), .builtin⟩, ⟨"a", .builtin⟩⟩]
          body := [] }] }]⟩

set_option maxRecDepth 6000 in
theorem parse_hiddenSource :
    ∃ p t x, parse hiddenSource = .ok p ∧ identify p = .ok t ∧ typeCheck t p = [] ∧
      findMain p = .ok ⟨"A", "main"⟩ ∧ p.locals.head? = some x ∧ "size" ∉ p.names ∧
      (p.renameLocal x "size").bare = apartTree := by
  rw [parse, TokenStream.ofSource, lex_eq_tokensWithin]
  exact ⟨_, _, _, rfl, rfl, rfl, rfl, rfl, by decide, rfl⟩

set_option maxRecDepth 6000 in
theorem parse_apartSource : ∃ p, parse apartSource = .ok p ∧ p.bare = apartTree := by
  rw [parse, TokenStream.ofSource, lex_eq_tokensWithin]
  exact ⟨_, rfl, rfl⟩

theorem compile_renameLocal_hiddenSource :
    ∃ p x image, parse hiddenSource = .ok p ∧ compile hiddenSource = .ok image ∧ x ∈ p.locals ∧
      "size" ∉ p.names ∧ (p.renameLocal x "size").build = .ok image ∧
      compile apartSource = .ok image ∧ compile (p.renameLocal x "size").print = .ok image := by
  obtain ⟨p, t, x, hp, ht, htypes, hmain, hx, hy, hbare⟩ := parse_hiddenSource
  obtain ⟨_, hp', hbare'⟩ := parse_apartSource
  obtain ⟨image, hbuild⟩ := (exists_build_iff (membersOwned_of_parse hp)).mpr
    ⟨t, ht, htypes, _, hmain⟩
  have hcompile : compile hiddenSource = .ok image := by
    rw [compile_eq_build, hp]
    exact hbuild
  have hword : (Terminal.identifier "size").Lexical := by
    show IsLexeme .identifier ['s', 'i', 'z', 'e']
    exact .identifier rfl (by simp [isWordChar, Char.isAlphanum, Char.isAlpha]) (by decide)
  obtain ⟨-, hrenamed, hsources, hprinted⟩ := compile_renameLocal (x := x) hp hcompile hy
  exact ⟨p, x, image, hp, hcompile, List.mem_of_head? hx, hy, hrenamed,
    hsources _ _ hp' (hbare'.trans hbare.symm), (hprinted hword).2⟩

end MiniJava
