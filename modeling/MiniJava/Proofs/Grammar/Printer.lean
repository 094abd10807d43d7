import MiniJava.Proofs.Grammar.Rules
import MiniJava.Proofs.Token.Lexemes

/-!
# Printing a program

A tree is printed as a sequence of terminals. Parentheses are put around an operand if its operator
is looser than its place allows, and nowhere else. A place says how tight an operator it takes, as
in `FormsExpr`: the left operand of a binary operator may be of the same level, the right one must
be of a tighter one, so operators of one level group to the left.

> `spelled_program`: if tokens form a program, then what is printed for it forms that program again,
> and there are no more parentheses than in the tokens.

The two halves go through the grammar together. `Respells` is what the second half says of the
tokens and of what is printed for them.
-/

namespace MiniJava

open Grammar List

/-! ## Terminals and their text -/

namespace Terminal

/-- The class of the tokens that are seen as this terminal. -/
def kind : Terminal → TokenKind
  | keyword k => .keyword k
  | symbol s => .symbol s
  | number _ => .number
  | identifier _ => .identifier
  | endOfFile => .endOfFile
  | invalid => .invalid .strayAscii

/-- How a terminal is written. -/
def text : Terminal → String
  | keyword k => k.text
  | symbol s => s.text
  | number digits => digits
  | identifier text => text
  | endOfFile | invalid => ""

/-- The terminal can be written. -/
def Lexical (t : Terminal) : Prop := IsLexeme t.kind t.text.toList

end Terminal

/-! ## The printer -/

/-- The symbol of an operator. -/
def UnaryOp.symbol : UnaryOp → Symbol
  | not => .not
  | neg => .minus

/-- The symbol of an operator. -/
def BinaryOp.symbol : BinaryOp → Symbol
  | or => .or
  | and => .and
  | equal => .equal
  | notEqual => .notEqual
  | less => .less
  | lessEq => .lessEq
  | greater => .greater
  | greaterEq => .greaterEq
  | add => .plus
  | sub => .minus
  | mul => .times
  | div => .divide

/-- The level of an operator, the loosest first. -/
def BinaryOp.level : BinaryOp → Nat
  | or => 0
  | and => 1
  | equal | notEqual => 2
  | less | lessEq | greater | greaterEq => 3
  | add | sub => 4
  | mul | div => 5

/-- The level of an expression: that of its operator, if it has one outside of parentheses. -/
def Expr.level : Expr → Nat
  | .binary _ op _ _ => op.level
  | .unary .. => 6
  | _ => 7

/-- A pair of parentheses around terminals. -/
def inParens (ts : List Terminal) : List Terminal :=
  .symbol .openParen :: ts ++ [.symbol .closeParen]

/-- Items with commas between them. -/
def commas : List (List Terminal) → List Terminal
  | [] => []
  | [ts] => ts
  | ts :: us :: rest => ts ++ .symbol .comma :: commas (us :: rest)

def Ty.spell : Ty → List Terminal
  | .int => [.keyword .intKw]
  | .boolean => [.keyword .booleanKw]
  | .void => [.keyword .voidKw]
  | .null | .error => []
  | .object className => [.identifier className]
  | .array element => element.spell ++ [.symbol .openBracket, .symbol .closeBracket]

def Ref.spell : Ref → List Terminal
  | .this _ => [.keyword .thisKw]
  | .name _ text => [.identifier text]
  | .member _ base field => base.spell ++ [.symbol .dot, .identifier field.value]

def Literal.spell : Literal → Terminal
  | .int value => .number value.toInt.toNat.repr
  | .bool true => .keyword .trueKw
  | .bool false => .keyword .falseKw
  | .null => .keyword .nullKw

/-- The terminals of an expression, given those of its core, at a place of this level. -/
def Expr.grouped (k : Nat) (e : Expr) (core : List Terminal) : List Terminal :=
  if e.level < k then inParens core else core

mutual

/-- An expression without parentheses around it. -/
def Expr.core : Expr → List Terminal
  | .literal _ value => [value.spell]
  | .unary _ op operand =>
    .symbol op.symbol :: operand.grouped 6 operand.core
  | .binary _ op left right =>
    left.grouped op.level left.core ++ .symbol op.symbol ::
      right.grouped (op.level + 1) right.core
  | .ref target => target.spell
  | .index _ target position =>
    target.spell ++ .symbol .openBracket ::
      position.grouped 0 position.core ++ [.symbol .closeBracket]
  | .call _ method args =>
    method.spell ++ .symbol .openParen :: commas (Expr.spellAll args) ++ [.symbol .closeParen]
  | .newObject _ className =>
    [.keyword .newKw, .identifier className.value, .symbol .openParen, .symbol .closeParen]
  | .newArray _ element size =>
    .keyword .newKw :: element.value.spell ++ .symbol .openBracket ::
      size.grouped 0 size.core ++ [.symbol .closeBracket]

/-- The arguments of a call, one by one. -/
def Expr.spellAll : List Expr → List (List Terminal)
  | [] => []
  | e :: es => e.grouped 0 e.core :: Expr.spellAll es

end

/-- An expression at a place of this level. -/
def Expr.spell (k : Nat) (e : Expr) : List Terminal :=
  e.grouped k e.core

mutual

def Stmt.spell : Stmt → List Terminal
  | .block _ body => .symbol .openBrace :: Stmt.spellAll body ++ [.symbol .closeBrace]
  | .declare _ type name init =>
    type.value.spell ++ .identifier name.value :: .symbol .assign :: init.spell 0 ++
      [.symbol .semicolon]
  | .assign _ target value =>
    target.spell ++ .symbol .assign :: value.spell 0 ++ [.symbol .semicolon]
  | .assignIndex _ target position value =>
    target.spell ++ .symbol .openBracket :: position.spell 0 ++ .symbol .closeBracket ::
      .symbol .assign :: value.spell 0 ++ [.symbol .semicolon]
  | .call _ method args =>
    method.spell ++ .symbol .openParen :: commas (Expr.spellAll args) ++
      [.symbol .closeParen, .symbol .semicolon]
  | .ret _ none => [.keyword .returnKw, .symbol .semicolon]
  | .ret _ (some value) => .keyword .returnKw :: value.spell 0 ++ [.symbol .semicolon]
  | .ifThen _ test thenBranch =>
    .keyword .ifKw :: .symbol .openParen :: test.spell 0 ++ .symbol .closeParen ::
      thenBranch.spell
  | .ifThenElse _ test thenBranch elseBranch =>
    .keyword .ifKw :: .symbol .openParen :: test.spell 0 ++ .symbol .closeParen ::
      thenBranch.spell ++ .keyword .elseKw :: elseBranch.spell
  | .loop _ test body =>
    .keyword .whileKw :: .symbol .openParen :: test.spell 0 ++ .symbol .closeParen :: body.spell

def Stmt.spellAll : List Stmt → List Terminal
  | [] => []
  | a :: as => a.spell ++ Stmt.spellAll as

end

def Param.spell (q : Param) : List Terminal := q.type.value.spell ++ [.identifier q.name.value]

/-- A word that is written if something is so. -/
def modifier (k : Keyword) (isSo : Bool) : List Terminal := if isSo then [.keyword k] else []

def FieldDecl.spell (f : FieldDecl) : List Terminal :=
  modifier .privateKw f.isPrivate ++ modifier .staticKw f.isStatic ++ f.type.value.spell ++
    [.identifier f.name.value, .symbol .semicolon]

def MethodDecl.spell (m : MethodDecl) : List Terminal :=
  modifier .privateKw m.isPrivate ++ modifier .staticKw m.isStatic ++ m.returns.value.spell ++
    .identifier m.name.value :: .symbol .openParen :: commas (m.params.map Param.spell) ++
    .symbol .closeParen :: .symbol .openBrace :: Stmt.spellAll m.body ++ [.symbol .closeBrace]

/-- A class, its fields in front of its methods. -/
def ClassDecl.spell (c : ClassDecl) : List Terminal :=
  .keyword .classKw :: .identifier c.name.value :: .symbol .openBrace ::
    (c.fields.flatMap FieldDecl.spell ++ c.methods.flatMap MethodDecl.spell) ++
    [.symbol .closeBrace]

/-- The terminals of a program, but for the end of the file. -/
def Program.spell (p : Program) : List Terminal := p.classes.flatMap ClassDecl.spell

/-- The text of terminals, with a blank in front of each. -/
def textOf (ts : List Terminal) : String :=
  String.ofList (Scanner.spaced (ts.map fun t => (t.kind, t.text.toList)))

/-- The text of a program, with parentheses only where they are needed. -/
def Program.print (p : Program) : String := textOf p.spell

/-! ## Matching parentheses -/

/-- Whether the symbol is a parenthesis. -/
def Symbol.isParen : Symbol → Bool
  | openParen | closeParen => true
  | _ => false

/-- Whether the terminal is a parenthesis. -/
def Terminal.isParen : Terminal → Bool
  | symbol s => s.isParen
  | _ => false

/-- Every parenthesis has its counterpart. -/
inductive Balanced : List Terminal → Prop
  | nil : Balanced []
  | plain {t : Terminal} {ts : List Terminal} (ht : t.isParen = false) (h : Balanced ts) :
      Balanced (t :: ts)
  | nest {ts us : List Terminal} (h : Balanced ts) (h' : Balanced us) :
      Balanced (.symbol .openParen :: ts ++ .symbol .closeParen :: us)

theorem Balanced.append {ts us : List Terminal} (h : Balanced ts) (h' : Balanced us) :
    Balanced (ts ++ us) := by
  induction h with
  | nil => exact h'
  | plain ht _ ih => exact .plain ht ih
  | nest h _ _ ih =>
    rw [append_assoc]
    exact .nest h ih

/-! ## What is printed for tokens -/

/-- The second sequence can be written if the first one can, and needs no more parentheses. The
parentheses of the first one match, and it has neither invalid tokens nor an end of the file. -/
structure Respells (ts us : List Terminal) : Prop where
  proper : ∀ t ∈ ts, t ≠ .invalid ∧ t ≠ .endOfFile
  balanced : Balanced ts
  lexical : (∀ t ∈ ts, t.Lexical) → ∀ t ∈ us, t.Lexical
  parens : us.count (.symbol .openParen) ≤ ts.count (.symbol .openParen)

namespace Respells

variable {ts us ts' us' : List Terminal}

theorem nil : Respells [] [] := ⟨nofun, .nil, fun _ => nofun, Nat.le_refl _⟩

theorem append (h : Respells ts us) (h' : Respells ts' us') : Respells (ts ++ ts') (us ++ us') := by
  refine ⟨?_, h.balanced.append h'.balanced, ?_, ?_⟩
  · exact forall_mem_append.mpr ⟨h.proper, h'.proper⟩
  · intro hts
    rw [forall_mem_append] at hts ⊢
    exact ⟨h.lexical hts.1, h'.lexical hts.2⟩
  · rw [count_append, count_append]
    exact Nat.add_le_add h.parens h'.parens

/-- The order of what is printed does not matter. -/
theorem insert {vs : List Terminal} (h : Respells ts us) (h' : Respells ts' (us' ++ vs)) :
    Respells (ts ++ ts') (us' ++ (us ++ vs)) := by
  have happend := h.append h'
  refine ⟨happend.proper, happend.balanced, fun hts t ht => happend.lexical hts t ?_, ?_⟩
  · simp only [mem_append] at ht ⊢
    tauto
  · have hcount := happend.parens
    simp only [count_append] at hcount ⊢
    omega

/-- A token that is printed as it is. -/
theorem cons {t : Terminal} (ht : t.isParen = false) (hproper : t ≠ .invalid ∧ t ≠ .endOfFile)
    (h : Respells ts us) : Respells (t :: ts) (t :: us) :=
  have hone : Respells [t] [t] :=
    ⟨forall_mem_singleton.mpr hproper, .plain ht .nil, id, Nat.le_refl _⟩
  hone.append h

theorem symbol {sym : Symbol} (hsym : sym.isParen = false) (h : Respells ts us) :
    Respells (.symbol sym :: ts) (.symbol sym :: us) := h.cons hsym ⟨nofun, nofun⟩

theorem keyword (k : Keyword) (h : Respells ts us) :
    Respells (.keyword k :: ts) (.keyword k :: us) := h.cons rfl ⟨nofun, nofun⟩

theorem identifier (text : String) (h : Respells ts us) :
    Respells (.identifier text :: ts) (.identifier text :: us) := h.cons rfl ⟨nofun, nofun⟩

theorem inParens (h : Respells ts us) : Respells (inParens ts) (inParens us) := by
  refine ⟨?_, .nest h.balanced .nil, ?_, ?_⟩
  · simpa [MiniJava.inParens, forall_eq_or_imp, or_imp, forall_and] using h.proper
  · intro hts
    simp only [MiniJava.inParens, cons_append, forall_mem_cons, forall_mem_append] at hts ⊢
    exact ⟨hts.1, h.lexical hts.2.1, hts.2.2⟩
  · simpa [MiniJava.inParens, count_cons] using h.parens

/-- Something in parentheses that are not its own, as the arguments of a call. -/
theorem call {vs ws : List Terminal} (h : Respells ts us) (h' : Respells ts' us')
    (hrest : Respells vs ws) :
    Respells (ts ++ .symbol .openParen :: ts' ++ .symbol .closeParen :: vs)
      (us ++ .symbol .openParen :: us' ++ .symbol .closeParen :: ws) := by
  have hall := h.append (h'.inParens.append hrest)
  simpa [MiniJava.inParens] using hall

/-- Parentheses can be left out. -/
theorem unparen (h : Respells ts us) : Respells (MiniJava.inParens ts) us := by
  have hparens := h.inParens
  refine ⟨hparens.proper, hparens.balanced, fun hts t ht => hparens.lexical hts t ?_, ?_⟩
  · simp [MiniJava.inParens, ht]
  · refine h.parens.trans (List.Sublist.count_le _ ?_)
    exact (sublist_append_left ts _).cons _

theorem of_inParens (h : Respells ts (MiniJava.inParens us)) : Respells ts us := by
  refine ⟨h.proper, h.balanced, fun hts t ht => h.lexical hts t ?_, ?_⟩
  · simp [MiniJava.inParens, ht]
  · refine Nat.le_trans (List.Sublist.count_le _ ?_) h.parens
    exact (sublist_append_left us _).cons _

end Respells

theorem BinaryOp.isParen_symbol (op : BinaryOp) : op.symbol.isParen = false := by
  cases op <;> rfl

theorem UnaryOp.isParen_symbol (op : UnaryOp) : op.symbol.isParen = false := by
  cases op <;> rfl

namespace Grammar

/-! ## Lists -/

section

variable {α : Type} {L L' : Nonterminal α} {f : α → List Terminal}

theorem spelled_many (hf : ∀ ts a, L ts a → L' (f a) a ∧ Respells ts (f a))
    {ts : List Terminal} {as : List α} (h : Many L ts as) :
    Many L' (as.flatMap f) as ∧ Respells ts (as.flatMap f) := by
  induction h with
  | nil => exact ⟨.nil, .nil⟩
  | cons ha _ ih =>
    obtain ⟨hforms, hrespells⟩ := hf _ _ ha
    rw [flatMap_cons]
    exact ⟨.cons hforms ih.1, hrespells.append ih.2⟩

theorem Separated.mono (h : ∀ ts a, L ts a → L' ts a) {ts : List Terminal} {as : List α}
    (hs : Separated L ts as) : Separated L' ts as := by
  induction hs with
  | single ha => exact .single (h _ _ ha)
  | cons ha _ ih => exact .cons (h _ _ ha) ih

theorem spelled_separated (hf : ∀ ts a, L ts a → L' (f a) a ∧ Respells ts (f a))
    {ts : List Terminal} {as : List α} (h : Separated L ts as) :
    Separated L' (commas (as.map f)) as ∧ Respells ts (commas (as.map f)) := by
  induction h with
  | single ha =>
    obtain ⟨hforms, hrespells⟩ := hf _ _ ha
    exact ⟨.single hforms, hrespells⟩
  | cons ha has ih =>
    rename_i ts us a as
    obtain ⟨hforms, hrespells⟩ := hf _ _ ha
    obtain ⟨b, bs, rfl⟩ : ∃ b bs, as = b :: bs := by
      cases has <;> exact ⟨_, _, rfl⟩
    exact ⟨.cons hforms ih.1, hrespells.append (ih.2.symbol rfl)⟩

end

/-! ## Expressions -/

theorem BinaryAt.eq {n : Nat} {s : Symbol} {op : BinaryOp} (h : BinaryAt n s op) :
    n = op.level ∧ s = op.symbol := by
  cases h <;> exact ⟨rfl, rfl⟩

theorem UnaryOf.eq {s : Symbol} {op : UnaryOp} (h : UnaryOf s op) : s = op.symbol := by
  cases h <;> rfl

variable {ts : List Terminal} {e : Expr}

theorem FormsExpr.looser {m k : Nat} (h : FormsExpr m ts e) (hk : k ≤ m) : FormsExpr k ts e := by
  induction hk using Nat.decreasingInduction with
  | self => exact h
  | of_succ _ _ ih => exact .tighter ih

theorem FormsRef.withSpan {r : Ref} (h : FormsRef ts r) (span : Span) :
    FormsRef ts (r.withSpan span) := by
  cases h with
  | this => exact .this
  | name => exact .name
  | member hbase => exact .member hbase

theorem FormsExpr.withSpan {k : Nat} (h : FormsExpr k ts e) (span : Span) :
    FormsExpr k ts (e.withSpan span) := by
  induction h using FormsExpr.induct with
  | binary hop hleft hright => exact .binary hop hleft hright
  | tighter _ ih => exact .tighter ih
  | unary hop h => exact .unary hop h
  | number hrange => exact .number hrange
  | true => exact .true
  | false => exact .false
  | null => exact .null
  | @paren ts inner e h =>
    have htwice : (e.withSpan inner).withSpan span = e.withSpan span := by
      cases e with
      | ref target => cases target <;> rfl
      | _ => rfl
    rw [htwice]
    exact .paren h
  | newObject => exact .newObject
  | newArray h => exact .newArray h
  | newIntArray h => exact .newIntArray h
  | ref h => exact .ref (h.withSpan span)
  | index htarget hposition => exact .index htarget hposition
  | callNone hmethod => exact .callNone hmethod
  | call hmethod hargs => exact .call hmethod hargs

theorem FormsExpr.inParens {ts : List Terminal} {e : Expr} (h : FormsExpr 0 ts e) :
    FormsExpr 7 (inParens ts) e := by
  have hself : e.withSpan e.span = e := by
    cases e with
    | ref target => cases target <;> rfl
    | _ => rfl
  rw [← hself]
  exact .paren h

/-- Parentheses give every place an expression that fits. -/
theorem forms_spell (h : FormsExpr e.level e.core e) {k : Nat} (hk : k ≤ 7) :
    FormsExpr k (e.spell k) e := by
  unfold Expr.spell Expr.grouped
  split
  next => exact (h.looser (Nat.zero_le _)).inParens.looser hk
  next hlevel => exact h.looser (Nat.le_of_not_lt hlevel)

theorem core_withSpan (span : Span) (e : Expr) : (e.withSpan span).core = e.core := by
  cases e with
  | ref target => cases target <;> rfl
  | _ => simp only [Expr.withSpan, Expr.core]

theorem level_withSpan (span : Span) (e : Expr) : (e.withSpan span).level = e.level := by
  cases e <;> rfl

/-- What is printed for an expression at a place where tokens form it. -/
structure SpelledExpr (n : Nat) (ts : List Terminal) (e : Expr) : Prop where
  forms : FormsExpr e.level e.core e
  respells : Respells ts (e.grouped n e.core)

theorem SpelledExpr.spell {n : Nat} (h : SpelledExpr n ts e) (hn : n ≤ 7) :
    FormsExpr n (e.spell n) e ∧ Respells ts (e.spell n) :=
  ⟨forms_spell h.forms hn, h.respells⟩

/-- At a place of its own level an expression needs no parentheses. -/
theorem SpelledExpr.own {n : Nat} (hlevel : e.level = n)
    (h : FormsExpr n e.core e ∧ Respells ts e.core) :
    SpelledExpr n ts e := by
  subst hlevel
  refine ⟨h.1, ?_⟩
  rw [Expr.grouped, if_neg (Nat.lt_irrefl _)]
  exact h.2

theorem spelled_ref {r : Ref} (h : FormsRef ts r) : r.spell = ts ∧ Respells ts ts := by
  induction h with
  | this => exact ⟨rfl, .keyword _ .nil⟩
  | name => exact ⟨rfl, .identifier _ .nil⟩
  | member _ ih =>
    refine ⟨?_, ih.2.append (.symbol rfl (.identifier _ .nil))⟩
    rw [Ref.spell, ih.1]

theorem spelled_type {t : Ty} (h : FormsType ts t) : t.spell = ts ∧ Respells ts ts := by
  cases h with
  | int | boolean => exact ⟨rfl, .keyword _ .nil⟩
  | intArray => exact ⟨rfl, .keyword _ (.symbol rfl (.symbol rfl .nil))⟩
  | object => exact ⟨rfl, .identifier _ .nil⟩
  | objectArray => exact ⟨rfl, .identifier _ (.symbol rfl (.symbol rfl .nil))⟩

/-! ### Numbers -/

theorem value_digitChar {d : Nat} (h : d < 10) : (Nat.digitChar d).toNat - '0'.toNat = d := by
  have hall : ∀ e ∈ List.range 10, (Nat.digitChar e).toNat - '0'.toNat = e := by decide
  exact hall d (mem_range.mpr h)

theorem literalValue_repr (n : Nat) : literalValue n.repr = n := by
  rw [literalValue, Nat.repr_eq_ofList_toDigits, String.toList_ofList]
  induction n using Nat.strongRecOn with
  | ind n ih =>
    by_cases hn : n < 10
    · rw [Nat.toDigits_of_lt_base hn, map_singleton, reverse_singleton,
        Nat.ofDigits_singleton, value_digitChar hn]
    · rw [Nat.toDigits_of_base_le (by omega) (by omega), map_append, reverse_append,
        map_singleton, reverse_singleton, singleton_append, Nat.ofDigits_cons,
        ih _ (by omega), value_digitChar (by omega)]
      exact Nat.mod_add_div n 10

theorem lexical_repr (n : Nat) : (Terminal.number n.repr).Lexical := by
  show IsLexeme .number n.repr.toList
  rw [Nat.repr_eq_ofList_toDigits, String.toList_ofList]
  have hdigits : ∀ c ∈ Nat.toDigits 10 n, c.isDigit = true := fun c =>
    Nat.isDigit_of_mem_toDigits (by omega) (by omega)
  cases h : Nat.toDigits 10 n with
  | nil => exact absurd h Nat.toDigits_ne_nil
  | cons _ _ =>
    rw [h] at hdigits
    obtain ⟨hc, hcs⟩ := forall_mem_cons.mp hdigits
    exact .number hc hcs

/-- A number is printed without zeros in front. -/
theorem spelled_number {digits : String} {span : Span} (h : literalValue digits ≤ 2147483647) :
    SpelledExpr 7 [.number digits]
      (.literal span (.int (Int32.ofNat (literalValue digits)))) := by
  have hvalue : (Int32.ofNat (literalValue digits)).toInt.toNat = literalValue digits := by
    rw [Int32.toInt_ofNat_of_lt (by omega)]
    exact Int.toNat_natCast _
  refine .own rfl ?_
  rw [Expr.core, Literal.spell, hvalue]
  constructor
  · have hforms : FormsExpr 7 _ (.literal span (.int (Int32.ofNat (literalValue
        (literalValue digits).repr)))) := .number (by rw [literalValue_repr]; exact h)
    rwa [literalValue_repr] at hforms
  · exact ⟨by simp, .plain rfl .nil, fun _ => forall_mem_singleton.mpr (lexical_repr _),
      Nat.le_refl _⟩

theorem spellAll_eq_map (args : List Expr) : Expr.spellAll args = args.map (Expr.spell 0) := by
  induction args with
  | nil => rfl
  | cons _ _ ih => rw [Expr.spellAll, ih, map_cons, Expr.spell]

/-- The arguments of a call between their parentheses, if each of them is printed as it should
be. -/
theorem spelled_args {us : List Terminal} {args : List Expr}
    (h : Separated (SpelledExpr 0) us args) :
    Separated (FormsExpr 0) (commas (Expr.spellAll args)) args ∧
      Respells us (commas (Expr.spellAll args)) := by
  rw [spellAll_eq_map]
  exact spelled_separated (fun _ _ h => h.spell (Nat.zero_le _)) h

/-- Every expression is spelled at the level it was read at. -/
theorem spelledExpr_of_formsExpr {n : Nat} {ts : List Terminal} {e : Expr}
    (h : FormsExpr n ts e) : SpelledExpr n ts e := by
  induction h using FormsExpr.induct with
  | @binary n ts us s op span left right hop hleft hright ihl ihr =>
    obtain ⟨rfl, rfl⟩ := hop.eq
    -- A right operand is of a tighter level, and there is one for every operator.
    have hn : op.level + 1 ≤ 7 := by cases op <;> simp [BinaryOp.level]
    obtain ⟨hformsl, hrespellsl⟩ := ihl.spell (by omega)
    obtain ⟨hformsr, hrespellsr⟩ := ihr.spell hn
    exact .own rfl ⟨.binary hop hformsl hformsr,
      hrespellsl.append (hrespellsr.symbol op.isParen_symbol)⟩
  | @tighter n ts e h ih =>
    refine ⟨ih.forms, ?_⟩
    -- Where the tighter level needs parentheses, this one may do without them.
    have hrespells := ih.respells
    unfold Expr.grouped at hrespells ⊢
    split
    next => rwa [if_pos (by omega)] at hrespells
    next =>
      split at hrespells
      next => exact hrespells.of_inParens
      next => exact hrespells
  | unary hop _ ih =>
    obtain rfl := hop.eq
    obtain ⟨hforms, hrespells⟩ := ih.spell (by omega)
    exact .own rfl ⟨.unary hop hforms, hrespells.symbol (UnaryOp.isParen_symbol _)⟩
  | number hrange => exact spelled_number hrange
  | true => exact .own rfl ⟨.true, .keyword _ .nil⟩
  | false => exact .own rfl ⟨.false, .keyword _ .nil⟩
  | null => exact .own rfl ⟨.null, .keyword _ .nil⟩
  | @paren ts span e h ih =>
    -- The parentheses of the source are kept if they are needed, and dropped otherwise.
    have hrespells : Respells ts e.core := ih.respells
    refine ⟨?_, ?_⟩
    · rw [core_withSpan, level_withSpan]
      exact ih.forms.withSpan span
    · rw [core_withSpan, Expr.grouped]
      split
      next => exact hrespells.inParens
      next => exact hrespells.unparen
  | newObject =>
    exact .own rfl ⟨.newObject, .call (.keyword _ (.identifier _ .nil)) .nil .nil⟩
  | newArray _ ih =>
    obtain ⟨hforms, hrespells⟩ := ih.spell (by omega)
    refine .own rfl ⟨.newArray hforms, ?_⟩
    exact (Respells.append (.keyword _ (.identifier _ .nil)) (hrespells.symbol rfl)).append
      (.symbol rfl .nil)
  | newIntArray _ ih =>
    obtain ⟨hforms, hrespells⟩ := ih.spell (by omega)
    refine .own rfl ⟨.newIntArray hforms, ?_⟩
    exact (Respells.append (.keyword _ (.keyword _ .nil)) (hrespells.symbol rfl)).append
      (.symbol rfl .nil)
  | ref h =>
    obtain ⟨hspell, hrespells⟩ := spelled_ref h
    refine .own rfl ?_
    rw [Expr.core, hspell]
    exact ⟨.ref h, hrespells⟩
  | index htarget _ ih =>
    obtain ⟨hspell, hrefs⟩ := spelled_ref htarget
    obtain ⟨hforms, hrespells⟩ := ih.spell (by omega)
    refine .own rfl ?_
    rw [Expr.core, hspell]
    exact ⟨.index htarget hforms, (hrefs.append (hrespells.symbol rfl)).append (.symbol rfl .nil)⟩
  | callNone hmethod =>
    obtain ⟨hspell, hrefs⟩ := spelled_ref hmethod
    refine .own rfl ?_
    rw [Expr.core, hspell, Expr.spellAll, commas, append_assoc]
    exact ⟨.callNone hmethod, hrefs.append (Respells.nil.inParens)⟩
  | call hmethod _ ih =>
    obtain ⟨hspell, hrefs⟩ := spelled_ref hmethod
    obtain ⟨hforms, hrespells⟩ := spelled_args (ih.mono fun _ _ ⟨_, h⟩ => h)
    refine .own rfl ?_
    rw [Expr.core, hspell]
    exact ⟨.call hmethod hforms, hrefs.call hrespells .nil⟩

theorem spelled_expr (h : FormsExpr 0 ts e) :
    FormsExpr 0 (e.spell 0) e ∧ Respells ts (e.spell 0) :=
  (spelledExpr_of_formsExpr h).spell (Nat.zero_le _)

/-! ## Statements -/

theorem spelled_args_of_forms {us : List Terminal} {args : List Expr}
    (h : Separated (FormsExpr 0) us args) :
    Separated (FormsExpr 0) (commas (Expr.spellAll args)) args ∧
      Respells us (commas (Expr.spellAll args)) :=
  spelled_args (h.mono fun _ _ => spelledExpr_of_formsExpr)

mutual

theorem spelled_stmt (a : Stmt) {ts : List Terminal} (h : FormsStmt ts a) :
    FormsStmt a.spell a ∧ Respells ts a.spell := by
  cases h with
  | block hbody =>
    rename_i span body
    obtain ⟨hforms, hrespells⟩ := spelled_stmts body hbody
    exact ⟨.block hforms, (hrespells.symbol rfl).append (.symbol rfl .nil)⟩
  | declare htype hinit =>
    obtain ⟨hspell, htypes⟩ := spelled_type htype
    obtain ⟨hforms, hrespells⟩ := spelled_expr hinit
    rw [Stmt.spell, hspell]
    exact ⟨.declare htype hforms,
      (htypes.append (.identifier _ (hrespells.symbol rfl))).append (.symbol rfl .nil)⟩
  | assign htarget hvalue =>
    obtain ⟨hspell, hrefs⟩ := spelled_ref htarget
    obtain ⟨hforms, hrespells⟩ := spelled_expr hvalue
    rw [Stmt.spell, hspell]
    exact ⟨.assign htarget hforms, (hrefs.append (hrespells.symbol rfl)).append (.symbol rfl .nil)⟩
  | assignIndex htarget hposition hvalue =>
    obtain ⟨hspell, hrefs⟩ := spelled_ref htarget
    obtain ⟨hformsp, hrespellsp⟩ := spelled_expr hposition
    obtain ⟨hformsv, hrespellsv⟩ := spelled_expr hvalue
    rw [Stmt.spell, hspell]
    refine ⟨.assignIndex htarget hformsp hformsv, ?_⟩
    exact ((hrefs.append (hrespellsp.symbol rfl)).append
      (.symbol rfl (hrespellsv.symbol rfl))).append (.symbol rfl .nil)
  | callNone hmethod =>
    obtain ⟨hspell, hrefs⟩ := spelled_ref hmethod
    rw [Stmt.spell, hspell, Expr.spellAll, commas, append_assoc]
    exact ⟨.callNone hmethod, hrefs.append (Respells.nil.inParens.append (.symbol rfl .nil))⟩
  | call hmethod hargs =>
    obtain ⟨hspell, hrefs⟩ := spelled_ref hmethod
    obtain ⟨hforms, hrespells⟩ := spelled_args_of_forms hargs
    rw [Stmt.spell, hspell]
    exact ⟨.call hmethod hforms, hrefs.call hrespells (.symbol rfl .nil)⟩
  | retNone => exact ⟨.retNone, .keyword _ (.symbol rfl .nil)⟩
  | ret hvalue =>
    obtain ⟨hforms, hrespells⟩ := spelled_expr hvalue
    exact ⟨.ret hforms, (hrespells.keyword _).append (.symbol rfl .nil)⟩
  | ifThen htest hthen =>
    rename_i span test thenBranch
    obtain ⟨hformst, hrespellst⟩ := spelled_expr htest
    obtain ⟨hforms, hrespells⟩ := spelled_stmt thenBranch hthen
    exact ⟨.ifThen hformst hforms, .call (.keyword _ .nil) hrespellst hrespells⟩
  | ifThenElse htest hthen helse =>
    rename_i span test thenBranch elseBranch
    obtain ⟨hformst, hrespellst⟩ := spelled_expr htest
    obtain ⟨hforms, hrespells⟩ := spelled_stmt thenBranch hthen
    obtain ⟨hforms', hrespells'⟩ := spelled_stmt elseBranch helse
    refine ⟨.ifThenElse hformst hforms hforms', ?_⟩
    exact (Respells.call (.keyword _ .nil) hrespellst hrespells).append (hrespells'.keyword _)
  | loop htest hbody =>
    rename_i span test body
    obtain ⟨hformst, hrespellst⟩ := spelled_expr htest
    obtain ⟨hforms, hrespells⟩ := spelled_stmt body hbody
    exact ⟨.loop hformst hforms, .call (.keyword _ .nil) hrespellst hrespells⟩

theorem spelled_stmts (as : List Stmt) {ts : List Terminal} (h : Many FormsStmt ts as) :
    Many FormsStmt (Stmt.spellAll as) as ∧ Respells ts (Stmt.spellAll as) := by
  cases h with
  | nil => exact ⟨.nil, .nil⟩
  | cons ha has =>
    rename_i a as
    obtain ⟨hforms, hrespells⟩ := spelled_stmt a ha
    obtain ⟨hformss, hrespellss⟩ := spelled_stmts as has
    exact ⟨.cons hforms hformss, hrespells.append hrespellss⟩

end

/-! ## Classes -/

theorem spelled_access {isPrivate : Bool} (h : FormsAccess ts isPrivate) :
    FormsAccess (modifier .privateKw isPrivate) isPrivate ∧
      Respells ts (modifier .privateKw isPrivate) := by
  cases h with
  | unsaid => exact ⟨.unsaid, .nil⟩
  | isPublic => exact ⟨.unsaid, ⟨by simp, .plain rfl .nil, fun _ => nofun, Nat.zero_le _⟩⟩
  | isPrivate => exact ⟨.isPrivate, .keyword _ .nil⟩

theorem spelled_static {isStatic : Bool} (h : FormsStatic ts isStatic) :
    FormsStatic (modifier .staticKw isStatic) isStatic ∧
      Respells ts (modifier .staticKw isStatic) := by
  cases h with
  | unsaid => exact ⟨.unsaid, .nil⟩
  | isStatic => exact ⟨.isStatic, .keyword _ .nil⟩

theorem spelled_result {t : Ty} (h : FormsResult ts t) : t.spell = ts ∧ Respells ts ts := by
  cases h with
  | void => exact ⟨rfl, .keyword _ .nil⟩
  | type h => exact spelled_type h

theorem spelled_param {q : Param} (h : FormsParam ts q) :
    FormsParam q.spell q ∧ Respells ts q.spell := by
  obtain ⟨htype⟩ := h
  obtain ⟨hspell, htypes⟩ := spelled_type htype
  rw [Param.spell, hspell]
  exact ⟨.mk htype, htypes.append (.identifier _ .nil)⟩

theorem spelled_params {params : List Param} (h : FormsParams ts params) :
    FormsParams (commas (params.map Param.spell)) params ∧
      Respells ts (commas (params.map Param.spell)) := by
  cases h with
  | none => exact ⟨.none, .nil⟩
  | some h =>
    obtain ⟨hforms, hrespells⟩ := spelled_separated (fun _ _ => spelled_param) h
    exact ⟨.some hforms, hrespells⟩

/-- A member, whether it is a field or a method. -/
def Member.spell : Member → List Terminal
  | .field f => f.spell
  | .method m => m.spell

theorem spelled_member {owner : String} {a : Member} (h : FormsMember owner ts a) :
    FormsMember owner a.spell a ∧ Respells ts a.spell := by
  cases h with
  | field haccess hstatic htype =>
    obtain ⟨haccess, hrespells⟩ := spelled_access haccess
    obtain ⟨hstatic, hstatics⟩ := spelled_static hstatic
    obtain ⟨hspell, htypes⟩ := spelled_type htype
    rw [Member.spell, FieldDecl.spell, hspell]
    exact ⟨.field haccess hstatic htype,
      ((hrespells.append hstatics).append htypes).append (.identifier _ (.symbol rfl .nil))⟩
  | method haccess hstatic hreturns hparams hbody =>
    rename_i name _ _
    obtain ⟨haccess, hrespells⟩ := spelled_access haccess
    obtain ⟨hstatic, hstatics⟩ := spelled_static hstatic
    obtain ⟨hspell, htypes⟩ := spelled_result hreturns
    obtain ⟨hparams, hrespellsp⟩ := spelled_params hparams
    obtain ⟨hbody, hrespellsb⟩ := spelled_stmts _ hbody
    rw [Member.spell, MethodDecl.spell, hspell]
    refine ⟨.method haccess hstatic hreturns hparams hbody, ?_⟩
    have hname := ((hrespells.append hstatics).append htypes).append (.identifier name.value .nil)
    have hbraces := (@Respells.symbol _ _ .openBrace rfl hrespellsb).append
      (@Respells.symbol _ _ .closeBrace rfl .nil)
    -- The parts are put together from the left, as the tokens are printed.
    simpa using hname.call hrespellsp hbraces

theorem Many.append {α : Type} {L : Nonterminal α} {us : List Terminal} {as bs : List α}
    (h : Many L ts as) (h' : Many L us bs) : Many L (ts ++ us) (as ++ bs) := by
  induction h with
  | nil => exact h'
  | cons ha _ ih =>
    rw [append_assoc]
    exact .cons ha ih

/-- Of the members of a class the fields are printed first, then the methods. -/
theorem spelled_members {owner : String} {ms : List Member} (h : Many (FormsMember owner) ts ms) :
    Many (FormsMember owner) ((ms.filterMap Member.field?).flatMap FieldDecl.spell)
        ((ms.filterMap Member.field?).map Member.field) ∧
      Many (FormsMember owner) ((ms.filterMap Member.method?).flatMap MethodDecl.spell)
        ((ms.filterMap Member.method?).map Member.method) ∧
      Respells ts ((ms.filterMap Member.field?).flatMap FieldDecl.spell ++
        (ms.filterMap Member.method?).flatMap MethodDecl.spell) := by
  induction h with
  | nil => exact ⟨.nil, .nil, .nil⟩
  | @cons _ _ a ms ha _ ih =>
    obtain ⟨hfields, hmethods, hrespells⟩ := ih
    obtain ⟨hforms, hrespell⟩ := spelled_member ha
    cases a with
    | field f =>
      refine ⟨.cons hforms hfields, hmethods, ?_⟩
      -- A field is printed where it stands, a method behind all fields.
      show Respells _ (f.spell ++ (ms.filterMap Member.field?).flatMap FieldDecl.spell ++ _)
      rw [append_assoc]
      exact hrespell.append hrespells
    | method =>
      exact ⟨hfields, .cons hforms hmethods, hrespell.insert hrespells⟩

theorem spelled_class {c : ClassDecl} (h : FormsClass ts c) :
    FormsClass c.spell c ∧ Respells ts c.spell := by
  obtain ⟨hmembers⟩ := h
  rename_i ts span name ms
  obtain ⟨hfields, hmethods, hrespells⟩ := spelled_members hmembers
  constructor
  · have hforms : FormsClass _ ⟨span, name, _, _⟩ := .mk (hfields.append hmethods)
    have hnone : ∀ fs : List FieldDecl, (fs.map Member.field).filterMap Member.method? = [] := by
      intro fs
      simp [filterMap_map, Function.comp_def, Member.method?]
    have hnone' : ∀ ms : List MethodDecl, (ms.map Member.method).filterMap Member.field? = [] := by
      intro ms
      simp [filterMap_map, Function.comp_def, Member.field?]
    have hall : ∀ fs : List FieldDecl, (fs.map Member.field).filterMap Member.field? = fs := by
      intro fs
      simp [filterMap_map, Function.comp_def, Member.field?]
    have hall' : ∀ ms : List MethodDecl, (ms.map Member.method).filterMap Member.method? = ms := by
      intro ms
      simp [filterMap_map, Function.comp_def, Member.method?]
    rwa [filterMap_append, filterMap_append, hall, hnone, hnone', hall', append_nil,
      nil_append] at hforms
  · exact (Respells.keyword _ (.identifier _ (hrespells.symbol rfl))).append (.symbol rfl .nil)

/-- What is printed for a program forms it again. -/
theorem spelled_program {p : Program} (h : FormsProgram ts p) :
    FormsProgram (p.spell ++ [.endOfFile]) p ∧
      ∃ us, ts = us ++ [.endOfFile] ∧ Respells us p.spell := by
  obtain ⟨hmany⟩ := h
  obtain ⟨hforms, hrespells⟩ := spelled_many (fun _ _ => spelled_class) hmany
  exact ⟨.mk hforms, _, rfl, hrespells⟩

end Grammar

end MiniJava
