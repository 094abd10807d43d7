import MiniJava.Proofs.Lowering.Totality
import MiniJava.Proofs.Lowering.Unchecked
import MiniJava.Proofs.Positions.Outline

/-!
# Where faults are

Every fault that identification, typing or code generation finds in a program is in the range of a
node of the program.

A phase goes through the tree and takes the range of a fault from a node that it has come to, so
each step is about the ranges in the outline of what the step looks at (`Outline.spansOf`).
-/

namespace MiniJava

open Grammar List

namespace Outline

variable {o : Outline} {os os' : List Outline} {span : Span} {wraps : Bool}

/-- The ranges of all nodes of some outlines. -/
def spansOf (os : List Outline) : List Span := (nodesOf os).filterMap span?

theorem mem_spansOf_self (span : Span) (wraps : Bool) (os : List Outline) :
    span ∈ spansOf [node span wraps os] :=
  mem_filterMap.mpr ⟨node span wraps os, mem_cons_self, rfl⟩

/-- What is in one of the outlines is in all of them. -/
theorem spansOf_subset (ho : o ∈ os) : spansOf [o] ⊆ spansOf os := by
  intro _ ha
  obtain ⟨q, hq, hspan⟩ := mem_filterMap.mp ha
  rw [nodesOf, nodesOf, append_nil] at hq
  exact mem_filterMap.mpr ⟨q, nodes_subset ho hq, hspan⟩

/-- What is in a part of a node is in the node. -/
theorem spansOf_part (ho : o ∈ os) : spansOf [o] ⊆ spansOf [node span wraps os] := by
  intro _ ha
  obtain ⟨q, hq, hspan⟩ := mem_filterMap.mp (spansOf_subset ho ha)
  refine mem_filterMap.mpr ⟨q, ?_, hspan⟩
  rw [nodesOf, nodesOf, append_nil]
  exact mem_cons_of_mem _ hq

theorem mem_spansOf_part {a : Span} (ha : a ∈ spansOf [o]) (ho : o ∈ os := by simp) :
    a ∈ spansOf [node span wraps os] :=
  spansOf_part ho ha

theorem mem_separated (ho : o ∈ os) : o ∈ separated os := by
  induction os with
  | nil => cases ho
  | cons _ others ih =>
    cases others with
    | nil => exact ho
    | cons =>
      obtain rfl | ho := mem_cons.mp ho
      · exact mem_cons_self
      · exact mem_cons_of_mem _ (mem_cons_of_mem _ (ih ho))

end Outline

open Outline

theorem Ident.mem_spansOf (x : Ident) : x.span ∈ spansOf [x.outline] := mem_spansOf_self _ _ _

theorem Ref.mem_spansOf (r : Ref) : r.span ∈ spansOf [r.outline] := mem_spansOf_self _ _ _

theorem mem_spansOf_outlineOfType (type : Located Ty) : type.span ∈ spansOf [outlineOfType type] :=
  mem_spansOf_self _ _ _

theorem Expr.mem_spansOf (e : Expr) : e.span ∈ spansOf [e.outline] := by
  cases e <;> exact mem_spansOf_self _ _ _

theorem Expr.mem_outlines {e : Expr} {es : List Expr} (he : e ∈ es) :
    e.outline ∈ Expr.outlines es := by
  induction es with
  | nil => cases he
  | cons _ _ ih =>
    obtain rfl | he := mem_cons.mp he
    · exact mem_cons_self
    · exact mem_cons_of_mem _ (ih he)

/-- An argument is a part of its call. -/
theorem mem_of_arg {method : Ref} {e : Expr} {args : List Expr} {rest : List Outline}
    (he : e ∈ args) :
    e.outline ∈ [method.outline, token (.symbol .openParen)] ++
      separated (Expr.outlines args) ++ rest :=
  mem_append_left _ (mem_append_right _ (mem_separated (Expr.mem_outlines he)))

theorem Stmt.mem_outlines {a : Stmt} {as : List Stmt} (ha : a ∈ as) :
    a.outline ∈ Stmt.outlines as := by
  induction as with
  | nil => cases ha
  | cons _ _ ih =>
    obtain rfl | ha := mem_cons.mp ha
    · exact mem_cons_self
    · exact mem_cons_of_mem _ (ih ha)

/-- Every fault of a step is in one of these ranges. -/
def FaultsIn {φ α : Type} (spans : List Span) (x : Except (Located φ) α) : Prop :=
  FailsOnly (·.span ∈ spans) x

variable {e : Located TypeFault} {span : Span} {m : MethodDecl} {c : ClassDecl} {p : Program}
  {className : String} {name : Ident}

namespace FaultsIn

variable {φ α β : Type} {spans spans' : List Span} {x : Except (Located φ) α}

theorem ok (a : α) : FaultsIn spans (.ok a : Except (Located φ) α) := FailsOnly.ok a

theorem error {fault : φ} (h : span ∈ spans) :
    FaultsIn spans (.error ⟨fault, span⟩ : Except (Located φ) α) := FailsOnly.error h

theorem bind {f : α → Except (Located φ) β} (hx : FaultsIn spans x)
    (hf : ∀ a, FaultsIn spans (f a)) : FaultsIn spans (x >>= f) := FailsOnly.bind hx fun a _ => hf a

theorem subset (hx : FaultsIn spans x) (h : spans ⊆ spans') : FaultsIn spans' x :=
  FailsOnly.mono hx fun _ he => h he

/-- The faults of a part of a node. -/
theorem part {o : Outline} {os : List Outline} {wraps : Bool} (hx : FaultsIn (spansOf [o]) x)
    (ho : o ∈ os := by simp) : FaultsIn (spansOf [node span wraps os]) x :=
  hx.subset (spansOf_part ho)

theorem of_mem (hx : FaultsIn [span] x) (h : span ∈ spans) : FaultsIn spans x :=
  hx.subset fun _ ha => mem_singleton.mp ha ▸ h

theorem forM {f : β → Except (Located φ) Unit} {l : List β} (h : ∀ b ∈ l, FaultsIn spans (f b)) :
    FaultsIn spans (l.forM f) := by
  induction l with
  | nil => exact .ok ()
  | cons b _ ih =>
    rw [forM_eq_forM, forM_cons]
    refine bind (h b mem_cons_self) fun _ => ?_
    exact ih fun c hc => h c (mem_cons_of_mem b hc)

theorem foldlM {f : α → β → Except (Located φ) α} {l : List β}
    (h : ∀ a, ∀ b ∈ l, FaultsIn spans (f a b)) (a : α) : FaultsIn spans (l.foldlM f a) := by
  induction l generalizing a with
  | nil => exact .ok a
  | cons b _ ih =>
    rw [foldlM_cons]
    refine bind (h a b mem_cons_self) fun a' => ?_
    exact ih (fun c d hd => h c d (mem_cons_of_mem b hd)) a'

end FaultsIn

/-! ## Identification -/

namespace Identification

/-- What looks names up fails at one of these ranges, and not because a name is declared twice. -/
def LooksUp {α : Type} (spans : List Span) (x : Result α) : Prop :=
  FailsOnly (fun e => e.span ∈ spans ∧ ∀ name, e.value ≠ .redeclared name) x

namespace LooksUp

variable {α β : Type} {spans spans' : List Span} {x : Result α}

theorem ok (a : α) : LooksUp spans (.ok a : Result α) := FailsOnly.ok a

theorem error {fault : ScopeFault} (h : span ∈ spans) (hfault : ∀ name, fault ≠ .redeclared name) :
    LooksUp spans (.error ⟨fault, span⟩ : Result α) :=
  FailsOnly.error ⟨h, hfault⟩

theorem bind {f : α → Result β} (hx : LooksUp spans x) (hf : ∀ a, LooksUp spans (f a)) :
    LooksUp spans (x >>= f) := FailsOnly.bind hx fun a _ => hf a

theorem subset (hx : LooksUp spans x) (h : spans ⊆ spans') : LooksUp spans' x :=
  FailsOnly.mono hx fun _ he => ⟨h he.1, he.2⟩

theorem of_mem (hx : LooksUp [span] x) (h : span ∈ spans) : LooksUp spans x :=
  hx.subset fun _ ha => mem_singleton.mp ha ▸ h

theorem part {o : Outline} {os : List Outline} {wraps : Bool} (hx : LooksUp (spansOf [o]) x)
    (ho : o ∈ os := by simp) : LooksUp (spansOf [node span wraps os]) x :=
  hx.subset (spansOf_part ho)

theorem faultsIn (hx : LooksUp spans x) : FaultsIn spans x := FailsOnly.mono hx fun _ he => he.1

end LooksUp

theorem looksUp_checkType (table : ClassTable) (type : Located Ty) :
    LooksUp [type.span] (checkType table type) := by
  unfold checkType
  split
  next =>
    split
    · exact .ok ()
    · exact .error mem_cons_self nofun
  next => exact .ok ()

theorem faultsIn_declare (locals : ScopeStack LocalVar) (name : Ident) (v : LocalVar) :
    FaultsIn [name.span] (declare locals name v) := by
  unfold declare
  split
  next => exact .ok _
  next => exact .error mem_cons_self

theorem looksUp_checkBranch (s : Stmt) : LooksUp (spansOf [s.outline]) (checkBranch s) := by
  unfold checkBranch
  split
  next => exact .error (mem_spansOf_self _ _ _) nofun
  next => exact .ok ()

namespace Site

variable (site : Site) (locals : ScopeStack LocalVar)

theorem looksUp_resolveName (span : Span) (name : String) :
    LooksUp [span] (site.resolveName locals span name) := by
  have hspan : span ∈ [span] := mem_cons_self
  unfold resolveName
  split
  next =>
    split
    · exact .ok _
    · exact .error hspan nofun
  next =>
    split
    next =>
      split
      · exact .error hspan nofun
      · exact .ok _
    next =>
      split
      next =>
        split
        · exact .error hspan nofun
        · exact .ok _
      next =>
        split
        · exact .ok _
        · exact .error hspan nofun

theorem looksUp_checkAccess {throughClass : Bool} {owner : String} {isPrivate isStatic : Bool} :
    LooksUp [name.span] (site.checkAccess className throughClass name owner isPrivate
      isStatic) := by
  unfold checkAccess
  split
  · exact .error mem_cons_self nofun
  · split
    · exact .error mem_cons_self nofun
    · exact .ok ()

theorem looksUp_resolveMember {throughClass : Bool} :
    LooksUp [name.span] (site.resolveMember className throughClass name) := by
  unfold resolveMember
  split
  next => exact site.looksUp_checkAccess.bind fun _ => .ok _
  next =>
    split
    next => exact site.looksUp_checkAccess.bind fun _ => .ok _
    next => exact .error mem_cons_self nofun

theorem looksUp_memberContext (base : Ref) (member : Ident) (referent : Referent) :
    LooksUp [base.span, member.span] (site.memberContext base member referent) := by
  have hbase : base.span ∈ [base.span, member.span] := mem_cons_self
  have hmember : member.span ∈ [base.span, member.span] := mem_cons_of_mem _ mem_cons_self
  unfold memberContext
  split
  next => exact .ok _
  next => exact .ok _
  next => exact .ok _
  next => exact .error hmember nofun
  next => exact .error hmember nofun
  next => exact .ok _
  next => exact .error hbase nofun

theorem looksUp_resolve (r : Ref) : LooksUp (spansOf [r.outline]) (site.resolve locals r) := by
  induction r with
  | this =>
    unfold resolve
    split
    · refine .error (Ref.mem_spansOf _) ?_
      intro name h
      cases h
    · exact .ok _
  | name span text =>
    exact (site.looksUp_resolveName locals span text).of_mem (Ref.mem_spansOf _)
  | member span base field ih =>
    have hbase : spansOf [base.outline] ⊆ spansOf [(Ref.member span base field).outline] :=
      spansOf_part mem_cons_self
    have hfield : spansOf [field.outline] ⊆ spansOf [(Ref.member span base field).outline] :=
      spansOf_part (by simp [Ref.writtenParts])
    refine (ih.subset hbase).bind fun referent => ?_
    -- Whether the base has members is a question to the base, what they are one to the field.
    refine LooksUp.bind ((site.looksUp_memberContext base field referent).subset ?_) fun _ => ?_
    · exact cons_subset.mpr ⟨hbase base.mem_spansOf,
        cons_subset.mpr ⟨hfield field.mem_spansOf, nil_subset _⟩⟩
    · exact site.looksUp_resolveMember.of_mem (hfield field.mem_spansOf)

theorem looksUp_checkValue (r : Ref) : LooksUp (spansOf [r.outline])
    (site.checkValue locals r) := by
  refine (site.looksUp_resolve locals r).bind fun referent => ?_
  cases referent with
  | classNamed | method => exact .error r.mem_spansOf nofun
  | _ => exact .ok ()

theorem looksUp_checkTarget (r : Ref) : LooksUp (spansOf [r.outline])
    (site.checkTarget locals r) := by
  refine (site.looksUp_resolve locals r).bind fun referent => ?_
  cases referent with
  | this | classNamed | method => exact .error r.mem_spansOf nofun
  | _ => exact .ok ()

theorem looksUp_checkCallee (r : Ref) : LooksUp (spansOf [r.outline])
    (site.checkCallee locals r) := by
  refine (site.looksUp_resolve locals r).bind fun referent => ?_
  cases referent with
  | method => exact .ok ()
  | _ => exact .error r.mem_spansOf nofun

mutual

theorem looksUp_checkExpr : ∀ e : Expr, LooksUp (spansOf [e.outline]) (site.checkExpr locals e)
  | .literal _ _ => .ok ()
  | .unary _ _ operand => (looksUp_checkExpr operand).part
  | .binary _ _ left right =>
    (looksUp_checkExpr left).part.bind fun _ => (looksUp_checkExpr right).part
  | .ref target => site.looksUp_checkValue locals target
  | .index _ target position =>
    (site.looksUp_checkValue locals target).part.bind fun _ => (looksUp_checkExpr position).part
  | .call _ method args =>
    (site.looksUp_checkCallee locals method).part.bind fun _ =>
      looksUp_checkExprs args fun e he => spansOf_part (mem_of_arg he)
  | .newObject _ className =>
    (looksUp_checkType site.table _).of_mem (mem_spansOf_part className.mem_spansOf)
  | .newArray _ element size =>
    ((looksUp_checkType site.table element).of_mem
      (mem_spansOf_part (mem_spansOf_outlineOfType element))).bind fun _ =>
        (looksUp_checkExpr size).part

theorem looksUp_checkExprs {spans : List Span} : ∀ es : List Expr,
    (∀ e ∈ es, spansOf [e.outline] ⊆ spans) → LooksUp spans (site.checkExprs locals es)
  | [], _ => .ok ()
  | e :: es, h =>
    ((looksUp_checkExpr e).subset (h e mem_cons_self)).bind fun _ =>
      looksUp_checkExprs es fun d hd => h d (mem_cons_of_mem e hd)

end

mutual

/-- A fault in a statement is reported at a node of it. -/
theorem faultsIn_checkStmt (locals : ScopeStack LocalVar) :
    ∀ s : Stmt, FaultsIn (spansOf [s.outline]) (site.checkStmt locals s)
  | .block _ body => by
    refine (faultsIn_checkStmts locals.push body fun s hs => spansOf_part ?_).bind fun _ => .ok _
    exact mem_cons_of_mem _ (mem_append_left _ (Stmt.mem_outlines hs))
  | .declare _ type name init => by
    refine FaultsIn.bind (((looksUp_checkType site.table type).of_mem ?_).faultsIn) fun _ => ?_
    · exact mem_spansOf_part (mem_spansOf_outlineOfType type)
    refine FaultsIn.bind ((faultsIn_declare locals name _).of_mem ?_) fun during => ?_
    · exact mem_spansOf_part name.mem_spansOf
    exact (site.looksUp_checkExpr during init).part.faultsIn.bind fun _ => .ok _
  | .assign _ target value => by
    refine (site.looksUp_checkTarget locals target).part.faultsIn.bind fun _ => ?_
    exact (site.looksUp_checkExpr locals value).part.faultsIn.bind fun _ => .ok _
  | .assignIndex _ target position value => by
    refine (site.looksUp_checkValue locals target).part.faultsIn.bind fun _ => ?_
    refine (site.looksUp_checkExpr locals position).part.faultsIn.bind fun _ => ?_
    exact (site.looksUp_checkExpr locals value).part.faultsIn.bind fun _ => .ok _
  | .call _ method args => by
    refine (site.looksUp_checkCallee locals method).part.faultsIn.bind fun _ => ?_
    refine FaultsIn.bind ((site.looksUp_checkExprs locals args fun e he => ?_).faultsIn)
      fun _ => .ok _
    exact spansOf_part (mem_of_arg he)
  | .ret _ none => .ok _
  | .ret _ (some value) =>
    (site.looksUp_checkExpr locals value).part.faultsIn.bind fun _ => .ok _
  | .ifThen _ test thenBranch => by
    refine (site.looksUp_checkExpr locals test).part.faultsIn.bind fun _ => ?_
    refine (looksUp_checkBranch thenBranch).part.faultsIn.bind fun _ => ?_
    exact (faultsIn_checkStmt locals thenBranch).part
  | .ifThenElse _ test thenBranch elseBranch => by
    refine (site.looksUp_checkExpr locals test).part.faultsIn.bind fun _ => ?_
    refine (looksUp_checkBranch thenBranch).part.faultsIn.bind fun _ => ?_
    refine (faultsIn_checkStmt locals thenBranch).part.bind fun after => ?_
    refine (looksUp_checkBranch elseBranch).part.faultsIn.bind fun _ => ?_
    exact (faultsIn_checkStmt after elseBranch).part
  | .loop _ test body => by
    refine (site.looksUp_checkExpr locals test).part.faultsIn.bind fun _ => ?_
    refine (looksUp_checkBranch body).part.faultsIn.bind fun _ => ?_
    exact (faultsIn_checkStmt locals body).part

theorem faultsIn_checkStmts {spans : List Span} (locals : ScopeStack LocalVar) : ∀ ss : List Stmt,
    (∀ s ∈ ss, spansOf [s.outline] ⊆ spans) → FaultsIn spans (site.checkStmts locals ss)
  | [], _ => .ok _
  | s :: ss, h =>
    ((faultsIn_checkStmt locals s).subset (h s mem_cons_self)).bind fun after =>
      faultsIn_checkStmts after ss fun d hd => h d (mem_cons_of_mem s hd)

end

end Site

end Identification

/-! ## Parts of classes -/

/-- What is in a member is in its class. -/
theorem ClassDecl.spansOf_member {a : Member} (ha : a ∈ c.members) :
    spansOf [a.outline] ⊆ spansOf [c.outline] :=
  spansOf_part (mem_append_left _ (mem_append_right _ (mem_map_of_mem ha)))

theorem ClassDecl.field_mem_members {f : FieldDecl} (hf : f ∈ c.fields) :
    Member.field f ∈ c.members :=
  mem_merge.mpr (.inl (mem_map_of_mem hf))

theorem ClassDecl.method_mem_members (hm : m ∈ c.methods) :
    Member.method m ∈ c.members :=
  mem_merge.mpr (.inr (mem_map_of_mem hm))

theorem Program.spansOf_class (hc : c ∈ p.classes) :
    spansOf [c.outline] ⊆ spansOf p.outlines :=
  spansOf_subset (mem_map_of_mem hc)

theorem ClassDecl.name_mem_spansOf (c : ClassDecl) : c.name.span ∈ spansOf [c.outline] :=
  mem_spansOf_part c.name.mem_spansOf

theorem FieldDecl.name_mem_spansOf (f : FieldDecl) :
    f.name.span ∈ spansOf [(Member.field f).outline] :=
  mem_spansOf_part f.name.mem_spansOf

theorem MethodDecl.name_mem_spansOf (m : MethodDecl) :
    m.name.span ∈ spansOf [(Member.method m).outline] :=
  mem_spansOf_part m.name.mem_spansOf

theorem MethodDecl.spansOf_body {s : Stmt} (hs : s ∈ m.body) :
    spansOf [s.outline] ⊆ spansOf [(Member.method m).outline] :=
  spansOf_part (mem_append_left _ (mem_append_right _ (Stmt.mem_outlines hs)))

theorem MethodDecl.spansOf_param {q : Param} (hq : q ∈ m.params) :
    spansOf [q.outline] ⊆ spansOf [(Member.method m).outline] := by
  refine spansOf_part (mem_append_left _ (mem_append_left _ (mem_append_left _
    (mem_append_right _ ?_))))
  exact mem_separated (mem_map_of_mem hq)

namespace Identification

theorem faultsIn_declareParam (table : ClassTable) (locals : ScopeStack LocalVar) (q : Param) :
    FaultsIn (spansOf [q.outline]) (declareParam table locals q) := by
  refine FaultsIn.bind (((looksUp_checkType table q.type).of_mem ?_).faultsIn) fun _ => ?_
  · exact mem_spansOf_part (mem_spansOf_outlineOfType q.type)
  · exact (faultsIn_declare locals q.name _).of_mem (mem_spansOf_part q.name.mem_spansOf)

theorem faultsIn_checkMethod (table : ClassTable) (className : String) (m : MethodDecl) :
    FaultsIn (spansOf [(Member.method m).outline]) (checkMethod table className m) := by
  refine FaultsIn.bind (((looksUp_checkType table m.returns).of_mem ?_).faultsIn) fun _ => ?_
  · exact mem_spansOf_part (mem_spansOf_outlineOfType m.returns)
  refine FaultsIn.bind (FaultsIn.foldlM (fun locals q hq => ?_) _) fun locals => ?_
  · exact (faultsIn_declareParam table locals q).subset (MethodDecl.spansOf_param hq)
  refine FaultsIn.bind (Site.faultsIn_checkStmts _ locals m.body fun s hs => ?_) fun _ => .ok ()
  exact MethodDecl.spansOf_body hs

theorem faultsIn_checkClass (table : ClassTable) (c : ClassDecl) :
    FaultsIn (spansOf [c.outline]) (checkClass table c) := by
  refine FaultsIn.bind (FaultsIn.forM fun f hf => ?_) fun _ => FaultsIn.forM fun m hm => ?_
  · refine ((looksUp_checkType table f.type).of_mem ?_).faultsIn
    refine ClassDecl.spansOf_member (ClassDecl.field_mem_members hf) ?_
    exact mem_spansOf_part (mem_spansOf_outlineOfType f.type)
  · refine (faultsIn_checkMethod table c.name.value m).subset ?_
    exact ClassDecl.spansOf_member (ClassDecl.method_mem_members hm)

end Identification

theorem mem_of_firstRepeated? {seen : List String} {names : List Ident}
    (h : firstRepeated? seen names = some name) : name ∈ names := by
  induction names generalizing seen with
  | nil => cases h
  | cons _ _ ih =>
    unfold firstRepeated? at h
    split at h
    next =>
      cases h
      exact mem_cons_self
    next => exact mem_cons_of_mem _ (ih h)

theorem faultsIn_ofDecl (c : ClassDecl) : FaultsIn (spansOf [c.outline]) (ClassEntry.ofDecl c) := by
  unfold ClassEntry.ofDecl
  split
  next hname =>
    refine .error ?_
    obtain hname | hname := mem_append.mp (mem_of_firstRepeated? hname)
    · obtain ⟨f, hf, rfl⟩ := mem_map.mp hname
      exact ClassDecl.spansOf_member (ClassDecl.field_mem_members hf) f.name_mem_spansOf
    · obtain ⟨m, hm, rfl⟩ := mem_map.mp hname
      exact ClassDecl.spansOf_member (ClassDecl.method_mem_members hm) m.name_mem_spansOf
  next => exact .ok _

/-- The fault of identification is in a node of the program. -/
theorem mem_spans_of_identify {e : Located ScopeFault} (h : identify p = .error e) :
    e.span ∈ spansOf p.outlines := by
  -- A class is refused at its name, or at the name of a member that repeats an earlier one.
  have htable : FaultsIn (spansOf p.outlines) (ClassTable.ofProgram p) := by
    refine FaultsIn.foldlM (fun table c hc => ?_) _
    unfold ClassTable.declare
    split
    · exact .error (Program.spansOf_class hc c.name_mem_spansOf)
    · exact ((faultsIn_ofDecl c).subset (Program.spansOf_class hc)).bind fun _ => .ok _
  have hprogram : FaultsIn (spansOf p.outlines) (identify p) := by
    refine htable.bind fun table => FaultsIn.bind (FaultsIn.forM fun c hc => ?_) fun _ => .ok _
    exact (Identification.faultsIn_checkClass table c).subset (Program.spansOf_class hc)
  exact hprogram e h

/-! ## Typing -/

namespace Typing

theorem mem_of_faultUnless {ok : Bool} {fault : TypeFault} (h : e ∈ faultUnless ok fault span) :
    e.span = span := by
  unfold faultUnless at h
  split at h
  · cases h
  · rw [mem_singleton.mp h]

theorem mem_of_argumentFaults {method : String} {params : List Ty} {args : List (Located Ty)}
    {n : Nat} (h : e ∈ argumentFaults method n params args) :
    ∃ arg ∈ args, e.span = arg.span := by
  induction args generalizing n params with
  | nil => cases params <;> cases h
  | cons arg _ ih =>
    cases params with
    | nil => cases h
    | cons =>
      obtain h | h := mem_append.mp h
      · exact ⟨arg, mem_cons_self, mem_of_faultUnless h⟩
      · obtain ⟨other, hother, hspan⟩ := ih h
        exact ⟨other, mem_cons_of_mem arg hother, hspan⟩

namespace Env

variable (env : Env)

/-- The faults of a value and of what is asked of its type. -/
theorem mem_spans_of_demand {value : Expr} {holds : Bool} {fault : TypeFault}
    (hvalue : ∀ e ∈ (env.infer value).faults, e.span ∈ spansOf [value.outline])
    (h : e ∈ (env.infer value).faults ++ faultUnless holds fault value.span) :
    e.span ∈ spansOf [value.outline] := by
  obtain h | h := mem_append.mp h
  · exact hvalue e h
  · rw [mem_of_faultUnless h]
    exact value.mem_spansOf

theorem mem_spans_of_elementType {target : Ref} {position : Expr}
    (hposition : ∀ e ∈ (env.infer position).faults, e.span ∈ spansOf [position.outline])
    (h : e ∈ (env.elementType target position.span (env.infer position)).faults) :
    e.span ∈ spansOf [position.outline] ∨ e.span ∈ spansOf [target.outline] := by
  unfold elementType at h
  split at h
  · exact .inl (env.mem_spans_of_demand hposition h)
  · exact .inl (env.mem_spans_of_demand hposition h)
  · obtain h | h := mem_append.mp h
    · exact .inl (env.mem_spans_of_demand hposition h)
    · rw [mem_singleton.mp h]
      exact .inr target.mem_spansOf

theorem exists_of_mem_inferArgs {xs : List Expr} {arg : Located Ty}
    (h : arg ∈ (env.inferArgs xs).1) : ∃ x ∈ xs, arg.span = x.span := by
  induction xs with
  | nil => cases h
  | cons x _ ih =>
    obtain rfl | h := mem_cons.mp h
    · exact ⟨x, mem_cons_self, rfl⟩
    · obtain ⟨y, hy, hspan⟩ := ih h
      exact ⟨y, mem_cons_of_mem x hy, hspan⟩

theorem mem_spans_of_callType {method : Ref} {args : List Expr}
    (hargs : ∀ e ∈ (env.inferArgs args).2, ∃ x ∈ args, e.span ∈ spansOf [x.outline])
    (h : e ∈ (env.callType method (env.inferArgs args).1 (env.inferArgs args).2).faults) :
    e.span ∈ spansOf [method.outline] ∨ ∃ x ∈ args, e.span ∈ spansOf [x.outline] := by
  unfold callType at h
  split at h
  · split at h
    · obtain h | h := mem_append.mp h
      · exact .inr (hargs e h)
      · obtain ⟨_, harg, hspan⟩ := mem_of_argumentFaults h
        obtain ⟨x, hx, hspan'⟩ := env.exists_of_mem_inferArgs harg
        exact .inr ⟨x, hx, hspan.trans hspan' ▸ x.mem_spansOf⟩
    · obtain h | h := mem_append.mp h
      · exact .inr (hargs e h)
      · rw [mem_singleton.mp h]
        exact .inl method.mem_spansOf
  · exact .inr (hargs e h)

mutual

theorem mem_spans_of_infer : ∀ {x : Expr} {e : Located TypeFault}, e ∈ (env.infer x).faults →
    e.span ∈ spansOf [x.outline]
  | .literal _ _, _, h => nomatch h
  | .unary span op operand, e, h => by
    have hoperand : ∀ e ∈ (env.infer operand).faults,
        e.span ∈ spansOf [(Expr.unary span op operand).outline] := fun e he =>
      mem_spansOf_part (mem_spans_of_infer he)
    unfold infer at h
    dsimp only at h
    split at h
    · exact hoperand e h
    · obtain h | h := mem_append.mp h
      · exact hoperand e h
      · rw [mem_singleton.mp h]
        exact Expr.mem_spansOf _
  | .binary span op left right, e, h => by
    have hoperands : ∀ e ∈ (env.infer left).faults ++ (env.infer right).faults,
        e.span ∈ spansOf [(Expr.binary span op left right).outline] := by
      intro e he
      obtain he | he := mem_append.mp he
      · exact mem_spansOf_part (mem_spans_of_infer he)
      · exact mem_spansOf_part (mem_spans_of_infer he)
    unfold infer at h
    dsimp only at h
    split at h
    · exact hoperands e h
    · obtain h | h := mem_append.mp h
      · exact hoperands e h
      · rw [mem_singleton.mp h]
        exact Expr.mem_spansOf _
  | .ref _, _, h => nomatch h
  | .index _ _ _, _, h => by
    obtain h | h := env.mem_spans_of_elementType (fun _ => mem_spans_of_infer) h
    · exact mem_spansOf_part h
    · exact mem_spansOf_part h
  | .call _ _ _, _, h => by
    obtain h | ⟨_, hx, h⟩ := env.mem_spans_of_callType (fun _ => mem_spans_of_inferArgs) h
    · exact mem_spansOf_part h
    · exact spansOf_part (mem_of_arg hx) h
  | .newObject _ _, _, h => nomatch h
  | .newArray span element size, e, h => by
    have hsize : ∀ {holds fault e}, e ∈ (env.infer size).faults ++
      faultUnless holds fault size.span →
        e.span ∈ spansOf [(Expr.newArray span element size).outline] := fun he =>
      mem_spansOf_part (env.mem_spans_of_demand (fun _ => mem_spans_of_infer) he)
    unfold infer at h
    dsimp only at h
    split at h
    · exact hsize h
    · exact hsize h
    · obtain h | h := mem_append.mp h
      · exact hsize h
      · rw [mem_singleton.mp h]
        exact mem_spansOf_part (mem_spansOf_outlineOfType element)

theorem mem_spans_of_inferArgs : ∀ {xs : List Expr} {e : Located TypeFault},
    e ∈ (env.inferArgs xs).2 → ∃ x ∈ xs, e.span ∈ spansOf [x.outline]
  | [], _, h => nomatch h
  | x :: xs, e, h => by
    obtain h | h := mem_append.mp h
    · exact ⟨x, mem_cons_self, mem_spans_of_infer h⟩
    · obtain ⟨y, hy, hspan⟩ := mem_spans_of_inferArgs h
      exact ⟨y, mem_cons_of_mem x hy, hspan⟩

end

end Env

namespace Site

variable (site : Site)

theorem mem_spans_of_returnFaults {locals : ScopeStack Ty} {value : Option Expr}
    (h : e ∈ site.returnFaults locals span value) :
    e.span ∈ spansOf [(Stmt.ret span value).outline] := by
  cases value with
  | none =>
    rw [mem_of_faultUnless h]
    exact mem_spansOf_self _ _ _
  | some value =>
    have hvalue : spansOf [value.outline] ⊆ spansOf [(Stmt.ret span (some value)).outline] :=
      spansOf_part (by simp)
    unfold returnFaults at h
    dsimp only at h
    split at h
    -- Whether or not a value is wanted, the faults of the one that is given come first.
    all_goals
      obtain h | h := mem_append.mp h
      · exact hvalue (Env.mem_spans_of_infer _ h)
    · rw [mem_singleton.mp h]
      exact hvalue value.mem_spansOf
    · rw [mem_of_faultUnless h]
      exact hvalue value.mem_spansOf

mutual

/-- Every fault of a statement is at a node of it. -/
theorem mem_spans_of_checkStmt : ∀ {locals : ScopeStack Ty} {s : Stmt} {e : Located TypeFault},
    e ∈ (site.checkStmt locals s).2 → e.span ∈ spansOf [s.outline]
  | _, .block _ _, _, h => by
    obtain ⟨_, hs, hspan⟩ := mem_spans_of_checkStmts h
    exact spansOf_part (mem_cons_of_mem _ (mem_append_left _ (Stmt.mem_outlines hs))) hspan
  | _, .declare _ _ _ _, _, h => mem_spansOf_part
    (Env.mem_spans_of_demand _ (fun _ => Env.mem_spans_of_infer _) h)
  | _, .assign _ _ _, _, h => mem_spansOf_part
    (Env.mem_spans_of_demand _ (fun _ => Env.mem_spans_of_infer _) h)
  | _, .assignIndex _ _ _ value, _, h => by
    obtain h | h := mem_append.mp h
    · obtain h | h := mem_append.mp h
      · obtain h | h := Env.mem_spans_of_elementType _ (fun _ => Env.mem_spans_of_infer _) h
        · exact mem_spansOf_part h
        · exact mem_spansOf_part h
      · exact mem_spansOf_part (Env.mem_spans_of_infer _ h)
    · rw [mem_of_faultUnless h]
      exact mem_spansOf_part value.mem_spansOf
  | _, .call _ _ _, _, h => by
    obtain h | ⟨_, hx, h⟩ := Env.mem_spans_of_callType _ (fun _ => Env.mem_spans_of_inferArgs _) h
    · exact mem_spansOf_part h
    · exact spansOf_part (mem_of_arg hx) h
  | _, .ret _ _, _, h => site.mem_spans_of_returnFaults h
  | _, .ifThen _ _ _, _, h => by
    obtain h | h := mem_append.mp h
    · exact mem_spansOf_part (Env.mem_spans_of_demand _ (fun _ => Env.mem_spans_of_infer _) h)
    · exact mem_spansOf_part (mem_spans_of_checkStmt h)
  | _, .ifThenElse _ _ _ _, _, h => by
    obtain h | h := mem_append.mp h
    · obtain h | h := mem_append.mp h
      · exact mem_spansOf_part (Env.mem_spans_of_demand _ (fun _ => Env.mem_spans_of_infer _) h)
      · exact mem_spansOf_part (mem_spans_of_checkStmt h)
    · exact mem_spansOf_part (mem_spans_of_checkStmt h)
  | _, .loop _ _ _, _, h => by
    obtain h | h := mem_append.mp h
    · exact mem_spansOf_part (Env.mem_spans_of_demand _ (fun _ => Env.mem_spans_of_infer _) h)
    · exact mem_spansOf_part (mem_spans_of_checkStmt h)

theorem mem_spans_of_checkStmts :
    ∀ {locals : ScopeStack Ty} {ss : List Stmt} {e : Located TypeFault},
    e ∈ (site.checkStmts locals ss).2 → ∃ s ∈ ss, e.span ∈ spansOf [s.outline]
  | _, [], _, h => nomatch h
  | _, s :: ss, _, h => by
    obtain h | h := mem_append.mp h
    · exact ⟨s, mem_cons_self, mem_spans_of_checkStmt h⟩
    · obtain ⟨t, ht, hspan⟩ := mem_spans_of_checkStmts h
      exact ⟨t, mem_cons_of_mem s ht, hspan⟩

end

end Site

theorem mem_spans_of_checkMethod {table : ClassTable} (h : e ∈ checkMethod table className m) :
    e.span ∈ spansOf [(Member.method m).outline] := by
  obtain h | h := mem_append.mp h
  · obtain ⟨_, hs, hspan⟩ := Site.mem_spans_of_checkStmts _ h
    exact MethodDecl.spansOf_body hs hspan
  · rw [mem_of_faultUnless h]
    exact m.name_mem_spansOf

end Typing

/-- What is in a method of a program is in the program. -/
theorem Program.spansOf_method (hc : c ∈ p.classes) (hm : m ∈ c.methods) :
    spansOf [(Member.method m).outline] ⊆ spansOf p.outlines := fun _ ha =>
  Program.spansOf_class hc (ClassDecl.spansOf_member (ClassDecl.method_mem_members hm) ha)

/-- Every fault of typing is in a node of the program. -/
theorem mem_spans_of_typeCheck {table : ClassTable} (h : e ∈ typeCheck table p) :
    e.span ∈ spansOf p.outlines := by
  obtain ⟨_, hc, h⟩ := mem_flatMap.mp h
  obtain ⟨_, hm, h⟩ := mem_flatMap.mp h
  exact Program.spansOf_method hc hm (Typing.mem_spans_of_checkMethod h)

/-! ## Code generation -/

/-- A second main method is reported at its name. -/
theorem mem_spans_of_findMain {e : CodegenError} (h : findMain p = .error e)
    (hspan : e.span = some span) : span ∈ spansOf p.outlines := by
  unfold findMain at h
  split at h
  · cases h
    cases hspan
  · cases h
  next className second _ hmains =>
    cases h
    cases hspan
    -- The second of the main methods is a method of the program like any other.
    have hmem : (className, second) ∈ (Lowering.methodsOf p).filter (·.2.isMain) := by
      rw [hmains]
      exact mem_cons_of_mem _ mem_cons_self
    obtain ⟨_, hc, hmethod⟩ := mem_flatMap.mp (mem_filter.mp hmem).1
    obtain ⟨_, hm, heq⟩ := mem_map.mp hmethod
    cases heq
    exact Program.spansOf_method hc hm second.name_mem_spansOf

end MiniJava
