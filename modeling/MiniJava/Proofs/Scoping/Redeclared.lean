import MiniJava.Proofs.Positions.Faults
import MiniJava.Proofs.Resolution.TableOf
import MiniJava.Proofs.Scoping.Declared

/-!
# Which declaration is reported

A name that is declared twice in a scope is reported at one of its declarations (`redeclared_iff`).

Identification claims names in the order of the source, but for the members of a class: of these it
claims the fields first. Where the name was found twice is told by `Program.Clash`, one case for
each kind of scope.
-/

namespace MiniJava

open Grammar Identification Outline List

/-- A clash behind something that looks names up is in what comes next. -/
theorem Identification.LooksUp.exists_ok {α β : Type} {spans : List Span} {x : Result α}
    {f : α → Result β} (hx : LooksUp spans x) {name : String} {span : Span}
    (h : x >>= f = .error ⟨.redeclared name, span⟩) :
    ∃ a, x = .ok a ∧ f a = .error ⟨.redeclared name, span⟩ := by
  obtain hx' | h := bind_eq_error.mp h
  · exact absurd rfl ((hx _ hx').2 name)
  · exact h

/-- The name stands behind another declaration of it in the scope. -/
def Repeats (scope : List Ident) (d : Ident) : Prop :=
  ∃ before behind, scope = before ++ d :: behind ∧ d.value ∈ before.map (·.value)

variable {table : ClassTable} {c : ClassDecl} {name : Ident}

theorem ident_eq_of_redeclared {d : Ident}
    (h : (⟨.redeclared name.value, name.span⟩ : Located ScopeFault) =
      ⟨.redeclared d.value, d.span⟩) :
    name = d := by
  obtain ⟨hvalue, hspan⟩ := Located.mk.inj h
  exact congr (congrArg Located.mk (ScopeFault.redeclared.inj hvalue)) hspan

section

variable {locals locals' : ScopeStack LocalVar} {inner : List String} {outer : List (List String)}
  {d : Ident}

theorem names_of_declare {v : LocalVar} (hn : locals.names = inner :: outer)
    (h : declare locals name v = .ok locals') : locals'.names = (name.value :: inner) :: outer := by
  unfold declare at h
  obtain ⟨hnone, -⟩ | ⟨_, hsome, -, ht⟩ := ScopeStack.define?_cases hn name.value v
  · rw [hnone] at h
    cases h
  · rw [hsome] at h
    cases h
    exact ht

theorem mem_of_declare {v : LocalVar} (hn : locals.names = inner :: outer)
    (h : declare locals name v = .error ⟨.redeclared d.value, d.span⟩) :
    name = d ∧ d.value ∈ inner := by
  unfold declare at h
  obtain ⟨hnone, hmem⟩ | ⟨_, hsome, -⟩ := ScopeStack.define?_cases hn name.value v
  · rw [hnone] at h
    obtain rfl := ident_eq_of_redeclared (Except.error.inj h)
    exact ⟨rfl, hmem⟩
  · rw [hsome] at h
    cases h

theorem declaredName?_of_checkBranch {s : Stmt} (h : checkBranch s = .ok ()) :
    s.declaredName? = none := by
  cases s with
  | declare => cases h
  | _ => rfl

variable {site : Site}

mutual

/-- A statement that passes leaves the name that it declares in the innermost scope. -/
theorem names_of_checkStmt {locals locals' : ScopeStack LocalVar} {inner : List String}
    {outer : List (List String)} (hn : locals.names = inner :: outer) :
    ∀ s : Stmt, site.checkStmt locals s = .ok locals' →
      locals'.names = (s.declaredName?.toList.map (·.value) ++ inner) :: outer
  | .block _ body, h => by
    obtain ⟨_, hbody, h⟩ := bind_eq_ok.mp h
    cases h
    -- The names of the block go with its scope.
    have hafter := names_of_checkStmts (by rw [ScopeStack.names_push]) body hbody
    rw [ScopeStack.names_outer, hafter]
    exact hn
  | .declare _ type name init, h => by
    obtain ⟨⟨⟩, -, _, hdeclare, ⟨⟩, -, h⟩ := bind₃_eq_ok.mp h
    cases h
    rw [ScopeStack.names_set]
    exact names_of_declare hn hdeclare
  | .assign _ target value, h => by
    obtain ⟨⟨⟩, -, ⟨⟩, -, h⟩ := bind₂_eq_ok.mp h
    cases h
    exact hn
  | .assignIndex _ target position value, h => by
    obtain ⟨⟨⟩, -, ⟨⟩, -, ⟨⟩, -, h⟩ := bind₃_eq_ok.mp h
    cases h
    exact hn
  | .call _ method args, h => by
    obtain ⟨⟨⟩, -, ⟨⟩, -, h⟩ := bind₂_eq_ok.mp h
    cases h
    exact hn
  | .ret _ none, h => by
    cases h
    exact hn
  | .ret _ (some value), h => by
    obtain ⟨-, h⟩ := check_bind_eq_ok.mp h
    cases h
    exact hn
  | .ifThen _ test thenBranch, h => by
    obtain ⟨⟨⟩, -, ⟨⟩, hbranch, h⟩ := bind₂_eq_ok.mp h
    have hafter := names_of_checkStmt hn thenBranch h
    rwa [declaredName?_of_checkBranch hbranch] at hafter
  | .ifThenElse _ test thenBranch elseBranch, h => by
    obtain ⟨⟨⟩, -, ⟨⟩, hbranch, _, hthen, h⟩ := bind₃_eq_ok.mp h
    obtain ⟨hbranch', h⟩ := check_bind_eq_ok.mp h
    have hafter := names_of_checkStmt hn thenBranch hthen
    rw [declaredName?_of_checkBranch hbranch] at hafter
    have hlast := names_of_checkStmt hafter elseBranch h
    rwa [declaredName?_of_checkBranch hbranch'] at hlast
  | .loop _ test body, h => by
    obtain ⟨⟨⟩, -, ⟨⟩, hbranch, h⟩ := bind₂_eq_ok.mp h
    have hafter := names_of_checkStmt hn body h
    rwa [declaredName?_of_checkBranch hbranch] at hafter

theorem names_of_checkStmts {locals locals' : ScopeStack LocalVar} {inner : List String}
    {outer : List (List String)} (hn : locals.names = inner :: outer) :
    ∀ ss : List Stmt, site.checkStmts locals ss = .ok locals' →
      locals'.names = (((Stmt.declaredNames ss).map (·.value)).reverse ++ inner) :: outer
  | [], h => by
    cases h
    exact hn
  | s :: ss, h => by
    obtain ⟨_, hs, h⟩ := bind_eq_ok.mp h
    have hafter := names_of_checkStmts (names_of_checkStmt hn s hs) ss h
    rw [hafter, Stmt.declaredNames_cons]
    cases s.declaredName? with
    | none => rfl
    | some => simp

end

mutual

/-- A clash in a statement is with a name of the innermost scope, or in one of its blocks. -/
theorem clash_of_checkStmt {locals : ScopeStack LocalVar} {inner : List String}
    {outer : List (List String)} (hn : locals.names = inner :: outer) :
    ∀ s : Stmt, site.checkStmt locals s = .error ⟨.redeclared d.value, d.span⟩ →
      (s.declaredName? = some d ∧ d.value ∈ inner) ∨ ∃ scope ∈ s.scopes, Repeats scope d
  | .block _ body, h => by
    obtain h | ⟨_, _, h⟩ := bind_eq_error.mp h
    · refine .inr ?_
      obtain ⟨before, behind, hsplit, hbefore⟩ | ⟨scope, hscope, hrepeats⟩ :=
        clash_of_checkStmts (by rw [ScopeStack.names_push]) body h
      · exact ⟨_, mem_cons_self, before, behind, hsplit, hbefore.resolve_right not_mem_nil⟩
      · exact ⟨scope, mem_cons_of_mem _ hscope, hrepeats⟩
    · cases h
  | .declare _ type name init, h => by
    obtain ⟨_, _, h⟩ := (looksUp_checkType site.table type).exists_ok h
    obtain h | ⟨during, _, h⟩ := bind_eq_error.mp h
    · obtain ⟨rfl, hmem⟩ := mem_of_declare hn h
      exact .inl ⟨rfl, hmem⟩
    · obtain ⟨_, _, h⟩ := (site.looksUp_checkExpr during init).exists_ok h
      cases h
  | .assign _ target value, h => by
    obtain ⟨_, _, h⟩ := (site.looksUp_checkTarget locals target).exists_ok h
    obtain ⟨_, _, h⟩ := (site.looksUp_checkExpr locals value).exists_ok h
    cases h
  | .assignIndex _ target position value, h => by
    obtain ⟨_, _, h⟩ := (site.looksUp_checkValue locals target).exists_ok h
    obtain ⟨_, _, h⟩ := (site.looksUp_checkExpr locals position).exists_ok h
    obtain ⟨_, _, h⟩ := (site.looksUp_checkExpr locals value).exists_ok h
    cases h
  | .call _ method args, h => by
    obtain ⟨_, _, h⟩ := (site.looksUp_checkCallee locals method).exists_ok h
    obtain ⟨_, _, h⟩ := (site.looksUp_checkExprs locals args fun e he =>
      spansOf_subset (Expr.mem_outlines he)).exists_ok h
    cases h
  | .ret _ none, h => by cases h
  | .ret _ (some value), h => by
    obtain ⟨_, _, h⟩ := (site.looksUp_checkExpr locals value).exists_ok h
    cases h
  | .ifThen _ test thenBranch, h => by
    obtain ⟨_, _, h⟩ := (site.looksUp_checkExpr locals test).exists_ok h
    obtain ⟨_, hbranch, h⟩ := (looksUp_checkBranch thenBranch).exists_ok h
    exact .inr (clash_of_branch hn thenBranch hbranch h)
  | .ifThenElse _ test thenBranch elseBranch, h => by
    obtain ⟨_, _, h⟩ := (site.looksUp_checkExpr locals test).exists_ok h
    obtain ⟨_, hbranch, h⟩ := (looksUp_checkBranch thenBranch).exists_ok h
    obtain h | ⟨after, hthen, h⟩ := bind_eq_error.mp h
    · obtain ⟨scope, hscope, hrepeats⟩ := clash_of_branch hn thenBranch hbranch h
      exact .inr ⟨scope, mem_append_left _ hscope, hrepeats⟩
    · obtain ⟨_, hbranch', h⟩ := (looksUp_checkBranch elseBranch).exists_ok h
      obtain ⟨scope, hscope, hrepeats⟩ :=
        clash_of_branch (names_of_checkStmt hn thenBranch hthen) elseBranch hbranch' h
      exact .inr ⟨scope, mem_append_right _ hscope, hrepeats⟩
  | .loop _ test body, h => by
    obtain ⟨_, _, h⟩ := (site.looksUp_checkExpr locals test).exists_ok h
    obtain ⟨_, hbranch, h⟩ := (looksUp_checkBranch body).exists_ok h
    exact .inr (clash_of_branch hn body hbranch h)

/-- A branch declares nothing itself. -/
theorem clash_of_branch {locals : ScopeStack LocalVar} {inner : List String}
    {outer : List (List String)} (hn : locals.names = inner :: outer) (s : Stmt)
    (hbranch : checkBranch s = .ok ())
    (h : site.checkStmt locals s = .error ⟨.redeclared d.value, d.span⟩) :
    ∃ scope ∈ s.scopes, Repeats scope d := by
  refine (clash_of_checkStmt hn s h).resolve_left ?_
  rintro ⟨hdeclares, -⟩
  rw [declaredName?_of_checkBranch hbranch] at hdeclares
  cases hdeclares

theorem clash_of_checkStmts {locals : ScopeStack LocalVar} {inner : List String}
    {outer : List (List String)} (hn : locals.names = inner :: outer) :
    ∀ ss : List Stmt, site.checkStmts locals ss = .error ⟨.redeclared d.value, d.span⟩ →
      (∃ before behind, Stmt.declaredNames ss = before ++ d :: behind ∧
        (d.value ∈ before.map (·.value) ∨ d.value ∈ inner)) ∨
      ∃ scope ∈ Stmt.scopesOf ss, Repeats scope d
  | [], h => by cases h
  | s :: ss, h => by
    rw [Stmt.declaredNames_cons]
    obtain h | ⟨after, hs, h⟩ := bind_eq_error.mp h
    · obtain ⟨hdeclares, hmem⟩ | ⟨scope, hscope, hrepeats⟩ := clash_of_checkStmt hn s h
      · rw [hdeclares]
        exact .inl ⟨[], _, rfl, .inr hmem⟩
      · exact .inr ⟨scope, mem_append_left _ hscope, hrepeats⟩
    · obtain ⟨before, behind, hsplit, hbefore⟩ | ⟨scope, hscope, hrepeats⟩ :=
        clash_of_checkStmts (names_of_checkStmt hn s hs) ss h
      · refine .inl ⟨s.declaredName?.toList ++ before, behind, by rw [hsplit, append_assoc], ?_⟩
        rw [map_append, mem_append]
        rw [mem_append] at hbefore
        tauto
      · exact .inr ⟨scope, mem_append_right _ hscope, hrepeats⟩

end

/-- A clash among parameters is with a parameter in front or with a name that was there before. -/
theorem clash_of_params {params : List Param} {locals : ScopeStack LocalVar} {inner : List String}
    {outer : List (List String)} (hn : locals.names = inner :: outer)
    (h : params.foldlM (declareParam table) locals = .error ⟨.redeclared d.value, d.span⟩) :
    ∃ before behind, params.map (·.name) = before ++ d :: behind ∧
      (d.value ∈ before.map (·.value) ∨ d.value ∈ inner) := by
  induction params generalizing locals inner with
  | nil => cases h
  | cons q _ ih =>
    rw [foldlM_cons] at h
    obtain h | ⟨after, hq, h⟩ := bind_eq_error.mp h
    · obtain ⟨_, _, h⟩ := (looksUp_checkType table q.type).exists_ok h
      obtain ⟨rfl, hmem⟩ := mem_of_declare hn h
      exact ⟨[], _, rfl, .inr hmem⟩
    · obtain ⟨-, hq⟩ := check_bind_eq_ok.mp hq
      obtain ⟨before, behind, hsplit, hbefore⟩ := ih (names_of_declare hn hq) h
      refine ⟨q.name :: before, behind, by rw [map_cons, hsplit]; rfl, ?_⟩
      rw [map_cons, mem_cons]
      rw [mem_cons] at hbefore
      tauto

theorem names_of_params {params : List Param} {locals locals' : ScopeStack LocalVar}
    {inner : List String} {outer : List (List String)} (hn : locals.names = inner :: outer)
    (h : params.foldlM (declareParam table) locals = .ok locals') :
    locals'.names = ((params.map (·.name.value)).reverse ++ inner) :: outer := by
  induction params generalizing locals inner with
  | nil =>
    cases h
    exact hn
  | cons _ _ ih =>
    rw [foldlM_cons] at h
    obtain ⟨_, hq, h⟩ := bind_eq_ok.mp h
    obtain ⟨-, hq⟩ := check_bind_eq_ok.mp hq
    rw [ih (names_of_declare hn hq) h]
    simp

/-- A clash in a method is in the scope at its top or in one of its blocks. -/
theorem clash_of_checkMethod {className : String} {m : MethodDecl}
    (h : checkMethod table className m = .error ⟨.redeclared d.value, d.span⟩) :
    ∃ scope ∈ m.scopes, Repeats scope d := by
  have hempty : (ScopeStack.empty.push : ScopeStack LocalVar).names = [] :: [] := rfl
  obtain ⟨_, _, h⟩ := (looksUp_checkType table m.returns).exists_ok h
  obtain h | ⟨locals, hparams, h⟩ := bind_eq_error.mp h
  · obtain ⟨before, behind, hsplit, hbefore⟩ := clash_of_params hempty h
    refine ⟨_, mem_cons_self, before, behind ++ Stmt.declaredNames m.body, ?_, ?_⟩
    · rw [hsplit, append_assoc]
      rfl
    · exact hbefore.resolve_right not_mem_nil
  · have hn := names_of_params hempty hparams
    obtain h | ⟨_, _, h⟩ := bind_eq_error.mp h
    · obtain ⟨before, behind, hsplit, hbefore⟩ | ⟨scope, hscope, hrepeats⟩ :=
        clash_of_checkStmts hn m.body h
      · refine ⟨_, mem_cons_self, m.params.map (·.name) ++ before, behind, ?_, ?_⟩
        · rw [hsplit, append_assoc]
        · rw [map_append, map_map, mem_append]
          rw [append_nil, mem_reverse] at hbefore
          exact hbefore.symm
      · exact ⟨scope, mem_cons_of_mem _ hscope, hrepeats⟩
    · cases h

end

/-! ## Classes and their members -/

/-- The first name that is found again. -/
theorem split_of_firstRepeated? {seen : List String} {names : List Ident} {d : Ident}
    (h : firstRepeated? seen names = some d) :
    ∃ before behind, names = before ++ d :: behind ∧
      (d.value ∈ before.map (·.value) ∨ d.value ∈ seen) ∧
      (before.map (·.value)).Nodup ∧ ∀ a ∈ before, a.value ∉ seen := by
  induction names generalizing seen with
  | nil => cases h
  | cons first others ih =>
    unfold firstRepeated? at h
    split at h
    next hseen =>
      cases h
      exact ⟨[], others, rfl, .inr hseen, nodup_nil, forall_mem_nil _⟩
    next hnew =>
      obtain ⟨before, behind, rfl, hbefore, hnodup, hunseen⟩ := ih h
      refine ⟨first :: before, behind, rfl, ?_, ?_, ?_⟩
      · rw [map_cons, mem_cons]
        rw [mem_cons] at hbefore
        tauto
      · refine nodup_cons.mpr ⟨?_, hnodup⟩
        intro hmem
        obtain ⟨a, ha, heq⟩ := mem_map.mp hmem
        exact hunseen a ha (heq ▸ mem_cons_self)
      · refine forall_mem_cons.mpr ⟨hnew, fun a ha hs => ?_⟩
        exact hunseen a ha (mem_cons_of_mem _ hs)

/-- Where identification finds a name for the second time. -/
inductive Program.Clash (p : Program) (d : Ident) : Prop
  | ofClass {before behind : List ClassDecl} {c : ClassDecl}
      (hsplit : p.classes = before ++ c :: behind)
      (hname : c.name = d) (hbefore : d.value ∈ ClassTable.builtin.classes.map (·.1) ∨
        d.value ∈ before.map (·.name.value))
  /-- Fields come before methods here, wherever they stand. -/
  | ofMember {c : ClassDecl} (hc : c ∈ p.classes) {before behind : List Ident}
      (hsplit : c.fields.map (·.name) ++ c.methods.map (·.name) = before ++ d :: behind)
      (hbefore : d.value ∈ before.map (·.value)) (hfirst : (before.map (·.value)).Nodup)
  | ofLocal {scope : List Ident} (hscope : scope ∈ p.localScopes) (hrepeats : Repeats scope d)

theorem clash_of_ofDecl {p : Program} {d : Ident} (hc : c ∈ p.classes)
    (h : ClassEntry.ofDecl c = .error ⟨.redeclared d.value, d.span⟩) : p.Clash d := by
  unfold ClassEntry.ofDecl at h
  split at h
  next hname =>
    obtain rfl := ident_eq_of_redeclared (Except.error.inj h)
    obtain ⟨_, _, hsplit, hbefore, hnodup, -⟩ := split_of_firstRepeated? hname
    exact .ofMember hc hsplit (hbefore.resolve_right not_mem_nil) hnodup
  next => cases h

/-- A class name that is refused has been taken before. -/
theorem clash_of_foldlM {p : Program} {d : Ident} {cs : List ClassDecl} (before : List ClassDecl)
    (hsplit : p.classes = before ++ cs)
    (htable : table.classes.map (·.1) = ClassTable.builtin.classes.map (·.1) ++
      before.map (·.name.value))
    (h : cs.foldlM ClassTable.declare table = .error ⟨.redeclared d.value, d.span⟩) :
    p.Clash d := by
  induction cs generalizing before table with
  | nil => cases h
  | cons c _ ih =>
    rw [foldlM_cons] at h
    obtain h | ⟨next, hdeclare, h⟩ := bind_eq_error.mp h
    · unfold ClassTable.declare at h
      split at h
      next hcontains =>
        obtain rfl := ident_eq_of_redeclared (Except.error.inj h)
        -- Names are taken by the predefined classes and by those declared so far.
        refine .ofClass hsplit rfl (mem_append.mp ?_)
        obtain ⟨_, hentry⟩ := Option.isSome_iff_exists.mp hcontains
        rw [← htable]
        exact mem_map.mpr ⟨_, mem_of_lookup hentry, rfl⟩
      next =>
        obtain h | ⟨_, _, h⟩ := bind_eq_error.mp h
        · refine clash_of_ofDecl ?_ h
          rw [hsplit]
          exact mem_append_right _ mem_cons_self
        · cases h
    · refine ih (before ++ [c]) ?_ ?_ h
      · rw [hsplit, append_assoc]
        rfl
      · rw [(ClassTable.declare_eq_ok hdeclare).1, map_append, htable, map_append, append_assoc]
        rfl

theorem exists_of_forM_eq_error {ε α : Type} {f : α → Except ε Unit} {l : List α} {e : ε}
    (h : l.forM f = .error e) : ∃ a ∈ l, f a = .error e := by
  induction l with
  | nil => cases h
  | cons a _ ih =>
    rw [forM_eq_forM, forM_cons] at h
    obtain h | ⟨_, _, h⟩ := bind_eq_error.mp h
    · exact ⟨a, mem_cons_self, h⟩
    · obtain ⟨b, hb, hf⟩ := ih h
      exact ⟨b, mem_cons_of_mem a hb, hf⟩

theorem clash_of_identify {p : Program} {d : Ident}
    (h : identify p = .error ⟨.redeclared d.value, d.span⟩) : p.Clash d := by
  obtain h | ⟨table, _, h⟩ := bind_eq_error.mp h
  · exact clash_of_foldlM [] rfl (append_nil _).symm h
  obtain h | ⟨_, _, h⟩ := bind_eq_error.mp h
  · obtain ⟨c, hc, h⟩ := exists_of_forM_eq_error h
    obtain h | ⟨_, _, h⟩ := bind_eq_error.mp h
    · obtain ⟨f, -, h⟩ := exists_of_forM_eq_error h
      exact absurd rfl ((looksUp_checkType table f.type _ h).2 d.value)
    · obtain ⟨_, hm, h⟩ := exists_of_forM_eq_error h
      obtain ⟨_, hscope, hrepeats⟩ := clash_of_checkMethod h
      refine .ofLocal (mem_flatMap.mpr ⟨c, hc, ?_⟩) hrepeats
      exact mem_flatMap.mpr ⟨_, ClassDecl.method_mem_members hm, hscope⟩
  · cases h

/-! ## The report and the order of the source -/

/-- The declaration has an earlier one of its name in its scope, or it is of a class with the name
of a built-in one. -/
def Program.Redeclares (p : Program) (d : Ident) : Prop :=
  (d ∈ p.classes.map (·.name) ∧ d.value ∈ ClassTable.builtin.classes.map (·.1)) ∨
    ∃ scope ∈ p.scopes, d ∈ scope ∧ ∃ a ∈ scope, a.value = d.value ∧ a.span.start < d.span.start

/-- The declaration is of a method that stands in front of a field of its name. -/
def Program.MethodAhead (p : Program) (d : Ident) : Prop :=
  ∃ c ∈ p.classes, ∃ m ∈ c.methods, ∃ f ∈ c.fields,
    m.name = d ∧ f.name.value = d.value ∧ d.span.start < f.name.span.start

instance (p : Program) (d : Ident) : Decidable (p.MethodAhead d) :=
  inferInstanceAs (Decidable (∃ c ∈ p.classes, ∃ m ∈ c.methods, ∃ f ∈ c.fields,
    m.name = d ∧ f.name.value = d.value ∧ d.span.start < f.name.span.start))

variable {source : String} {p : Program} {d : Ident}

/-- What is repeated in a list of names in the order of the source has an earlier declaration. -/
theorem Repeats.exists_earlier {scope : List Ident} (h : Repeats scope d)
    (hordered : scope.Pairwise fun a b => a.span.start < b.span.start) :
    d ∈ scope ∧ ∃ a ∈ scope, a.value = d.value ∧ a.span.start < d.span.start := by
  obtain ⟨_, _, rfl, hbefore⟩ := h
  obtain ⟨a, ha, hvalue⟩ := mem_map.mp hbefore
  refine ⟨mem_append_right _ mem_cons_self, a, mem_append_left _ ha, hvalue, ?_⟩
  exact (pairwise_append.mp hordered).2.2 a ha d mem_cons_self

theorem Program.memberScope_mem_scopes (hc : c ∈ p.classes) : c.memberScope ∈ p.scopes :=
  mem_cons_of_mem _ (mem_append_left _ (mem_map_of_mem hc))

section

variable (hparse : parse source = .ok p) {c : ClassDecl} (hc : c ∈ p.classes)
include hparse hc

/-- The fields of a class begin one behind the other, and so do the methods. -/
theorem pairwise_members :
    (c.fields.map (·.name)).Pairwise (fun a b => a.span.start < b.span.start) ∧
      (c.methods.map (·.name)).Pairwise (fun a b => a.span.start < b.span.start) := by
  have hordered := pairwise_of_mem_scopes hparse (Program.memberScope_mem_scopes hc)
  exact ⟨hordered.sublist c.sublist_memberScope.1, hordered.sublist c.sublist_memberScope.2⟩

/-- No field begins where a method does. -/
theorem start_ne_of_mem {a b : Ident} (ha : a ∈ c.fields.map (·.name))
    (hb : b ∈ c.methods.map (·.name)) : a.span.start ≠ b.span.start := by
  have hordered := pairwise_of_mem_scopes hparse (Program.memberScope_mem_scopes hc)
  have hnodup : (c.memberScope.map (·.span.start)).Nodup :=
    pairwise_map.mpr (hordered.imp Nat.ne_of_lt)
  rw [(c.memberScope_perm.map _).nodup_iff, map_append] at hnodup
  exact (nodup_append.mp hnodup).2.2 _ (mem_map_of_mem ha) _ (mem_map_of_mem hb)

end

/-- The names that were claimed before another one are all fields, and then some methods; or some
fields alone. -/
theorem split_members {before behind : List Ident}
    (h : c.fields.map (·.name) ++ c.methods.map (·.name) = before ++ d :: behind) :
    (∃ ms, before = c.fields.map (·.name) ++ ms ∧ c.methods.map (·.name) = ms ++ d :: behind) ∨
      ∃ fs, c.fields.map (·.name) = before ++ d :: fs := by
  obtain ⟨ms, hbefore, hmethods⟩ | ⟨fs, hfields, hrest⟩ := append_eq_append_iff.mp h
  · exact .inl ⟨ms, hbefore, hmethods⟩
  · cases fs with
    | nil => exact .inl ⟨[], by rw [hfields]; simp, hrest.symm⟩
    | cons _ fs =>
      obtain ⟨rfl, -⟩ := cons.inj hrest
      exact .inr ⟨fs, hfields⟩

/-- What is found again has an earlier declaration, or it is a method in front of a field. -/
theorem Program.Clash.redeclares (hparse : parse source = .ok p) (h : p.Clash d) :
    p.Redeclares d ∨ p.MethodAhead d := by
  cases h with
  | @ofClass before behind c hsplit hname hbefore =>
    refine .inl ?_
    have hnames : p.classes.map (·.name) = before.map (·.name) ++ d :: behind.map (·.name) := by
      rw [hsplit, map_append, map_cons, hname]
    obtain hbuiltin | hbefore := hbefore
    · exact .inl ⟨hnames ▸ mem_append_right _ mem_cons_self, hbuiltin⟩
    · refine .inr ⟨_, mem_cons_self, Repeats.exists_earlier ⟨_, _, hnames, ?_⟩ ?_⟩
      · rw [map_map]
        exact hbefore
      · exact pairwise_of_mem_scopes hparse mem_cons_self
  | ofLocal hscope hrepeats =>
    have hscope : _ ∈ p.scopes := mem_cons_of_mem _ (mem_append_right _ hscope)
    exact .inl (.inr ⟨_, hscope, hrepeats.exists_earlier (pairwise_of_mem_scopes hparse hscope)⟩)
  | @ofMember c hc before behind hsplit hbefore hfirst =>
    have hmember : c.memberScope ∈ p.scopes := Program.memberScope_mem_scopes hc
    obtain ⟨hfields, hmethods⟩ := pairwise_members hparse hc
    -- Among fields alone, and among methods alone, names are claimed in the order of the source.
    have hearlier : ∀ {names : List Ident}, names.Sublist c.memberScope →
        (d ∈ names ∧ ∃ a ∈ names, a.value = d.value ∧ a.span.start < d.span.start) →
        p.Redeclares d := by
      rintro _ hnames ⟨hd, a, ha, hvalue, hless⟩
      exact .inr ⟨_, hmember, hnames.subset hd, a, hnames.subset ha, hvalue, hless⟩
    obtain ⟨ms, rfl, hms⟩ | ⟨fs, hfs⟩ := split_members hsplit
    · rw [map_append, mem_append] at hbefore
      obtain hfield | hmethod := hbefore
      · obtain ⟨a, ha, hvalue⟩ := mem_map.mp hfield
        have hd : d ∈ c.methods.map (·.name) := hms ▸ mem_append_right _ mem_cons_self
        obtain hless | hmore := Nat.lt_or_gt_of_ne (start_ne_of_mem hparse hc ha hd)
        · exact .inl (.inr ⟨_, hmember, c.sublist_memberScope.2.subset hd, a,
            c.sublist_memberScope.1.subset ha, hvalue, hless⟩)
        · obtain ⟨f, hf, rfl⟩ := mem_map.mp ha
          obtain ⟨m, hm, hname⟩ := mem_map.mp hd
          exact .inr ⟨c, hc, m, hm, f, hf, hname, hvalue, hmore⟩
      · exact .inl (hearlier c.sublist_memberScope.2
          (Repeats.exists_earlier ⟨ms, behind, hms, hmethod⟩ hmethods))
    · exact .inl (hearlier c.sublist_memberScope.1
        (Repeats.exists_earlier ⟨before, fs, hfs, hbefore⟩ hfields))

/-- A method in front of a field of its name is the first member of that name. -/
theorem Program.Clash.not_redeclares (hparse : parse source = .ok p) (h : p.Clash d)
    (hahead : p.MethodAhead d) : ¬ p.Redeclares d := by
  obtain ⟨c, hc, m, hm, f, hf, rfl, hvalue, _⟩ := hahead
  have hmethod : m.name ∈ c.methods.map (·.name) := mem_map_of_mem hm
  have hd : m.name ∈ c.memberScope := c.sublist_memberScope.2.subset hmethod
  -- Its name stands in no other scope.
  have hclasses : m.name ∉ p.classes.map (·.name) := fun hmem =>
    classNames_apart hparse hc _ hmem _ hd rfl
  have hlocals : ∀ scope ∈ p.localScopes, m.name ∉ scope := fun scope hscope hmem =>
    memberScope_apart hparse hc hscope _ hd _ hmem rfl
  cases h with
  | ofClass hsplit hname =>
    refine absurd ?_ hclasses
    rw [hsplit, map_append, map_cons, hname]
    exact mem_append_right _ mem_cons_self
  | ofLocal hscope hrepeats =>
    obtain ⟨_, _, rfl, -⟩ := hrepeats
    exact absurd (mem_append_right _ mem_cons_self) (hlocals _ hscope)
  | @ofMember c' hc' before behind hsplit _ hfirst =>
    have hd' : m.name ∈ c'.memberScope := by
      rw [c'.memberScope_perm.mem_iff, hsplit]
      exact mem_append_right _ mem_cons_self
    obtain rfl := eq_of_start_eq hparse hc hc' hd hd' rfl
    rintro (⟨hmem, -⟩ | ⟨scope, hscope, hmem, a, ha, hsame, _⟩)
    · exact hclasses hmem
    have hscope : scope = c.memberScope := by
      obtain rfl | hscope := mem_cons.mp hscope
      · exact absurd hmem hclasses
      obtain hscope | hscope := mem_append.mp hscope
      · obtain ⟨_, hc', rfl⟩ := mem_map.mp hscope
        rw [eq_of_start_eq hparse hc hc' hd hmem rfl]
      · exact absurd hmem (hlocals scope hscope)
    subst hscope
    have hfield : f.name ∈ c.fields.map (·.name) := mem_map_of_mem hf
    obtain ⟨_, rfl, hms⟩ | ⟨_, hfs⟩ := split_members hsplit
    · rw [map_append] at hfirst
      obtain ⟨hnodup, -, hdisjoint⟩ := nodup_append.mp hfirst
      obtain ha | ha := mem_append.mp (c.memberScope_perm.mem_iff.mp ha)
      · -- The class has one field of this name.
        obtain rfl := inj_on_of_nodup_map hnodup ha hfield (hsame.trans hvalue.symm)
        omega
      · rw [hms] at ha
        obtain ha | ha := mem_append.mp ha
        · exact hdisjoint _ (mem_map_of_mem hfield) _ (mem_map_of_mem ha) (hvalue.trans hsame.symm)
        · have hmethods := (pairwise_members hparse hc).2
          rw [hms] at hmethods
          have hbehind := (pairwise_cons.mp (pairwise_append.mp hmethods).2.1).1
          obtain rfl | ha := mem_cons.mp ha
          · omega
          · have hlater := hbehind a ha
            omega
    · refine absurd rfl (start_ne_of_mem hparse hc (a := m.name) ?_ hmethod)
      rw [hfs]
      exact mem_append_right _ mem_cons_self

/-- When identification finds a name declared twice, its report points at a declaration with an
earlier one of that name in its scope, unless it points at a method that stands in front of a
field. -/
theorem redeclared_iff {x : String} {span : Span} (hparse : parse source = .ok p)
    (h : identify p = .error ⟨.redeclared x, span⟩) :
    p.Redeclares ⟨x, span⟩ ↔ ¬ p.MethodAhead ⟨x, span⟩ := by
  have hclash : p.Clash ⟨x, span⟩ := clash_of_identify h
  constructor
  · exact fun hredeclares hahead => hclash.not_redeclares hparse hahead hredeclares
  · exact (hclash.redeclares hparse).resolve_right

/-- A field, and behind it a method of the same name. -/
def fieldThenMethod : String := "class A\x7bint x;int x()\x7breturn 1;\x7d\x7d"

set_option maxRecDepth 4000 in
theorem identify_fieldThenMethod :
    ∃ p, parse fieldThenMethod = .ok p ∧ identify p = .error ⟨.redeclared "x", ⟨18, 19⟩⟩ ∧
      ¬ p.MethodAhead ⟨"x", ⟨18, 19⟩⟩ := by
  rw [parse, TokenStream.ofSource, lex_eq_tokensWithin]
  exact ⟨_, rfl, rfl, by decide⟩

theorem redeclared_iff_fieldThenMethod :
    ∃ p, parse fieldThenMethod = .ok p ∧ identify p = .error ⟨.redeclared "x", ⟨18, 19⟩⟩ ∧
      p.Redeclares ⟨"x", ⟨18, 19⟩⟩ := by
  obtain ⟨p, hparse, h, hahead⟩ := identify_fieldThenMethod
  exact ⟨p, hparse, h, (redeclared_iff hparse h).mpr hahead⟩

/-- A method, and behind it a field of the same name. -/
def methodThenField : String := "class A\x7bint x()\x7breturn 1;\x7dint x;\x7d"

set_option maxRecDepth 4000 in
theorem identify_methodThenField :
    ∃ p, parse methodThenField = .ok p ∧ identify p = .error ⟨.redeclared "x", ⟨12, 13⟩⟩ ∧
      p.MethodAhead ⟨"x", ⟨12, 13⟩⟩ := by
  rw [parse, TokenStream.ofSource, lex_eq_tokensWithin]
  exact ⟨_, rfl, rfl, by decide⟩

/-- The report points at the first declaration of the name. -/
theorem not_redeclares_methodThenField :
    ∃ p, parse methodThenField = .ok p ∧ identify p = .error ⟨.redeclared "x", ⟨12, 13⟩⟩ ∧
      ¬ p.Redeclares ⟨"x", ⟨12, 13⟩⟩ := by
  obtain ⟨p, hparse, h, hahead⟩ := identify_methodThenField
  have hclash : p.Clash ⟨"x", ⟨12, 13⟩⟩ := clash_of_identify h
  exact ⟨p, hparse, h, hclash.not_redeclares hparse hahead⟩

end MiniJava
