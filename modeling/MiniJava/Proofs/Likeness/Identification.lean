import MiniJava.Identification.Body
import MiniJava.Proofs.Likeness.Tables

/-!
# Identification of programs that are alike

Identification goes through two programs that are alike in step: it finds the same things at
corresponding references, its scopes stay parallel, and if it ends, it ends at corresponding places.
Where the variables have kept their names, the faults are the same but for the places.
-/

namespace MiniJava

namespace Identification

variable {L : Likeness} {ρ ρ' : ScopeStack String} {t t' : ClassTable}
  {locals locals' : ScopeStack LocalVar} {className : String} {isStatic : Bool}

theorem checkType_alike (ht : t.Similar t') {type type' : Located Ty} (h : L.Same type type') :
    ResultLike L.Like Eq (checkType t type) (checkType t' type') := by
  rw [checkType, checkType, ← h.value]
  cases type.value.className? with
  | none => exact .ok rfl
  | some name =>
    show ResultLike L.Like Eq (if t.contains name then _ else _) (if t'.contains name then _ else _)
    rw [← ht.contains]
    split
    · exact .ok rfl
    · exact .error ⟨fun _ => rfl, h.span⟩

theorem declare_alike (hlocals : ρ.Parallel locals locals') {x x' : Ident} (hx : L.Like x x')
    (hfits : ρ.Fits x.value x'.value) (v : LocalVar) :
    ResultLike L.Like (ρ.defineNew x.value x'.value).Parallel (declare locals x v)
      (declare locals' x' v) := by
  rw [declare, declare, ScopeStack.defineNew]
  rcases hlocals.define? hfits v with ⟨hs, hs', -⟩ | ⟨_, _, _, hρ, hs, hs', hu⟩
  · rw [hs, hs']
    exact .error ⟨fun hkept => congrArg ScopeFault.redeclared (hx.value hkept), hx.span⟩
  · rw [hρ, hs, hs']
    exact .ok hu

namespace Site

/-! ## References -/

/-- Names of one variable, or one name of none, resolve alike. -/
theorem resolveName_alike (ht : t.Similar t') (hlocals : ρ.Parallel locals locals')
    {span span' : Span} (hspan : L.span span span') {text text' : String}
    (hkept : L.kept → text = text') (hvar : SameVar ρ.bindings text text') :
    ResultLike L.Like Eq (resolveName ⟨t, className, isStatic⟩ locals span text)
      (resolveName ⟨t', className, isStatic⟩ locals' span' text') := by
  rw [resolveName, resolveName]
  -- Names that mean the same are one variable, or they are one name that no variable has.
  rcases hlocals.lookup_cases hvar with ⟨v, hv, hv'⟩ | ⟨hnone, hnone', rfl⟩
  · rw [hv, hv']
    cases hready : v.isReady with
    | true => simpa [hready] using ResultLike.ok rfl
    | false =>
      simp only [hready]
      exact .error ⟨fun h => congrArg ScopeFault.ownInitializer (hkept h), hspan⟩
  · rw [hnone, hnone']
    have hfault : ∀ fault : ScopeFault, L.Like ⟨fault, span⟩ ⟨fault, span'⟩ :=
      fun _ => ⟨fun _ => rfl, hspan⟩
    rcases ht.field_cases className text with ⟨hf, hf'⟩ | ⟨_, _, hf, hf'⟩
    · rcases ht.method_cases className text with ⟨hm, hm'⟩ | ⟨_, _, hm, hm'⟩
      · simp only [hf, hf', hm, hm', ← ht.contains]
        split
        · exact .ok rfl
        · exact .error (hfault _)
      · simp only [hf, hf', hm, hm']
        split
        · exact .error (hfault _)
        · exact .ok rfl
    · simp only [hf, hf']
      split
      · exact .error (hfault _)
      · exact .ok rfl

theorem checkAccess_alike {owningClass owner : String} {throughClass isPrivate memberStatic : Bool}
    {name name' : Ident} (hname : L.Same name name') :
    ResultLike L.Like Eq
      (checkAccess ⟨t, className, isStatic⟩ owningClass throughClass name owner
        isPrivate memberStatic)
      (checkAccess ⟨t', className, isStatic⟩ owningClass throughClass name' owner isPrivate
        memberStatic) := by
  rw [checkAccess, checkAccess, ← hname.value]
  split
  · exact .error ⟨fun _ => rfl, hname.span⟩
  · split
    · exact .error ⟨fun _ => rfl, hname.span⟩
    · exact .ok rfl

theorem resolveMember_alike (ht : t.Similar t') {owningClass : String} {throughClass : Bool}
    {name name' : Ident} (hname : L.Same name name') :
    ResultLike L.Like Eq (resolveMember ⟨t, className, isStatic⟩ owningClass throughClass name)
      (resolveMember ⟨t', className, isStatic⟩ owningClass throughClass name') := by
  rw [resolveMember, resolveMember, ← hname.value]
  rcases ht.field_cases owningClass name.value with ⟨hf, hf'⟩ | ⟨_, _, hf, hf'⟩
  · rcases ht.method_cases owningClass name.value with ⟨hm, hm'⟩ | ⟨_, _, hm, hm'⟩
    · simp only [hf, hf', hm, hm']
      exact .error ⟨fun _ => rfl, hname.span⟩
    · simp only [hf, hf', hm, hm']
      exact (checkAccess_alike hname).check (.ok rfl)
  · simp only [hf, hf']
    exact (checkAccess_alike hname).check (.ok rfl)

theorem memberContext_alike {base base' : Ref} (hbase : RefAlike L ρ base base')
    {member member' : Ident} (hmember : L.Same member member') (referent : Referent) :
    ResultLike L.Like Eq (memberContext ⟨t, className, isStatic⟩ base member referent)
      (memberContext ⟨t', className, isStatic⟩ base' member' referent) := by
  have hnone : ∀ type : Ty, L.Like ⟨ScopeFault.noMembers base.text type member.value, member.span⟩
      ⟨.noMembers base'.text type member'.value, member'.span⟩ := by
    intro type
    refine ⟨fun hkept => ?_, hmember.span⟩
    rw [hbase.text_eq hkept, hmember.value]
  match referent with
  | .this => exact .ok rfl
  | .classNamed name => exact .ok rfl
  | .method =>
    exact .error ⟨fun hkept => congrArg ScopeFault.methodAsValue (hbase.text_eq hkept), hbase.span⟩
  | .variable type => cases type <;> first | exact .ok rfl | exact .error (hnone _)
  | .field type => cases type <;> first | exact .ok rfl | exact .error (hnone _)

theorem resolve_alike (ht : t.Similar t') (hlocals : ρ.Parallel locals locals') {r r' : Ref}
    (hr : RefAlike L ρ r r') :
    ResultLike L.Like Eq (resolve ⟨t, className, isStatic⟩ locals r)
      (resolve ⟨t', className, isStatic⟩ locals' r') := by
  induction hr with
  | this hspan =>
    rw [resolve, resolve]
    split
    · exact .error ⟨fun _ => rfl, hspan⟩
    · exact .ok rfl
  | name hspan hkept hvar => exact resolveName_alike ht hlocals hspan hkept hvar
  | member _ hbase hfield ih =>
    rw [resolve, resolve]
    refine ih.bind fun referent referent' h => ?_
    subst h
    refine (memberContext_alike hbase hfield referent).bind fun place place' h => ?_
    subst h
    exact resolveMember_alike ht hfield

/-- The three uses of a reference look at nothing but what it stands for. -/
theorem use_alike (ht : t.Similar t') (hlocals : ρ.Parallel locals locals') {r r' : Ref}
    (hr : RefAlike L ρ r r') {f g : Referent → Result Unit}
    (hfg : ∀ referent, ResultLike L.Like Eq (f referent) (g referent)) :
    ResultLike L.Like Eq (resolve ⟨t, className, isStatic⟩ locals r >>= f)
      (resolve ⟨t', className, isStatic⟩ locals' r' >>= g) :=
  (resolve_alike ht hlocals hr).bind fun _ _ h => h ▸ hfg _

section

variable (ht : t.Similar t') (hlocals : ρ.Parallel locals locals') {r r' : Ref}
  (hr : RefAlike L ρ r r')
include ht hlocals hr

theorem checkValue_alike :
    ResultLike L.Like Eq (checkValue ⟨t, className, isStatic⟩ locals r)
      (checkValue ⟨t', className, isStatic⟩ locals' r') := by
  refine use_alike ht hlocals hr fun referent => ?_
  match referent with
  | .this | .variable _ | .field _ => exact .ok rfl
  | .classNamed _ =>
    exact .error ⟨fun hkept => congrArg ScopeFault.classAsValue (hr.text_eq hkept), hr.span⟩
  | .method =>
    exact .error ⟨fun hkept => congrArg ScopeFault.methodAsValue (hr.text_eq hkept), hr.span⟩

theorem checkTarget_alike :
    ResultLike L.Like Eq (checkTarget ⟨t, className, isStatic⟩ locals r)
      (checkTarget ⟨t', className, isStatic⟩ locals' r') := by
  refine use_alike ht hlocals hr fun referent => ?_
  match referent with
  | .variable _ | .field _ => exact .ok rfl
  | .this => exact .error ⟨fun _ => rfl, hr.span⟩
  | .classNamed _ =>
    exact .error ⟨fun hkept => congrArg ScopeFault.classAsValue (hr.text_eq hkept), hr.span⟩
  | .method =>
    exact .error ⟨fun hkept => congrArg ScopeFault.methodAsValue (hr.text_eq hkept), hr.span⟩

theorem checkCallee_alike :
    ResultLike L.Like Eq (checkCallee ⟨t, className, isStatic⟩ locals r)
      (checkCallee ⟨t', className, isStatic⟩ locals' r') := by
  refine use_alike ht hlocals hr fun referent => ?_
  match referent with
  | .method => exact .ok rfl
  | .this => exact .error ⟨fun _ => rfl, hr.span⟩
  | .variable _ | .field _ | .classNamed _ =>
    exact .error ⟨fun hkept => congrArg ScopeFault.notMethod (hr.text_eq hkept), hr.span⟩

end

/-! ## Expressions and statements -/

mutual

theorem checkExpr_alike (ht : t.Similar t') (hlocals : ρ.Parallel locals locals') :
    ∀ {e e' : Expr}, ExprAlike L ρ e e' →
      ResultLike L.Like Eq (checkExpr ⟨t, className, isStatic⟩ locals e)
        (checkExpr ⟨t', className, isStatic⟩ locals' e')
  | .literal _ _, _, .literal _ => .ok rfl
  | .unary _ _ _, _, .unary _ he => by
    rw [checkExpr, checkExpr]
    exact checkExpr_alike ht hlocals he
  | .binary _ _ _ _, _, .binary _ hleft hright =>
    (checkExpr_alike ht hlocals hleft).check (checkExpr_alike ht hlocals hright)
  | .ref _, _, .ref hr => checkValue_alike ht hlocals hr
  | .index _ _ _, _, .index _ hr he =>
    (checkValue_alike ht hlocals hr).check (checkExpr_alike ht hlocals he)
  | .call _ _ _, _, .call _ hr hargs =>
    (checkCallee_alike ht hlocals hr.ref).check (checkExprs_alike ht hlocals hargs)
  | .newObject _ _, _, .newObject _ hc =>
    checkType_alike ht ⟨congrArg Ty.object hc.value, hc.span⟩
  | .newArray _ _ _, _, .newArray _ helement he =>
    (checkType_alike ht helement).check (checkExpr_alike ht hlocals he)

theorem checkExprs_alike (ht : t.Similar t') (hlocals : ρ.Parallel locals locals') :
    ∀ {es es' : List Expr}, ExprsAlike L ρ es es' →
      ResultLike L.Like Eq (checkExprs ⟨t, className, isStatic⟩ locals es)
        (checkExprs ⟨t', className, isStatic⟩ locals' es')
  | [], _, .nil => .ok rfl
  | _ :: _, _, .cons he hes =>
    (checkExpr_alike ht hlocals he).check (checkExprs_alike ht hlocals hes)

end

theorem checkBranch_alike {s s' : Stmt} (h : StmtAlike L ρ s s' ρ') :
    ResultLike L.Like Eq (checkBranch s) (checkBranch s') := by
  cases h with
  | declare hspan => exact .error ⟨fun _ => rfl, hspan⟩
  | _ => exact .ok rfl

/-- A declaration binds its variable for its initializer and again behind it. Either way the scopes
stay parallel. -/
theorem checkDeclare_alike (ht : t.Similar t') (hlocals : ρ.Parallel locals locals')
    {span span' : Span}
    {type type' : Located Ty} {x x' : Ident} {e e' : Expr} (htype : L.Same type type')
    (hx : L.Like x x') (hfits : ρ.Fits x.value x'.value)
    (he : ExprAlike L (ρ.defineNew x.value x'.value) e e') :
    ResultLike L.Like (ρ.defineNew x.value x'.value).Parallel
      (checkStmt ⟨t, className, isStatic⟩ locals (.declare span type x e))
      (checkStmt ⟨t', className, isStatic⟩ locals' (.declare span' type' x' e')) := by
  rw [checkStmt, checkStmt]
  refine (checkType_alike ht htype).check ?_
  rw [← htype.value, declare, declare]
  rcases hlocals.define? hfits ⟨type.value, false⟩ with ⟨hs, hs', -⟩ | ⟨ρ₁, _, _, hρ, hs, hs', hu⟩
  · rw [hs, hs']
    exact .error ⟨fun hkept => congrArg ScopeFault.redeclared (hx.value hkept), hx.span⟩
  · rw [hs, hs']
    have hnew : ρ.defineNew x.value x'.value = ρ₁ := by rw [ScopeStack.defineNew, hρ]; rfl
    rw [hnew] at he ⊢
    refine (checkExpr_alike ht hu he).check (.ok ?_)
    -- To bind the variable once more with another value is to bind it to that value at once.
    rcases hlocals.define? hfits ⟨type.value, true⟩ with ⟨-, -, hnone⟩ | ⟨ρ₂, v, v', hρ₂,
      hv, hv', hready⟩
    · rw [hρ] at hnone
      cases hnone
    · rw [hρ] at hρ₂
      rw [ScopeStack.define?_set hs] at hv
      rw [ScopeStack.define?_set hs'] at hv'
      cases hρ₂
      cases hv
      cases hv'
      exact hready

mutual

theorem checkStmt_alike (ht : t.Similar t') {ρ ρ' : ScopeStack String}
    {locals locals' : ScopeStack LocalVar} (hlocals : ρ.Parallel locals locals') :
    ∀ {s s' : Stmt}, StmtAlike L ρ s s' ρ' →
      ResultLike L.Like ρ'.Parallel (checkStmt ⟨t, className, isStatic⟩ locals s)
        (checkStmt ⟨t', className, isStatic⟩ locals' s')
  | .block _ _, _, .block hss =>
    (checkStmts_alike ht hlocals.push hss).bind fun _ _ h => .ok h.outer
  -- The initializer is resolved with its own variable in scope.
  | .declare _ _ _ _, _, .declare _ htype hx hfits _ he =>
    checkDeclare_alike ht hlocals htype hx hfits he
  | .assign _ _ _, _, .assign hr he =>
    (checkTarget_alike ht hlocals hr).check ((checkExpr_alike ht hlocals he).check (.ok hlocals))
  | .assignIndex _ _ _ _, _, .assignIndex hr hi he =>
    (checkValue_alike ht hlocals hr).check
      ((checkExpr_alike ht hlocals hi).check ((checkExpr_alike ht hlocals he).check (.ok hlocals)))
  | .call _ _ _, _, .call hr hargs =>
    (checkCallee_alike ht hlocals hr.ref).check
      ((checkExprs_alike ht hlocals hargs).check (.ok hlocals))
  | .ret _ none, _, .retNone _ => .ok hlocals
  | .ret _ (some _), _, .retSome he => (checkExpr_alike ht hlocals he).check (.ok hlocals)
  | .ifThen _ _ _, _, .ifThen he hs =>
    (checkExpr_alike ht hlocals he).check
      ((checkBranch_alike hs).check (checkStmt_alike ht hlocals hs))
  -- The second branch stands in the scopes that the first one leaves.
  | .ifThenElse _ _ _ _, _, .ifThenElse he ha hb =>
    (checkExpr_alike ht hlocals he).check ((checkBranch_alike ha).check
      ((checkStmt_alike ht hlocals ha).bind fun _ _ hinner =>
        (checkBranch_alike hb).check (checkStmt_alike ht hinner hb)))
  | .loop _ _ _, _, .loop he hs =>
    (checkExpr_alike ht hlocals he).check
      ((checkBranch_alike hs).check (checkStmt_alike ht hlocals hs))

theorem checkStmts_alike (ht : t.Similar t') {ρ ρ' : ScopeStack String}
    {locals locals' : ScopeStack LocalVar} (hlocals : ρ.Parallel locals locals') :
    ∀ {ss ss' : List Stmt}, StmtsAlike L ρ ss ss' ρ' →
      ResultLike L.Like ρ'.Parallel (checkStmts ⟨t, className, isStatic⟩ locals ss)
        (checkStmts ⟨t', className, isStatic⟩ locals' ss')
  | [], _, .nil => .ok hlocals
  | _ :: _, _, .cons hs hss =>
    (checkStmt_alike ht hlocals hs).bind fun _ _ hinner => checkStmts_alike ht hinner hss

end

end Site

/-! ## Methods, classes and programs -/

theorem declareParams_alike (ht : t.Similar t') (hlocals : ρ.Parallel locals locals')
    {qs qs' : List Param} (h : ParamsAlike L ρ qs qs' ρ') :
    ResultLike L.Like ρ'.Parallel (qs.foldlM (declareParam t) locals)
      (qs'.foldlM (declareParam t') locals') := by
  induction h generalizing locals locals' with
  | nil => exact .ok hlocals
  | cons htype hname hfits _ ih =>
    rw [List.foldlM_cons, List.foldlM_cons, declareParam, declareParam, ← htype.value]
    refine ResultLike.bind ?_ fun _ _ h => ih h
    exact (checkType_alike ht htype).check (declare_alike hlocals hname hfits _)

theorem checkMethod_alike (ht : t.Similar t') {m m' : MethodDecl} (h : MethodAlike L m m') :
    ResultLike L.Like Eq (checkMethod t className m) (checkMethod t' className m') := by
  obtain ⟨_, _, hparams, hbody⟩ := h.body
  rw [checkMethod, checkMethod, ← h.isStatic]
  refine (checkType_alike ht h.returns).check ?_
  refine (declareParams_alike ht ScopeStack.parallel_empty.push hparams).bind fun _ _ hlocals => ?_
  exact (Site.checkStmts_alike ht hlocals hbody).bind fun _ _ _ => .ok rfl

theorem checkClass_alike (ht : t.Similar t') {c c' : ClassDecl} (h : ClassAlike L c c') :
    ResultLike L.Like Eq (checkClass t c) (checkClass t' c') := by
  rw [checkClass, checkClass, ← h.name.value]
  refine ResultLike.check ?_ ?_
  · exact .forM h.fields fun _ _ hf => checkType_alike ht hf.type
  · exact .forM h.methods fun _ _ hm => checkMethod_alike ht hm

end Identification

/-- Identification of programs that are alike succeeds for both or fails alike. -/
theorem identify_alike {L : Likeness} {p p' : Program} (h : ProgramAlike L p p') :
    ResultLike L.Like (fun t t' => t.bare = t'.bare) (identify p) (identify p') := by
  refine (ClassTable.ofProgram_alike h).bind fun t t' ht => ?_
  refine ResultLike.check ?_ (.ok ht)
  exact .forM h fun _ _ hc => Identification.checkClass_alike (ClassTable.similar_of_bare_eq ht) hc

end MiniJava
