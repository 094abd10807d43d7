import MiniJava.Proofs.Likeness.Tables
import MiniJava.Typing.Body

/-!
# Typing of programs that are alike

Typing gives corresponding expressions the same type, and it finds as many faults in the one program
as in the other, at corresponding places. Where the variables have kept their names, the faults are
the same but for the places.
-/

namespace MiniJava

namespace Typing

variable {L : Likeness} {ρ ρ' : ScopeStack String} {t t' : ClassTable}
  {locals locals' : ScopeStack Ty} {className : String}

/-- Faults that are alike one by one. -/
abbrev FaultsAlike (L : Likeness) (faults faults' : List (Located TypeFault)) : Prop :=
  List.Forall₂ L.Like faults faults'

/-- The same type, and faults that are alike. -/
structure TypedAlike (L : Likeness) (a b : Typed) : Prop where
  type : a.type = b.type
  faults : FaultsAlike L a.faults b.faults

theorem FaultsAlike.append {as as' bs bs' : List (Located TypeFault)} (ha : FaultsAlike L as as')
    (hb : FaultsAlike L bs bs') : FaultsAlike L (as ++ bs) (as' ++ bs') :=
  List.rel_append ha hb

variable {span span' : Span} {r r' : Ref}

theorem faultsAlike_singleton {fault fault' : TypeFault} (hfault : L.kept → fault = fault')
    (hspan : L.span span span') :
    FaultsAlike L [⟨fault, span⟩] [⟨fault', span'⟩] :=
  .cons ⟨hfault, hspan⟩ .nil

theorem faultUnless_alike {fault fault' : TypeFault} (ok : Bool) (hfault : L.kept → fault = fault')
    (hspan : L.span span span') :
    FaultsAlike L (faultUnless ok fault span) (faultUnless ok fault' span') := by
  unfold faultUnless
  split
  · exact .nil
  · exact faultsAlike_singleton hfault hspan

theorem argumentFaults_alike {method method' : String} (hmethod : L.kept → method = method')
    {args args' : List (Located Ty)} (hargs : List.Forall₂ L.Same args args') (n : Nat)
    (params : List Ty) :
    FaultsAlike L (argumentFaults method n params args)
      (argumentFaults method' n params args') := by
  induction hargs generalizing n params with
  | nil => cases params <;> exact .nil
  | cons harg _ ih =>
    cases params with
    | nil => exact .nil
    | cons _ params =>
      rw [argumentFaults, argumentFaults, ← harg.value]
      refine (faultUnless_alike _ (fun hkept => ?_) harg.span).append (ih (n + 1) params)
      rw [hmethod hkept]

/-! ## References -/

/-- What a reference names, without the place of its declaration. -/
def Entity.bare : Entity → Entity
  | value type => value type
  | classNamed name => classNamed name
  | method entry => method entry.bare

theorem Entity.className?_bare (e : Entity) : e.bare.className? = e.className? := by
  cases e <;> rfl

namespace Env

/-- The same members and parallel scopes. -/
structure Alike (ρ : ScopeStack String) (env env' : Env) : Prop where
  table : env.table.Similar env'.table
  className : env.className = env'.className
  locals : ρ.Parallel env.locals env'.locals

section

variable {env env' : Env} (henv : env.Alike ρ env')
include henv

theorem member?_alike (owningClass name : String) :
    (env.member? owningClass name).map Entity.bare =
      (env'.member? owningClass name).map Entity.bare := by
  rw [member?, member?]
  rcases henv.table.field_cases owningClass name with ⟨hf, hf'⟩ | ⟨_, _, hf, hf'⟩
  · rcases henv.table.method_cases owningClass name with ⟨hm, hm'⟩ | ⟨_, _, hm, hm'⟩
    · simp only [hf, hf', hm, hm']
    · simp only [hf, hf', hm, hm']
      rfl
  · simp only [hf, hf']

theorem name?_alike {name name' : String} (hvar : SameVar ρ.bindings name name') :
    (env.name? name).map Entity.bare = (env'.name? name').map Entity.bare := by
  rw [name?, name?, ← henv.className]
  rcases henv.locals.lookup_cases hvar with ⟨_, hv, hv'⟩ | ⟨hnone, hnone', rfl⟩
  · simp only [hv, hv']
  · rcases ClassTable.map_eq_map_cases (member?_alike henv env.className name) with
      ⟨hm, hm'⟩ | ⟨a, b, hm, hm', hab⟩
    · simp only [hnone, hnone', hm, hm', henv.table.contains]
    · simp only [hnone, hnone', hm, hm', Option.map_some, hab]

theorem entity?_alike (hr : RefAlike L ρ r r') :
    (env.entity? r).map Entity.bare = (env'.entity? r').map Entity.bare := by
  induction hr with
  | this => rw [entity?, entity?, henv.className]
  | name _ _ hvar => exact name?_alike henv hvar
  | member _ _ hfield ih =>
    rw [entity?, entity?, ← hfield.value]
    rcases ClassTable.map_eq_map_cases ih with ⟨hbase, hbase'⟩ | ⟨a, b, hbase, hbase', hab⟩
    · rw [hbase, hbase']
      rfl
    · have hclass : a.className? = b.className? := by
        rw [← a.className?_bare, hab, b.className?_bare]
      rw [hbase, hbase']
      show Option.map _ (a.className? >>= _) = Option.map _ (b.className? >>= _)
      rw [hclass]
      cases b.className? with
      | none => rfl
      | some owner => exact member?_alike henv owner _

theorem valueType_alike (hr : RefAlike L ρ r r') :
    env.valueType r = env'.valueType r' := by
  rw [valueType, valueType]
  rcases ClassTable.map_eq_map_cases (entity?_alike henv hr) with ⟨h, h'⟩ | ⟨a, b, h, h', _⟩
  · rw [h, h']
  · rw [h, h']
    cases a <;> cases b <;> simp_all [Entity.bare]

theorem elementType_alike (hr : RefAlike L ρ r r') (hspan : L.span span span') {i i' : Typed}
    (hi : TypedAlike L i i') :
    TypedAlike L (env.elementType r span i) (env'.elementType r' span' i') := by
  have hposition : FaultsAlike L
      (faultUnless (Ty.int.assignable i.type) (.position i.type) span)
      (faultUnless (Ty.int.assignable i.type) (.position i.type) span') :=
    faultUnless_alike _ (fun _ => rfl) hspan
  have hfaults := hi.faults.append hposition
  rw [elementType, elementType, ← hi.type, ← valueType_alike henv hr]
  cases env.valueType r with
  | array _ | error => exact ⟨rfl, hfaults⟩
  | _ =>
    refine ⟨rfl, hfaults.append (faultsAlike_singleton (fun hkept => ?_) hr.span)⟩
    rw [hr.text_eq hkept]

theorem callType_alike (hr : RefAlike L ρ r r') {args args' : List (Located Ty)}
    (hargs : List.Forall₂ L.Same args args') {faults faults' : List (Located TypeFault)}
    (hfaults : FaultsAlike L faults faults') :
    TypedAlike L (env.callType r args faults) (env'.callType r' args' faults') := by
  rw [callType, callType]
  rcases ClassTable.map_eq_map_cases (entity?_alike henv hr) with ⟨h, h'⟩ | ⟨a, b, h, h', hab⟩
  · rw [h, h']
    exact ⟨rfl, hfaults⟩
  · rw [h, h']
    match a, b with
    | .method m, .method m' =>
      -- Methods that are the same but for their places have the same signature.
      have hm : m.bare = m'.bare := Entity.method.inj hab
      have hparams : m.params = m'.params := (congrArg MethodEntry.params hm :)
      have hreturns : m.returns = m'.returns := (congrArg MethodEntry.returns hm :)
      simp only [← hparams, ← hreturns, ← hargs.length_eq]
      split
      · refine ⟨rfl, hfaults.append (argumentFaults_alike hr.text_eq hargs 1 _)⟩
      · refine ⟨rfl, hfaults.append (faultsAlike_singleton (fun hkept => ?_) hr.span)⟩
        rw [hr.text_eq hkept]
    | .value _, .value _ | .classNamed _, .classNamed _ => exact ⟨rfl, hfaults⟩

end

/-! ## Expressions -/

mutual

theorem infer_alike {env env' : Env} (henv : env.Alike ρ env') :
    ∀ {e e' : Expr}, ExprAlike L ρ e e' → TypedAlike L (env.infer e) (env'.infer e')
  | .literal _ _, _, .literal _ => ⟨rfl, .nil⟩
  | .unary _ _ _, _, .unary hspan he => by
    have h := infer_alike henv he
    simp only [infer, ← h.type]
    split
    · exact ⟨rfl, h.faults⟩
    · exact ⟨rfl, h.faults.append (faultsAlike_singleton (fun _ => rfl) hspan)⟩
  | .binary _ _ _ _, _, .binary hspan hleft hright => by
    have hl := infer_alike henv hleft
    have hr := infer_alike henv hright
    simp only [infer, ← hl.type, ← hr.type]
    split
    · exact ⟨rfl, hl.faults.append hr.faults⟩
    · exact ⟨rfl, (hl.faults.append hr.faults).append (faultsAlike_singleton (fun _ => rfl) hspan)⟩
  | .ref _, _, .ref hr => ⟨valueType_alike henv hr, .nil⟩
  | .index _ _ _, _, .index _ hr he =>
    elementType_alike henv hr he.span (infer_alike henv he)
  | .call _ _ _, _, .call _ hr hargs =>
    have h := inferArgs_alike henv hargs
    callType_alike henv hr.ref h.1 h.2
  | .newObject _ _, _, .newObject _ hc => ⟨congrArg Ty.object hc.value, .nil⟩
  | .newArray _ element size, .newArray _ _ size', .newArray _ helement he => by
    have h := infer_alike henv he
    simp only [infer, ← h.type, ← helement.value]
    generalize (env.infer size).type = type
    have hsize : FaultsAlike L
        (faultUnless (Ty.int.assignable type) (.arraySize type) size.span)
        (faultUnless (Ty.int.assignable type) (.arraySize type) size'.span) :=
      faultUnless_alike _ (fun _ => rfl) he.span
    cases element.value with
    | int | object _ => exact ⟨rfl, h.faults.append hsize⟩
    | _ =>
      exact ⟨rfl, (h.faults.append hsize).append
        (faultsAlike_singleton (fun _ => rfl) helement.span)⟩

theorem inferArgs_alike {env env' : Env} (henv : env.Alike ρ env') :
    ∀ {es es' : List Expr}, ExprsAlike L ρ es es' →
      List.Forall₂ L.Same (env.inferArgs es).1 (env'.inferArgs es').1 ∧
        FaultsAlike L (env.inferArgs es).2 (env'.inferArgs es').2
  | [], _, .nil => ⟨.nil, .nil⟩
  | _ :: _, _, .cons he hes =>
    have h := infer_alike henv he
    have hs := inferArgs_alike henv hes
    ⟨.cons ⟨h.type, he.span⟩ hs.1, h.faults.append hs.2⟩

end

end Env

/-! ## Statements -/

mutual

theorem hasReturn_alike {ρ ρ' : ScopeStack String} :
    ∀ {s s' : Stmt}, StmtAlike L ρ s s' ρ' → hasReturn s = hasReturn s'
  | .block _ _, _, .block hss => by rw [hasReturn, hasReturn, anyReturn_alike hss]
  | .declare _ _ _ _, _, .declare .. => rfl
  | .assign _ _ _, _, .assign _ _ => rfl
  | .assignIndex _ _ _ _, _, .assignIndex _ _ _ => rfl
  | .call _ _ _, _, .call _ _ => rfl
  | .ret _ none, _, .retNone _ => rfl
  | .ret _ (some _), _, .retSome _ => rfl
  | .ifThen _ _ _, _, .ifThen _ hs => by rw [hasReturn, hasReturn, hasReturn_alike hs]
  | .ifThenElse _ _ _ _, _, .ifThenElse _ ha hb => by
    rw [hasReturn, hasReturn, hasReturn_alike ha, hasReturn_alike hb]
  | .loop _ _ _, _, .loop _ hs => by rw [hasReturn, hasReturn, hasReturn_alike hs]

theorem anyReturn_alike {ρ ρ' : ScopeStack String} :
    ∀ {ss ss' : List Stmt}, StmtsAlike L ρ ss ss' ρ' → anyReturn ss = anyReturn ss'
  | [], _, .nil => rfl
  | _ :: _, _, .cons hs hss => by
    rw [anyReturn, anyReturn, hasReturn_alike hs, anyReturn_alike hss]

end

namespace Site

/-- The same members, class and type of the result. -/
structure Alike (site site' : Site) : Prop where
  table : site.table.Similar site'.table
  className : site.className = site'.className
  returns : site.returns = site'.returns

variable {e e' : Expr} {site site' : Site}

section

variable (hsite : site.Alike site') (hlocals : ρ.Parallel locals locals')
include hsite hlocals

theorem Alike.env : (site.env locals).Alike ρ (site'.env locals') :=
  ⟨hsite.table, hsite.className, hlocals⟩

theorem conditionFaults_alike (statement : Conditional) (he : ExprAlike L ρ e e') :
    FaultsAlike L (site.conditionFaults locals statement e)
      (site'.conditionFaults locals' statement e') := by
  have h := Env.infer_alike (hsite.env hlocals) he
  simp only [conditionFaults, ← h.type]
  exact h.faults.append (faultUnless_alike _ (fun _ => rfl) he.span)

theorem returnFaults_alike (span span' : Span) (he : ExprAlike L ρ e e') :
    FaultsAlike L (site.returnFaults locals span (some e))
      (site'.returnFaults locals' span' (some e')) := by
  have h := Env.infer_alike (hsite.env hlocals) he
  simp only [returnFaults, ← h.type, ← hsite.returns]
  split
  · exact h.faults.append (faultsAlike_singleton (fun _ => rfl) he.span)
  · exact h.faults.append (faultUnless_alike _ (fun _ => rfl) he.span)

/-- Parallel scopes, and faults that are alike. -/
structure CheckedAlike (L : Likeness) (ρ : ScopeStack String)
    (a b : ScopeStack Ty × List (Located TypeFault)) : Prop where
  locals : ρ.Parallel a.1 b.1
  faults : FaultsAlike L a.2 b.2

theorem checkDeclare_alike {type type' : Located Ty} {x x' : Ident} (htype : L.Same type type')
    (hx : L.Like x x') (hfits : ρ.Fits x.value x'.value) (he : ExprAlike L ρ e e') :
    CheckedAlike L (ρ.defineNew x.value x'.value)
      (site.checkStmt locals (.declare span type x e))
      (site'.checkStmt locals' (.declare span' type' x' e')) := by
  have h := Env.infer_alike (hsite.env hlocals) he
  simp only [checkStmt, ← h.type, ← htype.value]
  refine ⟨hlocals.defineNew hfits type.value, ?_⟩
  refine h.faults.append (faultUnless_alike _ (fun hkept => ?_) he.span)
  rw [hx.value hkept]

theorem checkAssign_alike (hr : RefAlike L ρ r r') (he : ExprAlike L ρ e e') :
    CheckedAlike L ρ (site.checkStmt locals (.assign span r e))
      (site'.checkStmt locals' (.assign span' r' e')) := by
  have h := Env.infer_alike (hsite.env hlocals) he
  have hvalue := Env.valueType_alike (hsite.env hlocals) hr
  simp only [checkStmt, ← h.type, ← hvalue]
  refine ⟨hlocals, h.faults.append (faultUnless_alike _ (fun hkept => ?_) he.span)⟩
  rw [hr.text_eq hkept]

theorem checkAssignIndex_alike {i i' : Expr} (hr : RefAlike L ρ r r') (hi : ExprAlike L ρ i i')
    (he : ExprAlike L ρ e e') :
    CheckedAlike L ρ (site.checkStmt locals (.assignIndex span r i e))
      (site'.checkStmt locals' (.assignIndex span' r' i' e')) := by
  have h := Env.infer_alike (hsite.env hlocals) he
  have helement := Env.elementType_alike (hsite.env hlocals) hr hi.span
    (Env.infer_alike (hsite.env hlocals) hi)
  simp only [checkStmt, ← h.type, ← helement.type]
  refine ⟨hlocals, (helement.faults.append h.faults).append
    (faultUnless_alike _ (fun hkept => ?_) he.span)⟩
  rw [hr.text_eq hkept]

end

mutual

/-- Alike statements have alike faults. -/
theorem checkStmt_alike (hsite : site.Alike site') {ρ ρ' : ScopeStack String}
    {locals locals' : ScopeStack Ty} (hlocals : ρ.Parallel locals locals') :
    ∀ {s s' : Stmt}, StmtAlike L ρ s s' ρ' →
      CheckedAlike L ρ' (site.checkStmt locals s)
        (site'.checkStmt locals' s')
  | .block _ _, _, .block hss =>
    have h := checkStmts_alike hsite hlocals.push hss
    ⟨h.locals.outer, h.faults⟩
  -- Types are inferred in front of the declaration, so the variable is not in scope yet.
  | .declare _ _ _ _, _, .declare _ htype hx hfits he _ =>
    checkDeclare_alike hsite hlocals htype hx hfits he
  | .assign _ _ _, _, .assign hr he => checkAssign_alike hsite hlocals hr he
  | .assignIndex _ _ _ _, _, .assignIndex hr hi he => checkAssignIndex_alike hsite hlocals hr hi he
  | .call _ _ _, _, .call hr hargs =>
    have h := Env.inferArgs_alike (hsite.env hlocals) hargs
    ⟨hlocals, (Env.callType_alike (hsite.env hlocals) hr.ref h.1 h.2).faults⟩
  | .ret _ none, _, .retNone hspan => by
    simp only [checkStmt, returnFaults, ← hsite.returns]
    exact ⟨hlocals, faultUnless_alike _ (fun _ => rfl) hspan⟩
  | .ret span (some _), .ret span' (some _), .retSome he =>
    ⟨hlocals, returnFaults_alike hsite hlocals span span' he⟩
  | .ifThen _ _ _, _, .ifThen he hs =>
    have h := checkStmt_alike hsite hlocals hs
    ⟨h.locals, (conditionFaults_alike hsite hlocals .branch he).append h.faults⟩
  | .ifThenElse _ _ _ _, _, .ifThenElse he ha hb =>
    have hfirst := checkStmt_alike hsite hlocals ha
    have hsecond := checkStmt_alike hsite hfirst.locals hb
    ⟨hsecond.locals,
      ((conditionFaults_alike hsite hlocals .branch he).append hfirst.faults).append hsecond.faults⟩
  | .loop _ _ _, _, .loop he hs =>
    have h := checkStmt_alike hsite hlocals hs
    ⟨h.locals, (conditionFaults_alike hsite hlocals .loop he).append h.faults⟩

theorem checkStmts_alike (hsite : site.Alike site') {ρ ρ' : ScopeStack String}
    {locals locals' : ScopeStack Ty} (hlocals : ρ.Parallel locals locals') :
    ∀ {ss ss' : List Stmt}, StmtsAlike L ρ ss ss' ρ' →
      CheckedAlike L ρ' (site.checkStmts locals ss)
        (site'.checkStmts locals' ss')
  | [], _, .nil => ⟨hlocals, .nil⟩
  | _ :: _, _, .cons hs hss =>
    have hfirst := checkStmt_alike hsite hlocals hs
    have hrest := checkStmts_alike hsite hfirst.locals hss
    ⟨hrest.locals, hfirst.faults.append hrest.faults⟩

end

end Site

/-! ## Methods and programs -/

theorem defineParams_alike (hlocals : ρ.Parallel locals locals') {qs qs' : List Param}
    (h : ParamsAlike L ρ qs qs' ρ') :
    ρ'.Parallel (qs.foldl (fun scopes q => scopes.defineNew q.name.value q.type.value) locals)
      (qs'.foldl (fun scopes q => scopes.defineNew q.name.value q.type.value) locals') := by
  induction h generalizing locals locals' with
  | nil => exact hlocals
  | cons htype _ hfits _ ih =>
    rw [List.foldl_cons, List.foldl_cons, ← htype.value]
    exact ih (hlocals.defineNew hfits _)

theorem checkMethod_alike (ht : t.Similar t') {m m' : MethodDecl} (h : MethodAlike L m m') :
    FaultsAlike L (checkMethod t className m) (checkMethod t' className m') := by
  obtain ⟨_, _, hparams, hbody⟩ := h.body
  simp only [checkMethod, ← h.returns.value, ← h.name.value, ← anyReturn_alike hbody]
  have hscope := defineParams_alike ScopeStack.parallel_empty.push hparams
  refine FaultsAlike.append (Site.checkStmts_alike ?_ hscope hbody).faults ?_
  · exact ⟨ht, rfl, rfl⟩
  · exact faultUnless_alike _ (fun _ => rfl) h.name.span

end Typing

/-- Programs that are alike have type faults that are alike. -/
theorem typeCheck_alike {L : Likeness} {t t' : ClassTable} (ht : t.Similar t') {p p' : Program}
    (h : ProgramAlike L p p') :
    Typing.FaultsAlike L (typeCheck t p) (typeCheck t' p') := by
  refine List.rel_flatMap h fun c c' hc => ?_
  rw [← hc.name.value]
  exact List.rel_flatMap hc.methods fun m m' hm => Typing.checkMethod_alike ht hm

end MiniJava
