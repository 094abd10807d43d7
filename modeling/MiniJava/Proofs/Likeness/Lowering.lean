import MiniJava.Compiler
import MiniJava.Proofs.Likeness.Tables

/-!
# Lowering of programs that are alike

The code of a reference, an expression or a statement holds offsets, indices and labels, and neither
places of the source nor names of variables. So programs that are alike have the same code.

Why code generation fails is left open here: after identification it fails only for want of a main
method.
-/

namespace MiniJava

variable {p p' : Program} {L : Likeness}

namespace Lowering

variable {L : Likeness} {ρ ρ' : ScopeStack String} {t t' : ClassTable} {statics : StaticArea}
  {className : String} {slots slots' : ScopeStack Slot} {α β : Type}

/-- Both steps give the same result, or both fail. -/
abbrev SameResult (x y : Result α) : Prop := ResultLike (fun _ _ => True) Eq x y

/-- A step that takes the result of such steps. -/
theorem SameResult.bind {x y : Result α} {f g : α → Result β} {B : β → β → Prop}
    (h : SameResult x y) (hfg : ∀ a, ResultLike (fun _ _ => True) B (f a) (g a)) :
    ResultLike (fun _ _ => True) B (x >>= f) (y >>= g) :=
  ResultLike.bind h fun a _ hab => hab ▸ hfg a

theorem SameResult.map {x y : Result α} (h : SameResult x y) (f : α → β) :
    SameResult (f <$> x) (f <$> y) :=
  ResultLike.map h fun _ _ hab => congrArg f hab

theorem sameResult_fail {fault fault' : CodegenFault} {span span' : Span} :
    SameResult (failAt fault span : Result α) (failAt fault' span') :=
  .error trivial

/-! ## References -/

theorem classOfType_alike (r r' : Ref) (type : Ty) :
    SameResult (classOfType r type) (classOfType r' type) := by
  cases type with
  | object => exact .ok rfl
  | _ => exact sameResult_fail

namespace Site

/-- Sites of methods that are alike. -/
structure Alike (site site' : Site) : Prop where
  table : site.table.bare = site'.table.bare
  statics : site.statics = site'.statics
  className : site.className = site'.className
  receiver? : site.receiver? = site'.receiver?

variable {site site' : Site}

section

variable (hsite : site.Alike site') (hslots : ρ.Parallel slots slots')
include hsite hslots

theorem typeOfName_alike {name name' : String} (hvar : SameVar ρ.bindings name name') :
    site.typeOfName slots name = site'.typeOfName slots' name' := by
  have hsimilar := ClassTable.similar_of_bare_eq hsite.table
  rw [typeOfName, typeOfName, ← hsite.className]
  rcases hslots.lookup_cases hvar with ⟨_, hv, hv'⟩ | ⟨hnone, hnone', rfl⟩
  · rw [hv, hv']
  · rcases hsimilar.field_cases site.className name with ⟨hf, hf'⟩ | ⟨_, _, hf, hf'⟩
    · simp only [hnone, hnone', hf, hf', hsimilar.contains]
    · simp only [hnone, hnone', hf, hf']

variable {r r' : Ref}

theorem classOf_alike (hr : RefAlike L ρ r r') :
    SameResult (site.classOf slots r) (site'.classOf slots' r') := by
  induction hr with
  | this => exact .ok hsite.className
  | name _ _ hvar =>
    rw [classOf, classOf, typeOfName_alike hsite hslots hvar]
    exact classOfType_alike _ _ _
  | @member _ _ _ _ field _ _ _ hfield ih =>
    rw [classOf, classOf, ← hfield.value]
    refine ih.bind fun owner => ?_
    rcases (ClassTable.similar_of_bare_eq hsite.table).field_cases owner field.value with
      ⟨hf, hf'⟩ | ⟨f, place, hf, hf'⟩
    · simp only [hf, hf']
      exact classOfType_alike _ _ _
    · simp only [hf, hf']
      exact classOfType_alike _ _ _

omit hslots in
theorem receiverCode_alike (span span' : Span) :
    SameResult (site.receiverCode span) (site'.receiverCode span') := by
  rw [receiverCode, receiverCode, ← hsite.receiver?]
  cases site.receiver? with
  | none => exact sameResult_fail
  | some => exact .ok rfl

omit hslots in
theorem fieldCode_alike (r r' : Ref) (owner name : String) {object object' : Result LabelledCode}
    (hobject : SameResult object object') :
    SameResult (site.fieldCode r owner name object) (site'.fieldCode r' owner name object') := by
  rw [fieldCode, fieldCode, ← hsite.statics]
  rcases (ClassTable.similar_of_bare_eq hsite.table).field_cases owner name with
    ⟨hf, hf'⟩ | ⟨f, place, hf, hf'⟩
  · simp only [hf, hf']
    exact sameResult_fail
  · simp only [hf, hf', ClassTable.fieldOffset?_of_bare_eq hsite.table]
    split
    · cases site.statics.displacement? owner name with
      | none => exact sameResult_fail
      | some => exact .ok rfl
    · cases (site'.table.class? owner).bind (·.fieldOffset? name) with
      | none => exact sameResult_fail
      | some => exact hobject.bind fun code => .ok rfl

theorem refCode_alike (hr : RefAlike L ρ r r') :
    SameResult (site.refCode slots r) (site'.refCode slots' r') := by
  induction hr with
  | this => exact (receiverCode_alike hsite _ _).bind fun code => .ok rfl
  | @name span span' text text' _ _ hvar =>
    rw [refCode, refCode, ← hsite.className]
    -- A variable has the same slot in both frames, and the slot is all that is left of it.
    rcases hslots.lookup_cases hvar with ⟨_, hv, hv'⟩ | ⟨hnone, hnone', rfl⟩
    · simp only [hv, hv']
      exact .ok rfl
    · simp only [hnone, hnone']
      exact (fieldCode_alike hsite _ _ _ _ (receiverCode_alike hsite span span')).bind
        fun code => .ok rfl
  | member _ hbase hfield ih =>
    rw [refCode, refCode, ← hfield.value]
    refine (classOf_alike hsite hslots hbase).bind fun owner => ?_
    exact (fieldCode_alike hsite _ _ _ _ (ih.map readTop)).bind fun code => .ok rfl

theorem valueCode_alike (hr : RefAlike L ρ r r') :
    SameResult (site.valueCode slots r) (site'.valueCode slots' r') :=
  (refCode_alike hsite hslots hr).map readTop

theorem targetCode_alike (hr : RefAlike L ρ r r') :
    SameResult (site.targetCode slots r) (site'.targetCode slots' r') := by
  refine (refCode_alike hsite hslots hr).bind fun (code, top) => ?_
  cases top with
  | address => exact .ok rfl
  | value => exact sameResult_fail

omit hslots in
theorem calleeIn_alike (r r' : Ref) (owner name : String) {receiver receiver' : Result LabelledCode}
    (hreceiver : SameResult receiver receiver') :
    SameResult (site.calleeIn r owner name receiver) (site'.calleeIn r' owner name receiver') := by
  rw [calleeIn, calleeIn]
  rcases (ClassTable.similar_of_bare_eq hsite.table).method_cases owner name with
    ⟨hm, hm'⟩ | ⟨m, place, hm, hm'⟩
  · simp only [hm, hm']
    exact sameResult_fail
  · simp only [hm, hm']
    split
    · exact .ok rfl
    · split
      · exact .ok rfl
      · exact hreceiver.bind fun code => .ok rfl

/-- A plain name is called without looking at the variables, so it has to be the same. -/
theorem callee_alike (hr : CalleeAlike L ρ r r') :
    SameResult (site.callee slots r) (site'.callee slots' r') := by
  obtain ⟨hr, hplain⟩ := hr
  cases hr with
  | this => exact sameResult_fail
  | name =>
    obtain rfl := Option.some.inj hplain
    rw [callee, callee, ← hsite.className]
    exact calleeIn_alike hsite _ _ _ _ (receiverCode_alike hsite _ _)
  | member _ hbase hfield =>
    rw [callee, callee, ← hfield.value]
    refine (classOf_alike hsite hslots hbase).bind fun owner => ?_
    exact calleeIn_alike hsite _ _ _ _ (valueCode_alike hsite hslots hbase)

end

/-! ## Expressions -/

theorem objectSize_alike (ht : t.bare = t'.bare) (name : String) :
    objectSize t name = objectSize t' name := by
  rw [objectSize, objectSize, ClassTable.instanceSize_of_bare_eq ht]

mutual

theorem exprCode_alike (hsite : site.Alike site') (hslots : ρ.Parallel slots slots') :
    ∀ {e e' : Expr}, ExprAlike L ρ e e' →
      SameResult (site.exprCode slots e) (site'.exprCode slots' e')
  | .literal _ _, _, .literal _ => .ok rfl
  | .unary _ _ _, _, .unary _ he => (exprCode_alike hsite hslots he).bind fun _ => .ok rfl
  | .binary _ _ _ _, _, .binary _ hleft hright =>
    (exprCode_alike hsite hslots hleft).bind fun _ =>
      (exprCode_alike hsite hslots hright).bind fun _ => .ok rfl
  | .ref _, _, .ref hr => valueCode_alike hsite hslots hr
  | .index _ _ _, _, .index _ hr he =>
    (valueCode_alike hsite hslots hr).bind fun _ =>
      (exprCode_alike hsite hslots he).bind fun _ => .ok rfl
  | .call _ _ _, _, .call _ hr hargs => by
    rw [exprCode, exprCode, ← hargs.length_eq]
    exact (callee_alike hsite hslots hr).bind fun _ =>
      (argsCode_alike hsite hslots hargs).bind fun _ => .ok rfl
  | .newObject _ _, _, .newObject _ hc => by
    rw [exprCode, exprCode, objectSize_alike hsite.table, ← hc.value]
    exact .ok rfl
  | .newArray _ _ _, _, .newArray _ _ he => (exprCode_alike hsite hslots he).bind fun _ => .ok rfl

theorem argsCode_alike (hsite : site.Alike site') (hslots : ρ.Parallel slots slots') :
    ∀ {es es' : List Expr}, ExprsAlike L ρ es es' →
      SameResult (site.argsCode slots es) (site'.argsCode slots' es')
  | [], _, .nil => .ok rfl
  | _ :: _, _, .cons he hes =>
    (exprCode_alike hsite hslots he).bind fun _ =>
      (argsCode_alike hsite hslots hes).bind fun _ => .ok rfl

end

theorem callCode_alike (hsite : site.Alike site') (hslots : ρ.Parallel slots slots')
    (hr : CalleeAlike L ρ r r') {args args' : List Expr} (hargs : ExprsAlike L ρ args args') :
    SameResult (site.callCode slots r args) (site'.callCode slots' r' args') := by
  rw [callCode, callCode, ← hargs.length_eq]
  exact (callee_alike hsite hslots hr).bind fun _ =>
    (argsCode_alike hsite hslots hargs).bind fun _ => .ok rfl

theorem conditionCode_alike (hsite : site.Alike site') (hslots : ρ.Parallel slots slots')
    {e e' : Expr} (he : ExprAlike L ρ e e') :
    SameResult (site.conditionCode slots e) (site'.conditionCode slots' e') :=
  (exprCode_alike hsite hslots he).bind fun _ => .ok rfl

/-! ## Statements -/

/-- Frames with parallel slots and the same number of locals. -/
structure FrameAlike (ρ : ScopeStack String) (frame frame' : Frame) : Prop where
  slots : ρ.Parallel frame.slots frame'.slots
  locals : frame.locals = frame'.locals

/-- The same code, and frames that are alike behind it. -/
structure StmtCodeAlike (ρ : ScopeStack String) (a b : LabelledCode × Frame) : Prop where
  code : a.1 = b.1
  frame : FrameAlike ρ a.2 b.2

theorem FrameAlike.push {frame frame' : Frame} (h : FrameAlike ρ frame frame') :
    FrameAlike ρ.push { frame with slots := frame.slots.push }
      { frame' with slots := frame'.slots.push } :=
  ⟨h.slots.push, h.locals⟩

theorem FrameAlike.declare {frame frame' : Frame} (h : FrameAlike ρ frame frame') {x x' : String}
    (hfits : ρ.Fits x x') (type : Ty) :
    FrameAlike (ρ.defineNew x x') (frame.declare x type) (frame'.declare x' type) := by
  refine ⟨?_, congrArg (· + 1) h.locals⟩
  rw [Frame.declare, Frame.declare, h.locals]
  exact h.slots.defineNew hfits _

/-- A block takes its locals off again, and there are as many of them in both. -/
theorem FrameAlike.outer {inner inner' : Frame} (h : FrameAlike ρ inner inner') :
    FrameAlike ρ.outer ⟨inner.slots.outer, inner.locals - inner.slots.innerSize⟩
      ⟨inner'.slots.outer, inner'.locals - inner'.slots.innerSize⟩ :=
  ⟨h.slots.outer, by rw [h.locals, h.slots.innerSize_eq]⟩

mutual

/-- Alike statements have the same code. -/
theorem stmtCode_alike (hsite : site.Alike site') {ρ ρ' : ScopeStack String} (start : Nat)
    {frame frame' : Frame} (hframe : FrameAlike ρ frame frame') :
    ∀ {s s' : Stmt}, StmtAlike L ρ s s' ρ' →
      ResultLike (fun _ _ => True) (StmtCodeAlike ρ')
        (site.stmtCode start frame s) (site'.stmtCode start frame' s')
  | .block _ _, _, .block hss => by
    rw [stmtCode, stmtCode]
    refine (stmtsCode_alike hsite start hframe.push hss).bind ?_
    rintro ⟨code, inner⟩ ⟨_, inner'⟩ ⟨rfl, hinner⟩
    refine .ok ⟨?_, hinner.outer⟩
    -- A block drops as many words as it has variables, whatever they are called.
    show code ++ dropWords inner.slots.innerSize = code ++ dropWords inner'.slots.innerSize
    rw [hinner.slots.innerSize_eq]
  | .declare _ _ _ _, _, .declare _ htype _ hfits he _ => by
    rw [stmtCode, stmtCode, ← htype.value]
    exact (exprCode_alike hsite hframe.slots he).bind fun _ => .ok ⟨rfl, hframe.declare hfits _⟩
  | .assign _ _ _, _, .assign hr he =>
    (targetCode_alike hsite hframe.slots hr).bind fun _ =>
      (exprCode_alike hsite hframe.slots he).bind fun _ => .ok ⟨rfl, hframe⟩
  | .assignIndex _ _ _ _, _, .assignIndex hr hi he =>
    (valueCode_alike hsite hframe.slots hr).bind fun _ =>
      (exprCode_alike hsite hframe.slots hi).bind fun _ =>
        (exprCode_alike hsite hframe.slots he).bind fun _ => .ok ⟨rfl, hframe⟩
  | .call _ _ _, _, .call hr hargs =>
    (callCode_alike hsite hframe.slots hr hargs).bind fun _ => .ok ⟨rfl, hframe⟩
  | .ret _ none, _, .retNone _ => .ok ⟨rfl, hframe⟩
  | .ret _ (some _), _, .retSome he =>
    (exprCode_alike hsite hframe.slots he).bind fun _ => .ok ⟨rfl, hframe⟩
  | .ifThen _ _ _, _, .ifThen he hs => by
    rw [stmtCode, stmtCode]
    refine (conditionCode_alike hsite hframe.slots he).bind fun condition => ?_
    refine (stmtCode_alike hsite _ hframe hs).bind ?_
    rintro ⟨_, _⟩ ⟨_, _⟩ ⟨rfl, hinner⟩
    exact .ok ⟨rfl, hinner⟩
  | .ifThenElse _ _ _ _, _, .ifThenElse he ha hb => by
    rw [stmtCode, stmtCode]
    refine (conditionCode_alike hsite hframe.slots he).bind fun condition => ?_
    refine (stmtCode_alike hsite _ hframe ha).bind ?_
    rintro ⟨_, _⟩ ⟨_, _⟩ ⟨rfl, hfirst⟩
    refine (stmtCode_alike hsite _ hfirst hb).bind ?_
    rintro ⟨_, _⟩ ⟨_, _⟩ ⟨rfl, hsecond⟩
    exact .ok ⟨rfl, hsecond⟩
  | .loop _ _ _, _, .loop he hs => by
    rw [stmtCode, stmtCode]
    refine (conditionCode_alike hsite hframe.slots he).bind fun condition => ?_
    refine (stmtCode_alike hsite _ hframe hs).bind ?_
    rintro ⟨_, _⟩ ⟨_, _⟩ ⟨rfl, hinner⟩
    exact .ok ⟨rfl, hinner⟩

theorem stmtsCode_alike (hsite : site.Alike site') {ρ ρ' : ScopeStack String} (start : Nat)
    {frame frame' : Frame} (hframe : FrameAlike ρ frame frame') :
    ∀ {ss ss' : List Stmt}, StmtsAlike L ρ ss ss' ρ' →
      ResultLike (fun _ _ => True) (StmtCodeAlike ρ')
        (site.stmtsCode start frame ss) (site'.stmtsCode start frame' ss')
  | [], _, .nil => .ok ⟨rfl, hframe⟩
  | _ :: _, _, .cons hs hss => by
    rw [stmtsCode, stmtsCode]
    refine (stmtCode_alike hsite start hframe hs).bind ?_
    rintro ⟨_, _⟩ ⟨_, _⟩ ⟨rfl, hinner⟩
    refine (stmtsCode_alike hsite _ hinner hss).bind ?_
    rintro ⟨_, _⟩ ⟨_, _⟩ ⟨rfl, hrest⟩
    exact .ok ⟨rfl, hrest⟩

end

end Site

/-! ## Methods and programs -/

open Site (FrameAlike)

/-- The parameters from one with a given number on lie in parallel slots. -/
theorem defineParams_alike (hslots : ρ.Parallel slots slots') {qs qs' : List Param}
    (h : ParamsAlike L ρ qs qs' ρ') (count k : Nat) :
    ρ'.Parallel
      ((qs.zipIdx k).foldl (fun slots (q, i) => slots.defineNew q.name.value
        ⟨paramOffset count i, q.type.value⟩) slots)
      ((qs'.zipIdx k).foldl (fun slots (q, i) => slots.defineNew q.name.value
        ⟨paramOffset count i, q.type.value⟩) slots') := by
  induction h generalizing slots slots' k with
  | nil => exact hslots
  | cons htype _ hfits _ ih =>
    simp only [List.zipIdx_cons, List.foldl_cons, ← htype.value]
    exact ih (hslots.defineNew hfits _) (k + 1)

theorem ofParams_alike {qs qs' : List Param} (h : ParamsAlike L ScopeStack.empty.push qs qs' ρ') :
    FrameAlike ρ' (Frame.ofParams qs) (Frame.ofParams qs') := by
  refine ⟨?_, rfl⟩
  rw [Frame.ofParams, Frame.ofParams, ← h.length_eq]
  exact defineParams_alike ScopeStack.parallel_empty.push h _ 0

theorem methodCode_alike (ht : t.bare = t'.bare) (start : Nat) {m m' : MethodDecl}
    (h : MethodAlike L m m') :
    SameResult (methodCode t statics className start m)
      (methodCode t' statics className start m') := by
  obtain ⟨_, _, hparams, hbody⟩ := h.body
  rw [methodCode, methodCode, ← h.isStatic, ← hparams.length_eq]
  refine (Site.stmtsCode_alike ?_ _ (ofParams_alike hparams) hbody).bind ?_
  · exact ⟨ht, rfl, rfl, rfl⟩
  · rintro ⟨_, _⟩ ⟨_, _⟩ ⟨rfl, -⟩
    exact .ok rfl

/-- Methods with the names of their classes that are alike. -/
structure NamedMethodAlike (L : Likeness) (a b : String × MethodDecl) : Prop where
  className : a.1 = b.1
  method : MethodAlike L a.2 b.2

theorem methodsCode_alike (ht : t.bare = t'.bare) {ms ms' : List (String × MethodDecl)}
    (h : List.Forall₂ (NamedMethodAlike L) ms ms') (start : Nat) :
    SameResult (methodsCode t statics start ms) (methodsCode t' statics start ms') := by
  induction h generalizing start with
  | nil => exact .ok rfl
  | @cons a b _ _ hab _ ih =>
    obtain ⟨_, _⟩ := a
    obtain ⟨_, _⟩ := b
    obtain ⟨rfl, hm⟩ := hab
    rw [methodsCode, methodsCode]
    refine SameResult.bind (methodCode_alike ht start hm) fun code => ?_
    rw [← hm.name.value]
    exact SameResult.bind (ih _) fun rest => .ok rfl

theorem methodsOf_alike (h : ProgramAlike L p p') :
    List.Forall₂ (NamedMethodAlike L) (methodsOf p) (methodsOf p') := by
  refine List.rel_flatMap h fun c c' hc => ?_
  rw [List.forall₂_map_left_iff, List.forall₂_map_right_iff]
  exact hc.methods.imp fun m m' hm => ⟨hc.name.value, hm⟩

theorem staticArea_alike (h : ProgramAlike L p p') :
    StaticArea.ofProgram p = StaticArea.ofProgram p' := by
  have hclass : ∀ c c', ClassAlike L c c' →
      (c.fields.filter (·.isStatic)).map (fun f => (c.name.value, f.name.value)) =
        (c'.fields.filter (·.isStatic)).map fun f => (c'.name.value, f.name.value) := by
    intro c c' hc
    rw [← hc.name.value]
    have hstatics : List.Forall₂ (FieldAlike L) (c.fields.filter (·.isStatic))
        (c'.fields.filter (·.isStatic)) :=
      List.rel_filter (fun f f' hf => by simp [hf.isStatic]) hc.fields
    exact map_eq_map_of_forall₂ hstatics fun f f' hf => by rw [hf.name.value]
  simp only [StaticArea.ofProgram, List.flatMap, map_eq_map_of_forall₂ h hclass]

theorem sameResult_refl (x : Result α) : SameResult x x := by
  cases x with
  | error => exact .error trivial
  | ok => exact .ok rfl

theorem programCode_alike (ht : t.bare = t'.bare) (main : MethodKey) (h : ProgramAlike L p p') :
    SameResult (programCode t main p) (programCode t' main p') := by
  rw [programCode, programCode, staticArea_alike h]
  exact SameResult.bind (methodsCode_alike ht (methodsOf_alike h) _) fun _ => sameResult_refl _

end Lowering

open Lowering

/-- Either both programs have machine code, and it is the same, or neither has any. -/
theorem lower_alike {t t' : ClassTable} (ht : t.bare = t'.bare) (main : MethodKey)
    (h : ProgramAlike L p p') :
    SameResult (lower t main p) (lower t' main p') :=
  SameResult.bind (programCode_alike ht main h) fun _ => sameResult_refl _

/-! ## The main method -/

theorem isMain_alike {m m' : MethodDecl} (h : MethodAlike L m m') : m.isMain = m'.isMain := by
  rw [MethodDecl.isMain, MethodDecl.isMain, h.name.value, h.isPrivate, h.isStatic, h.returns.value,
    h.params_eq]

theorem findMain_alike (h : ProgramAlike L p p') :
    ResultLike (fun e e' => e.fault = e'.fault) Eq (findMain p) (findMain p') := by
  have hmains : List.Forall₂ (NamedMethodAlike L) ((methodsOf p).filter (·.2.isMain))
      ((methodsOf p').filter (·.2.isMain)) :=
    List.rel_filter (fun a b hab => by simp [isMain_alike hab.method]) (methodsOf_alike h)
  rw [findMain, findMain]
  generalize (methodsOf p).filter (·.2.isMain) = ms at hmains
  generalize (methodsOf p').filter (·.2.isMain) = ms' at hmains
  cases hmains with
  | nil => exact .error rfl
  | @cons a b _ _ hab hrest =>
    obtain ⟨owner, _⟩ := a
    obtain ⟨_, _⟩ := b
    obtain ⟨rfl, hm⟩ := hab
    cases hrest with
    | nil => exact .ok (congrArg (MethodKey.mk owner) hm.name.value)
    | cons => exact .error rfl

end MiniJava
