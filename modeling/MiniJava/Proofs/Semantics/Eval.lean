import MiniJava.Proofs.Semantics.State

/-!
# The meaning of programs

Evaluation in the order of the source: operands, receiver and arguments from left to
right, both operands of a logical operator in any case, and the target of an
assignment before its value. Expressions change the state only by what they call, so
the variables of a body are changed by its own statements alone.

Two bounds make evaluation a function: one on the depth of nested calls and one on
the rounds of each loop. A program that terminates does so under some bounds.
-/

namespace MiniJava

namespace Semantics

/-- What it means to call a method of a class, by its name, with a receiver and arguments: the
result, if there is one, and the state behind the call. -/
abbrev Invoke := String → String → Option Nat → List Value → State → Result (Option Value × State)

/-- What is called: the routine that prints, or a method with its receiver. -/
inductive Callee
  | print
  | method (className name : String) (receiver? : Option Nat)
  deriving DecidableEq, Repr

namespace Site

/-- The method of a class. The receiver is computed only if the method belongs to an object, and
never for printing. -/
def calleeIn (site : Site) (className name : String) (receiver : Result Value) : Result Callee :=
  match site.table.method? className name with
  | none => .error .stuck
  | some m =>
    if className = ClassTable.printStreamClass ∧ name = ClassTable.printMethod then .ok .print
    else if m.isStatic then .ok (.method className name none)
    else do return .method className name (some (← (← receiver).object))

/-- A method is the one that prints, a static one, or belongs to an object. -/
theorem calleeIn_eq_ok {site : Site} {className name : String} {receiver : Result Value}
    {callee : Callee} (h : site.calleeIn className name receiver = .ok callee) :
    ∃ m, site.table.method? className name = some m ∧
      (((className = ClassTable.printStreamClass ∧ name = ClassTable.printMethod) ∧
          callee = .print) ∨
        (¬ (className = ClassTable.printStreamClass ∧ name = ClassTable.printMethod) ∧
          ((m.isStatic = true ∧ callee = .method className name none) ∨
            (m.isStatic = false ∧ ∃ o, receiver = .ok (.ref o) ∧
              callee = .method className name (some o))))) := by
  unfold calleeIn at h
  split at h
  next => cases h
  next m hm =>
    refine ⟨m, hm, ?_⟩
    split at h
    next hprint =>
      cases h
      exact .inl ⟨hprint, rfl⟩
    next hprint =>
      refine .inr ⟨hprint, ?_⟩
      split at h
      next hs =>
        cases h
        exact .inl ⟨hs, rfl⟩
      next hs =>
        obtain ⟨_, hv, o, ho, ⟨⟩⟩ := bind₂_eq_ok.mp h
        exact .inr ⟨by simpa using hs, o, Value.object_eq_ok ho ▸ hv, rfl⟩

/-- What is called by a reference. -/
def callee (site : Site) (vars : ScopeStack Var) (st : State) : Ref → Result Callee
  | .this _ => .error .stuck
  | .name _ text => site.calleeIn site.className text site.receiver
  | .member _ base field =>
    match site.classOf? vars base with
    | none => .error .stuck
    | some className => site.calleeIn className field.value (site.readRef vars st base)

end Site

/-- Prints a number or calls a method. -/
def Callee.run (invoke : Invoke) (args : List Value) (st : State) :
    Callee → Result (Option Value × State)
  | print =>
    match args with
    | [.int v] => .ok (none, { st with output := st.output ++ [v] })
    | _ => .error .stuck
  | method className name receiver? => invoke className name receiver? args st

/-! ## Expressions -/

/-- The value of a call that has one. -/
def resultValue : Option Value → Result Value
  | some v => .ok v
  | none => .error .missingResult

/-- A new array whose elements have a type. -/
def newArray (st : State) (element : Ty) : Value → Result (Value × State)
  | .int n =>
    if n < 0 then .error .negativeSize
    else .ok (st.allocate (.array (List.replicate n.toInt.toNat (initialValue element))))
  | _ => .error .stuck

theorem newArray_eq_ok {st st' : State} {element : Ty} {size v : Value}
    (h : newArray st element size = .ok (v, st')) :
    ∃ (index : Int64) (n : Nat), size = .int index ∧ index.toInt = n ∧
      st.allocate (.array (List.replicate n (initialValue element))) = (v, st') := by
  unfold newArray at h
  split at h
  next index =>
    split at h
    next => cases h
    next hneg =>
      have hnonneg : ¬ index.toInt < 0 := fun hlt => hneg (Int64.lt_iff_toInt_lt.mpr hlt)
      cases h
      exact ⟨index, index.toInt.toNat, rfl, by omega, rfl⟩
  next => cases h

namespace Site

section

variable (site : Site) (invoke : Invoke) (vars : ScopeStack Var)

mutual

/-- The value of an expression, and the state behind it. -/
def evalExpr : Expr → State → Result (Value × State)
  | .literal _ value, st => .ok (literalValue value, st)
  | .unary _ op operand, st => do
    let (v, st) ← evalExpr operand st
    return (← unaryValue op v, st)
  | .binary _ op left right, st => do
    let (a, st) ← evalExpr left st
    let (b, st) ← evalExpr right st
    return (← binaryValue op a b, st)
  | .ref target, st => do return (← site.readRef vars st target, st)
  | .index _ target position, st => do
    let array ← site.readRef vars st target
    let (i, st) ← evalExpr position st
    return (← readElement st array i, st)
  | .call _ method args, st => do
    let callee ← site.callee vars st method
    let (values, st) ← evalArgs args st
    let (result, st) ← callee.run invoke values st
    return (← resultValue result, st)
  | .newObject _ className, st =>
    .ok (st.allocate (.object className.value (initialFields site.table className.value)))
  | .newArray _ element size, st => do
    let (n, st) ← evalExpr size st
    newArray st element.value n

/-- The values of arguments in turn. -/
def evalArgs : List Expr → State → Result (List Value × State)
  | [], st => .ok ([], st)
  | e :: es, st => do
    let (v, st) ← evalExpr e st
    let (vs, st) ← evalArgs es st
    return (v :: vs, st)

end

end

theorem length_evalArgs {site : Site} {invoke : Invoke} {vars : ScopeStack Var} {es : List Expr}
    {st st' : State} {values : List Value}
    (h : site.evalArgs invoke vars es st = .ok (values, st')) : values.length = es.length := by
  induction es generalizing st values with
  | nil => cases h; rfl
  | cons _ _ ih =>
    obtain ⟨⟨_, _⟩, -, h⟩ := bind_eq_ok.mp h
    obtain ⟨⟨_, _⟩, hvs, ⟨⟩⟩ := bind_eq_ok.mp h
    rw [List.length_cons, List.length_cons, ih hvs]

/-- A condition. -/
def evalTest (site : Site) (invoke : Invoke) (vars : ScopeStack Var) (test : Expr) (st : State) :
    Result (Bool × State) := do
  let (v, st) ← site.evalExpr invoke vars test st
  match v with
  | .bool b => return (b, st)
  | _ => .error .stuck

end Site

/-! ## Statements -/

/-- How a statement ends: with the variables behind it, or with the end of its method. -/
inductive Outcome
  | next (vars : ScopeStack Var)
  | returned (value? : Option Value)

/-- Goes on behind a statement, unless it has ended its method. -/
def Outcome.andThen (f : ScopeStack Var → State → Result (Outcome × State)) :
    Outcome × State → Result (Outcome × State)
  | (next vars, st) => f vars st
  | (returned value?, st) => .ok (returned value?, st)

/-- Repeats a body as long as a condition holds, for a bounded number of rounds. -/
def iterate (test : ScopeStack Var → State → Result (Bool × State))
    (body : ScopeStack Var → State → Result (Outcome × State)) :
    Nat → ScopeStack Var → State → Result (Outcome × State)
  | 0, _, _ => .error .outOfFuel
  | rounds + 1, vars, st => do
    let (holds, st) ← test vars st
    if holds then
      let done ← body vars st
      Outcome.andThen (iterate test body rounds) done
    else return (.next vars, st)

namespace Site

section

variable (site : Site) (invoke : Invoke) (rounds : Nat)

mutual

/-- Runs a statement. -/
def execStmt : Stmt → ScopeStack Var → State → Result (Outcome × State)
  | .block _ body, vars, st => do
    let done ← execStmts body vars.push st
    Outcome.andThen (fun inner st => return (.next inner.outer, st)) done
  | .declare _ type name init, vars, st => do
    let (v, st) ← site.evalExpr invoke vars init st
    match vars.define? name.value ⟨type.value, v⟩ with
    | some vars => return (.next vars, st)
    | none => .error .stuck
  | .assign _ target value, vars, st => do
    let place ← site.locate vars st target
    let (v, st) ← site.evalExpr invoke vars value st
    let (vars, st) ← write vars st v place
    return (.next vars, st)
  | .assignIndex _ target position value, vars, st => do
    let array ← site.readRef vars st target
    let (i, st) ← site.evalExpr invoke vars position st
    let (v, st) ← site.evalExpr invoke vars value st
    return (.next vars, ← writeElement st array i v)
  | .call _ method args, vars, st => do
    let callee ← site.callee vars st method
    let (values, st) ← site.evalArgs invoke vars args st
    let (_, st) ← callee.run invoke values st
    return (.next vars, st)
  | .ret _ none, _, st => return (.returned none, st)
  | .ret _ (some value), vars, st => do
    let (v, st) ← site.evalExpr invoke vars value st
    return (.returned (some v), st)
  | .ifThen _ test thenBranch, vars, st => do
    let (holds, st) ← site.evalTest invoke vars test st
    if holds then execStmt thenBranch vars st else return (.next vars, st)
  | .ifThenElse _ test thenBranch elseBranch, vars, st => do
    let (holds, st) ← site.evalTest invoke vars test st
    if holds then execStmt thenBranch vars st else execStmt elseBranch vars st
  | .loop _ test body, vars, st =>
    iterate (fun vars st => site.evalTest invoke vars test st)
      (fun vars st => execStmt body vars st) rounds vars st

/-- Runs statements in turn, unless one of them ends the method. -/
def execStmts : List Stmt → ScopeStack Var → State → Result (Outcome × State)
  | [], vars, st => return (.next vars, st)
  | s :: ss, vars, st => do
    let done ← execStmt s vars st
    Outcome.andThen (fun vars st => execStmts ss vars st) done

end

end

end Site

/-! ## Programs -/

/-- Binds parameters to arguments, of which there must be as many. -/
def bindParams : List Param → List Value → ScopeStack Var → Result (ScopeStack Var)
  | [], [], vars => .ok vars
  | p :: params, v :: args, vars =>
    match vars.define? p.name.value ⟨p.type.value, v⟩ with
    | some vars => bindParams params args vars
    | none => .error .stuck
  | _, _, _ => .error .stuck

/-- The method of a class. -/
def findMethod? (p : Program) (className name : String) : Option MethodDecl :=
  (p.classes.find? (·.name.value = className)).bind (·.method? name)

/-- Calls of the methods of a program, with a bound on the depth of nested calls. -/
def invoke (p : Program) (table : ClassTable) (rounds : Nat) : Nat → Invoke
  | 0, _, _, _, _, _ => .error .outOfFuel
  | depth + 1, className, name, receiver?, args, st =>
    match findMethod? p className name with
    | none => .error .stuck
    | some m => do
      let vars ← bindParams m.params args ScopeStack.empty.push
      let (outcome, st) ← Site.execStmts ⟨table, className, receiver?⟩
        (invoke p table rounds depth) rounds m.body vars st
      match outcome with
      | .next _ => return (none, st)
      | .returned value? => return (value?, st)

/-- Runs the main method of a program, whose argument is null, and gives the state at its end. -/
def run (p : Program) (table : ClassTable) (main : MethodKey) (rounds depth : Nat) :
    Result State := do
  let (_, st) ← invoke p table rounds depth main.className main.name none [.null] (.initial table)
  return st

end Semantics

end MiniJava
