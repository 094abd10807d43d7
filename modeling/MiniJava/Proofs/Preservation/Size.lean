import Mathlib
import MiniJava.Program

/-!
# Sizes of programs

The number of nodes of a program bounds what its code needs: each expression leaves one
word on the stack for each of its parts at most, and each declaration one more for the
rest of its block.
-/

namespace MiniJava

mutual

/-- The number of expressions inside of an expression, itself included. -/
def Expr.nodes : Expr → Nat
  | .literal _ _ | .ref _ | .newObject _ _ => 1
  | .unary _ _ operand => operand.nodes + 1
  | .binary _ _ left right => left.nodes + right.nodes + 1
  | .index _ _ position => position.nodes + 1
  | .call _ _ args => Expr.nodesOf args + 1
  | .newArray _ _ size => size.nodes + 1

/-- The number of expressions inside of several ones. -/
def Expr.nodesOf : List Expr → Nat
  | [] => 0
  | e :: es => e.nodes + Expr.nodesOf es

end

mutual

/-- The number of statements and expressions inside of a statement, itself included. -/
def Stmt.nodes : Stmt → Nat
  | .block _ body => Stmt.nodesOf body + 1
  | .declare _ _ _ init => init.nodes + 1
  | .assign _ _ value => value.nodes + 1
  | .assignIndex _ _ position value => position.nodes + value.nodes + 1
  | .call _ _ args => Expr.nodesOf args + 1
  | .ret _ none => 1
  | .ret _ (some value) => value.nodes + 1
  | .ifThen _ test thenBranch => test.nodes + thenBranch.nodes + 1
  | .ifThenElse _ test thenBranch elseBranch =>
    test.nodes + thenBranch.nodes + elseBranch.nodes + 1
  | .loop _ test body => test.nodes + body.nodes + 1

/-- The number of statements and expressions inside of several statements. -/
def Stmt.nodesOf : List Stmt → Nat
  | [] => 0
  | s :: ss => s.nodes + Stmt.nodesOf ss

end

/-- The number of parameters, statements and expressions of a method. -/
def MethodDecl.nodes (m : MethodDecl) : Nat := m.params.length + Stmt.nodesOf m.body

/-- The number of fields of a class and of the nodes of its methods. -/
def ClassDecl.nodes (c : ClassDecl) : Nat := c.fields.length + (c.methods.map (·.nodes)).sum

/-- The number of nodes of a program. -/
def Program.nodes (p : Program) : Nat := (p.classes.map (·.nodes)).sum

theorem Expr.nodes_pos (e : Expr) : 0 < e.nodes := by
  cases e <;> simp [Expr.nodes]

theorem Expr.length_le_nodesOf (es : List Expr) : es.length ≤ Expr.nodesOf es := by
  induction es with
  | nil => exact Nat.le_refl 0
  | cons e =>
    have := e.nodes_pos
    rw [Expr.nodesOf, List.length_cons]
    omega

theorem Stmt.nodes_pos (s : Stmt) : 0 < s.nodes := by
  cases s with
  | ret _ value => cases value <;> simp [Stmt.nodes]
  | _ => simp [Stmt.nodes]

theorem Stmt.length_le_nodesOf (ss : List Stmt) : ss.length ≤ Stmt.nodesOf ss := by
  induction ss with
  | nil => exact Nat.le_refl 0
  | cons s =>
    have := s.nodes_pos
    rw [Stmt.nodesOf, List.length_cons]
    omega

theorem ClassDecl.nodes_le {p : Program} {c : ClassDecl} (hc : c ∈ p.classes) :
    c.nodes ≤ p.nodes := List.le_sum_of_mem (List.mem_map_of_mem hc)

theorem MethodDecl.nodes_le {p : Program} {c : ClassDecl} (hc : c ∈ p.classes) {m : MethodDecl}
    (hm : m ∈ c.methods) : m.nodes ≤ p.nodes := by
  have hclass := ClassDecl.nodes_le hc
  have hmethod : m.nodes ≤ (c.methods.map (·.nodes)).sum :=
    List.le_sum_of_mem (List.mem_map_of_mem hm)
  rw [ClassDecl.nodes] at hclass
  omega

end MiniJava
