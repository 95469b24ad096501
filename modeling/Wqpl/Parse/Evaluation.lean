/-
# Evaluating parsed data

What the compiled program of a node computes, for the nodes of data and the
operators: a list is made of its items, a dictionary takes its pairs in order.
Comparisons, products of matrices and the nodes that are no data are parameters.
-/
import Wqpl.Concat
import Wqpl.Parse.Expression
import Wqpl.Vm.IntOperators

namespace Wqpl
namespace Parser

/-- What evaluation takes from elsewhere. -/
structure Evaluator (E : Type) where
  numbers : NumberOps
  /-- The binary operators that are not arithmetic. -/
  binary : BinaryOperator → Value → Value → Checked Value
  /-- A name, a call, a range, a chain of comparisons or another form. -/
  other : AstNode E → Checked Value

section Evaluation

variable {E : Type} (evaluator : Evaluator E)

/-- `eval_unary`. -/
def evalUnary (numbers : NumberOps) : UnaryOperator → Value → Checked Value
  | .negate, v => neg numbers v
  | .count, v => return .fromBigint v.len
  | .not, v => not_ numbers v

/-- `eval_binary`. -/
def evalBinary (op : BinaryOperator) (a b : Value) : Checked Value :=
  match op.arith with
  | some arith => arith.eval evaluator.numbers a b
  | none => evaluator.binary op a b

mutual

def eval : AstNode E → Checked Value
  | .literal v => return v
  | .unaryOp op operand => do evalUnary evaluator.numbers op (← eval operand)
  | .binaryOp left op right => do
    let a ← eval left
    let b ← eval right
    evalBinary evaluator op a b
  | .cat items => do return catMany (← evalItems items)
  | .list items => do return Value.fromItems (← evalItems items)
  | .dict pairs => do return .dict (IndexMap.collect (← evalPairs pairs))
  | .group node => eval node
  | node => evaluator.other node
termination_by structural node => node

def evalItems : List (AstNode E) → Checked (List Value)
  | [] => return []
  | item :: items => do
    let v ← eval item
    let vs ← evalItems items
    return v :: vs
termination_by structural items => items

def evalPairs : List (List Char × AstNode E) → Checked (List (String × Value))
  | [] => return []
  | (key, node) :: pairs => do
    let v ← eval node
    let entries ← evalPairs pairs
    return (String.ofList key, v) :: entries
termination_by structural pairs => pairs

end

variable {evaluator}

theorem eval_literal (v : Value) : eval evaluator (.literal v) = pure v := rfl

theorem eval_group (node : AstNode E) : eval evaluator (.group node) = eval evaluator node := rfl

/-- A minus before a big integer is an operator. -/
theorem eval_negate_bigInt (n : Int) :
    eval evaluator (.unaryOp .negate (.literal (.bigInt n))) = pure (.bigInt (-n)) := rfl

theorem evalItems_values {nodes : List (AstNode E)} {vs : List Value}
    (h : List.Forall₂ (fun node v => eval evaluator node = pure v) nodes vs) :
    evalItems evaluator nodes = pure vs := by
  induction h with
  | nil => rfl
  | cons hv _ ih =>
    rw [evalItems, hv, ih]
    rfl

theorem evalPairs_values {pairs : List (List Char × AstNode E)} {entries : List (String × Value)}
    (h : List.Forall₂ (fun p e => String.ofList p.1 = e.1 ∧ eval evaluator p.2 = pure e.2)
      pairs entries) : evalPairs evaluator pairs = pure entries := by
  induction h with
  | nil => rfl
  | @cons p e pairs entries hp _ ih =>
    obtain ⟨key, node⟩ := p
    obtain ⟨name, v⟩ := e
    obtain ⟨rfl, hv⟩ := hp
    dsimp only at hv
    rw [evalPairs, hv, ih]
    rfl

theorem eval_list {nodes : List (AstNode E)} {vs : List Value}
    (h : List.Forall₂ (fun node v => eval evaluator node = pure v) nodes vs) :
    eval evaluator (.list nodes) = pure (Value.fromItems vs) := by
  rw [eval, evalItems_values h]
  rfl

theorem eval_dict {pairs : List (List Char × AstNode E)} {entries : List (String × Value)}
    (h : List.Forall₂ (fun p e => String.ofList p.1 = e.1 ∧ eval evaluator p.2 = pure e.2)
      pairs entries) :
    eval evaluator (.dict pairs) = pure (.dict (IndexMap.collect entries)) := by
  rw [eval, evalPairs_values h]
  rfl

end Evaluation

end Parser
end Wqpl
