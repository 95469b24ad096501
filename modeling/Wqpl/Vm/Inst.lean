/-
# Instructions

The instruction set of the virtual machine. A function, a closure payload and
a chunk share their code behind a pointer; here code is named by its index in
the table of functions (`FnTable`), and two frames run the same code exactly
when they have the same index. Debugger spans and names are left out.
-/
import Wqpl.Value

namespace Wqpl

inductive Capture
  | local_ (slot : Nat)
  | localShared (slot : Nat)
  | fromCapture (i : Nat)
  | global (name : String)
deriving DecidableEq, Repr

/-- What a closure is made from: its code and what it captures. -/
structure ClosurePayload where
  captures : List Capture
  fn : FnId
deriving DecidableEq, Repr

/-- An operand inside an instruction. -/
inductive Operand
  | stack
  | const (v : Value)
  | local_ (slot : Nat)
  | capture (i : Nat)
  | var (name : String)
  | self

/-- The arguments of a call lie on the stack in source order; this says how
many are positional and which positions are named. -/
structure NamedArgMeta where
  posCount : Nat
  named : List (Nat × String)
deriving DecidableEq, Repr

inductive MutationOp
  | pop | remove | insert | insertAt
deriving DecidableEq, Repr

inductive StoreTarget
  | local_ (slot : Nat)
  | capture (i : Nat)
  | var (name : String)
deriving DecidableEq, Repr

structure ImportData where
  specifier : String
  importer : String
deriving DecidableEq, Repr

inductive UnpackPathSegment
  | index (i : Int64)
  | key (k : String)
deriving DecidableEq, Repr

abbrev UnpackPath := List UnpackPathSegment

inductive Instruction
  | loadConst (v : Value)
  | loadOwnedConst (slot : Nat)
  | loadClosure (payload : ClosurePayload)
  | loadVar (name : String)
  | loadCallTarget (operand : Operand)
  | loadVarExists (name : String)
  | loadCapture (i : Nat)
  | loadSelf
  | storeVar (name : String)
  | storeVarKeep (name : String)
  | loadLocal (slot : Nat)
  | storeLocal (slot : Nat)
  | storeLocalKeep (slot : Nat)
  | storeCapture (i : Nat)
  | storeCaptureKeep (i : Nat)
  | unpack (paths : List UnpackPath)
  | loadUnpack (slot : Nat)
  | endUnpack
  | binaryOp (op : BinaryOperator) (left right : Operand)
  | catAssign (target : StoreTarget) (right : Operand)
  | cmpChain (ops : List BinaryOperator)
  | cat (n : Nat)
  | unaryOp (op : UnaryOperator) (operand : Operand)
  | boolAndLazy (target : Nat)
  | boolOrLazy (target : Nat)
  | boolCombine (op : BoolOperator)
  | callBuiltinId (id argc : Nat)
  | callBuiltinDiscardId (id argc : Nat)
  | callLocal (slot argc : Nat)
  | callUser (name : String) (argc : Nat)
  | callAnon (argc : Nat)
  | postfix_ (argc : Nat)
  | tailCallLocal (slot argc : Nat)
  | tailCallUser (name : String) (argc : Nat)
  | tailCallAnon (argc : Nat)
  | tailPostfix (argc : Nat)
  | makeList (n : Nat)
  | makeDict (n : Nat)
  | makeRange (inclusive hasNext : Bool)
  | index
  | indexMany (argc : Nat)
  | checkAtomPathIndex
  | indexLoadLocal (slot : Nat)
  | indexLoadCapture (i : Nat)
  | indexLoadVar (name : String)
  | indexManyLoadLocal (slot argc : Nat)
  | indexManyLoadCapture (i argc : Nat)
  | indexManyLoadVar (name : String) (argc : Nat)
  | indexAssignVar (name : String)
  | indexAssignLocal (slot : Nat)
  | indexAssignCapture (i : Nat)
  | indexManyAssignVar (name : String) (argc : Nat)
  | indexManyAssignLocal (slot argc : Nat)
  | indexManyAssignCapture (i argc : Nat)
  | indexAssignVarDrop (name : String)
  | indexAssignLocalDrop (slot : Nat)
  | indexAssignCaptureDrop (i : Nat)
  | indexManyAssignVarDrop (name : String) (argc : Nat)
  | indexManyAssignLocalDrop (slot argc : Nat)
  | indexManyAssignCaptureDrop (i argc : Nat)
  | jump (target : Nat)
  | jumpIfFalse (target : Nat)
  | jumpIfCmpFalse (op : BinaryOperator) (left right : Operand) (target : Nat)
  | nLoopEnter (index count snapshot target : Nat)
  | nLoopNext (snapshot index target : Nat)
  | jumpIfGE (target : Nat)
  | jumpIfLEZLocal (slot target : Nat)
  | jumpIfNamedProvided (slot bit target : Nat)
  | indexMutate (target : StoreTarget) (op : MutationOp)
  | pop
  | return_
  | traceBegin
  | debug
  | pause
  | try_ (len : Nat)
  | import_ (data : ImportData)
  /-- A call with its named-argument metadata. -/
  | namedCall (call : Instruction) (metadata : NamedArgMeta)

/-- A compiled function: its calling convention and its code. -/
structure FnShape where
  /-- The declared parameters; `none` for the implicit ones. -/
  params : Option (List String)
  namedParams : Option (List String)
  locals : Nat
  isolatedModule : Bool
  instructions : List Instruction

/-- All code there is, by index. -/
abbrev FnTable := FnId → FnShape

/-- `params_len`. -/
def FnShape.paramsLen (f : FnShape) : Option Nat := f.params.map List.length

end Wqpl
