import Wqpl.Value
import Wqpl.Broadcast
import Wqpl.Dialogue
import Wqpl.HigherOrder.Builtins
import Wqpl.HigherOrder.Frames
import Wqpl.HigherOrder.Agreement
import Wqpl.HigherOrder.Zip
import Wqpl.HigherOrder.Split
import Wqpl.HigherOrder.Find
import Wqpl.HigherOrder.Cooperative
import Wqpl.Machine
import Wqpl.Vm.Exec
import Wqpl.Vm.Effect
import Wqpl.Vm.Step
import Wqpl.Vm.Flow
import Wqpl.Vm.TryRegion
import Wqpl.Compile.Tce
import Wqpl.Compile.TceSimulation
import Wqpl.Arith.Atoms
import Wqpl.Representation
import Wqpl.Arith.Lists
import Wqpl.Arith.Canonical
import Wqpl.Arith.Agreement
import Wqpl.Hash
import Wqpl.Access.Assign
import Wqpl.Access.Writes
import Wqpl.Access.ReadBack
import Wqpl.Graph.Scc
import Wqpl.Compile.OwnedConst
import Wqpl.Vm.PoolSteps
import Wqpl.Vm.Callers
import Wqpl.Compile.MainFlow
import Wqpl.Compile.OwnedConstSimulation
import Wqpl.Loop.Code
import Wqpl.Loop.Run
import Wqpl.Loop.Agreement
import Wqpl.Cas.Scope
import Wqpl.Cas.Assumption
import Wqpl.Cas.AssumptionSound
import Wqpl.Vm.IntOperators
import Wqpl.Vm.PlanRefinement
import Wqpl.Loop.Counted
import Wqpl.Loop.Unrolled
import Wqpl.Cas.Poly
import Wqpl.Cas.PolyEuclid
import Wqpl.Cas.SquareFree
import Wqpl.Compile.Fuse
import Wqpl.Compile.FuseInstructions
import Wqpl.Vm.NamedArgs
import Wqpl.Vm.Relocate
import Wqpl.Vm.Specialised
import Wqpl.Compile.FuseSimulation
import Wqpl.Cas.Key
import Wqpl.Cas.KeyOrder
import Wqpl.Lex.Advance
import Wqpl.Lex.FlatCst
import Wqpl.Arith.FloorDivision
import Wqpl.DoubleEnded
import Wqpl.Lex.EscapeRoundTrip
import Wqpl.Range.Exact
import Wqpl.Access.Insert
import Wqpl.Access.Inserted
import Wqpl.Algebraic.FieldRoot
import Wqpl.Format.Layout
import Wqpl.Arith.Rational
import Wqpl.Arith.RationalPower
import Wqpl.Aggregate
import Wqpl.Concat
import Wqpl.KeySet
import Wqpl.SetOps
import Wqpl.Shape
import Wqpl.Transpose
import Wqpl.BinaryCode
import Wqpl.FullPeriod
import Wqpl.Rng.Draw
import Wqpl.Compile.FuseRemap
import Wqpl.Compile.ConstProp
import Wqpl.Compile.ConstPropFixpoint
import Wqpl.ListGen.Build
import Wqpl.ListGen.Shaped
import Wqpl.Parse.Comma
import Wqpl.Display.Lexing
import Wqpl.Display.RoundTrip
import Wqpl.Cst.Green
import Wqpl.Cst.Red
import Wqpl.Cst.Reuse
import Wqpl.Cst.Dirty
import Wqpl.Script.Cst
import Wqpl.Script.Tokens
import Wqpl.Wqdb.Runs
import Wqpl.Compile.ConstPropFacts
import Wqpl.Compile.ConstPropRuns
import Wqpl.Compile.Propagate
