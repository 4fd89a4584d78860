import ScriptMachine.Expression
import ScriptMachine.Machine.HostCall
import ScriptMachine.Program.Heights
import ScriptMachine.Proofs.Rules
import ScriptMachine.Proofs.Histories
import ScriptMachine.Proofs.Termination
import ScriptMachine.Proofs.StackLocality
import ScriptMachine.Proofs.Extensions
import ScriptMachine.Proofs.RoutineIds
import ScriptMachine.Proofs.Faults
import ScriptMachine.Proofs.Frames
import ScriptMachine.Proofs.CallStack
import ScriptMachine.Proofs.Callers
import ScriptMachine.Proofs.Limits.Bounds
import ScriptMachine.Proofs.Finality
import ScriptMachine.Proofs.Outcomes
import ScriptMachine.Proofs.Operators
import ScriptMachine.Proofs.Limits.Transparency
import ScriptMachine.Proofs.Blame
import ScriptMachine.Proofs.Heights
import ScriptMachine.Proofs.PostfixCode
import ScriptMachine.Proofs.Numbers.Scan
import ScriptMachine.Proofs.Numbers.RoundTrip
import ScriptMachine.Value.Arithmetic
import ScriptMachine.Value.Comparison
import ScriptMachine.Proofs.Retries
import ScriptMachine.Proofs.Log
import ScriptMachine.Proofs.Numbers.Nearest
import ScriptMachine.Number.Literal.Bytes
import ScriptMachine.Proofs.Numbers.ByteScan
import ScriptMachine.Proofs.Numbers.LongestMatch
import ScriptMachine.Proofs.Values.Arithmetic
import ScriptMachine.Proofs.Texts.ByteOrder
import ScriptMachine.Value.Dispatch
import ScriptMachine.Proofs.Values.Dispatch
import ScriptMachine.Proofs.Numbers.Order
import ScriptMachine.Proofs.Values.Coercion
import ScriptMachine.Proofs.Values.Equality
import ScriptMachine.Proofs.Values.Order
import ScriptMachine.Proofs.Values.Operands
import ScriptMachine.Proofs.Texts.Quoted
import ScriptMachine.Proofs.Values.Inspection
import ScriptMachine.Proofs.Branches
import ScriptMachine.Proofs.Provenance
import ScriptMachine.Proofs.ForwardPrograms
import ScriptMachine.Proofs.Numbers.Monotone
import ScriptMachine.Proofs.Numbers.Arithmetic
import ScriptMachine.Proofs.Numbers.Shortest
import ScriptMachine.Proofs.Numbers.Layout
import ScriptMachine.Proofs.Numbers.Canonical
