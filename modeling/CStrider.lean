import CStrider.TaskQueue.Model
import CStrider.TaskQueue.Effects
import CStrider.TaskQueue.Invariants
import CStrider.TaskQueue.Quiescence
import CStrider.Mapping.Model
import CStrider.Mapping.Once
import CStrider.Types.Hash
import CStrider.Types.Table
import CStrider.Types.Constructors
import CStrider.Session.Control
import CStrider.Gen.Context
import CStrider.Gen.Definitions
import CStrider.Gen.Extends
import CStrider.Gen.Faithful
import CStrider.Gen.Generics
import CStrider.Lib.Worklist
import CStrider.Traversal.Calls
import CStrider.Traversal.Complete
import CStrider.Traversal.Coverage
import CStrider.Gen.Compare
import CStrider.Gen.Names
import CStrider.Gen.Rows
import CStrider.Lib.Keyed
import CStrider.Lib.WaitFor
import CStrider.Mapping.Nested
import CStrider.Registry.Roots
import CStrider.Registry.Symbols
import CStrider.Traversal.Null
import CStrider.Traversal.Relocation
import CStrider.Traversal.Renaming
import CStrider.Traversal.Split
import CStrider.Comparison.Results
import CStrider.Comparison.Worklist
import CStrider.Gen.Unions
import CStrider.Mapping.Writers
import CStrider.TaskQueue.Overflow
import CStrider.Traversal.Memoized
import CStrider.Types.Deadlock
import CStrider.Comparison.Closure
import CStrider.Comparison.Parameters
import CStrider.TaskQueue.Fifo
import CStrider.Text.Annotations
import CStrider.Text.VarKeys
import CStrider.Hash.Clients
import CStrider.Hash.Runs
import CStrider.Mapping.Freed
import CStrider.Serial.RoundTrip
import CStrider.Lib.Lexing
import CStrider.Text.XfLexer
import CStrider.Text.XfParser
import CStrider.Text.XfRules
