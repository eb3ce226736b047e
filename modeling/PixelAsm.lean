import PixelAsm.Assembler.Basic
import PixelAsm.Assembler.Build
import PixelAsm.Assembler.Expansion
import PixelAsm.Assembler.Pending
import PixelAsm.Binary32.Basic
import PixelAsm.Binary32.Shortest
import PixelAsm.CompileError
import PixelAsm.Compiler
import PixelAsm.Device.Call
import PixelAsm.Device.Recorder
import PixelAsm.Device.Upload
import PixelAsm.Dialect.Context
import PixelAsm.Dialect.Rules
import PixelAsm.Dialect.Symbol
import PixelAsm.Grammar.Basic
import PixelAsm.Grammar.Link
import PixelAsm.Grammar.Match
import PixelAsm.Instruction.Basic
import PixelAsm.Instruction.Listing
import PixelAsm.Instruction.Queue
import PixelAsm.Instruction.Schedule
import PixelAsm.Main
import PixelAsm.Program
import PixelAsm.Reading
import PixelAsm.Report
import PixelAsm.Session
import PixelAsm.Source.Numeral
import PixelAsm.Source.Reader
import PixelAsm.Target.Code
import PixelAsm.Text.Hex
import PixelAsm.Token
import PixelAsm.Trail
import PixelAsm.Proofs.Linking
import PixelAsm.Proofs.Phrases
import PixelAsm.Proofs.Records
import PixelAsm.Proofs.Syntax
import PixelAsm.Proofs.Parsing
import PixelAsm.Proofs.IssueLog
import PixelAsm.Proofs.Building
import PixelAsm.Proofs.Scanning
import PixelAsm.Proofs.Compilation
import PixelAsm.Proofs.Liveness
import PixelAsm.Proofs.Routing
import PixelAsm.Proofs.Termination
import PixelAsm.Proofs.Trivia
import PixelAsm.Proofs.Acceptance
import PixelAsm.Proofs.Classification
import PixelAsm.Proofs.Invariants
import PixelAsm.Proofs.Retargeting
import PixelAsm.Proofs.Refinement
import PixelAsm.Proofs.Orders
import PixelAsm.Proofs.Definedness
import PixelAsm.Proofs.UndefinedReads
import PixelAsm.Proofs.Crossing
import PixelAsm.Proofs.Delivery
import PixelAsm.Proofs.Dependencies
import PixelAsm.Proofs.Backtracking
import PixelAsm.Proofs.Alternatives
import PixelAsm.Proofs.Evaluation
import PixelAsm.Proofs.Derivation
import PixelAsm.Proofs.Spelling
import PixelAsm.Proofs.Lookahead
import PixelAsm.Proofs.Completeness
import PixelAsm.Proofs.RoundTrip
import PixelAsm.Proofs.Loadable
import PixelAsm.Proofs.Rounding
import PixelAsm.Proofs.Constants
import PixelAsm.Proofs.Definitions
import PixelAsm.Proofs.Lifecycle
import PixelAsm.Proofs.Attribution
import PixelAsm.Proofs.Lines
import PixelAsm.Proofs.Lexing
import PixelAsm.Proofs.Replay
import PixelAsm.Proofs.History
import PixelAsm.Proofs.Simulation
import PixelAsm.Proofs.Compatibility
import PixelAsm.Proofs.Overwriting
import PixelAsm.Proofs.Interruption
import PixelAsm.Proofs.Validation
import PixelAsm.Proofs.Diagnosis
import PixelAsm.Proofs.MaximalMunch
import PixelAsm.Proofs.Nesting
import PixelAsm.Proofs.Robustness
import PixelAsm.Proofs.Cutting
import PixelAsm.Proofs.Boundaries
import PixelAsm.Proofs.Truncation
import PixelAsm.Proofs.Gaps
import PixelAsm.Proofs.Handles
import PixelAsm.Proofs.Names
import PixelAsm.Proofs.Transactions
import PixelAsm.Proofs.Listings
import PixelAsm.Proofs.Separation
