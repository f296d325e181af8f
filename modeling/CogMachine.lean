import CogMachine.Assembly.Assemble
import CogMachine.Assembly.Declaration
import CogMachine.Assembly.Draft
import CogMachine.Assembly.Error
import CogMachine.Assembly.Line
import CogMachine.Bytecode.Builder
import CogMachine.Bytecode.Instruction
import CogMachine.Bytecode.Literal
import CogMachine.Bytecode.Mnemonic
import CogMachine.Bytecode.Opcode
import CogMachine.Bytecode.Program
import CogMachine.Bytecode.Word
import CogMachine.Decimal.Layout
import CogMachine.Decimal.Reading
import CogMachine.Decimal.Shortest
import CogMachine.Fault
import CogMachine.Host.Arguments
import CogMachine.Host.CommandLine
import CogMachine.Host.Console
import CogMachine.Host.Entry
import CogMachine.Host.LimitsText
import CogMachine.Host.Session
import CogMachine.Machine.Continuation
import CogMachine.Machine.Cycle
import CogMachine.Machine.Frame
import CogMachine.Machine.Instance
import CogMachine.Machine.Limits
import CogMachine.Machine.Memory
import CogMachine.Machine.Operation
import CogMachine.Machine.Resumable
import CogMachine.Machine.Services
import CogMachine.Machine.Stack
import CogMachine.Machine.SystemVerbs
import CogMachine.Machine.Transient
import CogMachine.Machine.VerbTable
import CogMachine.Main
import CogMachine.Proofs.Above
import CogMachine.Proofs.Accesses
import CogMachine.Proofs.Answers
import CogMachine.Proofs.Arithmetic
import CogMachine.Proofs.Arranging
import CogMachine.Proofs.Assembly
import CogMachine.Proofs.Attempt
import CogMachine.Proofs.Boundaries
import CogMachine.Proofs.Building
import CogMachine.Proofs.Closing
import CogMachine.Proofs.Codec
import CogMachine.Proofs.Comparing
import CogMachine.Proofs.Composition
import CogMachine.Proofs.Cycle
import CogMachine.Proofs.Decimals
import CogMachine.Proofs.Decoding
import CogMachine.Proofs.DigitStrings
import CogMachine.Proofs.Drafting
import CogMachine.Proofs.Editing
import CogMachine.Proofs.Engines
import CogMachine.Proofs.Execution
import CogMachine.Proofs.Finishing
import CogMachine.Proofs.Frames
import CogMachine.Proofs.Handlers
import CogMachine.Proofs.Heading
import CogMachine.Proofs.Heap
import CogMachine.Proofs.HostVerbs
import CogMachine.Proofs.Isolation
import CogMachine.Proofs.Layout
import CogMachine.Proofs.Limits
import CogMachine.Proofs.Listing
import CogMachine.Proofs.Literals
import CogMachine.Proofs.Lockstep
import CogMachine.Proofs.Malformed
import CogMachine.Proofs.Modes
import CogMachine.Proofs.Moving
import CogMachine.Proofs.Numerals
import CogMachine.Proofs.Padding
import CogMachine.Proofs.Places
import CogMachine.Proofs.Reachable
import CogMachine.Proofs.Recoding
import CogMachine.Proofs.Redrafting
import CogMachine.Proofs.Registers
import CogMachine.Proofs.Registration
import CogMachine.Proofs.Rereading
import CogMachine.Proofs.Restarting
import CogMachine.Proofs.Resuming
import CogMachine.Proofs.Rounding
import CogMachine.Proofs.Safety
import CogMachine.Proofs.Sessions
import CogMachine.Proofs.Simulation
import CogMachine.Proofs.Source
import CogMachine.Proofs.Sparing
import CogMachine.Proofs.Suspension
import CogMachine.Proofs.Symbols
import CogMachine.Proofs.Texts
import CogMachine.Proofs.Tiling
import CogMachine.Proofs.Traces
import CogMachine.Proofs.Turns
import CogMachine.Proofs.Unbroken
import CogMachine.Proofs.Unresolved
import CogMachine.Proofs.Upholding
import CogMachine.Proofs.Writing
import CogMachine.Rounding
import CogMachine.Script.Basic
import CogMachine.Script.Export
import CogMachine.Script.Listing
import CogMachine.Script.Symbol
import CogMachine.Single.Arithmetic
import CogMachine.Single.Basic
import CogMachine.Text.Blank
import CogMachine.Text.GraphemeExtend
import CogMachine.Text.Json
import CogMachine.Text.Lines
import CogMachine.Text.Numeral
import CogMachine.Text.Quoted
import CogMachine.Text.Ranges
import CogMachine.Text.Unprintable
import CogMachine.Value.Basic
import CogMachine.Value.HandleKind
import CogMachine.Value.Reading
import CogMachine.Value.ValueType
import CogMachine.Value.Vector3
