import TapeLang.Block
import TapeLang.Bracket
import TapeLang.Error
import TapeLang.Instr
import TapeLang.JumpTable
import TapeLang.Op
import TapeLang.Op.Specialize
import TapeLang.Program
import TapeLang.Proofs.Fusion
import TapeLang.Proofs.Loops
import TapeLang.Proofs.Native.Agreement
import TapeLang.Proofs.Specialization
import TapeLang.Proofs.Tabled
import TapeLang.Proofs.Unmatched
import TapeLang.Stream
import TapeLang.Stream.Compile
import TapeLang.Machine
import TapeLang.Interpreter.Bytecode
import TapeLang.Interpreter.Tabled
import TapeLang.Native.Block
import TapeLang.Native.CodeBuffer
import TapeLang.Native.Arena
import TapeLang.Native.Lowering
import TapeLang.Native.Template
import TapeLang.Executor
import TapeLang.Strategy
import TapeLang.CommandLine.Launch
import TapeLang.Main
import TapeLang.Proofs.BareMachine
import TapeLang.Proofs.Extent
import TapeLang.Proofs.Safety
import TapeLang.Proofs.Reuse
import TapeLang.Proofs.Profiles
import TapeLang.Proofs.Traces
import TapeLang.Proofs.Native.Acceptance
import TapeLang.Proofs.Concatenation
import TapeLang.Proofs.Tiling
import TapeLang.Proofs.Native.Assembler
import TapeLang.Proofs.Native.Refusal
import TapeLang.Proofs.Consistency
import TapeLang.Proofs.Statistics
import TapeLang.Proofs.Pairing
import TapeLang.Proofs.Scans
import TapeLang.Proofs.TraceTexts
import TapeLang.Proofs.Native.Patching
import TapeLang.Proofs.BoundedOutput
import TapeLang.Proofs.Economy
