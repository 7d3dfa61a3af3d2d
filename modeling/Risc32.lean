import Risc32.Main
import Risc32.Proofs.Encoding.RoundTrip
import Risc32.Proofs.Encoding.Codec
import Risc32.Proofs.Names
import Risc32.Proofs.Memory.Contents
import Risc32.Proofs.Memory.Accesses
import Risc32.Proofs.Machine.Execution
import Risc32.Proofs.Compiled.Listing
import Risc32.Proofs.Compiled.Agreement
import Risc32.Proofs.Compiled.SingleStep
import Risc32.Proofs.Compiled.OnDemand
import Risc32.Proofs.Preservation
import Risc32.Proofs.SystemCalls.Registry
import Risc32.Proofs.Machine.Runs
import Risc32.Proofs.Machine.OnDemand
import Risc32.Proofs.Machine.HostMaps
import Risc32.Proofs.Machine.Recording
import Risc32.Proofs.Assembly.Instructions
import Risc32.Proofs.Assembly.Scan
import Risc32.Proofs.Assembly.Programs
import Risc32.Proofs.Assembly.Source
import Risc32.Proofs.Program.StaticData
import Risc32.Proofs.Assembly.Layout
import Risc32.Proofs.Assembly.Symbols
import Risc32.Proofs.Compiled.Whole
import Risc32.Proofs.Compiled.Calls
import Risc32.Proofs.Compiled.Flow
import Risc32.Proofs.Machine.Discipline
import Risc32.Proofs.Compiled.Frames
import Risc32.Proofs.Machine.Lockstep
import Risc32.Proofs.Machine.Whole
import Risc32.Proofs.Assembly.StaticData
import Risc32.Proofs.Assembly.Functions
import Risc32.Proofs.Assembly.SymbolOperands
import Risc32.Proofs.Machine.Targets
import Risc32.Proofs.Compiled.Preservation
import Risc32.Proofs.Machine.Histories
import Risc32.Proofs.Machine.Actions
import Risc32.Proofs.Machine.Hosts
import Risc32.Proofs.Machine.FirstCall
import Risc32.Proofs.Machine.Bodies
import Risc32.Proofs.Machine.Independence
import Risc32.Proofs.Machine.Faults
import Risc32.Proofs.Compiled.Acceptance
import Risc32.Proofs.Compiled.Requests
import Risc32.Proofs.Compiled.Linking
import Risc32.Proofs.Compiled.Confinement
import Risc32.Proofs.Compiled.Verdicts
import Risc32.Proofs.Compiled.Labels
import Risc32.Proofs.Assembly.Literals
import Risc32.Proofs.Assembly.Decimals
import Risc32.Proofs.Assembly.MemoryOperands
import Risc32.Proofs.Assembly.Families
import Risc32.Proofs.Assembly.Halves
import Risc32.Proofs.Assembly.Runs
import Risc32.Proofs.Assembly.Tokenizer
import Risc32.Proofs.Assembly.Tokens
import Risc32.Proofs.Machine.Straight
import Risc32.Proofs.Machine.Lines
import Risc32.Proofs.Machine.Addresses
import Risc32.Proofs.Machine.Macros
import Risc32.Proofs.Assembly.Spelling
import Risc32.Proofs.Assembly.Accepted
import Risc32.Proofs.Assembly.Alike
import Risc32.Proofs.Assembly.Segments
import Risc32.Proofs.Assembly.Spacing
import Risc32.Proofs.Assembly.Letters
import Risc32.Proofs.Assembly.Numerals
import Risc32.Proofs.Assembly.Positions
import Risc32.Proofs.Assembly.Recasing
import Risc32.Proofs.Assembly.Rewriting
import Risc32.Proofs.Assembly.Rejection
import Risc32.Proofs.Assembly.Reporting
