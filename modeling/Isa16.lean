import Isa16.Chip8.Programs
import Isa16.Decoding.Listing
import Isa16.Proofs.Decoding.Shadowing
import Isa16.Proofs.Encoding.RoundTrip
import Isa16.Proofs.Program.Steps
import Isa16.Proofs.Program.Reading
import Isa16.Proofs.Program.Nesting
import Isa16.Proofs.Program.Spacing
import Isa16.Proofs.Program.Deepest
import Isa16.Proofs.Program.Rules
import Isa16.Proofs.Program.Levels
import Isa16.Proofs.Program.ByName
import Isa16.Proofs.Program.Simulation
import Isa16.Proofs.Program.Grammar
import Isa16.Proofs.Program.Lexing
import Isa16.Proofs.Program.Spelling
import Isa16.Proofs.Program.Fragments
import Isa16.Proofs.Program.Joining
import Isa16.Proofs.Program.WordFunctions
import Isa16.Proofs.Program.Evaluation
import Isa16.Proofs.Program.Clauses
import Isa16.Proofs.Processor.Requests
import Isa16.Proofs.Chip8.Aliasing
import Isa16.Proofs.Chip8.Subroutines
import Isa16.Proofs.Program.Layout
import Isa16.Proofs.Program.Shapes
import Isa16.Proofs.Program.Locality
import Isa16.Proofs.Decoding.Listing
import Isa16.Proofs.Program.WellScoped
import Isa16.Proofs.Program.Spans
import Isa16.Proofs.Program.Respacing
import Isa16.Proofs.Encoding.Validation
import Isa16.Proofs.Encoding.Lens
import Isa16.Proofs.Decoding.AssemblyText
import Isa16.Proofs.Program.Stores
import Isa16.Proofs.Program.Literals
import Isa16.Proofs.Program.Atomicity
import Isa16.Proofs.Program.StoreLaws
import Isa16.Proofs.Program.WordCalls
import Isa16.Proofs.Program.WordShifts
import Isa16.Proofs.Program.Balance
import Isa16.Proofs.Reversal
import Isa16.Proofs.Decoding.Partition
import Isa16.Proofs.Program.Names
import Isa16.Proofs.Program.Progress
