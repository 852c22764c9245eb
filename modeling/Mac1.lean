import Mac1.Highlight
import Mac1.Session
import Mac1.Assembly.Target
import Mac1.Proofs.Assembly.Labels
import Mac1.Proofs.Execution.Batches
import Mac1.Proofs.Trace.Record
import Mac1.Proofs.Trace.CaptionReading
import Mac1.Proofs.Execution.Invariant
import Mac1.Proofs.Execution.Safety
import Mac1.Proofs.Execution.Faults
import Mac1.Proofs.Assembly.Errors
import Mac1.Proofs.Assembly.Rearrangement
import Mac1.Proofs.Assembly.FreeAddresses
import Mac1.Proofs.Assembly.Pinning
import Mac1.Proofs.Assembly.Monotonicity
import Mac1.Proofs.Assembly.Places
import Mac1.Proofs.Assembly.Respelling
import Mac1.Proofs.Assembly.LineEnds
import Mac1.Proofs.Text.Decimal
import Mac1.Proofs.Line.Tiling
import Mac1.Proofs.Line.Grammar
import Mac1.Proofs.Line.Spelling
import Mac1.Proofs.Line.Respacing
import Mac1.Proofs.Line.Trailing
import Mac1.Proofs.Line.Printing
import Mac1.Proofs.Line.Highlighting
import Mac1.Proofs.Machine.Filling
import Mac1.Proofs.Machine.InstructionTable
import Mac1.Proofs.Execution.Accounting
import Mac1.Proofs.Execution.Atomicity
import Mac1.Proofs.Execution.Subroutines
import Mac1.Proofs.Execution.Initialization
import Mac1.Proofs.InstructionSet.Registration
import Mac1.Proofs.Assembly.Entries
import Mac1.Proofs.Assembly.Recasing
