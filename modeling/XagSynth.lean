import XagSynth.Circuit.Basic
import XagSynth.Circuit.Drawing
import XagSynth.Circuit.Gate
import XagSynth.Circuit.Helper
import XagSynth.Circuit.Module
import XagSynth.Circuit.Qasm
import XagSynth.Circuit.Session
import XagSynth.Cli.Options
import XagSynth.Cli.Run
import XagSynth.Cut.Basic
import XagSynth.Cut.Enumerate
import XagSynth.Datum
import XagSynth.Datum.Access
import XagSynth.Datum.Times
import XagSynth.Decimal.Nearest
import XagSynth.Decimal.Shortest
import XagSynth.Fault
import XagSynth.Main
import XagSynth.Network.Basic
import XagSynth.Network.Gate
import XagSynth.Network.Query
import XagSynth.Network.Verilog
import XagSynth.Phase.Affine
import XagSynth.Phase.Model
import XagSynth.Proofs.Circuit.Amplitude
import XagSynth.Proofs.Circuit.Classical
import XagSynth.Proofs.Circuit.Superposition
import XagSynth.Proofs.Cut.Block
import XagSynth.Proofs.Cut.Closure
import XagSynth.Proofs.Cut.Rounds
import XagSynth.Proofs.Cut.Table
import XagSynth.Proofs.Cut.Termination
import XagSynth.Proofs.Network.Assignment
import XagSynth.Proofs.Network.Fanout
import XagSynth.Proofs.Network.Netlist
import XagSynth.Proofs.Network.Read
import XagSynth.Proofs.Network.RoundTrip
import XagSynth.Proofs.Network.Value
import XagSynth.Proofs.Phase.Degree
import XagSynth.Proofs.Phase.Program
import XagSynth.Proofs.Phase.Tables
import XagSynth.Proofs.Synthesis.Allocation
import XagSynth.Proofs.Synthesis.Blocks
import XagSynth.Proofs.Synthesis.Controls
import XagSynth.Proofs.Synthesis.Counts
import XagSynth.Proofs.Synthesis.Direct
import XagSynth.Proofs.Synthesis.Mapping
import XagSynth.Proofs.Synthesis.Operands
import XagSynth.Proofs.Synthesis.ReadOrder
import XagSynth.Proofs.Text.Pieces
import XagSynth.Synthesis.Blocks
import XagSynth.Synthesis.Direct
import XagSynth.Table
import XagSynth.Text.Ascii
import XagSynth.Text.Blank
import XagSynth.Text.Digits
import XagSynth.Text.Order
import XagSynth.Text.Pieces
import XagSynth.Text.Quoted
