import GateIR.Circuit.Prepared
import GateIR.Circuit.Typing
import GateIR.Json.Circuit
import GateIR.Json.Program
import GateIR.Proofs.Circuit.Typing
import GateIR.Text.Naming
import GateIR.Text.Read
import GateIR.Proofs.Circuit.Building
import GateIR.Proofs.Circuit.WellFormed
import GateIR.Proofs.Binary64.Rounding
import GateIR.Proofs.Binary64.Shortest
import GateIR.Proofs.Text.Numeral
import GateIR.Proofs.Angle
import GateIR.Proofs.Text.Tokens
import GateIR.Proofs.Text.Parsing
import GateIR.Proofs.Circuit.Renumber
import GateIR.Proofs.Text.Naming
import GateIR.Proofs.Text.Resolving
import GateIR.Proofs.Text.RoundTrip
import GateIR.Proofs.Typing.Order
import GateIR.Proofs.Text.Resolution
import GateIR.Proofs.Text.Parser.Program
import GateIR.Proofs.Typing.Counting
import GateIR.Proofs.Instruction.Application
import GateIR.Proofs.Circuit.Fault
import GateIR.Proofs.Text.Verdict
import GateIR.Proofs.Text.Canonical
import GateIR.Proofs.Angle.Produced
import GateIR.Proofs.Json.Lossless
import GateIR.Proofs.Typing.Extraction
import GateIR.Proofs.Instruction.Report
import GateIR.Proofs.Text.Renaming
import GateIR.Proofs.Text.Layout
import GateIR.Proofs.Typing.Permanence
import GateIR.Proofs.Angle.Circle
import GateIR.Proofs.Circuit.Growth
import GateIR.Proofs.Text.Dangling
import GateIR.Proofs.Binary64.Decimal
import GateIR.Proofs.Angle.Numeral
import GateIR.Proofs.Text.Digits
import GateIR.Proofs.Text.Integer
import GateIR.Proofs.Circuit.Prepared
import GateIR.Proofs.Text.Spliced
import GateIR.Proofs.Text.Refusal
