import GateIR.Text.Parser.Program
import GateIR.Text.Scope

/-!
# Reading texts

The entry points for whole texts: everything in the text belongs to what is read.
-/

namespace GateIR

/-- Reads an angle; the empty text is the zero angle. -/
def Angle.parse (text : String) : Except Text.Error Angle := Text.Parser.angle.parse text

/-- Reads a gate. -/
def Gate.parse (text : String) : Except Text.Error Gate := Text.Parser.gate.parse text

/-- Reads a type. -/
def Ty.parse (text : String) : Except Text.Error Ty := Text.Parser.ty.parse text

/-- Reads an attribute. -/
def Attribute.parse (text : String) : Except Text.Error Attribute := Text.Parser.attr.parse text

/-- Reads a program without resolving its names. -/
def Text.Program.parse (text : String) : Except Text.Error Text.Program :=
  Text.Parser.program.parse text

/-- Reads a circuit. -/
def Circuit.parse (text : String) : Except Text.Error Circuit := do
  let p ← Text.Program.parse text
  p.toCircuit

end GateIR
