import Mathlib.Tactic
import GateIR.Text.Lexeme
import GateIR.Text.Program

/-!
# The grammar

Which tokens spell which syntax tree, said production by production and without a parser. A
production gives the tokens of a phrase, and the tree of the phrase from the trees of its parts.

A statement records the line it starts on, so statements and programs are spelt by lexemes, and all
smaller phrases by tokens. Nothing here says how to find the end of a list of operands, which no
token closes.
-/

namespace GateIR.Text

open Token (value word symbol)

/-! ## Parts of phrases -/

/-- `#gate.` and a name. -/
def gateName (name : String) : List Token :=
  [symbol .hash, word "gate", symbol .dot, word name]

/-- Tokens in angle brackets. -/
def angled (ts : List Token) : List Token := symbol .less :: (ts ++ [symbol .greater])

/-- A dialect and the name of one of its instructions. -/
def opcode (dialect name : String) : List Token := [word dialect, symbol .dot, word name]

/-- One or more phrases with commas between them. -/
inductive DerivesList {α : Type} (derives : List Token → α → Prop) : List Token → List α → Prop
  | one {ts : List Token} {a : α} : derives ts a → DerivesList derives ts [a]
  | cons {ts us : List Token} {a : α} {as : List α} : derives ts a → DerivesList derives us as →
      DerivesList derives (ts ++ symbol .comma :: us) (a :: as)

/-- The name of a value is one token. -/
def DerivesName (ts : List Token) (name : String) : Prop := ts = [value name]

/-! ## Angles -/

/-- The number that a numeral stands for. -/
inductive DerivesNumber : Token → Binary64 → Prop
  | int (n : Nat) : DerivesNumber (.int n) (.ofInt n)
  | real (x : Binary64) : DerivesNumber (.real x) x

/-- An angle without its sign. Only zero can be written without `pi`. -/
inductive DerivesMagnitude : List Token → Binary64 → Prop
  | empty : DerivesMagnitude [] .zero
  | pi : DerivesMagnitude [.pi] .one
  | zero {t : Token} : DerivesNumber t .zero → DerivesMagnitude [t] .zero
  | multiple {t : Token} {x : Binary64} : DerivesNumber t x → DerivesMagnitude [t, .pi] x

inductive DerivesAngle : List Token → Angle → Prop
  | unsigned {ts : List Token} {x : Binary64} : DerivesMagnitude ts x → DerivesAngle ts (.reduce x)
  | negative {ts : List Token} {x : Binary64} : DerivesMagnitude ts x →
      DerivesAngle (symbol .minus :: ts) (.reduce x.neg)

/-! ## Gates, types and attributes -/

inductive DerivesGate : List Token → Gate → Prop
  | fixed {g : Gate} : g ∈ Gate.allFixed → DerivesGate (gateName g.name) g
  | rz {ts : List Token} {a : Angle} : DerivesAngle ts a →
      DerivesGate (gateName "rz" ++ angled ts) (.rz a)

inductive DerivesTy : List Token → Ty → Prop
  | qubit : DerivesTy [symbol .bang, word "qubit"] .qubit
  | gate {n : Nat} : n < UInt32.size →
      DerivesTy ([symbol .bang, word "gate", symbol .dot, word "type"] ++ angled [.int n])
        (.gate (.ofNat n))
  | int {ds : List Char} : ds ≠ [] → (∀ c ∈ ds, c.isDigit) → digitsValue ds < UInt32.size →
      DerivesTy [word (String.ofList ('i' :: ds))] (.int (.ofNat (digitsValue ds)))
  | float {ds : List Char} {w : FloatWidth} : ds ≠ [] → (∀ c ∈ ds, c.isDigit) →
      digitsValue ds = w.bits → DerivesTy [word (String.ofList ('f' :: ds))] (.float w)
  | index : DerivesTy [word "index"] .index

inductive DerivesAttribute : List Token → Attribute → Prop
  | gate {ts : List Token} {g : Gate} : DerivesGate ts g → DerivesAttribute ts (.gate g)
  | angle {ts : List Token} {a : Angle} : DerivesAngle ts a →
      DerivesAttribute (gateName "angle" ++ angled ts) (.angle a)
  | ty {ts : List Token} {t : Ty} : DerivesTy ts t → DerivesAttribute ts (.ty t)
  | int {n : Nat} : (n : Int) ≤ Int64.maxValue.toInt → DerivesAttribute [.int n] (.int (.ofInt n))
  | negative {n : Nat} : Int64.minValue.toInt ≤ -n →
      DerivesAttribute [symbol .minus, .int n] (.int (.ofInt (-n)))

/-! ## Instructions -/

/-- Operands with their types, or nothing. -/
inductive DerivesOperands : List Token → List String → List Ty → Prop
  | none : DerivesOperands [] [] []
  | some {ts us : List Token} {names : List String} {types : List Ty} :
      DerivesList DerivesName ts names → DerivesList DerivesTy us types →
      DerivesOperands (ts ++ symbol .colon :: us) names types

inductive DerivesBody : List Token → Body → Prop
  | constant {ts : List Token} {g : Gate} : DerivesGate ts g →
      DerivesBody (opcode "gate" "constant" ++ ts) (.constant g)
  | quaternion {ts : List Token} {t : Ty} {real i j k : String} : DerivesTy ts t →
      DerivesBody
        (opcode "gate" "quaternion" ++ (angled ts ++
          [value real, symbol .plus, value i, word "i", symbol .plus, value j, word "j",
            symbol .plus, value k, word "k"]))
        (.quaternion t real i j k)
  | compose {ts : List Token} {t : Ty} {lhs rhs : String} : DerivesTy ts t →
      DerivesBody
        (opcode "gate" "compose" ++
          ([value lhs, symbol .comma, value rhs, symbol .colon] ++ ts))
        (.compose lhs rhs t)
  | xzs {x z phase : String} :
      DerivesBody
        (opcode "gate" "xzs" ++
          [value x, symbol .comma, value z, symbol .comma, value phase])
        (.xzs x z phase)
  | qrefGate {ts us : List Token} {a : Attribute} {qubits : List String} {types : List Ty} :
      DerivesAttribute ts a → DerivesOperands us qubits types →
      DerivesBody (opcode "qref" "gate" ++ (angled ts ++ us)) (.qrefGate a qubits types)
  | qrefDynGate {us : List Token} {g : String} {qubits : List String} {types : List Ty} :
      DerivesOperands us qubits types →
      DerivesBody (opcode "qref" "dyn_gate" ++ (angled [value g] ++ us))
        (.qrefDynGate g qubits types)
  | qrefMeasure {q : String} :
      DerivesBody (opcode "qref" "measure" ++ [value q]) (.qrefMeasure q)
  | qssaGate {ts us : List Token} {a : Attribute} {qubits : List String} {types : List Ty} :
      DerivesAttribute ts a → DerivesOperands us qubits types →
      DerivesBody (opcode "qssa" "gate" ++ (angled ts ++ us)) (.qssaGate a qubits types)
  | qssaMeasure {q : String} :
      DerivesBody (opcode "qssa" "measure" ++ [value q]) (.qssaMeasure q)

/-! ## Statements and programs -/

/-- The names of the results, if there are any, and an instruction. -/
inductive DerivesDefinition : List Token → List String → Body → Prop
  | unnamed {ts : List Token} {b : Body} : DerivesBody ts b → DerivesDefinition ts [] b
  | named {ts us : List Token} {results : List String} {b : Body} :
      DerivesList DerivesName ts results → DerivesBody us b →
      DerivesDefinition (ts ++ symbol .equals :: us) results b

/-- A statement starts on the line of its first token. -/
inductive DerivesStatement : List Lexeme → Statement → Prop
  | mk {first : Lexeme} {more : List Lexeme} {results : List String} {b : Body} :
      DerivesDefinition ((first :: more).map Lexeme.token) results b →
      DerivesStatement (first :: more) ⟨results, b, first.line⟩

/-- Statements one after the other, with nothing between them. -/
inductive DerivesStatements : List Lexeme → List Statement → Prop
  | nil : DerivesStatements [] []
  | cons {ls ms : List Lexeme} {s : Statement} {ss : List Statement} :
      DerivesStatement ls s → DerivesStatements ms ss → DerivesStatements (ls ++ ms) (s :: ss)

inductive DerivesArgument : List Token → Argument → Prop
  | mk {ts : List Token} {name : String} {t : Ty} : DerivesTy ts t →
      DerivesArgument (value name :: symbol .colon :: ts) ⟨name, t⟩

/-- Arguments with commas between them, or nothing. -/
inductive DerivesArguments : List Token → List Argument → Prop
  | none : DerivesArguments [] []
  | some {ts : List Token} {as : List Argument} :
      DerivesList DerivesArgument ts as → DerivesArguments ts as

inductive DerivesProgram : List Lexeme → Program → Prop
  | mk {header body : List Lexeme} {close : Lexeme} {ts : List Token} {as : List Argument}
      {ss : List Statement} :
      header.map Lexeme.token =
        [.circuit, symbol .openParen] ++ (ts ++ [symbol .closeParen, symbol .openBrace]) →
      DerivesArguments ts as → DerivesStatements body ss →
      close.token = symbol .closeBrace → DerivesProgram (header ++ (body ++ [close])) ⟨as, ss⟩

/-! ## First tokens -/

section First

variable {ts : List Token}

theorem head_of_derivesGate {g : Gate} (h : DerivesGate ts g) :
    ∃ us, ts = .symbol .hash :: us := by
  cases h <;> exact ⟨_, rfl⟩

theorem head_of_derivesTy {t : Ty} (h : DerivesTy ts t) :
    ∃ u us, ts = u :: us ∧ (u = .symbol .bang ∨ ∃ name, u = .word name) := by
  cases h with
  | qubit => exact ⟨_, _, rfl, .inl rfl⟩
  | gate => exact ⟨_, _, rfl, .inl rfl⟩
  | _ => exact ⟨_, _, rfl, .inr ⟨_, rfl⟩⟩

theorem head_of_names {names : List String} (h : DerivesList DerivesName ts names) :
    ∃ name us, ts = .value name :: us := by
  cases h with
  | one hname => exact ⟨_, [], hname⟩
  | cons hname _ =>
    subst hname
    exact ⟨_, _, rfl⟩

theorem head_of_derivesBody {b : Body} (h : DerivesBody ts b) :
    ∃ dialect us, ts = .word dialect :: us := by
  cases h <;> exact ⟨_, _, rfl⟩

theorem head_of_definition {results : List String} {b : Body}
    (h : DerivesDefinition ts results b) : ∃ t us, ts = t :: us ∧ t ≠ .symbol .closeBrace := by
  cases h with
  | unnamed hb =>
    obtain ⟨dialect, us, rfl⟩ := head_of_derivesBody hb
    exact ⟨_, us, rfl, by simp⟩
  | named hnames =>
    obtain ⟨name, us, rfl⟩ := head_of_names hnames
    exact ⟨_, _, rfl, by simp⟩

theorem head_of_arguments {as : List Argument} (h : DerivesList DerivesArgument ts as) :
    ∃ name us, ts = .value name :: us := by
  cases h with
  | one ha =>
    cases ha
    exact ⟨_, _, rfl⟩
  | cons ha _ =>
    cases ha
    exact ⟨_, _, rfl⟩

end First

end GateIR.Text
