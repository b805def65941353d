import Behavior.Decimal.Layout
import Behavior.Model

/-!
The listing of a model: its layout, then one line for each instruction with what its operand refers
to.
-/

namespace Behavior.Model

/-- A constant, with the text it stands for when the model writes texts. -/
def constantNote (m : Model) (writesTexts : Bool) (value : Float) : String :=
  let number := Decimal.scientific.render value
  match m.resolveString? value with
  | some text => if writesTexts then s!"  ; {number} (\"{text}\")" else s!"  ; {number}"
  | none => s!"  ; {number}"

/-- What an instruction's operand refers to. -/
def operandNote (m : Model) (writesTexts : Bool) (op : Opcode) (operand : Nat) : String :=
  match op with
  | .pushConst =>
    match m.constants[operand]? with
    | some c => m.constantNote writesTexts c.value
    | none => "  ; ???"
  | .loadInput =>
    match m.schema.inputs.find? (·.covers operand) with
    | some e => s!"  ; {e.name}"
    | none => ""
  | .storeOutput =>
    match m.schema.outputs.find? (·.covers operand) with
    | some e => s!"  ; {e.name}"
    | none =>
      match m.schema.channels.find? (·.coversValue operand) with
      | some c => s!"  ; {c.name}"
      | none =>
        match m.schema.channels.find? (·.urgencySlot.toNat == operand) with
        | some c => s!"  ; {c.name}.urgency"
        | none => ""
  | .pause =>
    match m.points[operand]? with
    | some p => s!"  ; {p.name}"
    | none => "  ; ???"
  | _ => ""

def instructionText (m : Model) (writesTexts : Bool) (word : Word) : String :=
  match Word.opcode? word with
  | none =>
    let byte := (Word.byte word).toNat
    s!"UNKNOWN       opcode={byte} (raw: 0x{Digits.hex 8 word.toNat})"
  | some op =>
    if op.hasOperand then
      let operand := Word.operand word
      s!"{Digits.padRight 14 op.name}{operand}{m.operandNote writesTexts op operand}"
    else op.name

/-- The line of an instruction, after the name of the flow that begins there. -/
def codeLine (m : Model) (writesTexts : Bool) (offset : Nat) (word : Word) : String :=
  let at32 := offset.toUInt32
  let flow :=
    match m.debug?.bind (·.flowAt? at32) with
    | some name => s!"{name}:\n"
    | none => ""
  let span :=
    match m.debug?.bind (·.spanAt? at32) with
    | some span => s!"  @{span.text}"
    | none => ""
  s!"{flow}{Digits.padded 4 offset}  {m.instructionText writesTexts word}{span}\n"

def layoutLines (m : Model) : List String :=
  let extension :=
    match m.extends? with
    | some a => [s!"Extends: {a.parent.toHex} at #{Digits.hex 8 a.pointHash.toNat}\n"]
    | none => []
  let inputs := m.schema.inputs.map fun e =>
    s!"  in  I[{e.slot.toNat}] {e.name}: {e.type.name}\n"
  let outputs := m.schema.outputs.map fun e =>
    s!"  out O[{e.slot.toNat}] {e.name}: {e.type.name}\n"
  let channels := m.schema.channels.map fun c =>
    s!"  chn O[{c.valueSlot.toNat}] {c.name}: {c.type.name} (urgency O[{c.urgencySlot.toNat}])\n"
  let points := m.points.toList.zipIdx.map fun (p, i) =>
    let fallback := Digits.padded 4 p.defaultOffset.toNat
    s!"  pnt P[{i}] {p.name} timeout={p.timeoutMs.toNat}ms default={fallback}\n"
  extension ++ inputs ++ outputs ++ channels ++ points

def listing (m : Model) : String :=
  let entry := Digits.padded 4 m.entry.toNat
  let head := [
    s!"========== Model: {m.id.toHex} ==========\n",
    s!"Stack: {m.maxStack.toNat}  Calls: {m.maxCallDepth.toNat}  " ++
      s!"Locals: {m.localCount.toNat}  Entry: {entry}\n"]
  let writesTexts := m.schema.writesTexts
  let code := m.code.toList.zipIdx.map fun (word, offset) => m.codeLine writesTexts offset word
  String.join (head ++ m.layoutLines ++ ["\nBytecode:\n"] ++ code)

end Behavior.Model
