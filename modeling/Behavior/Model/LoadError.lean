import Behavior.Text.Digits
import Behavior.Opcode

/-!
Why stored bytes are no model, or a model is not fit to run.
-/

namespace Behavior

/-- Parts of a stored model that a read can run out of. -/
inductive Section where
  | header
  | extensionHeader
  | sectionTable
  | schema
  | points
  | constants
  | strings
  | code
  | debug
deriving DecidableEq, Repr, Inhabited

def Section.name : Section → String
  | header => "header"
  | extensionHeader => "extension header"
  | sectionTable => "section table"
  | schema => "schema"
  | points => "continuation points"
  | constants => "constants"
  | strings => "strings"
  | code => "code"
  | debug => "debug"

/-- Ways in which the sections of a payload do not fit together. -/
inductive LayoutDefect where
  /-- The payload is larger than any that is accepted. -/
  | tooLarge
  /-- A section does not start where the one before it ends, or reaches past the payload. -/
  | misplaced (s : Section)
  /-- The payload goes on after the last section. -/
  | trailing
  /-- A name's index is past the string table. -/
  | stringIndex
deriving DecidableEq, Repr, Inhabited

def LayoutDefect.message : LayoutDefect → String
  | tooLarge => "payload exceeds the size limit"
  | misplaced s => s.name
  | trailing => "payload has trailing bytes"
  | stringIndex => "string index out of range"

inductive SchemaDefect where
  | duplicateInput
  | duplicateOutput
  | urgencyInValue
deriving DecidableEq, Repr, Inhabited

def SchemaDefect.message : SchemaDefect → String
  | duplicateInput => "duplicate input"
  | duplicateOutput => "duplicate output"
  | urgencyInValue => "urgency slot overlaps the value"

/-- Ways in which a continuation point does not fit its model. -/
inductive PointDefect where
  | flag
  | nameHash
  | defaultOffset
  | pauseCount
  | pauseOffset
deriving DecidableEq, Repr, Inhabited

def PointDefect.message : PointDefect → String
  | flag => "flag does not match the table"
  | nameHash => "name hash does not match the name"
  | defaultOffset => "default offset out of range"
  | pauseCount => "must be referenced by exactly one pause"
  | pauseOffset => "offset does not hold its pause"

/-- Why no bound on the operand stack or on nested calls could be found. -/
inductive StackError where
  | unknownOpcode (offset : Nat)
  | underflow (offset : Nat)
  /-- Two paths reach the offset with stacks of different depths. -/
  | mismatch (offset : Nat)
  /-- Calls, returns and pauses need an empty stack. -/
  | unbalanced (offset : Nat)
  | fallsOffEnd (offset : Nat)
  | badTarget (offset target : Nat)
  | tooDeep (limit : Nat)
  | recursiveCall (routine : Nat)
  | callsTooDeep
deriving DecidableEq, Repr, Inhabited

def StackError.message : StackError → String
  | unknownOpcode offset => s!"unknown opcode at {offset}"
  | underflow offset => s!"stack underflow at {offset}"
  | mismatch offset => s!"inconsistent stack depth at {offset}"
  | unbalanced offset => s!"call or return with a non-empty stack at {offset}"
  | fallsOffEnd offset => s!"execution falls off the end of the code at {offset}"
  | badTarget offset target => s!"branch target {target} at {offset} is out of range"
  | tooDeep limit => s!"stack depth exceeds {limit}"
  | recursiveCall routine => s!"routine at {routine} can call itself"
  | callsTooDeep => "call nesting exceeds 65535"

/-- Why a model was refused. -/
inductive LoadError where
  | tooShort (size : Nat)
  | badMagic
  | unsupportedVersion (version : UInt16)
  | unknownFlags (bits : UInt16)
  | lengthMismatch (declared actual : Nat)
  | checksumMismatch
  | decompression (reason : String)
  | debugInfo
  | sectionLayout (defect : LayoutDefect)
  | truncated (s : Section)
  | trailingBytes (s : Section)
  | invalidUtf8 (index : Nat)
  | invalidType (tag : UInt8)
  | invalidSchema (name : String) (defect : SchemaDefect)
  | invalidOpcode (offset : Nat) (byte : UInt8)
  | operandOutOfRange (offset : Nat) (op : Opcode) (operand : Nat)
  | continuationPoint (index : Nat) (defect : PointDefect)
  | entryOutOfRange (entry : UInt32)
  | stack (cause : StackError)
  | stackLimit (declared required ceiling : Nat)
  | callDepthLimit (declared required : Nat)
  | extensionHeader
  /-- The model pauses, so it has to be run as a stream. -/
  | requiresStreaming
deriving DecidableEq, Repr, Inhabited

def LoadError.message : LoadError → String
  | tooShort size => s!"input too short: {size} bytes"
  | badMagic => "bad magic bytes"
  | unsupportedVersion version => s!"unsupported format version {version.toNat}"
  | unknownFlags bits => s!"unknown flag bits 0x{Digits.hex 4 bits.toNat}"
  | lengthMismatch declared actual =>
    s!"declared payload length {declared} does not match actual {actual}"
  | checksumMismatch => "checksum mismatch"
  | decompression reason => s!"decompression failed: {reason}"
  | debugInfo => "debug info could not be decoded"
  | sectionLayout defect => s!"section table is inconsistent: {defect.message}"
  | truncated s => s!"section {s.name} is truncated"
  | trailingBytes s => s!"section {s.name} has trailing bytes"
  | invalidUtf8 index => s!"string {index} is not valid UTF-8"
  | invalidType tag => s!"unknown value type tag {tag.toNat}"
  | invalidSchema name defect => s!"schema entry {name} is invalid: {defect.message}"
  | invalidOpcode offset byte => s!"unknown opcode {byte.toNat} at {offset}"
  | operandOutOfRange offset op operand =>
    s!"operand {operand} of {op.name} at {offset} is out of range"
  | continuationPoint index defect =>
    s!"continuation point {index} is invalid: {defect.message}"
  | entryOutOfRange entry => s!"entry offset {entry.toNat} is out of range"
  | stack cause => s!"stack analysis failed: {cause.message}"
  | stackLimit declared required ceiling =>
    s!"declared max stack {declared} does not cover analysed depth {required} (ceiling {ceiling})"
  | callDepthLimit declared required =>
    s!"declared call depth {declared} does not cover analysed depth {required}"
  | extensionHeader => "extension flag and extension header disagree"
  | requiresStreaming => "model declares continuation points; use the streaming interpreter"

end Behavior
