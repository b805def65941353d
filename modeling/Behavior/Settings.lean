import Behavior.Json

/-!
Settings of running models.
-/

namespace Behavior

structure RunSettings where
  /-- How many instructions one evaluation, or one advance of a stream, may execute. -/
  instructionLimit : UInt32 := 100000
  /-- Where the random numbers start. -/
  seed : UInt64 := 0
deriving DecidableEq, Repr, Inhabited

structure StreamSettings where
  run : RunSettings := {}
  /-- How many extensions may follow each other. -/
  maxChain : Nat := 8
deriving DecidableEq, Repr, Inhabited

/-- Settings as a record in which every field may be missing. -/
def RunSettings.ofJson? (j : Json) : Option RunSettings :=
  match j.record? ["instruction_limit", "seed"] with
  | some [limit, seed] => do
    return {
      instructionLimit := ← Json.optional limit 100000 Json.uint32?
      seed := ← Json.optional seed 0 Json.uint64? }
  | _ => none

/-- Settings as a record in which every field may be missing. -/
def StreamSettings.ofJson? (j : Json) : Option StreamSettings :=
  match j.record? ["vm", "max_extension_chain"] with
  | some [run, maxChain] => do
    return {
      run := ← Json.optional run {} RunSettings.ofJson?
      maxChain := ← Json.optional maxChain 8 (Json.nat? 0xffffffffffffffff) }
  | _ => none

end Behavior
