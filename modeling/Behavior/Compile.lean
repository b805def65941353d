import Behavior.Assembly
import Behavior.Block.Fold
import Behavior.Block.Jumps
import Behavior.Block.Lower
import Behavior.Block.Share
import Behavior.Model.Check
import Behavior.Typed.Check

/-!
Compiling documents to models.
-/

namespace Behavior

/-- How to compile. -/
structure CompileOptions where
  /-- `0` leaves the code as written, `1` folds constants, `2` also shortens jumps and drops what
  cannot be reached, `3` also computes repeated expressions once. -/
  level : UInt8 := 2
  /-- Keep where the code came from. -/
  debugInfo : Bool := false
  /-- Compress the stored form. -/
  compress : Bool := false
  /-- Identifier to use in place of the one the document's name stands for. -/
  id? : Option ModelId := none
deriving DecidableEq, Repr, Inhabited

namespace CompileOptions

def maxLevel : UInt8 := 3

/-- The options with the level brought into range. -/
def clamp (o : CompileOptions) : CompileOptions :=
  { o with level := min o.level maxLevel }

/-- Options as a record in which every field may be missing. -/
def ofJson? (j : Json) : Option CompileOptions :=
  match j.record? ["optimization_level", "debug_info", "compress", "model_id"] with
  | some [level, debugInfo, compress, id] => do
    return {
      level := ← Json.optional level 2 Json.uint8?
      debugInfo := ← Json.optional debugInfo false Json.bool?
      compress := ← Json.optional compress false Json.bool?
      id? := ← Json.nullable id fun j => j.uint64?.map ModelId.mk }
  | _ => none

end CompileOptions

namespace BlockGraph

/-- Improve the code as far as the level asks for. -/
def optimize (level : UInt8) (g : BlockGraph) : BlockGraph :=
  let g := if 1 ≤ level then g.fold else g
  let g := if 2 ≤ level then g.settleBranches.threadJumps.dropUnreachable else g
  if 3 ≤ level then g.share else g

end BlockGraph

/-- Flags of a model with the given tables. -/
def CompileOptions.flags (o : CompileOptions) (hasPoints isExtension : Bool) : Flags :=
  let flags : Flags := {}
  let flags := if o.debugInfo then flags.insert .debugInfo else flags
  let flags := if o.compress then flags.insert .compressed else flags
  let flags := if hasPoints then flags.insert .continuationPoints else flags
  if isExtension then flags.insert .isExtension else flags

def Typed.Program.toModel (p : Typed.Program) (o : CompileOptions) (id : ModelId) :
    Except Problem Model := do
  let g := p.toBlocks.optimize o.level
  if 0xffff < g.localCount then throw (.tooManyLocals g.localCount)
  let a ← Assembly.ofBlocks g p.points p.strings.size
  let maxStack ←
    match StackDepth.analyze a.code a.points a.entry with
    | .ok depth => pure depth
    | .error e => throw (.stackAnalysis e)
  let m : Model := {
    id
    version := Model.formatVersion
    flags := o.flags (!a.points.isEmpty) p.extends?.isSome
    maxStack := maxStack.toUInt16
    maxCallDepth := p.callDepth.toUInt16
    localCount := g.localCount.toUInt16
    entry := a.entry.toUInt32
    schema := p.schema
    points := a.points
    constants := a.constants
    strings := p.strings
    code := a.code
    extends? := p.extends?
    debug? := if o.debugInfo then some a.debug else none }
  match m.check with
  | .ok () => return m
  | .error e => throw (.unfitModel e)

/-- The model of a document, or everything that is wrong with it. -/
def compile (registry : Registry) (o : CompileOptions) (d : Document) :
    Except (List Diagnostic) Model := do
  let o := o.clamp
  let p ← Typed.check registry d
  match p.toModel o (o.id?.getD (.ofName d.name)) with
  | .ok m => return m
  | .error problem => throw [⟨problem, {}⟩]

end Behavior
