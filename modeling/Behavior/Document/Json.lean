import Behavior.Document
import Behavior.Json

/-!
Documents as JSON: records are objects or arrays of their fields, statements and expressions are a
`kind` with a `span`. A missing span is the default place; a present one has both numbers.
-/

namespace Behavior

open Json (record? variant? plainVariant? optional nullable listOf?)

def Span.ofJson? (j : Json) : Option Span :=
  match j.record? ["line", "column"] with
  | some [some line, some column] => do return ⟨← line.uint32?, ← column.uint32?⟩
  | _ => none

def Span.toJson (s : Span) : Json :=
  .obj [("line", .int s.line.toNat), ("column", .int s.column.toNat)]

/-- The data of a variant with named parts, which is an object. -/
def Json.parts? (names : List String) : Option Json → Option (List (Option Json))
  | some (.obj fields) => record? names (.obj fields)
  | _ => none

/-- Read an expression; the first argument bounds its nesting. -/
def Expr.ofJsonWithin : Nat → Json → Option Expr
  | 0, _ => none
  | fuel + 1, j => do
    let read := ofJsonWithin fuel
    let [some kind, span] ← j.record? ["kind", "span"] | none
    let span ← optional span {} Span.ofJson?
    let (name, data) ← kind.variant?
    match name with
    | "number" => return .number span (← (← data).float?)
    | "bool" => return .bool span (← (← data).bool?)
    | "str" => return .str span (← (← data).string?)
    | "vector" => return .vector span (← (← data).listOf? read)
    | "variable" => return .var span (← (← data).string?)
    | "unary" =>
      let [some op, some operand] ← Json.parts? ["op", "operand"] data | none
      return .unary span (← op.plainVariant?.bind UnaryOp.ofName?) (← read operand)
    | "binary" =>
      let [some op, some left, some right] ← Json.parts? ["op", "left", "right"] data | none
      return .binary span (← op.plainVariant?.bind BinaryOp.ofName?) (← read left) (← read right)
    | "conditional" =>
      let [some c, some a, some b] ←
        Json.parts? ["condition", "then_expr", "else_expr"] data | none
      return .conditional span (← read c) (← read a) (← read b)
    | "call" =>
      let [some function, some args] ← Json.parts? ["function", "args"] data | none
      return .call span (← function.string?) (← args.listOf? read)
    | _ => none

/-- Read an expression. -/
def Expr.ofJson? (j : Json) : Option Expr :=
  ofJsonWithin (j.depth + 1) j

/-- Read a statement; the first argument bounds its nesting. -/
def Stmt.ofJsonWithin : Nat → Json → Option Stmt
  | 0, _ => none
  | fuel + 1, j => do
    let block := listOf? (ofJsonWithin fuel)
    let [some kind, span] ← j.record? ["kind", "span"] | none
    let span ← optional span {} Span.ofJson?
    let (name, data) ← kind.variant?
    match name with
    | "let" =>
      let [some name, some value] ← Json.parts? ["name", "value"] data | none
      return .bind span (← name.string?) (← Expr.ofJson? value)
    | "assign" =>
      let [some target, some value] ← Json.parts? ["target", "value"] data | none
      return .assign span (← target.string?) (← Expr.ofJson? value)
    | "intent" =>
      let [some channel, some value, some urgency] ←
        Json.parts? ["channel", "value", "urgency"] data | none
      return .intent span (← channel.string?) (← Expr.ofJson? value) (← Expr.ofJson? urgency)
    | "if" =>
      let [some condition, some thenBody, elseBody] ←
        Json.parts? ["condition", "then_body", "else_body"] data | none
      return .branch span (← Expr.ofJson? condition) (← block thenBody)
        (← optional elseBody [] block)
    | "repeat" =>
      let [some count, some body] ← Json.parts? ["count", "body"] data | none
      return .loop span (← count.nat? 0xffffffff) (← block body)
    | "call" =>
      let [some flow] ← Json.parts? ["flow"] data | none
      return .call span (← flow.string?)
    | "goto" =>
      let [some flow] ← Json.parts? ["flow"] data | none
      return .goto span (← flow.string?)
    | "wait" =>
      let [some seconds] ← Json.parts? ["seconds"] data | none
      return .wait span (← Expr.ofJson? seconds)
    | "continuation" =>
      let [some name, some timeout, some defaultFlow] ←
        Json.parts? ["name", "timeout", "default_flow"] data | none
      return .continuation span (← name.string?) (← timeout.float?) (← defaultFlow.string?)
    | "halt" =>
      match data with
      | none => return .halt span
      | some .null => return .halt span
      | some _ => none
    | _ => none

/-- Read a statement. -/
def Stmt.ofJson? (j : Json) : Option Stmt :=
  ofJsonWithin (j.depth + 1) j

def Flow.ofJson? (j : Json) : Option Flow :=
  match j.record? ["name", "body", "span"] with
  | some [some name, some body, span] => do
    return ⟨← name.string?, ← body.listOf? Stmt.ofJson?, ← optional span {} Span.ofJson?⟩
  | _ => none

def Import.ofJson? (j : Json) : Option Import :=
  match j.record? ["namespace", "span"] with
  | some [some name, span] => do return ⟨← name.string?, ← optional span {} Span.ofJson?⟩
  | _ => none

def ExtensionTarget.ofJson? (j : Json) : Option ExtensionTarget :=
  match j.record? ["parent", "attach_point"] with
  | some [some parent, some attachPoint] => do
    return ⟨← parent.string?, ← attachPoint.string?⟩
  | _ => none

def Document.ofJson? (j : Json) : Option Document :=
  match j.record? ["name", "imports", "extends", "flows"] with
  | some [some name, imports, target, some flows] => do
    return {
      name := ← name.string?
      imports := ← optional imports [] (listOf? Import.ofJson?)
      extends? := ← nullable target ExtensionTarget.ofJson?
      flows := ← flows.listOf? Flow.ofJson? }
  | _ => none

def Json.node (kind : Json) (span : Span) : Json :=
  .obj [("kind", kind), ("span", span.toJson)]

def Json.tagged (name : String) (data : Json) : Json :=
  .obj [(name, data)]

mutual

/-- Write an expression, its doubles written by `number`. -/
def Expr.toJson (number : Float → Json) : Expr → Json
  | .number s x => .node (.tagged "number" (number x)) s
  | .bool s b => .node (.tagged "bool" (.bool b)) s
  | .str s text => .node (.tagged "str" (.str text)) s
  | .vector s items => .node (.tagged "vector" (.arr (Expr.listToJson number items))) s
  | .var s name => .node (.tagged "variable" (.str name)) s
  | .unary s op operand =>
    .node (.tagged "unary" (.obj [("op", .str op.name), ("operand", operand.toJson number)])) s
  | .binary s op left right =>
    .node (.tagged "binary" (.obj [("op", .str op.name), ("left", left.toJson number),
      ("right", right.toJson number)])) s
  | .conditional s c a b =>
    .node (.tagged "conditional" (.obj [("condition", c.toJson number),
      ("then_expr", a.toJson number), ("else_expr", b.toJson number)])) s
  | .call s function args =>
    .node (.tagged "call" (.obj [("function", .str function),
      ("args", .arr (Expr.listToJson number args))])) s

def Expr.listToJson (number : Float → Json) : List Expr → List Json
  | [] => []
  | e :: rest => e.toJson number :: Expr.listToJson number rest

end

mutual

/-- Write a statement, its doubles written by `number`. -/
def Stmt.toJson (number : Float → Json) : Stmt → Json
  | .bind s name value =>
    .node (.tagged "let" (.obj [("name", .str name), ("value", value.toJson number)])) s
  | .assign s target value =>
    .node (.tagged "assign" (.obj [("target", .str target), ("value", value.toJson number)])) s
  | .intent s channel value urgency =>
    .node (.tagged "intent" (.obj [("channel", .str channel), ("value", value.toJson number),
      ("urgency", urgency.toJson number)])) s
  | .branch s condition thenBody elseBody =>
    .node (.tagged "if" (.obj [("condition", condition.toJson number),
      ("then_body", .arr (Stmt.listToJson number thenBody)),
      ("else_body", .arr (Stmt.listToJson number elseBody))])) s
  | .loop s count body =>
    .node (.tagged "repeat" (.obj [("count", .int count),
      ("body", .arr (Stmt.listToJson number body))])) s
  | .call s flow => .node (.tagged "call" (.obj [("flow", .str flow)])) s
  | .goto s flow => .node (.tagged "goto" (.obj [("flow", .str flow)])) s
  | .wait s seconds => .node (.tagged "wait" (.obj [("seconds", seconds.toJson number)])) s
  | .continuation s name timeout defaultFlow =>
    .node (.tagged "continuation" (.obj [("name", .str name), ("timeout", number timeout),
      ("default_flow", .str defaultFlow)])) s
  | .halt s => .node (.str "halt") s

def Stmt.listToJson (number : Float → Json) : List Stmt → List Json
  | [] => []
  | stmt :: rest => stmt.toJson number :: Stmt.listToJson number rest

end

/-- Write a document with all of its fields, its doubles written by `number`. -/
def Document.toJson (number : Float → Json) (d : Document) : Json :=
  .obj [
    ("name", .str d.name),
    ("imports", .arr (d.imports.map fun i =>
      .obj [("namespace", .str i.namespaceName), ("span", i.span.toJson)])),
    ("extends", match d.extends? with
      | none => .null
      | some t => .obj [("parent", .str t.parent), ("attach_point", .str t.attachPoint)]),
    ("flows", .arr (d.flows.map fun f =>
      .obj [("name", .str f.name), ("body", .arr (Stmt.listToJson number f.body)),
        ("span", f.span.toJson)]))]

end Behavior
