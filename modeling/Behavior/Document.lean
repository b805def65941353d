/-!
Behavior documents: named flows of statements over typed expressions.

The first flow is where a model starts. Every statement, expression, flow and import carries the
place it was written at; places only show in diagnostics and in the debug map.
-/

namespace Behavior

/-- Place in a source text. Nodes made without one are at line and column zero. -/
structure Span where
  line : UInt32 := 0
  column : UInt32 := 0
deriving DecidableEq, Repr, Inhabited

/-- Places are shown as `line:column`. -/
def Span.text (s : Span) : String :=
  toString s.line.toNat ++ ":" ++ toString s.column.toNat

inductive UnaryOp where
  | neg
  | not
deriving DecidableEq, Repr, Inhabited

inductive BinaryOp where
  | add
  | sub
  | mul
  | div
  | mod
  | eq
  | ne
  | lt
  | le
  | gt
  | ge
  | and
  | or
deriving DecidableEq, Repr, Inhabited

namespace UnaryOp

def name : UnaryOp → String
  | neg => "neg"
  | not => "not"

def ofName? : String → Option UnaryOp
  | "neg" => some neg
  | "not" => some not
  | _ => none

end UnaryOp

namespace BinaryOp

def name : BinaryOp → String
  | add => "add"
  | sub => "sub"
  | mul => "mul"
  | div => "div"
  | mod => "mod"
  | eq => "eq"
  | ne => "ne"
  | lt => "lt"
  | le => "le"
  | gt => "gt"
  | ge => "ge"
  | and => "and"
  | or => "or"

def ofName? : String → Option BinaryOp
  | "add" => some add
  | "sub" => some sub
  | "mul" => some mul
  | "div" => some div
  | "mod" => some mod
  | "eq" => some eq
  | "ne" => some ne
  | "lt" => some lt
  | "le" => some le
  | "gt" => some gt
  | "ge" => some ge
  | "and" => some and
  | "or" => some or
  | _ => none

def symbol : BinaryOp → String
  | add => "+"
  | sub => "-"
  | mul => "*"
  | div => "/"
  | mod => "%"
  | eq => "=="
  | ne => "!="
  | lt => "<"
  | le => "<="
  | gt => ">"
  | ge => ">="
  | and => "&&"
  | or => "||"

end BinaryOp

/-- Expressions. A vector literal and a function call hold any number of parts; the right number is
a matter of checking. -/
inductive Expr where
  | number (span : Span) (value : Float)
  | bool (span : Span) (value : Bool)
  | str (span : Span) (text : String)
  | vector (span : Span) (items : List Expr)
  | var (span : Span) (name : String)
  | unary (span : Span) (op : UnaryOp) (operand : Expr)
  | binary (span : Span) (op : BinaryOp) (left right : Expr)
  | conditional (span : Span) (condition thenExpr elseExpr : Expr)
  | call (span : Span) (function : String) (args : List Expr)
deriving Inhabited

def Expr.span : Expr → Span
  | number s _ | bool s _ | str s _ | vector s _ | var s _ | unary s _ _ | binary s _ _ _
  | conditional s _ _ _ | call s _ _ => s

/-- Statements. `bind` introduces a block-scoped local, `assign` writes a local or an output,
`intent` writes a channel's value and urgency, `goto` continues in another flow without coming
back, and `continuation` waits for an extension before continuing in its default flow. -/
inductive Stmt where
  | bind (span : Span) (name : String) (value : Expr)
  | assign (span : Span) (target : String) (value : Expr)
  | intent (span : Span) (channel : String) (value urgency : Expr)
  | branch (span : Span) (condition : Expr) (thenBody elseBody : List Stmt)
  | loop (span : Span) (count : Nat) (body : List Stmt)
  | call (span : Span) (flow : String)
  | goto (span : Span) (flow : String)
  | wait (span : Span) (seconds : Expr)
  | continuation (span : Span) (name : String) (timeout : Float) (defaultFlow : String)
  | halt (span : Span)
deriving Inhabited

namespace Stmt

def span : Stmt → Span
  | bind s _ _ | assign s _ _ | intent s _ _ _ | branch s _ _ _ | loop s _ _ | call s _ | goto s _
  | wait s _ | continuation s _ _ _ | halt s => s

/-- The statement at another place. -/
def locate (s : Span) : Stmt → Stmt
  | bind _ name value => bind s name value
  | assign _ target value => assign s target value
  | intent _ channel value urgency => intent s channel value urgency
  | branch _ condition thenBody elseBody => branch s condition thenBody elseBody
  | loop _ count body => loop s count body
  | call _ flow => call s flow
  | goto _ flow => goto s flow
  | wait _ seconds => wait s seconds
  | continuation _ name timeout defaultFlow => continuation s name timeout defaultFlow
  | halt _ => halt s

theorem span_locate (s : Span) (stmt : Stmt) : (stmt.locate s).span = s := by
  cases stmt <;> rfl

end Stmt

/-- A named sequence of statements. -/
structure Flow where
  name : String
  body : List Stmt
  span : Span := {}
deriving Inhabited

/-- A namespace of the registry whose variables may be named without it. -/
structure Import where
  namespaceName : String
  span : Span := {}
deriving DecidableEq, Repr, Inhabited

/-- Where an extension document attaches: a continuation point of another document. -/
structure ExtensionTarget where
  parent : String
  attachPoint : String
deriving DecidableEq, Repr, Inhabited

structure Document where
  name : String
  imports : List Import := []
  extends? : Option ExtensionTarget := none
  flows : List Flow
deriving Inhabited

def Document.entry? (d : Document) : Option Flow :=
  d.flows.head?

end Behavior
