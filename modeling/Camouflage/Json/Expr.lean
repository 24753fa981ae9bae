import Camouflage.Expr
import Camouflage.Json.Shape

/-!
# Expressions as JSON

Every node is a variant with data, and the parts of a node with more than one part are
the fields of a record.

Reading recurses along the JSON value: `Expr.partsOf?` reads each part of a record as an
expression and as a list of expressions, and `Expr.ofRecord?` takes the fields that the
kind of node has.
-/

namespace Camouflage

namespace UnaryOp

def name : UnaryOp → String
  | negate => "Negate"

def all : List UnaryOp := [negate]

def toJson (op : UnaryOp) : Json := .string op.name

def ofJson? (j : Json) : Option UnaryOp := do ofName? name all (← j.unit?)

theorem ofJson?_toJson (op : UnaryOp) : ofJson? op.toJson = some op := by
  cases op
  decide

end UnaryOp

namespace BinaryOp

def name : BinaryOp → String
  | add => "Add"
  | subtract => "Subtract"
  | multiply => "Multiply"
  | divide => "Divide"
  | modulo => "Modulo"

def all : List BinaryOp := [add, subtract, multiply, divide, modulo]

def toJson (op : BinaryOp) : Json := .string op.name

def ofJson? (j : Json) : Option BinaryOp := do ofName? name all (← j.unit?)

theorem ofJson?_toJson (op : BinaryOp) : ofJson? op.toJson = some op := by cases op <;> decide

end BinaryOp

namespace Expr

/-! ## Writing -/

mutual

def toJson : Expr → Json
  | boolLiteral value => .tagged "BoolLiteral" (.bool value)
  | intLiteral text => .tagged "IntLiteral" (.string text)
  | floatLiteral text => .tagged "FloatLiteral" (.string text)
  | identifier name => .tagged "Identifier" (.string name)
  | member receiver name =>
    .tagged "MemberLookup" (.object [("member", .string name), ("receiver", receiver.toJson)])
  | index target position =>
    .tagged "IndexLookup" (.object [("index", position.toJson), ("target", target.toJson)])
  | unary op target =>
    .tagged "Unary" (.object [("op", op.toJson), ("target", target.toJson)])
  | binary op lhs rhs =>
    .tagged "Binary" (.object [("lhs", lhs.toJson), ("op", op.toJson), ("rhs", rhs.toJson)])
  | call callee args =>
    .tagged "FunctionCall"
      (.object [("args", .array (toJsonList args)), ("callee", .string callee)])
  | construct ty args =>
    .tagged "ValueConstructor" (.object [("args", .array (toJsonList args)), ("ty", ty.toJson)])
  | paren inner => .tagged "Paren" inner.toJson
termination_by structural e => e

def toJsonList : List Expr → List Json
  | [] => []
  | e :: es => e.toJson :: toJsonList es
termination_by structural es => es

end

/-! ## Reading -/

/-- A field of a record: its value, and what it is as an expression or as a list of
expressions. -/
structure Field where
  json : Json
  expr? : Option Expr
  list? : Option (List Expr)

/-- A node that is a leaf. -/
def ofLeaf? (tag : String) (body : Json) : Option Expr :=
  if tag = "BoolLiteral" then body.bool?.map boolLiteral
  else if tag = "IntLiteral" then body.string?.map intLiteral
  else if tag = "FloatLiteral" then body.string?.map floatLiteral
  else if tag = "Identifier" then body.string?.map identifier
  else none

/-- A node with fields. -/
def ofRecord? (tag : String) (parts : Json.Parts Field) : Option Expr :=
  if tag = "MemberLookup" then do
    let [receiver, name] ← parts.select? ["receiver", "member"] | none
    return member (← receiver.expr?) (← name.json.string?)
  else if tag = "IndexLookup" then do
    let [target, position] ← parts.select? ["target", "index"] | none
    return index (← target.expr?) (← position.expr?)
  else if tag = "Unary" then do
    let [op, target] ← parts.select? ["op", "target"] | none
    return unary (← UnaryOp.ofJson? op.json) (← target.expr?)
  else if tag = "Binary" then do
    let [op, lhs, rhs] ← parts.select? ["op", "lhs", "rhs"] | none
    return binary (← BinaryOp.ofJson? op.json) (← lhs.expr?) (← rhs.expr?)
  else if tag = "FunctionCall" then do
    let [callee, args] ← parts.select? ["callee", "args"] | none
    return call (← callee.json.string?) (← args.list?)
  else if tag = "ValueConstructor" then do
    let [ty, args] ← parts.select? ["ty", "args"] | none
    return construct (← Scalar.ofJson? ty.json) (← args.list?)
  else
    none

mutual

def ofJson? : Json → Option Expr
  | .object [(tag, body)] =>
    if tag = "Paren" then (ofJson? body).map paren
    else ofLeaf? tag body <|> (partsOf? body).bind (ofRecord? tag)
  | _ => none
termination_by structural j => j

/-- The parts of a record, each read in every way a field can be read. -/
def partsOf? : Json → Option (Json.Parts Field)
  | .object members => some (.named (fieldsOfMembers members))
  | .array items => some (.ordered (fieldsOfItems items))
  | _ => none
termination_by structural j => j

def fieldsOfMembers : List (String × Json) → List (String × Field)
  | [] => []
  | (name, value) :: rest =>
    (name, ⟨value, ofJson? value, ofArray? value⟩) :: fieldsOfMembers rest
termination_by structural members => members

def fieldsOfItems : List Json → List Field
  | [] => []
  | item :: items => ⟨item, ofJson? item, ofArray? item⟩ :: fieldsOfItems items
termination_by structural items => items

def ofArray? : Json → Option (List Expr)
  | .array items => (fieldsOfItems items).mapM Field.expr?
  | _ => none
termination_by structural j => j

end

end Expr

end Camouflage
