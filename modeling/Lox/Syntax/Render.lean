import Lox.Syntax

/-!
# Syntax trees as text

A node is written as its name and its labelled parts,
`Name(part=..., part=...)`. Tokens are written as in listings, sequences in
brackets, and a part that is left out as `null`. The numbers of references are
not shown, so trees that differ only in them have the same text.
-/

namespace Lox

/-- A sequence in brackets. -/
def bracketed (items : List String) : String :=
  "[" ++ ", ".intercalate items ++ "]"

/-- A constant as trees show it; strings stand without quotes. -/
def Literal.render : Literal → String
  | .nil => "null"
  | .bool true => "true"
  | .bool false => "false"
  | .number value => Number.literal value
  | .string value => value

mutual

/-- An expression as text. -/
def Expr.render : Expr → String
  | .literal value => s!"Literal(value={value.render})"
  | .variable target => s!"Variable(name={target.name.text})"
  | .receiver target => s!"This(keyword={target.name.text})"
  | .inherited target method => s!"Super(keyword={target.name.text}, method={method.text})"
  | .grouping inner => s!"Grouping(expression={inner.render})"
  | .unary _ operator operand => s!"Unary(operator={operator.text}, right={operand.render})"
  | .binary _ operator left right =>
      s!"Binary(left={left.render}, operator={operator.text}, right={right.render})"
  | .logical _ operator left right =>
      s!"Logical(left={left.render}, operator={operator.text}, right={right.render})"
  | .assign target value => s!"Assign(name={target.name.text}, value={value.render})"
  | .get object name => s!"Get(object={object.render}, name={name.text})"
  | .set object name value =>
      s!"Set(object={object.render}, name={name.text}, value={value.render})"
  | .call callee closing arguments =>
      s!"Call(callee={callee.render}, paren={closing.text}, " ++
        s!"arguments={bracketed (Expr.renderAll arguments)})"

/-- Expressions as texts. -/
def Expr.renderAll : List Expr → List String
  | [] => []
  | e :: es => e.render :: Expr.renderAll es

end

/-- An expression that may be left out, as text. -/
def Expr.renderOptional : Option Expr → String
  | none => "null"
  | some e => e.render

mutual

/-- A statement as text. -/
def Stmt.render : Stmt → String
  | .expression value => s!"Expression(expression={value.render})"
  | .print value => s!"Print(expression={value.render})"
  | .varDecl name initializer =>
      s!"Var(name={name.text}, initializer={Expr.renderOptional initializer})"
  | .funDecl function => function.render
  | .classDecl name superclass methods =>
      s!"Class(name={name.text}, " ++
        s!"superClass={Expr.renderOptional (superclass.map .variable)}, " ++
        s!"methods={bracketed (FunctionDecl.renderAll methods)})"
  | .block body => s!"Block(statements={bracketed (Stmt.renderAll body)})"
  | .branch condition yes no =>
      s!"If(condition={condition.render}, thenBranch={yes.render}, " ++
        s!"elseBranch={Stmt.renderOptional no})"
  | .loop condition body => s!"While(condition={condition.render}, body={body.render})"
  | .ret keyword value =>
      s!"Return(keyword={keyword.text}, value={Expr.renderOptional value})"

/-- A function or method as text. -/
def FunctionDecl.render : FunctionDecl → String
  | ⟨name, parameters, body⟩ =>
      s!"Function(name={name.text}, parameters={bracketed (parameters.map Token.text)}, " ++
        s!"body={bracketed (Stmt.renderAll body)})"

/-- Statements as texts. -/
def Stmt.renderAll : List Stmt → List String
  | [] => []
  | s :: ss => s.render :: Stmt.renderAll ss

/-- Methods as texts. -/
def FunctionDecl.renderAll : List FunctionDecl → List String
  | [] => []
  | d :: ds => d.render :: FunctionDecl.renderAll ds

/-- A statement that may be left out, as text. -/
def Stmt.renderOptional : Option Stmt → String
  | none => "null"
  | some s => s.render

end

/-- A program as text, a statement per line. -/
def renderProgram (program : List Stmt) : String :=
  "\n".intercalate (Stmt.renderAll program)

end Lox
