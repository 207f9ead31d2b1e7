import Unmarshal.Code.Basic
import Unmarshal.Shape.Render

/-!
# Text of conversion code

An expression is written with parentheses only where an operand binds less tightly than its place
demands. A statement list is a list of lines: the body of a block is indented by one more tab, and
no line is empty.
-/
namespace Unmarshal

namespace BinaryOp

def sign : BinaryOp → String
  | .eq => "=="
  | .ne => "!="
  | .lt => "<"
  | .and => "&&"
  | .or => "||"

/-- Disjunction binds least, then conjunction, then the comparisons. -/
def precedence : BinaryOp → Nat
  | .or => 1
  | .and => 2
  | .eq | .ne | .lt => 3

end BinaryOp

namespace Expr

/-- How tightly an expression holds together: below the atoms and the forms written after their
operand stand the two forms written before it, and below those the operators. -/
def precedence : Expr → Nat
  | .binary op _ _ => op.precedence
  | .deref _ | .not _ => 5
  | _ => 6

/-- Puts the text of an operand in parentheses if it binds less tightly than `least`. -/
def enclose (least : Nat) (operand : Expr) (text : String) : String :=
  if operand.precedence < least then "(" ++ text ++ ")" else text

def escaped (c : Char) : List Char :=
  if c = '"' then ['\\', '"']
  else if c = '\\' then ['\\', '\\']
  else if c = '\n' then ['\\', 'n']
  else if c = '\t' then ['\\', 't']
  else [c]

/-- A string literal: quote, backslash, newline and tab are escaped, all else stands as it is. -/
def literal (text : String) : String := "\"" ++ String.ofList (text.toList.flatMap escaped) ++ "\""

mutual

/-- The text of an expression. Operators associate to the left, so an operand on the right of an
operator of its own precedence is enclosed. -/
def render : Expr → String
  | .ident name => name
  | .int value => toString value
  | .str text => literal text
  | .access value accessor args =>
    enclose 6 value (render value) ++ "." ++ accessor.method ++ "(" ++
      ", ".intercalate (renderAll args) ++ ")"
  | .call callee args =>
    enclose 6 callee (render callee) ++ "(" ++ ", ".intercalate (renderAll args) ++ ")"
  | .cast type value => type ++ "(" ++ render value ++ ")"
  | .field base name => enclose 6 base (render base) ++ "." ++ name
  | .index base position => enclose 6 base (render base) ++ "[" ++ render position ++ "]"
  | .deref pointer => "*" ++ enclose 5 pointer (render pointer)
  | .not operand => "!" ++ enclose 5 operand (render operand)
  | .binary op left right =>
    enclose op.precedence left (render left) ++ " " ++ op.sign ++ " " ++
      enclose (op.precedence + 1) right (render right)
  | .absent package kind => package ++ "." ++ kind.constant
  | .new type => "new(" ++ type.render ++ ")"
  | .make type length => "make(" ++ type.render ++ ", " ++ render length ++ ")"
  | .composite type => type.render ++ "\x7b\x7d"

def renderAll : List Expr → List String
  | [] => []
  | e :: es => render e :: renderAll es

end

end Expr

namespace Stmt

/-- The text of a statement that may stand in the header of a branch. -/
def headerText? : Stmt → Option String
  | .define name value => some (name ++ " := " ++ value.render)
  | .assign target value => some (target.render ++ " = " ++ value.render)
  | _ => none

/-- A block: its header, its body one tab further in, and the closing brace. -/
def block (header : String) (body : List String) : List String :=
  (header ++ " \x7b") :: body.map ("\t" ++ ·) ++ ["\x7d"]

mutual

/-- The lines of a statement. What may not stand in the header of a branch goes before it. -/
def lines : Stmt → List String
  | .declare name type => ["var " ++ name ++ " " ++ type.render]
  | .define name value => [name ++ " := " ++ value.render]
  | .assign target value => [target.render ++ " = " ++ value.render]
  | .branch none condition body => block ("if " ++ condition.render) (allLines body)
  | .branch (some init) condition body =>
    match init.headerText? with
    | some text => block ("if " ++ text ++ "; " ++ condition.render) (allLines body)
    | none => lines init ++ block ("if " ++ condition.render) (allLines body)
  | .loop counter bound body =>
    block ("for " ++ counter ++ " := 0; " ++ counter ++ " < " ++ bound.render ++ "; " ++ counter ++
      "++") (allLines body)

def allLines : List Stmt → List String
  | [] => []
  | s :: rest => lines s ++ allLines rest

end

def renderAll (body : List Stmt) : String := "\n".intercalate (allLines body)

theorem allLines_append (a b : List Stmt) : allLines (a ++ b) = allLines a ++ allLines b := by
  induction a with
  | nil => rfl
  | cons s rest ih => simp [allLines, ih]

end Stmt

end Unmarshal
