/-
The syntax tree (`ast.h`).

Every node carries the line the source's constructor call gives it.
-/
import Jaguar.Lexer

namespace Jaguar

inductive JagType
  | string | num | decimal | bool | scifi | data | list | mixedlist
  | enum | struct | vector | matrix | task | worker | socket
  | void | unknown | classNamed
  deriving DecidableEq, Repr

/-- A type: its kind, the element type of `list<T>`, `Task<T>`, …, and the name of a
class. -/
inductive TypeInfo
  | mk (kind : JagType) (elem : Option TypeInfo) (name : Option Text)

/-- `type_new`. -/
def TypeInfo.new (kind : JagType) : TypeInfo := .mk kind none none

structure Param where
  name : Text
  type : TypeInfo

mutual

inductive Expr
  | num (line : ℕ) (n : ℤ)
  | decimal (line : ℕ) (d : Float)
  | scifi (line : ℕ) (d : Float)
  | bool (line : ℕ) (b : Bool)
  | str (line : ℕ) (parts : List StrPart)
  | ident (line : ℕ) (name : Text)
  | binary (line : ℕ) (left right : Expr) (op : TokenType)
  | unary (line : ℕ) (operand : Expr) (op : TokenType)
  | assign (line : ℕ) (target value : Expr) (op : TokenType)
  | call (line : ℕ) (callee : Expr) (args : List Expr)
  | member (line : ℕ) (object : Expr) (name : Text)
  | index (line : ℕ) (object index : Expr)
  | ternary (line : ℕ) (cond thenE elseE : Expr)
  | between (line : ℕ) (value low high : Expr)
  | list (line : ℕ) (items : List Expr)
  | data (line : ℕ) (entries : List (Text × Expr))
  | funcLit (line : ℕ) (params : List Param) (retType : TypeInfo) (body : Stmt) (isAsync : Bool)
  | await (line : ℕ) (e : Expr)
  | new (line : ℕ) (className : Text) (args : List Expr)

/-- A part of an interpolated string. -/
inductive StrPart
  | literal (s : Text)
  | expr (e : Expr)

inductive Stmt
  | varDecl (line : ℕ) (name : Text) (type : TypeInfo) (init : Option Expr) (isFixed : Bool)
  | expr (line : ℕ) (e : Expr)
  | ifStmt (line : ℕ) (cond : Expr) (thenB : Stmt) (elifs : List (Expr × Stmt))
      (elseB : Option Stmt)
  | loopWhile (line : ℕ) (cond : Expr) (body : Stmt)
  | doWhile (line : ℕ) (cond : Expr) (body : Stmt)
  | forIn (line : ℕ) (varName : Text) (iterable : Expr) (cond : Option Expr) (body : Stmt)
  | iterate (line : ℕ) (collection : Expr) (itemName : Text) (body : Stmt)
  | funDecl (line : ℕ) (name : Text) (params : List Param) (retType : TypeInfo) (body : Stmt)
      (isAsync : Bool)
  | ret (line : ℕ) (value : Option Expr)
  | block (line : ℕ) (stmts : List Stmt)
  | classDecl (line : ℕ) (name : Text) (members : List Stmt) (visibility : ℕ)
      (parentName : Option Text)
  | enumDecl (line : ℕ) (name : Text) (values : List Text)
  | structDecl (line : ℕ) (name : Text) (fields : List Param)
  | importStmt (line : ℕ) (path : Text)
  | exportStmt (line : ℕ) (name : Text)
  | tryCatch (line : ℕ) (tryB : Stmt) (errName : Text) (catchB : Stmt)
  | brk (line : ℕ)
  | cont (line : ℕ)

end

namespace Expr

def line : Expr → ℕ
  | num l _ | decimal l _ | scifi l _ | bool l _ | str l _ | ident l _ | binary l _ _ _
  | unary l _ _ | assign l _ _ _ | call l _ _ | member l _ _ | index l _ _ | ternary l _ _ _
  | between l _ _ _ | list l _ | data l _ | funcLit l _ _ _ _ | await l _ | new l _ _ => l

/-- `e->line = line`. -/
def withLine (l : ℕ) : Expr → Expr
  | num _ n => num l n
  | decimal _ d => decimal l d
  | scifi _ d => scifi l d
  | bool _ b => bool l b
  | str _ parts => str l parts
  | ident _ name => ident l name
  | binary _ left right op => binary l left right op
  | unary _ operand op => unary l operand op
  | assign _ target value op => assign l target value op
  | call _ callee args => call l callee args
  | member _ object name => member l object name
  | index _ object i => index l object i
  | ternary _ cond thenE elseE => ternary l cond thenE elseE
  | between _ value low high => between l value low high
  | list _ items => list l items
  | data _ entries => data l entries
  | funcLit _ params retType body isAsync => funcLit l params retType body isAsync
  | await _ e => await l e
  | new _ className args => new l className args

end Expr

end Jaguar
