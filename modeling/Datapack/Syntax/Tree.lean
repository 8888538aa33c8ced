import Datapack.Number.Double
import Datapack.Text.Source

/-!
Syntax trees of scripts. Every expression, statement, block and declaration keeps the span of the text it
was read from; names are kept as texts.
-/

namespace Datapack.Syntax

inductive BinaryOp
  | add | sub | mul | div | mod
  | equal | notEqual | greater | greaterEqual | less | lessEqual
  | and | or
deriving Repr, DecidableEq, Inhabited

def BinaryOp.symbol : BinaryOp → String
  | .add => "+"
  | .sub => "-"
  | .mul => "*"
  | .div => "/"
  | .mod => "%"
  | .equal => "=="
  | .notEqual => "!="
  | .greater => ">"
  | .greaterEqual => ">="
  | .less => "<"
  | .lessEqual => "<="
  | .and => "&&"
  | .or => "||"

inductive UnaryOp
  | not | neg
deriving Repr, DecidableEq, Inhabited

def UnaryOp.symbol : UnaryOp → String
  | .not => "!"
  | .neg => "-"

structure Ident where
  name : String
  span : Span
deriving Repr, DecidableEq, Inhabited

inductive Expr
  | int (value : Int32) (span : Span)
  | decimal (value : Double) (span : Span)
  | string (value : String) (span : Span)
  | bool (value : Bool) (span : Span)
  | null (span : Span)
  | var (name : String) (span : Span)
  | unary (op : UnaryOp) (operand : Expr) (span : Span)
  | binary (left : Expr) (op : BinaryOp) (right : Expr) (span : Span)
  | index (base : Expr) (index : Expr) (span : Span)
  | member (base : Expr) (name : String) (span : Span)
  | call (callee : Expr) (args : List Expr) (span : Span)
  | array (items : List Expr) (span : Span)
deriving Repr, BEq, Inhabited

def Expr.span : Expr → Span
  | .int _ s | .decimal _ s | .string _ s | .bool _ s | .null s | .var _ s | .unary _ _ s
  | .binary _ _ _ s | .index _ _ s | .member _ _ s | .call _ _ s | .array _ s => s

def Expr.withSpan (s : Span) : Expr → Expr
  | .int v _ => .int v s
  | .decimal v _ => .decimal v s
  | .string v _ => .string v s
  | .bool v _ => .bool v s
  | .null _ => .null s
  | .var n _ => .var n s
  | .unary o a _ => .unary o a s
  | .binary a o b _ => .binary a o b s
  | .index b i _ => .index b i s
  | .member b n _ => .member b n s
  | .call c as _ => .call c as s
  | .array is _ => .array is s

/-- What an assignment can write to: a variable or a part of it reached by member names, or one element of
a variable. -/
inductive Target
  | path (var : String) (members : List String)
  | element (var : String) (index : Expr)
deriving Repr, BEq, Inhabited

def Target.var : Target → String
  | .path v _ | .element v _ => v

def Target.isPlain : Target → Bool
  | .path _ [] => true
  | _ => false

structure Param where
  name : String
  type : Ident
  default? : Option Expr
  span : Span
deriving Repr, BEq, Inhabited

mutual

inductive Stmt
  | expr (value : Expr) (span : Span)
  | assign (target : Target) (value : Expr) (span : Span)
  | update (target : Target) (op : BinaryOp) (value : Expr) (span : Span)
  | destructure (names : List Ident) (value : Expr) (span : Span)
  | const (name : String) (value : Expr) (span : Span)
  | branch (cond : Expr) (onTrue : Block) (onFalse : Option Block) (span : Span)
  | repeatWhile (cond : Expr) (body : Block) (span : Span)
  | forEach (var : Ident) (items : Expr) (body : Block) (span : Span)
  | block (body : Block) (span : Span)
  | function (decl : Function) (span : Span)
  | struct (name : String) (fields : List (String × Ident)) (methods : List Function)
      (body : Span) (span : Span)
  | return (value : Option Expr) (span : Span)

structure Block where
  stmts : List Stmt
  span : Span

structure Function where
  name : String
  isInline : Bool
  receiver : Option Span
  params : List Param
  result : Option Ident
  body : Block
  span : Span

end

def Stmt.span : Stmt → Span
  | .expr _ s | .assign _ _ s | .update _ _ _ s | .destructure _ _ s | .const _ _ s
  | .branch _ _ _ s | .repeatWhile _ _ s | .forEach _ _ _ s | .block _ s | .function _ s
  | .struct _ _ _ _ s | .return _ s => s

instance : Inhabited Block := ⟨⟨[], .zero⟩⟩

instance : Inhabited Stmt := ⟨.return none .zero⟩

instance : Inhabited Function := ⟨⟨"", false, none, [], none, default, .zero⟩⟩

structure Script where
  stmts : List Stmt
  span : Span
deriving Inhabited

end Datapack.Syntax
