import Datapack.Diagnostic
import Datapack.Syntax.Token
import Datapack.Syntax.Tree

/-!
Reading scripts: recursive descent over the lexemes. The functions that call each other carry an allowance
that shrinks with every call; `Lexemes.allowance` grants more calls than the lexemes left can take, and the
entry points below show none of it.
-/

namespace Datapack.Syntax

inductive ParseFault
  | lexical (fault : LexicalFault)
  | unexpected (expected : String) (found : Token)
  | literalOutOfRange (literal : String)
  | notAssignable
  | allowanceSpent
deriving Repr, DecidableEq

def ParseFault.message : ParseFault → String
  | .lexical fault => fault.message
  | .unexpected expected found => "Expected " ++ expected ++ ", found " ++ found.describe
  | .literalOutOfRange literal => "Literal `" ++ literal ++ "` is out of range"
  | .notAssignable => "Cannot assign to this expression"
  | .allowanceSpent => "Nested too deeply"

structure ParseError where
  fault : ParseFault
  span : Span
deriving Repr, DecidableEq

def ParseError.diagnostic (e : ParseError) : Diagnostic where
  heading :=
    match e.fault with
    | .lexical _ => "Lexing Error"
    | _ => "Parsing Error"
  message := e.fault.message
  span := e.span

structure Lexemes where
  last : Span
  text : List Char
  rest : List Lexeme
  stop : Nat
deriving Repr

def Lexemes.of (source : Source) : Lexemes where
  last := .zero
  text := []
  rest := lexemes source
  stop := source.size

/-- More calls than reading the lexemes left can take: between two lexemes at most a dozen functions call
each other. -/
def Lexemes.allowance (ls : Lexemes) : Nat := 16 * (ls.rest.length + 2)

abbrev Parse := StateT Lexemes (Except ParseError)

namespace Parse

def fault {α : Type} (f : ParseFault) (span : Span) : Parse α := throw ⟨f, span⟩

def lastSpan : Parse Span := return (← get).last

def lastText : Parse String := return .ofList (← get).text

def peek : Parse Token := do
  let ls ← get
  match ls.rest with
  | [] => return .endOfFile
  | lexeme :: _ =>
    match lexeme.outcome with
    | .ok token => return token
    | .error f => fault (.lexical f) ls.last

def peekSpan : Parse Span := do
  let ls ← get
  match ls.rest with
  | [] => return ⟨ls.stop, ls.stop⟩
  | lexeme :: _ =>
    match lexeme.outcome with
    | .ok _ => return lexeme.span
    | .error f => fault (.lexical f) ls.last

/-- Reads the next token. A fault is reported where it stands. -/
def next : Parse Token := do
  let ls ← get
  match ls.rest with
  | [] =>
    set { ls with last := ⟨ls.stop, ls.stop⟩, text := [] }
    return .endOfFile
  | lexeme :: rest =>
    match lexeme.outcome with
    | .ok token =>
      set { ls with last := lexeme.span, text := lexeme.text, rest }
      return token
    | .error f => fault (.lexical f) lexeme.span

def nextIs (token : Token) : Parse Bool := return (← peek) == token

def skip (token : Token) : Parse Bool := do
  if ← nextIs token then
    let _ ← next
    return true
  return false

def expect (token : Token) : Parse Unit := do
  let found ← next
  if found ≠ token then
    fault (.unexpected token.describe found) (← lastSpan)

def ident : Parse Ident := do
  expect .identifier
  return ⟨← lastText, ← lastSpan⟩

end Parse

open Parse

def infixLevel (level : Nat) : Token → Option BinaryOp
  | .or => if level = 0 then some .or else none
  | .and => if level = 1 then some .and else none
  | .equal => if level = 2 then some .equal else none
  | .notEqual => if level = 2 then some .notEqual else none
  | .less => if level = 3 then some .less else none
  | .lessEqual => if level = 3 then some .lessEqual else none
  | .greater => if level = 3 then some .greater else none
  | .greaterEqual => if level = 3 then some .greaterEqual else none
  | .plus => if level = 4 then some .add else none
  | .minus => if level = 4 then some .sub else none
  | .times => if level = 5 then some .mul else none
  | .divide => if level = 5 then some .div else none
  | .modulo => if level = 5 then some .mod else none
  | _ => none

def tightestLevel : Nat := 5

def updateOp : Token → Option BinaryOp
  | .plusAssign => some .add
  | .minusAssign => some .sub
  | .timesAssign => some .mul
  | .divideAssign => some .div
  | .moduloAssign => some .mod
  | _ => none

def unaryOp : Token → Option UnaryOp
  | .not => some .not
  | .minus => some .neg
  | _ => none

def intLiteral (text : List Char) (span : Span) : Parse Expr :=
  let value := Double.digitsValue text
  if value < 2147483648 then return .int (.ofNat value) span
  else fault (.literalOutOfRange (.ofList text)) span

def decimalLiteral (text : List Char) (span : Span) : Parse Expr :=
  match Double.ofText? text with
  | some value => return .decimal value span
  | none => fault (.literalOutOfRange (.ofList text)) span

def stringLiteral (text : List Char) (span : Span) : Parse Expr :=
  match unescape? text with
  | some value => return .string (.ofList value) span
  | none => fault (.literalOutOfRange (.ofList text)) span

mutual

def parseLevel : (allowance : Nat) → (level : Nat) → Parse Expr
  | 0, _ => do fault .allowanceSpent (← lastSpan)
  | n + 1, level => do
    let left ← if level < tightestLevel then parseLevel n (level + 1) else parseValue n
    parseInfix n level left

def parseInfix : (allowance : Nat) → (level : Nat) → (left : Expr) → Parse Expr
  | 0, _, _ => do fault .allowanceSpent (← lastSpan)
  | n + 1, level, left => do
    match infixLevel level (← peek) with
    | none => return left
    | some op =>
      let _ ← next
      let right ← if level < tightestLevel then parseLevel n (level + 1) else parseValue n
      parseInfix n level (.binary left op right (left.span.through right.span))

def parseValue : (allowance : Nat) → Parse Expr
  | 0 => do fault .allowanceSpent (← lastSpan)
  | n + 1 => do
    match unaryOp (← peek) with
    | some op =>
      let _ ← next
      let start ← lastSpan
      let operand ← parseValue n
      return .unary op operand (start.through operand.span)
    | none =>
      let unit ← parseUnit n
      parsePostfix n unit

def parsePostfix : (allowance : Nat) → (base : Expr) → Parse Expr
  | 0, _ => do fault .allowanceSpent (← lastSpan)
  | n + 1, base => do
    match ← peek with
    | .openParen =>
      let _ ← next
      let args ← parseArgs n .closeParen
      parsePostfix n (.call base args (base.span.through (← lastSpan)))
    | .period =>
      let _ ← next
      let member ← ident
      parsePostfix n (.member base member.name (base.span.through (← lastSpan)))
    | .openSquare =>
      let _ ← next
      let index ← parseLevel n 0
      expect .closeSquare
      parsePostfix n (.index base index (base.span.through (← lastSpan)))
    | _ => return base

def parseUnit : (allowance : Nat) → Parse Expr
  | 0 => do fault .allowanceSpent (← lastSpan)
  | n + 1 => do
    let token ← next
    let start ← lastSpan
    let text := (← get).text
    match token with
    | .int => intLiteral text start
    | .decimal => decimalLiteral text start
    | .trueWord => return .bool true start
    | .falseWord => return .bool false start
    | .nullWord => return .null start
    | .string => stringLiteral text start
    | .identifier => return .var (.ofList text) start
    | .openParen =>
      let inner ← parseLevel n 0
      expect .closeParen
      return inner.withSpan (start.through (← lastSpan))
    | .openSquare =>
      let items ← parseArgs n .closeSquare
      return .array items (start.through (← lastSpan))
    | other => fault (.unexpected "expression" other) start

def parseArgs : (allowance : Nat) → (close : Token) → Parse (List Expr)
  | 0, _ => do fault .allowanceSpent (← lastSpan)
  | n + 1, close => do
    if ← skip close then return []
    let arg ← parseLevel n 0
    if ← skip .comma then
      return arg :: (← parseArgs n close)
    expect close
    return [arg]

end

def Expr.parseFrom (level : Nat) : Parse Expr := do
  parseLevel (← get).allowance level

def Expr.parse : Parse Expr := Expr.parseFrom 0

def Expr.parseOperand : Parse Expr := do
  parseValue (← get).allowance

def Expr.parseUnit : Parse Expr := do
  Syntax.parseUnit (← get).allowance

def Target.ofExpr : Expr → Except ParseError Target
  | .var name _ => .ok (.path name [])
  | .member base name span =>
    match Target.ofExpr base with
    | .ok (.path var members) => .ok (.path var (members ++ [name]))
    | .ok (.element _ _) => .error ⟨.notAssignable, span⟩
    | .error e => .error e
  | .index (.var name _) index _ => .ok (.element name index)
  | other => .error ⟨.notAssignable, other.span⟩

def parseNames : (allowance : Nat) → Parse (List Ident)
  | 0 => do fault .allowanceSpent (← lastSpan)
  | n + 1 => do
    if ← skip .comma then
      let name ← ident
      return name :: (← parseNames n)
    return []

/-- A statement that begins with an expression: an assignment, a compound assignment, a destructuring
assignment, or the expression alone. -/
def parseExprStmt (start : Span) : Parse Stmt := do
  let expr ← Expr.parse
  let token ← peek
  match token, expr with
  | .assign, _ =>
    let _ ← next
    let target ← Target.ofExpr expr
    let value ← Expr.parse
    return .assign target value (start.through (← lastSpan))
  | .comma, .var name span =>
    let names ← parseNames (← get).allowance
    expect .assign
    let value ← Expr.parse
    return .destructure (⟨name, span⟩ :: names) value (start.through (← lastSpan))
  | _, _ =>
    match updateOp token with
    | some op =>
      let _ ← next
      let target ← Target.ofExpr expr
      let value ← Expr.parse
      return .update target op value (start.through (← lastSpan))
    | none => return .expr expr (start.through (← lastSpan))

def parseParam (name : Ident) : Parse Param := do
  expect .colon
  let type ← ident
  let default? ← if ← skip .assign then pure (some (← Expr.parse)) else pure none
  return { name := name.name, type, default?, span := name.span.through (← lastSpan) }

/-- The parameters of a declaration after its opening parenthesis, up to the closing one. A first parameter
`self` without a type is the receiver. -/
def parseParams : (allowance : Nat) → (receiver : Option Span) → (params : List Param) →
    Parse (Option Span × List Param)
  | 0, _, _ => do fault .allowanceSpent (← lastSpan)
  | n + 1, receiver, params => do
    if ← skip .closeParen then return (receiver, params)
    let name ← ident
    let isReceiver ←
      if params.isEmpty && receiver.isNone && name.name == "self" then pure (!(← nextIs .colon))
      else pure false
    let (receiver, params) ←
      if isReceiver then pure (some name.span, params)
      else pure (receiver, params ++ [← parseParam name])
    if ← skip .comma then parseParams n receiver params
    else
      expect .closeParen
      return (receiver, params)

mutual

def parseBlock : (allowance : Nat) → Parse Block
  | 0 => do fault .allowanceSpent (← lastSpan)
  | n + 1 => do
    expect .openBrace
    let start ← lastSpan
    let stmts ← parseStmts n
    return ⟨stmts, start.through (← lastSpan)⟩

def parseStmts : (allowance : Nat) → Parse (List Stmt)
  | 0 => do fault .allowanceSpent (← lastSpan)
  | n + 1 => do
    if ← skip .closeBrace then return []
    if ← nextIs .endOfFile then expect .closeBrace
    let stmt ← parseStmt n
    return stmt :: (← parseStmts n)

def parseFunction : (allowance : Nat) → (isInline : Bool) → Parse Function
  | 0, _ => do fault .allowanceSpent (← lastSpan)
  | n + 1, isInline => do
    expect .funWord
    let start ← lastSpan
    let name ← ident
    expect .openParen
    let (receiver, params) ← parseParams (← get).allowance none []
    let result ← if ← skip .arrow then pure (some (← ident)) else pure none
    let body ← parseBlock n
    return { name := name.name, isInline, receiver, params, result, body
             span := start.through body.span }

def parseMembers : (allowance : Nat) → (fields : List (String × Ident)) → (methods : List Function) →
    Parse (List (String × Ident) × List Function)
  | 0, _, _ => do fault .allowanceSpent (← lastSpan)
  | n + 1, fields, methods => do
    match ← peek with
    | .closeBrace =>
      let _ ← next
      return (fields, methods)
    | .funWord => parseMembers n fields (methods ++ [← parseFunction n false])
    | .inlineWord =>
      let _ ← next
      parseMembers n fields (methods ++ [← parseFunction n true])
    | _ =>
      let field ← ident
      expect .colon
      let type ← ident
      if !(← skip .semicolon) then
        let _ ← skip .comma
      parseMembers n (fields ++ [(field.name, type)]) methods

def parseBranch : (allowance : Nat) → Parse Stmt
  | 0 => do fault .allowanceSpent (← lastSpan)
  | n + 1 => do
    expect .ifWord
    let start ← lastSpan
    expect .openParen
    let cond ← Expr.parse
    expect .closeParen
    let onTrue ← parseBlock n
    let onFalse ←
      if ← skip .elseWord then
        if ← nextIs .ifWord then
          let nested ← parseBranch n
          pure (some ⟨[nested], nested.span⟩)
        else pure (some (← parseBlock n))
      else pure none
    return .branch cond onTrue onFalse (start.through (← lastSpan))

def parseStmt : (allowance : Nat) → Parse Stmt
  | 0 => do fault .allowanceSpent (← lastSpan)
  | n + 1 => do
    let start ← peekSpan
    let stmt ← match ← peek with
      | .funWord =>
        let decl ← parseFunction n false
        pure (.function decl decl.span)
      | .inlineWord =>
        let _ ← next
        let decl ← parseFunction n true
        pure (.function decl (start.through decl.span))
      | .structWord =>
        let _ ← next
        let name ← ident
        expect .openBrace
        let brace ← lastSpan
        let (fields, methods) ← parseMembers n [] []
        let last ← lastSpan
        pure (.struct name.name fields methods (brace.through last) (start.through last))
      | .ifWord => parseBranch n
      | .whileWord =>
        let _ ← next
        expect .openParen
        let cond ← Expr.parse
        expect .closeParen
        let body ← parseBlock n
        pure (.repeatWhile cond body (start.through (← lastSpan)))
      | .forWord =>
        let _ ← next
        expect .openParen
        let var ← ident
        expect .inWord
        let items ← Expr.parse
        expect .closeParen
        let body ← parseBlock n
        pure (.forEach var items body (start.through (← lastSpan)))
      | .returnWord =>
        let _ ← next
        let value ← match ← peek with
          | .semicolon | .closeBrace | .endOfFile => pure none
          | _ => pure (some (← Expr.parse))
        pure (.return value (start.through (← lastSpan)))
      | .constWord =>
        let _ ← next
        let name ← ident
        expect .assign
        let value ← Expr.parse
        pure (.const name.name value (start.through (← lastSpan)))
      | .openBrace =>
        let body ← parseBlock n
        pure (.block body body.span)
      | _ => parseExprStmt start
    let _ ← skip .semicolon
    return stmt

end

def parseAll : (allowance : Nat) → Parse (List Stmt)
  | 0 => do fault .allowanceSpent (← lastSpan)
  | n + 1 => do
    if ← nextIs .endOfFile then return []
    let stmt ← parseStmt (← get).allowance
    return stmt :: (← parseAll n)

def Stmt.parse : Parse Stmt := do
  parseStmt (← get).allowance

def Block.parse : Parse Block := do
  parseBlock (← get).allowance

def Script.parse (source : Source) : Except ParseError Script :=
  let ls := Lexemes.of source
  match (parseAll ls.allowance).run ls with
  | .ok (stmts, _) => .ok ⟨stmts, source.span⟩
  | .error e => .error e

end Datapack.Syntax
