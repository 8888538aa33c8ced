import Datapack.Syntax.Parser

/-!
Printed scripts: a row of tokens, with parentheses only where an operator binds less tightly than its place asks for.
Trees are compared without their spans, which depend on how a text is laid out.
-/

namespace Datapack.Syntax

structure Symbol where
  token : Token
  text : List Char
deriving Repr, DecidableEq

namespace Symbol

def sign (token : Token) : Symbol := ⟨token, token.describe.toList⟩

def word (name : String) : Symbol := ⟨.identifier, name.toList⟩

def number (n : Nat) : Symbol := ⟨.int, (toString n).toList⟩

def escape : List Char → List Char
  | [] => []
  | c :: cs =>
    if c = '"' then '\\' :: '"' :: escape cs
    else if c = '\\' then '\\' :: '\\' :: escape cs
    else if c = '\n' then '\\' :: 'n' :: escape cs
    else c :: escape cs

def quoted (value : String) : Symbol := ⟨.string, '"' :: (escape value.toList ++ ['"'])⟩

def enclosed (needed : Bool) (symbols : List Symbol) : List Symbol :=
  if needed then sign .openParen :: (symbols ++ [sign .closeParen]) else symbols

def commas : List (List Symbol) → List Symbol
  | [] => []
  | [item] => item
  | item :: other :: rest => item ++ sign .comma :: commas (other :: rest)

def spell (symbols : List Symbol) : List Char := symbols.flatMap fun symbol => symbol.text ++ [' ']

end Symbol

def BinaryOp.token : BinaryOp → Token
  | .add => .plus
  | .sub => .minus
  | .mul => .times
  | .div => .divide
  | .mod => .modulo
  | .equal => .equal
  | .notEqual => .notEqual
  | .greater => .greater
  | .greaterEqual => .greaterEqual
  | .less => .less
  | .lessEqual => .lessEqual
  | .and => .and
  | .or => .or

def BinaryOp.level : BinaryOp → Nat
  | .or => 0
  | .and => 1
  | .equal | .notEqual => 2
  | .greater | .greaterEqual | .less | .lessEqual => 3
  | .add | .sub => 4
  | .mul | .div | .mod => 5

def BinaryOp.assigning? : BinaryOp → Option Token
  | .add => some .plusAssign
  | .sub => some .minusAssign
  | .mul => some .timesAssign
  | .div => some .divideAssign
  | .mod => some .moduloAssign
  | _ => none

def UnaryOp.token : UnaryOp → Token
  | .not => .not
  | .neg => .minus

def operandLevel : Nat := tightestLevel + 1

def unitLevel : Nat := operandLevel + 1

namespace Expr

mutual

def symbols (level : Nat) : Expr → List Symbol
  | .int value _ => [.number value.toInt.toNat]
  | .decimal _ _ => []
  | .string value _ => [.quoted value]
  | .bool true _ => [.sign .trueWord]
  | .bool false _ => [.sign .falseWord]
  | .null _ => [.sign .nullWord]
  | .var name _ => [.word name]
  | .unary op operand _ => Symbol.enclosed (operandLevel < level) (.sign op.token :: symbols operandLevel operand)
  | .binary left op right _ =>
    Symbol.enclosed (op.level < level) (symbols op.level left ++ .sign op.token :: symbols (op.level + 1) right)
  | .index base subscript _ =>
    symbols unitLevel base ++ .sign .openSquare :: (symbols 0 subscript ++ [.sign .closeSquare])
  | .member base name _ => symbols unitLevel base ++ [.sign .period, .word name]
  | .call callee args _ =>
    symbols unitLevel callee ++ .sign .openParen :: (Symbol.commas (listed args) ++ [.sign .closeParen])
  | .array items _ => .sign .openSquare :: (Symbol.commas (listed items) ++ [.sign .closeSquare])

def listed : List Expr → List (List Symbol)
  | [] => []
  | e :: rest => symbols 0 e :: listed rest

end

mutual

def bare : Expr → Expr
  | .int value _ => .int value .zero
  | .decimal value _ => .decimal value .zero
  | .string value _ => .string value .zero
  | .bool value _ => .bool value .zero
  | .null _ => .null .zero
  | .var name _ => .var name .zero
  | .unary op operand _ => .unary op operand.bare .zero
  | .binary left op right _ => .binary left.bare op right.bare .zero
  | .index base subscript _ => .index base.bare subscript.bare .zero
  | .member base name _ => .member base.bare name .zero
  | .call callee args _ => .call callee.bare (allBare args) .zero
  | .array items _ => .array (allBare items) .zero

def allBare : List Expr → List Expr
  | [] => []
  | e :: rest => e.bare :: allBare rest

end

end Expr

def isIdentifier (name : String) : Bool :=
  match name.toList with
  | [] => false
  | c :: cs => !isDigit c && (c :: cs).all isWordCharacter && Token.ofWord (c :: cs) == .identifier

namespace Expr

mutual

/-- Whether an expression is one that can be written: numbers are not negative, there are no decimals, and names are
identifiers. -/
def isPrintable : Expr → Bool
  | .int value _ => 0 ≤ value.toInt
  | .decimal _ _ => false
  | .string _ _ | .bool _ _ | .null _ => true
  | .var name _ => isIdentifier name
  | .unary _ operand _ => operand.isPrintable
  | .binary left _ right _ => left.isPrintable && right.isPrintable
  | .index base subscript _ => base.isPrintable && subscript.isPrintable
  | .member base name _ => base.isPrintable && isIdentifier name
  | .call callee args _ => callee.isPrintable && arePrintable args
  | .array items _ => arePrintable items

def arePrintable : List Expr → Bool
  | [] => true
  | e :: rest => e.isPrintable && arePrintable rest

end

end Expr

def Target.symbols : Target → List Symbol
  | .path var members => .word var :: members.flatMap fun name => [.sign .period, .word name]
  | .element var index => .word var :: .sign .openSquare :: (index.symbols 0 ++ [.sign .closeSquare])

def Target.bare : Target → Target
  | .path var members => .path var members
  | .element var index => .element var index.bare

def Target.isPrintable : Target → Bool
  | .path var members => isIdentifier var && members.all isIdentifier
  | .element var index => isIdentifier var && index.isPrintable

def Ident.bare (ident : Ident) : Ident := ⟨ident.name, .zero⟩

namespace Param

def symbols (param : Param) : List Symbol :=
  .word param.name :: .sign .colon :: .word param.type.name ::
    match param.default? with
    | none => []
    | some value => .sign .assign :: value.symbols 0

def bare (param : Param) : Param := ⟨param.name, param.type.bare, param.default?.map Expr.bare, .zero⟩

def isPrintable (param : Param) : Bool :=
  isIdentifier param.name && isIdentifier param.type.name && param.default?.all Expr.isPrintable

def list (receiver : Option Span) (params : List Param) : List (List Symbol) :=
  match receiver with
  | none => params.map symbols
  | some _ => [.word "self"] :: params.map symbols

end Param

def fieldSymbols (field : String × Ident) : List Symbol :=
  [.word field.1, .sign .colon, .word field.2.name, .sign .semicolon]

def resultSymbols : Option Ident → List Symbol
  | none => []
  | some type => [.sign .arrow, .word type.name]

def Stmt.isBranch : Stmt → Bool
  | .branch _ _ _ _ => true
  | _ => false

mutual

def Stmt.symbols : Stmt → List Symbol
  | .expr value _ => value.symbols 0
  | .assign target value _ => target.symbols ++ .sign .assign :: value.symbols 0
  | .update target op value _ => target.symbols ++ (op.assigning?.map .sign).toList ++ value.symbols 0
  | .destructure names value _ =>
    Symbol.commas (names.map fun name => [.word name.name]) ++ .sign .assign :: value.symbols 0
  | .const name value _ => .sign .constWord :: .word name :: .sign .assign :: value.symbols 0
  | .branch cond onTrue none _ =>
    .sign .ifWord :: .sign .openParen :: (cond.symbols 0 ++ .sign .closeParen :: onTrue.symbols)
  | .branch cond onTrue (some onFalse) _ =>
    .sign .ifWord :: .sign .openParen ::
      (cond.symbols 0 ++ .sign .closeParen :: (onTrue.symbols ++ .sign .elseWord :: onFalse.elseSymbols))
  | .repeatWhile cond body _ =>
    .sign .whileWord :: .sign .openParen :: (cond.symbols 0 ++ .sign .closeParen :: body.symbols)
  | .forEach var items body _ =>
    .sign .forWord :: .sign .openParen :: .word var.name :: .sign .inWord ::
      (items.symbols 0 ++ .sign .closeParen :: body.symbols)
  | .block body _ => body.symbols
  | .function decl _ => decl.symbols
  | .struct name fields methods _ _ =>
    .sign .structWord :: .word name :: .sign .openBrace ::
      (fields.flatMap fieldSymbols ++ (Function.allSymbols methods ++ [.sign .closeBrace]))
  | .return none _ => [.sign .returnWord]
  | .return (some value) _ => .sign .returnWord :: value.symbols 0

def Block.symbols : Block → List Symbol
  | ⟨stmts, _⟩ => .sign .openBrace :: (Stmt.allSymbols stmts ++ [.sign .closeBrace])

/-- The symbols of a block behind `else`. One that has only a conditional in it is written without braces. -/
def Block.elseSymbols : Block → List Symbol
  | ⟨[stmt], _⟩ =>
    if stmt.isBranch then stmt.symbols
    else .sign .openBrace :: (stmt.symbols ++ [.sign .semicolon, .sign .closeBrace])
  | ⟨stmts, _⟩ => .sign .openBrace :: (Stmt.allSymbols stmts ++ [.sign .closeBrace])

def Function.symbols : Function → List Symbol
  | ⟨name, isInline, receiver, params, result, body, _⟩ =>
    (if isInline then [.sign .inlineWord] else []) ++ .sign .funWord :: .word name :: .sign .openParen ::
      (Symbol.commas (Param.list receiver params) ++ .sign .closeParen ::
        (resultSymbols result ++ body.symbols))

def Stmt.allSymbols : List Stmt → List Symbol
  | [] => []
  | stmt :: rest => stmt.symbols ++ .sign .semicolon :: Stmt.allSymbols rest

def Function.allSymbols : List Function → List Symbol
  | [] => []
  | decl :: rest => decl.symbols ++ Function.allSymbols rest

end

mutual

def Stmt.bare : Stmt → Stmt
  | .expr value _ => .expr value.bare .zero
  | .assign target value _ => .assign target.bare value.bare .zero
  | .update target op value _ => .update target.bare op value.bare .zero
  | .destructure names value _ => .destructure (names.map Ident.bare) value.bare .zero
  | .const name value _ => .const name value.bare .zero
  | .branch cond onTrue none _ => .branch cond.bare onTrue.bare none .zero
  | .branch cond onTrue (some onFalse) _ => .branch cond.bare onTrue.bare (some onFalse.bare) .zero
  | .repeatWhile cond body _ => .repeatWhile cond.bare body.bare .zero
  | .forEach var items body _ => .forEach var.bare items.bare body.bare .zero
  | .block body _ => .block body.bare .zero
  | .function decl _ => .function decl.bare .zero
  | .struct name fields methods _ _ =>
    .struct name (fields.map fun field => (field.1, field.2.bare)) (Function.allBare methods) .zero .zero
  | .return none _ => .return none .zero
  | .return (some value) _ => .return (some value.bare) .zero

def Block.bare : Block → Block
  | ⟨stmts, _⟩ => ⟨Stmt.allBare stmts, .zero⟩

def Function.bare : Function → Function
  | ⟨name, isInline, receiver, params, result, body, _⟩ =>
    ⟨name, isInline, receiver.map fun _ => .zero, params.map Param.bare, result.map Ident.bare, body.bare, .zero⟩

def Stmt.allBare : List Stmt → List Stmt
  | [] => []
  | stmt :: rest => stmt.bare :: Stmt.allBare rest

def Function.allBare : List Function → List Function
  | [] => []
  | decl :: rest => decl.bare :: Function.allBare rest

end

mutual

/-- Whether a statement is one that can be written. Only some operators have a compound assignment, and one name is
assigned to as a whole. -/
def Stmt.isPrintable : Stmt → Bool
  | .expr value _ => value.isPrintable
  | .assign target value _ => target.isPrintable && value.isPrintable
  | .update target op value _ => target.isPrintable && op.assigning?.isSome && value.isPrintable
  | .destructure names value _ => 2 ≤ names.length && names.all (isIdentifier ·.name) && value.isPrintable
  | .const name value _ => isIdentifier name && value.isPrintable
  | .branch cond onTrue none _ => cond.isPrintable && onTrue.isPrintable
  | .branch cond onTrue (some onFalse) _ => cond.isPrintable && onTrue.isPrintable && onFalse.isPrintable
  | .repeatWhile cond body _ => cond.isPrintable && body.isPrintable
  | .forEach var items body _ => isIdentifier var.name && items.isPrintable && body.isPrintable
  | .block body _ => body.isPrintable
  | .function decl _ => decl.isPrintable
  | .struct name fields methods _ _ =>
    isIdentifier name && fields.all (fun field => isIdentifier field.1 && isIdentifier field.2.name) &&
      Function.arePrintable methods
  | .return none _ => true
  | .return (some value) _ => value.isPrintable

def Block.isPrintable : Block → Bool
  | ⟨stmts, _⟩ => Stmt.arePrintable stmts

def Function.isPrintable : Function → Bool
  | ⟨name, _, _, params, result, body, _⟩ =>
    isIdentifier name && params.all Param.isPrintable && result.all (isIdentifier ·.name) && body.isPrintable

def Stmt.arePrintable : List Stmt → Bool
  | [] => true
  | stmt :: rest => stmt.isPrintable && Stmt.arePrintable rest

def Function.arePrintable : List Function → Bool
  | [] => true
  | decl :: rest => decl.isPrintable && Function.arePrintable rest

end

namespace Script

def symbols (script : Script) : List Symbol := Stmt.allSymbols script.stmts

def text (script : Script) : String := .ofList (Symbol.spell script.symbols)

def isPrintable (script : Script) : Bool := Stmt.arePrintable script.stmts

def bare (script : Script) : List Stmt := Stmt.allBare script.stmts

end Script

end Datapack.Syntax
