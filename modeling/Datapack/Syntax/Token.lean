import Datapack.Text.Blank
import Datapack.Text.Source

/-!
Lexemes: a script is cut into tokens, with blanks and line comments between them left out. Every lexeme
keeps its span and its text, and a piece of text that is no token is kept as the reason why, so that the
reader of the lexemes decides what a fault means.
-/

namespace Datapack.Syntax

inductive Token
  | int | decimal | string
  | trueWord | falseWord | nullWord
  | identifier
  | plus | minus | times | divide | modulo
  | plusAssign | minusAssign | timesAssign | divideAssign | moduloAssign
  | assign
  | equal | notEqual | greater | greaterEqual | less | lessEqual
  | not | and | or
  | openParen | closeParen | openSquare | closeSquare | openBrace | closeBrace
  | ifWord | elseWord | whileWord | forWord | inWord
  | funWord | inlineWord | structWord | constWord | returnWord
  | arrow
  | semicolon | colon | period | comma
  | endOfFile
deriving Repr, DecidableEq, Inhabited

def Token.describe : Token → String
  | .int => "int literal"
  | .decimal => "decimal literal"
  | .string => "string literal"
  | .trueWord => "true"
  | .falseWord => "false"
  | .nullWord => "null"
  | .identifier => "identifier"
  | .plus => "+"
  | .minus => "-"
  | .times => "*"
  | .divide => "/"
  | .modulo => "%"
  | .plusAssign => "+="
  | .minusAssign => "-="
  | .timesAssign => "*="
  | .divideAssign => "/="
  | .moduloAssign => "%="
  | .assign => "="
  | .equal => "=="
  | .notEqual => "!="
  | .greater => ">"
  | .greaterEqual => ">="
  | .less => "<"
  | .lessEqual => "<="
  | .not => "!"
  | .and => "&&"
  | .or => "||"
  | .openParen => "("
  | .closeParen => ")"
  | .openSquare => "["
  | .closeSquare => "]"
  | .openBrace => "\x7b"
  | .closeBrace => "\x7d"
  | .ifWord => "if"
  | .elseWord => "else"
  | .whileWord => "while"
  | .forWord => "for"
  | .inWord => "in"
  | .funWord => "fun"
  | .inlineWord => "inline"
  | .structWord => "struct"
  | .constWord => "const"
  | .returnWord => "return"
  | .arrow => "->"
  | .semicolon => ";"
  | .colon => ":"
  | .period => "."
  | .comma => ","
  | .endOfFile => "end of file"

def Token.ofWord (word : List Char) : Token :=
  if word = ['t', 'r', 'u', 'e'] then .trueWord
  else if word = ['f', 'a', 'l', 's', 'e'] then .falseWord
  else if word = ['n', 'u', 'l', 'l'] then .nullWord
  else if word = ['i', 'f'] then .ifWord
  else if word = ['e', 'l', 's', 'e'] then .elseWord
  else if word = ['w', 'h', 'i', 'l', 'e'] then .whileWord
  else if word = ['f', 'o', 'r'] then .forWord
  else if word = ['i', 'n'] then .inWord
  else if word = ['f', 'u', 'n'] then .funWord
  else if word = ['i', 'n', 'l', 'i', 'n', 'e'] then .inlineWord
  else if word = ['s', 't', 'r', 'u', 'c', 't'] then .structWord
  else if word = ['c', 'o', 'n', 's', 't'] then .constWord
  else if word = ['r', 'e', 't', 'u', 'r', 'n'] then .returnWord
  else .identifier

inductive LexicalFault
  | unknownCharacter (c : Char)
  | unterminatedString
  | unknownEscape (c : Char)
deriving Repr, DecidableEq, Inhabited

def LexicalFault.message : LexicalFault → String
  | .unknownCharacter c => "Unknown character `" ++ c.toString ++ "`"
  | .unterminatedString => "Unterminated string literal"
  | .unknownEscape c => "Unknown escape sequence `\\" ++ c.toString ++ "`"

structure Lexeme where
  outcome : Except LexicalFault Token
  span : Span
  text : List Char
deriving Repr

structure Reading where
  outcome : Except LexicalFault Token
  taken : List Char
  rest : List Char

/-- Drops blanks and line comments and counts their bytes. A comment starts with two slashes and goes up
to the end of its line; `inComment` says whether one is open. -/
def skipTrivia : (inComment : Bool) → (offset : Nat) → List Char → Nat × List Char
  | _, offset, [] => (offset, [])
  | true, offset, c :: cs => skipTrivia (c != '\n') (offset + c.utf8Size) cs
  | false, offset, [c] => if Text.isBlank c then (offset + c.utf8Size, []) else (offset, [c])
  | false, offset, c :: d :: cs =>
    if Text.isBlank c then skipTrivia false (offset + c.utf8Size) (d :: cs)
    else if c = '/' ∧ d = '/' then skipTrivia true (offset + c.utf8Size) (d :: cs)
    else (offset, c :: d :: cs)

def isWordCharacter (c : Char) : Bool :=
  ('a' ≤ c && c ≤ 'z') || ('A' ≤ c && c ≤ 'Z') || ('0' ≤ c && c ≤ '9') || c == '_'

def isDigit (c : Char) : Bool := '0' ≤ c && c ≤ '9'

def readWithEquals (first : Char) (plain compound : Token) : List Char → Reading
  | '=' :: rest => ⟨.ok compound, [first, '='], rest⟩
  | rest => ⟨.ok plain, [first], rest⟩

def readNumber (first : Char) (cs : List Char) : Reading :=
  let whole := cs.takeWhile isDigit
  let rest := cs.dropWhile isDigit
  match rest with
  | '.' :: d :: more =>
    if isDigit d then
      ⟨.ok .decimal, first :: (whole ++ '.' :: d :: more.takeWhile isDigit), more.dropWhile isDigit⟩
    else ⟨.ok .int, first :: whole, rest⟩
  | _ => ⟨.ok .int, first :: whole, rest⟩

/-- The rest of a string literal after its opening quote, `seen` being what was read so far in reverse.
A backslash must be followed by a quote, a backslash or the letter n. -/
def readString (seen : List Char) : List Char → Reading
  | [] => ⟨.error .unterminatedString, seen.reverse, []⟩
  | '"' :: rest => ⟨.ok .string, ('"' :: seen).reverse, rest⟩
  | ['\\'] => ⟨.error .unterminatedString, ('\\' :: seen).reverse, []⟩
  | '\\' :: c :: rest =>
    if c = '"' ∨ c = '\\' ∨ c = 'n' then readString (c :: '\\' :: seen) rest
    else ⟨.error (.unknownEscape c), (c :: '\\' :: seen).reverse, rest⟩
  | c :: rest => readString (c :: seen) rest

/-- Reads the lexeme that starts with a given character, which is no blank. -/
def readLexeme (c : Char) (cs : List Char) : Reading :=
  let single (token : Token) : Reading := ⟨.ok token, [c], cs⟩
  match c with
  | '+' => readWithEquals c .plus .plusAssign cs
  | '-' =>
    match cs with
    | '>' :: rest => ⟨.ok .arrow, [c, '>'], rest⟩
    | _ => readWithEquals c .minus .minusAssign cs
  | '*' => readWithEquals c .times .timesAssign cs
  | '/' => readWithEquals c .divide .divideAssign cs
  | '%' => readWithEquals c .modulo .moduloAssign cs
  | '(' => single .openParen
  | ')' => single .closeParen
  | '[' => single .openSquare
  | ']' => single .closeSquare
  | '\x7b' => single .openBrace
  | '\x7d' => single .closeBrace
  | ';' => single .semicolon
  | ':' => single .colon
  | '.' => single .period
  | ',' => single .comma
  | '=' => readWithEquals c .assign .equal cs
  | '!' => readWithEquals c .not .notEqual cs
  | '>' => readWithEquals c .greater .greaterEqual cs
  | '<' => readWithEquals c .less .lessEqual cs
  | '"' => readString [c] cs
  | _ =>
    if c = '&' ∧ cs.head? = some '&' then ⟨.ok .and, [c, '&'], cs.drop 1⟩
    else if c = '|' ∧ cs.head? = some '|' then ⟨.ok .or, [c, '|'], cs.drop 1⟩
    else if isDigit c then readNumber c cs
    else if isWordCharacter c then
      let word := c :: cs.takeWhile isWordCharacter
      ⟨.ok (.ofWord word), word, cs.dropWhile isWordCharacter⟩
    else ⟨.error (.unknownCharacter c), [c], cs⟩

/-- The lexemes of a text that starts at a byte offset. Every lexeme takes a character, so the number of
characters bounds their number. -/
def lexemesFrom : (bound offset : Nat) → List Char → List Lexeme
  | 0, _, _ => []
  | bound + 1, offset, cs =>
    match skipTrivia false offset cs with
    | (_, []) => []
    | (start, c :: rest) =>
      let reading := readLexeme c rest
      let stop := start + Text.byteSize reading.taken
      ⟨reading.outcome, ⟨start, stop⟩, reading.taken⟩ :: lexemesFrom bound stop reading.rest

def lexemes (source : Source) : List Lexeme :=
  lexemesFrom source.chars.length 0 source.chars

def identifiers (source : Source) : List String :=
  (lexemes source).filterMap fun lexeme =>
    match lexeme.outcome with
    | .ok .identifier => some (.ofList lexeme.text)
    | _ => none

/-- The characters that the inside of a string literal stands for: a backslash makes the letter n a line
feed and leaves every other character as it is. -/
def unescapeInside : List Char → List Char
  | [] => []
  | ['\\'] => []
  | '\\' :: c :: cs => (if c = 'n' then '\n' else c) :: unescapeInside cs
  | c :: cs => c :: unescapeInside cs

/-- The text a string literal stands for, its quotes included in the literal. Fails if the first or the
last byte is not a character of its own. -/
def unescape? (literal : List Char) : Option (List Char) :=
  match Text.divide? 1 (Text.byteSize literal - 1) literal with
  | some (_, inside, _) => some (unescapeInside inside)
  | none => none

end Datapack.Syntax
