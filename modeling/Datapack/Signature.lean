import Datapack.Value.Basic

/-!
Signatures of functions, and the distribution of arguments over parameters from left to right. A parameter
for several arguments takes all that follow and fit; the last parameter has to take all that are left.
-/

namespace Datapack

inductive Arity
  | one | zeroOrMore | oneOrMore
deriving Repr, DecidableEq, Inhabited

inductive Staticness
  | any | staticOnly | dynamicOnly
deriving Repr, DecidableEq, Inhabited

structure Parameter where
  name : String
  kind : Kind
  arity : Arity := .one
  accepts : Staticness := .any
  default? : Option Value := none
deriving Repr, Inhabited

/-- The text of a parameter: stars and plus signs for several arguments, an exclamation mark for known
ones, and the default value. -/
def Parameter.text (p : Parameter) : String :=
  (match p.arity with
    | .one => ""
    | .zeroOrMore => "*"
    | .oneOrMore => "+") ++
  p.name ++ ": " ++ p.kind.text ++
  (match p.accepts with
    | .staticOnly => "!"
    | _ => "") ++
  (match p.default? with
    | some value => " = " ++ value.literalText?.getD "?"
    | none => "")

/-- A signature. The receiver of a method is not among the parameters. -/
structure Signature where
  name : String
  params : List Parameter
  result : Kind
  isMethod : Bool := false
deriving Repr, Inhabited

def Signature.text (s : Signature) : String :=
  let shown := (if s.isMethod then ["self"] else []) ++ s.params.map (·.text)
  "fun " ++ s.name ++ "(" ++ String.intercalate ", " shown ++ ") -> " ++ s.result.text

inductive Argument
  | one (value : Value)
  | many (values : List Value)
deriving Repr, Inhabited

def Argument.values : Argument → List Value
  | .one value => [value]
  | .many values => values

inductive ArgumentError
  | wrongType (param : String) (expected found : Kind)
  | mustBeStatic (param : String)
  | mustNotBeStatic (param : String)
  | tooMany (expected found : Nat)
  | missing (param : String)
  | missingVariadic (param : String)
  | variadicMismatch (param : String) (expected : Kind) (found : List Kind)
deriving Repr, DecidableEq

def ArgumentError.message : ArgumentError → String
  | .wrongType param expected found =>
    "parameter `" ++ param ++ "` expects " ++ expected.text ++ ", found " ++ found.text
  | .mustBeStatic param => "parameter `" ++ param ++ "` needs a value known at compile time"
  | .mustNotBeStatic param => "parameter `" ++ param ++ "` needs a runtime value"
  | .tooMany expected found =>
    "expected at most " ++ toString expected ++ " arguments, found " ++ toString found
  | .missing param => "missing argument for parameter `" ++ param ++ "`"
  | .missingVariadic param => "parameter `" ++ param ++ "` needs at least one argument"
  | .variadicMismatch param expected found =>
    "all arguments for `" ++ param ++ "` must be " ++ expected.text ++ ", found (" ++
      String.intercalate ", " (found.map (·.text)) ++ ")"

namespace Parameter

def fits (p : Parameter) (value : Value) : Bool := p.kind.accepts value.kind

def checkStaticness (p : Parameter) (value : Value) : Except ArgumentError Unit :=
  match p.accepts with
  | .staticOnly => if value.isFullyStatic then .ok () else .error (.mustBeStatic p.name)
  | .dynamicOnly => if value.isStatic then .error (.mustNotBeStatic p.name) else .ok ()
  | .any => .ok ()

def check (p : Parameter) (value : Value) : Except ArgumentError Unit :=
  if p.fits value then p.checkStaticness value
  else .error (.wrongType p.name p.kind value.kind)

def checkAllStaticness (p : Parameter) : List Value → Except ArgumentError Unit
  | [] => .ok ()
  | value :: rest => do
    p.checkStaticness value
    p.checkAllStaticness rest

/-- What a parameter for several arguments gets: those taken, or its default if it needs one and no
argument is left. -/
def gather (p : Parameter) (taken rest : List Value) : Except ArgumentError Argument :=
  if taken.isEmpty && p.arity == .oneOrMore then
    match rest, p.default? with
    | arg :: _, _ => .error (.wrongType p.name p.kind arg.kind)
    | [], some value => .ok (.many [value])
    | [], none => .error (.missingVariadic p.name)
  else .ok (.many taken)

end Parameter

def Signature.distribute (total found : Nat) : List Parameter → List Value → Except ArgumentError (List Argument)
  | [], [] => .ok []
  | [], _ :: _ => .error (.tooMany total found)
  | p :: params, args =>
    if p.arity = .one then
      match args, p.default? with
      | arg :: rest, _ => do
        p.check arg
        return .one arg :: (← distribute total found params rest)
      | [], some value => return .one value :: (← distribute total found params [])
      | [], none => .error (.missing p.name)
    else
      let taken := args.takeWhile p.fits
      let rest := args.dropWhile p.fits
      if params.isEmpty && !rest.isEmpty then
        .error (.variadicMismatch p.name p.kind (args.map (·.kind)))
      else do
        p.checkAllStaticness taken
        let argument ← p.gather taken rest
        return argument :: (← distribute total found params rest)

def Signature.matchArgs (s : Signature) (args : List Value) : Except ArgumentError (List Argument) :=
  distribute s.params.length args.length s.params args

namespace Builtin

def optional (name : String) (kind : Kind) (value : Value) : Parameter :=
  { name, kind, accepts := .staticOnly, default? := some value }

def known (n : Int32) : Value := .number (.static n)

def shape : Builtin → List Parameter × Kind
  | .print => ([{ name := "values", kind := .any, arity := .zeroOrMore }], .null)
  | .range =>
    ([{ name := "start", kind := .number, accepts := .staticOnly }, optional "stop" .any .null,
      optional "step" .number (known 1)], .array)
  | .fixed => ([{ name := "value", kind := .any }], .fixed)
  | .int => ([{ name := "value", kind := .any }], .number)
  | .arrayOf => ([{ name := "values", kind := .any, arity := .zeroOrMore }], .array)
  | .len => ([{ name := "value", kind := .any }], .number)
  | .setBlock =>
    ([{ name := "block", kind := .string, accepts := .staticOnly }, optional "x" .number (known 0),
      optional "y" .number (known 0), optional "z" .number (known 0)], .null)
  | .run => ([{ name := "command", kind := .string, accepts := .staticOnly }], .null)
  | .debugVariable => ([{ name := "name", kind := .string, accepts := .staticOnly }], .string)
  | .isRaining | .isThundering => ([], .bool)
  | .isFeature => ([{ name := "feature", kind := .string, accepts := .staticOnly }], .bool)

def signature (b : Builtin) : Signature :=
  { name := b.name, params := b.shape.1, result := b.shape.2 }

end Builtin

end Datapack
