import Datapack.Diagnostic
import Datapack.Program.Condense
import Datapack.Signature
import Datapack.Value.Emission

/-!
Faults that stop a compilation.
-/

namespace Datapack

inductive CompileFault
  | nonexistentVariable (name : String)
  | typeMismatch (expected found : Kind)
  | value (error : ValueError)
  | notStatic (what : String)
  | constWrite (name : String)
  | staticWrite (name : String)
  | unknownMember (kind : Kind) (member : String)
  | indexOutOfBounds (index : Int32) (length : Nat)
  | unknownType (name : String)
  | unknownBlock (name : String)
  | unknownFeature (name : String)
  | destructureMismatch (expected found : Nat)
  | notCallable (kind : Kind)
  | notIterable (kind : Kind)
  | returnOutsideFunction
  | alreadyDeclared (name : String)
  | invalidArgument (message : String)
  | unsupportedRuntimeType (kind : Kind)
  | inlineRecursion (name : String)
  | argument (error : ArgumentError) (signature found : String)
  | internal (message : String)
  | link (error : LinkError)
deriving Repr, DecidableEq

def CompileFault.capitalized (text : String) : String :=
  match text.toList with
  | [] => ""
  | c :: cs => .ofList (c.toUpper :: cs)

def CompileFault.message : CompileFault → String
  | .nonexistentVariable name => "Variable `" ++ name ++ "` does not exist"
  | .typeMismatch expected found => "Expected " ++ expected.text ++ ", found " ++ found.text
  | .value error => capitalized error.message
  | .notStatic what => what ++ " must be known at compile time"
  | .constWrite name => "Cannot assign to constant `" ++ name ++ "`"
  | .staticWrite name =>
    "Variable `" ++ name ++ "` is known at compile time and cannot be modified under runtime control"
  | .unknownMember kind member => kind.text ++ " has no member `" ++ member ++ "`"
  | .indexOutOfBounds index length =>
    "Index " ++ Word.text index ++ " is out of bounds for an array of length " ++ toString length
  | .unknownType name => "Unknown type `" ++ name ++ "`"
  | .unknownBlock name => "Unknown block `" ++ name ++ "`"
  | .unknownFeature name => "Unknown feature `" ++ name ++ "`"
  | .destructureMismatch expected found =>
    "Expected " ++ toString expected ++ " values to destructure, found " ++ toString found
  | .notCallable kind => kind.text ++ " is not callable"
  | .notIterable kind => "Cannot iterate over " ++ kind.text ++ ", only compile time arrays"
  | .returnOutsideFunction => "Return outside of a function"
  | .alreadyDeclared name => "`" ++ name ++ "` is already declared in this scope"
  | .invalidArgument message => message
  | .unsupportedRuntimeType kind =>
    kind.text ++ " cannot be passed to or returned from a non-inline function"
  | .inlineRecursion name => "Inline function `" ++ name ++ "` expands into itself too deeply"
  | .argument error signature found =>
    error.message ++ " in call to `" ++ signature ++ "` with (" ++ found ++ ")"
  | .internal message => "Internal compiler error: " ++ message
  | .link error => "Internal compiler error: " ++ error.message

def CompileFault.heading : CompileFault → String
  | .argument _ _ _ | .invalidArgument _ => "Argument Error"
  | .internal _ | .link _ => "Internal Error"
  | _ => "Type Error"

structure CompileError where
  fault : CompileFault
  span : Span
deriving Repr, DecidableEq

def CompileError.diagnostic (e : CompileError) : Diagnostic := ⟨e.fault.heading, e.fault.message, e.span⟩

end Datapack
