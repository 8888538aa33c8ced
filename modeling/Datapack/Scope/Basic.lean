import Datapack.Diagnostic
import Datapack.Ordered

/-!
Scopes of a script: which names each scope declares, where they are read and written, and from that whether
a variable has to be kept at run time. A scope is known by the span of the block that opens it, the
outermost one by the zero span.
-/

namespace Datapack

inductive ScopeKind
  | global | function | inlineFunction | block | conditional | loop | struct
deriving Repr, DecidableEq, Inhabited

/-- Whether code in a scope runs exactly once wherever the scope is entered, so that values bound there can
stay known to the compiler. -/
def ScopeKind.isStatic : ScopeKind → Bool
  | .function | .conditional | .loop => false
  | _ => true

structure Access where
  site : Span
  scope : Span
deriving Repr, DecidableEq

structure DeclaredName where
  name : String
  declaration : Access
  writes : List Access := []
  reads : List Access := []
  constant : Bool := false
deriving Repr, DecidableEq

structure ScopeRecord where
  kind : ScopeKind
  names : List DeclaredName := []
  inner : List Span := []
deriving Repr, DecidableEq

def ScopeRecord.name? (r : ScopeRecord) (name : String) : Option DeclaredName :=
  r.names.find? (·.name == name)

abbrev ScopeMap := List (Span × ScopeRecord)

def ScopeMap.reaches (key target : Span) (r : ScopeRecord) : Bool := key == target || r.inner.contains target

/-- Whether a variable needs a place at run time: one of its writes stands inside a scope, below the
declaring one, whose code may run any number of times. -/
def ScopeMap.requiresStorage (scopes : ScopeMap) (declaring : Span) (name : String) : Bool :=
  match Ordered.get? declaring scopes with
  | none => false
  | some record =>
    match record.name? name with
    | none => false
    | some declared =>
      declared.writes.any fun w =>
        w.scope != declaring &&
          record.inner.any fun key =>
            match Ordered.get? key scopes with
            | some inner => reaches key w.scope inner && !inner.kind.isStatic
            | none => false

inductive ScopeFault
  | undeclaredRead (name : String)
  | undeclaredWrite (name : String)
deriving Repr, DecidableEq

def ScopeFault.message : ScopeFault → String
  | .undeclaredRead name => "Variable `" ++ name ++ "` is read before it is declared"
  | .undeclaredWrite name => "Variable `" ++ name ++ "` is modified before it is declared"

structure ScopeError where
  fault : ScopeFault
  span : Span
deriving Repr, DecidableEq

def ScopeError.diagnostic (e : ScopeError) : Diagnostic := ⟨"Scope Error", e.fault.message, e.span⟩

def predefinedNames : List String :=
  ["print", "range", "fixed", "int", "arrayOf", "len", "setBlock", "run", "_debugVariable", "isRaining",
    "isThundering", "isFeature", "blocks"]

end Datapack
