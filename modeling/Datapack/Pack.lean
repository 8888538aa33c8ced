import Datapack.Compile.Script
import Datapack.Scope.Analysis
import Datapack.Syntax.Parser

/-!
Packs: the command files of a script. A script is parsed, its names are analysed, it is compiled to a
program, and the program is made smaller and written as commands.
-/

namespace Datapack

inductive PackError
  | parse (error : Syntax.ParseError)
  | compile (error : CompileError)

def PackError.diagnostic : PackError → Diagnostic
  | .parse error => error.diagnostic
  | .compile error => error.diagnostic

structure Pack where
  functions : List (String × String)
  warnings : List ScopeError

inductive Phase
  | parsing (name : String)
  | analyzing (statements : Nat)
  | compiling (scopes : Nat)
  | optimizing (routines : List String)
  | lowering (routines : List String)
  | done (functions : Nat)

def Phase.name : Phase → String
  | .parsing _ => "Parsing"
  | .analyzing _ => "Analyzing"
  | .compiling _ => "Compiling"
  | .optimizing _ => "Optimizing"
  | .lowering _ => "Lowering"
  | .done _ => "Done"

def Phase.fifths : Phase → Nat
  | .parsing _ => 0
  | .analyzing _ => 1
  | .compiling _ => 2
  | .optimizing _ => 3
  | .lowering _ => 4
  | .done _ => 5

def Phase.fraction (p : Phase) : Double := .nearest false p.fifths 5

def Program.names (p : Program) : List String := p.routines.map (·.name)

def Program.optimize (settings : Settings) (script : Span) (p : Program) : Except CompileError Program :=
  if settings.optimize then
    match p.simplify.condense settings with
    | (.ok (), p) => .ok p
    | (.error error, _) => .error ⟨.link error, script⟩
  else .ok p.simplify

structure Analyzed where
  script : Syntax.Script
  analysis : Analysis

def Analyzed.of (source : Source) : Except Syntax.ParseError Analyzed :=
  match Syntax.Script.parse source with
  | .ok script => .ok ⟨script, .of script⟩
  | .error error => .error error

def Analyzed.program (source : Source) (settings : Settings) (catalogue : Catalogue) (a : Analyzed) :
    Except CompileError Program :=
  Environment.compile ⟨source, settings, catalogue, a.analysis.scopes⟩ a.script

def Pack.make (source : Source) (settings : Settings) (catalogue : Catalogue) :
    List Phase × Except PackError Pack :=
  let parsing := [Phase.parsing source.name]
  match Analyzed.of source with
  | .error error => (parsing, .error (.parse error))
  | .ok analyzed =>
    let compiling := parsing ++
      [.analyzing analyzed.script.stmts.length, .compiling analyzed.analysis.scopes.length]
    match analyzed.program source settings catalogue with
    | .error error => (compiling, .error (.compile error))
    | .ok program =>
      let optimizing := compiling ++ [.optimizing program.names]
      match program.optimize settings analyzed.script.span with
      | .error error => (optimizing, .error (.compile error))
      | .ok program =>
        let functions := program.texts settings
        (optimizing ++ [.lowering program.names, .done functions.length],
          .ok ⟨functions, analyzed.analysis.errors⟩)

end Datapack
