import Datapack.Pack

/-!
The command line: which script to compile, with which settings, and how the commands are shown. Files are
looked up by a function, so that a run is a function of its arguments and the files.
-/

namespace Datapack.CommandLine

open Diagnostic (Highlight)

structure Options where
  file : String
  config : Option String := none
  data : Option String := none
  json : Bool := false
  optimize : Bool := true
deriving Repr, DecidableEq, Inhabited

structure Reading where
  file : Option String := none
  config : Option String := none
  data : Option String := none
  json : Bool := false
  noOptimize : Bool := false
  filesOnly : Bool := false
deriving Inhabited

inductive Setting
  | config | data
deriving DecidableEq

namespace Reading

def once (previous : Option String) (value : String) : Option (Option String) :=
  if previous.isSome || value.isEmpty then none else some (some value)

def setting (s : Setting) (value : String) (r : Reading) : Option Reading :=
  match s with
  | .config => (once r.config value).map fun config => { r with config }
  | .data => (once r.data value).map fun data => { r with data }

def positional (value : String) (r : Reading) : Option Reading :=
  (once r.file value).map fun file => { r with file }

def flag (name : String) (r : Reading) : Option Reading :=
  if name = "--json" ∧ !r.json then some { r with json := true }
  else if name = "--no-optimize" ∧ !r.noOptimize then some { r with noOptimize := true }
  else none

def setting? (arg : String) : Option (Setting × Option String) :=
  let name := arg.toList.takeWhile (· != '=')
  let value :=
    match arg.toList.dropWhile (· != '=') with
    | [] => none
    | _ :: value => some (String.ofList value)
  if name = "--config".toList then some (.config, value)
  else if name = "--data".toList then some (.data, value)
  else none

def isOption (arg : String) : Bool := "-".toList.isPrefixOf arg.toList && arg != "-"

def take : List String → Reading → Option Reading
  | [], r => some r
  | arg :: rest, r =>
    if r.filesOnly || !isOption arg then (r.positional arg).bind (take rest)
    else if arg = "--" then take rest { r with filesOnly := true }
    else
      match setting? arg, rest with
      | some (s, some value), rest => (r.setting s value).bind (take rest)
      | some (s, none), value :: rest =>
        if isOption value then none else (r.setting s value).bind (take rest)
      | some (_, none), [] => none
      | none, rest => (r.flag arg).bind (take rest)

end Reading

def Options.ofArgs? (args : List String) : Option Options :=
  match Reading.take args {} with
  | some { file := some file, config, data, json, noOptimize, .. } =>
    some { file, config, data, json, optimize := !noOptimize }
  | _ => none

def usage : String := "Usage: [--config CONFIG] [--data DATA] [--json] [--no-optimize] FILE\n"

structure Report where
  exitCode : Nat
  stdout : String := ""
  stderr : String := ""
deriving Repr, DecidableEq, Inhabited

def load? {α : Type} (files : String → Option String) (read : String → Option α) (fallback : α) :
    Option String → Option α
  | none => some fallback
  | some path => (files path).bind read

def notice (colours : Bool) (source : Source) (d : Diagnostic) : String :=
  "\n" ++ (d.render? colours source).getD "" ++ "\n"

def listing (colours : Bool) (settings : Settings) (options : Options)
    (functions : List (String × String)) : String :=
  if options.json then
    Json.pretty 0 (.object (functions.map fun (name, text) => (name, .string text))) ++ "\n"
  else
    String.join (functions.map fun (name, text) =>
      Highlight.title.paint colours ("# " ++ settings.namespaceName ++ ":" ++ name) ++ "\n" ++ text ++ "\n")

def Options.run (colours : Bool) (files : String → Option String) (options : Options) : Report :=
  match load? files Settings.ofText? {} options.config, load? files Catalogue.ofText? {} options.data with
  | some settings, some catalogue =>
    match files options.file with
    | none => { exitCode := 1 }
    | some code =>
      let settings := { settings with optimize := settings.optimize && options.optimize }
      let source : Source := ⟨options.file, code⟩
      match (Pack.make source settings catalogue).2 with
      | .error error => { exitCode := 1, stderr := notice colours source error.diagnostic }
      | .ok pack =>
        { exitCode := 0
          stdout := listing colours settings options pack.functions
          stderr := String.join (pack.warnings.map fun w => notice colours source w.diagnostic) }
  | _, _ => { exitCode := 1 }

def run (colours : Bool) (files : String → Option String) (args : List String) : Report :=
  match Options.ofArgs? args with
  | none => { exitCode := 2, stderr := usage }
  | some options => options.run colours files

end Datapack.CommandLine
