import Datapack.Text.Source

/-!
Diagnostics and their presentation: a header with the place, then every source line the span touches with
carets under the part that is meant. The same layout is used with and without terminal colours.
-/

namespace Datapack

structure Diagnostic where
  heading : String
  message : String
  span : Span
deriving Repr, DecidableEq

namespace Diagnostic

structure Highlight where
  codes : String

namespace Highlight

def heading : Highlight := ⟨"1;91"⟩
def message : Highlight := ⟨"93"⟩
def faint : Highlight := ⟨"2"⟩
def place : Highlight := ⟨"94"⟩
def offending : Highlight := ⟨"4;91"⟩
def caret : Highlight := ⟨"91"⟩
def title : Highlight := ⟨"1;92"⟩

def reset : String := "\x1b[0m"

def opening (style : Highlight) : String := "\x1b[" ++ style.codes ++ "m"

/-- Shows a text with a highlight when colours are wanted. A reset inside the text is followed by the
opening sequence again, so that the highlight reaches to the end. -/
def paint (style : Highlight) (colours : Bool) (text : String) : String :=
  if colours then style.opening ++ text.replace reset (reset ++ style.opening) ++ reset else text

end Highlight

def padLeft (width : Nat) (text : String) : String :=
  String.ofList (List.replicate (width - text.length) ' ') ++ text

def header (colours : Bool) (source : Source) (d : Diagnostic) (start : Position) : String :=
  Highlight.heading.paint colours d.heading ++ ": " ++ Highlight.message.paint colours d.message ++ "\n" ++
    Highlight.faint.paint colours "in" ++ " " ++ Highlight.place.paint colours source.name ++
    ":" ++ toString start.line ++ ":" ++ toString start.column ++ "\n"

/-- One source line and the carets below it. The span is cut to the line; an empty part gets one caret.
Fails when an end of the span lies inside a character of the line, or the ends are in the wrong order. -/
def snippetLine? (colours : Bool) (gutter : Nat) (span : Span) (number lineStart : Nat)
    (line : List Char) : Option String :=
  let size := Text.byteSize line
  let clamp (offset : Nat) : Nat := min (max offset lineStart) (lineStart + size) - lineStart
  match Text.divide? (clamp span.start) (clamp span.stop) line with
  | none => none
  | some (before, inside, after) =>
    let bar := Highlight.faint.paint colours "|"
    some <|
      " " ++ Highlight.faint.paint colours (padLeft gutter (toString number)) ++ " " ++ bar ++ " " ++
        String.ofList before ++ Highlight.offending.paint colours (String.ofList inside) ++
        String.ofList after ++ "\n" ++
      " " ++ padLeft gutter "" ++ " " ++ bar ++ " " ++
        String.ofList (List.replicate before.length ' ') ++
        Highlight.caret.paint colours (String.ofList (List.replicate (max inside.length 1) '^')) ++ "\n"

/-- The lines of a snippet from the first one on: the first line always, later ones while they begin
before the end of the span. -/
def snippet? (colours : Bool) (gutter : Nat) (span : Span) (first : Bool) :
    (number lineStart : Nat) → List (List Char) → Option String
  | _, _, [] => some ""
  | number, lineStart, line :: more =>
    if !first && span.stop ≤ lineStart then some ""
    else
      match snippetLine? colours gutter span number lineStart (Text.trimLineEnd line) with
      | none => none
      | some shown =>
        match snippet? colours gutter span false (number + 1) (lineStart + Text.byteSize line) more with
        | none => none
        | some rest => some (shown ++ rest)

/-- The whole report of a diagnostic. Fails exactly when the span does not cut the source between
characters or has its ends in the wrong order on a line that is shown. -/
def render? (colours : Bool) (source : Source) (d : Diagnostic) : Option String :=
  match source.position? d.span.start with
  | none => none
  | some start =>
    let lines := Text.lines source.chars
    let skipped := lines.take (start.line - 1)
    let gutter := (toString (start.line + lines.length)).length
    match snippet? colours gutter d.span true start.line (Text.byteSize skipped.flatten)
        (lines.drop (start.line - 1)) with
    | none => none
    | some body => some (header colours source d start ++ body)

end Diagnostic

end Datapack
