/-!
Scripts as texts addressed by byte offsets. A span is a pair of offsets into the UTF-8 form of a text;
cutting a text at an offset fails when the offset lies inside a character, which is the only way an
offset can fail to name a place.
-/

namespace Datapack

structure Span where
  start : Nat
  stop : Nat
deriving Repr, DecidableEq, Inhabited

/-- The span that names the outermost scope: no piece of syntax has an empty span at the beginning. -/
def Span.zero : Span := ⟨0, 0⟩

def Span.through (first last : Span) : Span := ⟨first.start, last.stop⟩

namespace Text

def byteSize : List Char → Nat
  | [] => 0
  | c :: cs => c.utf8Size + byteSize cs

def splitAtByte? : Nat → List Char → Option (List Char × List Char)
  | 0, cs => some ([], cs)
  | _ + 1, [] => none
  | n + 1, c :: cs =>
    if c.utf8Size ≤ n + 1 then
      match splitAtByte? (n + 1 - c.utf8Size) cs with
      | some (before, after) => some (c :: before, after)
      | none => none
    else none

def divide? (start stop : Nat) (cs : List Char) : Option (List Char × List Char × List Char) :=
  if stop < start then none
  else
    match splitAtByte? start cs with
    | none => none
    | some (before, rest) =>
      match splitAtByte? (stop - start) rest with
      | none => none
      | some (inside, after) => some (before, inside, after)

/-- The lines of a text, each with the line feed that ends it; only the last may lack one. -/
def lines : List Char → List (List Char)
  | [] => []
  | c :: cs =>
    if c = '\n' then [c] :: lines cs
    else
      match lines cs with
      | [] => [[c]]
      | line :: more => (c :: line) :: more

def trimLineEnd (line : List Char) : List Char :=
  (line.reverse.dropWhile fun c => c == '\n' || c == '\r').reverse

end Text

/-- A place in a text as people count it: lines and characters, both from one. -/
structure Position where
  line : Nat
  column : Nat
deriving Repr, DecidableEq

structure Source where
  name : String
  code : String
deriving Repr, DecidableEq

namespace Source

def chars (source : Source) : List Char := source.code.toList

def size (source : Source) : Nat := source.code.utf8ByteSize

def span (source : Source) : Span := ⟨0, source.size⟩

def positionAfter (before : List Char) : Position :=
  { line := before.count '\n' + 1
    column := (before.reverse.takeWhile (· != '\n')).length + 1 }

/-- The position of a byte offset. Offsets past the end count as the end; an offset inside a character
has no position. -/
def position? (source : Source) (offset : Nat) : Option Position :=
  match Text.splitAtByte? (min offset source.size) source.chars with
  | some (before, _) => some (positionAfter before)
  | none => none

end Source

end Datapack
