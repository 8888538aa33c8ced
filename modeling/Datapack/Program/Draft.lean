import Datapack.Program.Basic

/-!
Programs under construction. Nodes go to the innermost of a stack of buffers; a finished buffer becomes the
body of a routine or the children of a guarded node. The innermost buffer can be set aside for a while, so
that nodes go to the one below it.
-/

namespace Datapack

/-- Finished routines, open buffers with the innermost first, and the buffers set aside, the latest first. -/
structure Draft where
  routines : Array Routine := #[]
  buffers : List (Array Node) := []
  hidden : List (Array Node) := []
  nextIndex : Nat := 0
deriving Inhabited

namespace Draft

def depth (d : Draft) : Nat := d.buffers.length

def append (node : Node) (d : Draft) : Draft :=
  match d.buffers with
  | [] => { d with buffers := [#[node]] }
  | top :: below => { d with buffers := top.push node :: below }

def appendAll (nodes : List Node) (d : Draft) : Draft :=
  nodes.foldl (fun d node => d.append node) d

def push (d : Draft) : Draft := { d with buffers := #[] :: d.buffers }

def pop (d : Draft) : Array Node × Draft :=
  match d.buffers with
  | [] => (#[], d)
  | top :: below => (top, { d with buffers := below })

def hide (d : Draft) : Draft :=
  let (top, d) := d.pop
  { d with hidden := top :: d.hidden }

def unhide (d : Draft) : Draft :=
  match d.hidden with
  | [] => d
  | top :: rest => { d with buffers := top :: d.buffers, hidden := rest }

/-- Adds nodes to the buffer that is innermost when a given number of buffers is open; without such a
buffer they go to the innermost one. -/
def appendAt (depth : Nat) (nodes : List Node) (d : Draft) : Draft :=
  if 0 < depth ∧ depth ≤ d.depth then
    { d with buffers := d.buffers.modify (d.depth - depth) fun buffer => buffer.appendList nodes }
  else d.appendAll nodes

def finish (name : String) (nodes : List Node) (location : Option Span) (d : Draft) : Draft :=
  let (next, body) := Node.numberAll (d.nextIndex + 1) nodes
  { d with
    routines := d.routines.push { name, body, location, index := some d.nextIndex }
    nextIndex := next }

def program (d : Draft) : Program := ⟨d.routines.toList, d.nextIndex⟩

end Draft

end Datapack
