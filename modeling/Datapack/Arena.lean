/-!
Arenas: values kept under numeric keys. The key of a value that is taken out is free for the next one put
in, the latest freed first; otherwise a new value gets the next key.
-/

namespace Datapack

/-- Values by key, and the keys that are free, the latest freed first. -/
structure Arena (α : Type) where
  entries : Array (Option α) := #[]
  free : List Nat := []
deriving Inhabited

namespace Arena

variable {α : Type}

def get? (a : Arena α) (key : Nat) : Option α :=
  match a.entries[key]? with
  | some entry => entry
  | none => none

def insert (value : α) (a : Arena α) : Nat × Arena α :=
  match a.free with
  | key :: free => (key, { entries := a.entries.setIfInBounds key (some value), free })
  | [] => (a.entries.size, { a with entries := a.entries.push (some value) })

def erase (key : Nat) (a : Arena α) : Option α × Arena α :=
  match a.get? key with
  | some value =>
    (some value, { entries := a.entries.setIfInBounds key none, free := key :: a.free })
  | none => (none, a)

def modify (key : Nat) (f : α → α) (a : Arena α) : Arena α :=
  { a with entries := a.entries.modify key fun entry => entry.map f }

/-- The entries met by following links from a key, at most as many as the limit allows. A missing entry
ends the chain. -/
def chain (a : Arena α) (link : α → Option Nat) : (limit key : Nat) → List (Nat × α)
  | 0, _ => []
  | limit + 1, key =>
    match a.get? key with
    | none => []
    | some value =>
      match link value with
      | none => [(key, value)]
      | some next => (key, value) :: chain a link limit next

end Arena

end Datapack
