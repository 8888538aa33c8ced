import Datapack.Proofs.Closure
import Datapack.Proofs.Passing

/-!
Addresses never alias. An address tells what a place was allocated for, and the parts that lead from there to where a
value lives; the text of a cell or a path gives all of this back, except that a field that is named like an element is
the same place as that element. The numbers in allocations are handed out once each in a whole compilation.
-/

namespace Datapack

open List Cell

@[ext] structure Label where
  text : String
  dotless : '.' ∉ text.toList

def Label.ofName {name : String} (h : Syntax.IsName name) : Label := ⟨name, h.dot_notMem⟩

def Label.result : Label := ⟨Compile.returnName, by decide⟩

inductive Part
  | field (name : Label)
  | element (index : Nat)

namespace Part

/-- Whether two steps lead to the same place: they are the same, or one is to an element and the other to a field that
is named like it. -/
inductive Same : Part → Part → Prop
  | refl (part : Part) : Same part part
  | fieldElement {name : Label} {index : Nat} : name.text = "e" ++ toString index → Same (.field name) (.element index)
  | elementField {name : Label} {index : Nat} : name.text = "e" ++ toString index → Same (.element index) (.field name)

def label : Part → List Char
  | .field name => name.text.toList
  | .element index => 'e' :: (toString index).toList

end Part

def Slot.derived (slot : Slot) : List Part → Slot
  | [] => slot
  | .field name :: rest => (slot.member name.text).derived rest
  | .element index :: rest => (slot.element index).derived rest

/-- The places that a compilation can name: the cells of constants, and what is reached by steps from the slot of a
variable or from a temporary. The number of a temporary is that of its cell, or that of its path. -/
inductive Address
  | constant (value : Int32)
  | named (frame : Nat) (name : Label) (parts : List Part)
  | temporary (number : Nat) (parts : List Part)

namespace Address

def cell : Address → Cell
  | .constant value => .constant value
  | .named frame name parts => ((Slot.ofVariable frame name.text).derived parts).cell
  | .temporary number parts => (Slot.derived ⟨.temporary number, .temporary number, true⟩ parts).cell

inductive Same : Address → Address → Prop
  | constant (value : Int32) : Same (.constant value) (.constant value)
  | named (frame : Nat) (name : Label) {ps qs : List Part} : List.Forall₂ Part.Same ps qs →
      Same (.named frame name ps) (.named frame name qs)
  | temporary (number : Nat) {ps qs : List Part} : List.Forall₂ Part.Same ps qs →
      Same (.temporary number ps) (.temporary number qs)

/-- The text of what a place was allocated for, as it stands in its path, or in its cell if it has no path. -/
def root : Address → List Char
  | .constant value => (Cell.constant value).name.toList.tail
  | .named frame name _ => (toString frame).toList ++ '_' :: name.text.toList
  | .temporary number _ => "tmp".toList ++ (toString number).toList

def parts : Address → List Part
  | .constant _ => []
  | .named _ _ parts | .temporary _ parts => parts

def lead : Address → List Char
  | .named _ _ _ => "exp".toList
  | _ => []

variable {a b : Address}

theorem Same.text (h : a.Same b) : a.lead = b.lead ∧ a.root = b.root ∧ List.Forall₂ Part.Same a.parts b.parts := by
  cases h with
  | constant => exact ⟨rfl, rfl, .nil⟩
  | named _ _ hparts | temporary _ hparts => exact ⟨rfl, rfl, hparts⟩

end Address

inductive HandOut
  | frame (id : Nat)
  | temporary (number : Nat)
deriving DecidableEq

/-- What an operation does, with the numbers that it takes: it writes instructions, asks for constants and takes numbers
for new cells and paths. It writes only to given cells, to the cells that it took and to parts of these. -/
inductive Emission.Draws (P : Cell → Prop) (e : Emission) : List Nat → Emission → Prop
  | nil : Draws P e [] e
  | instr {numbers : List Nat} {e' : Emission} {i : Instr} : Draws P e numbers e' →
      (∀ c, i.target? = some c → ∃ base, c.PartOf base ∧ (P base ∨ ∃ number ∈ numbers, base = .temporary number)) →
        Draws P e numbers ((Emit.instr i).run e').2
  | constant {numbers : List Nat} {e' : Emission} (value : Int32) : Draws P e numbers e' →
      Draws P e numbers ((Emit.constant value).run e').2
  | fresh {numbers : List Nat} {e' : Emission} : Draws P e numbers e' →
      Draws P e (numbers ++ [(Emit.freshNumber.run e').1]) (Emit.freshNumber.run e').2

theorem Emission.Draws.numbers {P : Cell → Prop} {e e' : Emission} {numbers : List Nat} (h : Draws P e numbers e') :
    e.nextTemporary + numbers.length = e'.nextTemporary ∧ numbers = range' e.nextTemporary numbers.length := by
  induction h with
  | nil => exact ⟨rfl, rfl⟩
  | instr _ _ ih | constant _ _ ih => exact ih
  | @fresh numbers e' _ ih =>
    obtain ⟨hnext, hnumbers⟩ := ih
    refine ⟨?_, ?_⟩
    · rw [length_append, ← Nat.add_assoc, hnext]
      rfl
    · rw [length_append, length_singleton, range'_concat, ← hnumbers, Nat.one_mul, hnext]
      rfl

namespace CompilerState

open Compile

/-- What a compilation does at a time, with the numbers that it hands out. A frame has its number when it is open, and the
places of a plain function get theirs from the same counter. Operations take temporaries and write to these, to earlier
ones and to the places of variables. Frames are closed and changed without getting other numbers. All else leaves the
frames and the temporaries alone. -/
inductive Step : CompilerState → List HandOut → CompilerState → Prop
  | opening (s : CompilerState) (kind : ScopeKind) (scope : Span) :
      Step s [.frame (opened kind scope s).frames.top.id] (opened kind scope s)
  | number (s : CompilerState) : Step s [.frame s.frames.takeId.1] { s with frames := s.frames.takeId.2 }
  | emission (s : CompilerState) {e : Emission} {numbers : List Nat} :
      Emission.Draws (fun c => c.IsTemporary ∨ ∃ slot, s.Owns slot ∧ c.PartOf slot.cell)
        { nextTemporary := s.nextTemporary } numbers e → Step s (numbers.map .temporary) (absorb e s)
  | closing (s : CompilerState) : Step s [] { s with frames := s.frames.pop.2 }
  | change (s : CompilerState) (key : Nat) {change : Frame → Frame} :
      (∀ f : Frame, (change f).parent = f.parent) → (∀ f : Frame, (change f).id = f.id) →
        Step s [] { s with frames := s.frames.modify key change }
  | other {s s' : CompilerState} : s'.frames = s.frames → s'.nextTemporary = s.nextTemporary → Step s [] s'

/-- What a compilation does from one state to another, with all numbers that it hands out on the way, in turn. -/
inductive Journal (s : CompilerState) : List HandOut → CompilerState → Prop
  | nil : Journal s [] s
  | snoc {log numbers : List HandOut} {s' s'' : CompilerState} : Journal s log s' → Step s' numbers s'' →
      Journal s (log ++ numbers) s''

variable {s s' s'' : CompilerState} {log log' : List HandOut}

theorem Journal.trans (h : s.Journal log s') (h' : s'.Journal log' s'') : s.Journal (log ++ log') s'' := by
  induction h' with
  | nil => rwa [append_nil]
  | snoc _ hstep ih => exact append_assoc log _ _ ▸ ih.snoc hstep

theorem Journal.between {t t' : CompilerState} (h : t.Journal log t') (hframes : t.frames = s.frames)
    (htemporary : t.nextTemporary = s.nextTemporary) (hframes' : s'.frames = t'.frames)
    (htemporary' : s'.nextTemporary = t'.nextTemporary) : s.Journal log s' := by
  have hjournal := (nil.snoc (.other hframes htemporary)).trans (h.snoc (.other hframes' htemporary'))
  rwa [nil_append, append_nil] at hjournal

def Pending (s : CompilerState) : HandOut → Prop
  | .frame id => s.frames.nextId ≤ id
  | .temporary number => s.nextTemporary ≤ number

/-- Whether the numbers that are handed out between two states are those that were pending before and no longer are, each
once, and none is pending again. -/
structure Hands (s : CompilerState) (numbers : List HandOut) (s' : CompilerState) : Prop where
  nodup : numbers.Nodup
  mem_iff (n : HandOut) : n ∈ numbers ↔ s.Pending n ∧ ¬ s'.Pending n
  pending (n : HandOut) : s'.Pending n → s.Pending n

namespace Hands

theorem none (hid : s'.frames.nextId = s.frames.nextId) (htemporary : s'.nextTemporary = s.nextTemporary) :
    s.Hands [] s' := by
  have hsame : ∀ n, s'.Pending n ↔ s.Pending n := by
    rintro (id | number)
    · rw [Pending, Pending, hid]
    · rw [Pending, Pending, htemporary]
  exact ⟨nodup_nil, fun n => by simp [hsame n], fun n => (hsame n).mp⟩

theorem frame (hid : s'.frames.nextId = s.frames.nextId + 1) (htemporary : s'.nextTemporary = s.nextTemporary) :
    s.Hands [.frame s.frames.nextId] s' := by
  refine ⟨nodup_singleton _, ?_, ?_⟩
  · rintro (id | number)
    · simp only [mem_singleton, HandOut.frame.injEq, Pending, hid]
      omega
    · simp [Pending, htemporary]
  · rintro (id | number) hpending
    · rw [Pending, hid] at hpending
      exact Nat.le_of_succ_le hpending
    · rwa [Pending, htemporary] at hpending

theorem trans (h : s.Hands log s') (h' : s'.Hands log' s'') : s.Hands (log ++ log') s'' := by
  refine ⟨nodup_append.mpr ⟨h.nodup, h'.nodup, ?_⟩, fun n => ?_, fun n hn => h.pending n (h'.pending n hn)⟩
  · rintro n hn _ hn' rfl
    exact ((h.mem_iff n).mp hn).2 ((h'.mem_iff n).mp hn').1
  · rw [mem_append, h.mem_iff, h'.mem_iff]
    constructor
    · rintro (⟨hbefore, hafter⟩ | ⟨hbefore, hafter⟩)
      · exact ⟨hbefore, fun hlate => hafter (h'.pending n hlate)⟩
      · exact ⟨h.pending n hbefore, hafter⟩
    · rintro ⟨hbefore, hafter⟩
      by_cases hmiddle : s'.Pending n
      · exact .inr ⟨hmiddle, hafter⟩
      · exact .inl ⟨hbefore, hmiddle⟩

end Hands

end CompilerState

def Label.x : Label := .ofName (show Syntax.IsName "x" from ⟨by decide, all_eq_true.mp (by decide)⟩)

end Datapack
