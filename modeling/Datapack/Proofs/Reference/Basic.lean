import Datapack.Proofs.Closure
import Datapack.Proofs.Report.Parse

/-!
What values and instructions refer to. A cell belongs to a variable or to a temporary; a constant that is asked for is
among those to be filled; and no name holds a line feed, if those of the script and of the catalogue hold none.
-/

namespace Datapack

open Syntax

variable {a b name : String} {names : Prop} {slot : Slot} {i : Instr} {P Q : Instr → Prop} {nodes : List Node}

def OneLine (text : String) : Prop := '\n' ∉ text.toList

instance (text : String) : Decidable (OneLine text) := inferInstanceAs (Decidable (¬ _))

namespace OneLine

theorem append (ha : OneLine a) (hb : OneLine b) : OneLine (a ++ b) := by
  rw [OneLine, String.toList_append, List.mem_append]
  exact fun h => h.elim ha hb

theorem toString_nat (n : Nat) : OneLine (toString n) := fun h => absurd (Cell.isDigit_of_mem_toString h) (by decide)

theorem of_isName (h : IsName a) : OneLine a := fun hmem => absurd (h.2 _ hmem) (by decide)

end OneLine

def Clean (names : Prop) (text : String) : Prop := names → OneLine text

namespace Clean

theorem of (h : OneLine a) : Clean names a := fun _ => h

theorem append (ha : Clean names a) (hb : Clean names b) : Clean names (a ++ b) := fun hnames =>
  (ha hnames).append (hb hnames)

theorem toString (n : Nat) : Clean names (ToString.toString n) := of (.toString_nat n)

theorem isName (h : IsName a) : Clean names a := of (.of_isName h)

end Clean

structure Cell.Fit (names : Prop) (c : Cell) : Prop where
  clean : Clean names c.name
  owner : c.IsVariable ∨ ∃ k, c.PartOf (.temporary k)

structure Slot.Fit (names : Prop) (slot : Slot) : Prop where
  cell : slot.cell.Fit names
  path : Clean names slot.path.name

theorem Cell.fit_temporary (k : Nat) : (temporary k).Fit names :=
  ⟨.append (.of (by decide)) (.toString k), .inr ⟨k, .refl _⟩⟩

theorem Path.clean_temporary (k : Nat) : Clean names (temporary k).name :=
  .append (.of (by decide)) (.toString k)

namespace Slot.Fit

theorem of_part (h : slot.Fit names) {part : Slot} (hpart : part.PartOf slot) (hcell : Clean names part.cell.name)
    (hpath : Clean names part.path.name) : part.Fit names :=
  ⟨⟨hcell, h.cell.owner.imp (.of_partOf hpart.1) fun ⟨k, hk⟩ => ⟨k, hpart.1.trans hk⟩⟩, hpath⟩

theorem member (h : slot.Fit names) {field : String} (hfield : Clean names field) : (slot.member field).Fit names :=
  h.of_part (slot.partOf_member field) ((h.cell.clean.append (.of (by decide))).append hfield)
    ((h.path.append (.of (by decide))).append hfield)

theorem element (h : slot.Fit names) (index : Nat) : (slot.element index).Fit names :=
  h.of_part (slot.partOf_element index) ((h.cell.clean.append (.of (by decide))).append (.toString index))
    ((h.path.append (.of (by decide))).append (.toString index))

theorem ofVariable (frame : Nat) (hname : Clean names name) :
    (Slot.ofVariable frame name).Fit names where
  cell := by
    refine ⟨?_, .inl (Cell.isVariable_ofVariable frame name)⟩
    exact (((Clean.of (by decide)).append (.toString frame)).append (.of (by decide))).append hname
  path := ((Clean.toString frame).append (.of (by decide))).append hname

end Slot.Fit

namespace Value

mutual

/-- Whether the cells of a value belong to variables and temporaries, and the names of its paths and fields stay on one
line. -/
def Fit (names : Prop) : Value → Prop
  | .number d | .fixed d => d.Places fun c _ => c.Fit names
  | .bool d => d.Places fun c _ => c.Fit names
  | .string (.dynamic path _) => Clean names path.name
  | .struct _ _ fields => FieldsFit names fields
  | .array items => ItemsFit names items
  | .string (.static _) | .null | .structType _ _ | .builtin _ | .function _ => True

def FieldsFit (names : Prop) : List (String × Value) → Prop
  | [] => True
  | (name, value) :: rest => (Clean names name ∧ Fit names value) ∧ FieldsFit names rest

def ItemsFit (names : Prop) : List Value → Prop
  | [] => True
  | value :: rest => Fit names value ∧ ItemsFit names rest

end

variable {v : Value}

theorem fieldsFit_iff {fields : List (String × Value)} :
    FieldsFit names fields ↔ ∀ x ∈ fields, Clean names x.1 ∧ x.2.Fit names := by
  induction fields with
  | nil => simp [FieldsFit]
  | cons field rest ih => simp [FieldsFit, ih]

theorem itemsFit_iff {items : List Value} : ItemsFit names items ↔ ∀ x ∈ items, x.Fit names := by
  induction items with
  | nil => simp [ItemsFit]
  | cons item rest ih => simp [ItemsFit, ih]

theorem leafwise_fit : Leafwise (Clean names) (Fit names) := ⟨fieldsFit_iff, itemsFit_iff⟩

theorem fit_of_static (hflat : v.IsFlat) (hstatic : v.isStatic = true) : v.Fit names := by
  cases v with
  | number d | fixed d | bool d | string d =>
    cases d with
    | static _ => trivial
    | dynamic _ _ => cases hstatic
  | struct _ _ _ | array _ => cases hflat
  | _ => trivial

theorem Fit.mark (h : v.Fit names) (temporary : Bool) : (v.mark temporary).Fit names := by
  refine leafwise_fit.mark leafwise_fit (fun _ => id) (fun v hflat hv => ?_) h
  cases v with
  | number d | fixed d | bool d | string d =>
    cases d with
    | static _ => trivial
    | dynamic _ _ => exact hv
  | struct _ _ _ | array _ => exact hflat.elim
  | _ => trivial

end Value

theorem Kind.fit_atSlot? {kind : Kind} {value : Value} (hslot : slot.Fit names)
    (h : kind.atSlot? slot = some value) : value.Fit names := by
  cases kind <;> simp only [atSlot?, Option.some.injEq, reduceCtorEq] at h <;> subst h
  case number | fixed | bool => exact hslot.cell
  case string => exact hslot.path
  case null => trivial

def Condition.Fit (names : Prop) (c : Condition) : Prop :=
  match c.test with
  | .range cell _ _ => cell.Fit names
  | .compare a _ b => a.Fit names ∧ b.Fit names
  | .predicate name => Clean names name

/-- Whether an instruction refers to fit cells only, its texts stay on one line, unless it is a raw command, and a
constant that it looks at is among given ones. -/
def Instr.Fit (names : Prop) (known : List Int32) : Instr → Prop
  | .setScore cell _ | .addScore cell _ => cell.Fit names
  | .copyScore target source | .operate target _ source => target.Fit names ∧ source.Fit names
  | .operateConstant target _ value => target.Fit names ∧ value ∈ known
  | .storeCondition target conditions => target.Fit names ∧ ∀ c ∈ conditions, c.Fit names
  | .guarded conditions => ∀ c ∈ conditions, c.Fit names
  | .call routine => Clean names routine
  | .storeData target value => Clean names target.name ∧ Clean names value
  | .copyData target source => Clean names target.name ∧ Clean names source.name
  | .scoreToData target source _ _ => Clean names target.name ∧ source.Fit names
  | .dataToScore target source _ => target.Fit names ∧ Clean names source.name
  | .setBlock _ block => Clean names block
  | .tellraw _ | .raw _ => True

theorem Instr.Fit.mono {known known' : List Int32} (hknown : known ⊆ known') (h : i.Fit names known) :
    i.Fit names known' := by
  cases i with
  | operateConstant => exact And.imp_right (hknown ·) h
  | _ => exact h

namespace Node

mutual

def All (P : Instr → Prop) : Node → Prop
  | ⟨instr, children, _, _⟩ => P instr ∧ AllIn P children

def AllIn (P : Instr → Prop) : List Node → Prop
  | [] => True
  | node :: rest => All P node ∧ AllIn P rest

end

variable {others : List Node}

theorem allIn_iff : AllIn P nodes ↔ ∀ node ∈ nodes, node.All P := by
  induction nodes with
  | nil => simp [AllIn]
  | cons node rest ih => simp [AllIn, ih]

theorem allIn_append : AllIn P (nodes ++ others) ↔ AllIn P nodes ∧ AllIn P others := by
  simp only [allIn_iff, List.forall_mem_append]

theorem all_leaf (h : P i) (location : Option Span) : All P { leaf i with location } := ⟨h, trivial⟩

theorem AllIn.mono (h : ∀ i, P i → Q i) (hnodes : AllIn P nodes) : AllIn Q nodes := by
  induction nodes using forest_induction with
  | nil => exact hnodes
  | cons instr children location index rest ih ihRest => exact ⟨⟨h _ hnodes.1.1, ih hnodes.1.2⟩, ihRest hnodes.2⟩

theorem All.mono {node : Node} (h : ∀ i, P i → Q i) (hnode : node.All P) : node.All Q :=
  have hnodes : AllIn P [node] := ⟨hnode, trivial⟩
  (hnodes.mono h).1

theorem AllIn.unfolded {name? : Option String} {body : List Node} (h : AllIn P nodes)
    (hunfolded : Unfolded name? body nodes others) (hbody : AllIn P body) : AllIn P others := by
  induction hunfolded with
  | nil => exact h
  | call _ _ ihBody ihRest => exact allIn_append.mpr ⟨ihBody hbody trivial, ihRest h.2 hbody⟩
  | keep _ _ _ ih ihRest => exact ⟨⟨h.1.1, ih h.1.2 hbody⟩, ihRest h.2 hbody⟩

end Node

abbrev Draft.All (P : Instr → Prop) : Draft → Prop := Draft.Every (Node.All P)

variable {d : Draft}

theorem Draft.All.mono (h : ∀ i, P i → Q i) (hd : d.All P) : d.All Q :=
  Every.mono hd fun _ hnode => Node.All.mono h hnode

theorem Draft.All.finish {location : Option Span} (hd : d.All P)
    (hnodes : ∀ node ∈ nodes, node.All P) : (d.finish name nodes location).All P := by
  refine Every.finish hd (fun next node hnode => ?_) hnodes location
  have hnodes : Node.AllIn P [node] := ⟨hnode, trivial⟩
  exact (hnodes.unfolded (.numbered next [node]) trivial).1

end Datapack
