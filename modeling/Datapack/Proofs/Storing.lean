import Datapack.Proofs.Operators
import Datapack.Proofs.Parts

/-!
What is stored at a slot. If no value without parts is kept where one before it is to live, all of them are found
afterwards as they were, and nothing else has changed.
-/

namespace Datapack

open List

variable {v : Value} {slot : Slot} {c : Cell} {path : Path} {World : Type} {engine : Engine World}
  {data : World → Path → String} {meets : Path → Path → Prop}

/-- Whether an engine keeps structured data: what is stored or copied to a path is found there, and nothing is changed at
paths that do not meet it. -/
structure Engine.Keeps (engine : Engine World) (data : World → Path → String) (meets : Path → Path → Prop) : Prop where
  stored : ∀ path literal world, data (engine.storeData path literal world) path = literal
  copied : ∀ target source world, data (engine.copyData target source world) target = data world source
  storedElsewhere : ∀ path literal world other, ¬ meets other path →
    data (engine.storeData path literal world) other = data world other
  copiedElsewhere : ∀ target source world other, ¬ meets other target →
    data (engine.copyData target source world) other = data world other

inductive Content
  | word (value : Int32)
  | text (literal : String)
deriving Repr, DecidableEq

namespace Value

def word? (cells : Cell → Int32) : Value → Option Int32
  | .number (.static n) | .fixed (.static n) => some n
  | .bool (.static b) => some (Word.ofBool b)
  | .number (.dynamic cell _) | .fixed (.dynamic cell _) | .bool (.dynamic cell _) => some (cells cell)
  | _ => none

def content? (data : World → Path → String) (m : Machine World) : Value → Option Content
  | .string (.static text) => some (.text (textLiteral text))
  | .string (.dynamic path _) => some (.text (data m.world path))
  | value => (value.word? m.cells).map .word

def Avoids (meets : Path → Path → Prop) (slot : Slot) : Value → Prop
  | .number (.dynamic cell _) | .fixed (.dynamic cell _) | .bool (.dynamic cell _) => cell ≠ slot.cell
  | .string (.dynamic path _) => ¬ meets path slot.path
  | _ => True

section Moving

variable {m : Machine World}

theorem cells_movesTo (hc : c ≠ slot.cell) : (engine.steps m (v.movesTo slot)).cells c = m.cells c := by
  unfold movesTo
  split <;> try split
  all_goals simp [Engine.steps, Engine.step, Machine.put_cells, hc]

theorem word_movesTo : (v.placed slot).word? (engine.steps m (v.movesTo slot)).cells = v.word? m.cells := by
  cases v with
  | number d | fixed d | bool d =>
    cases d with
    | static => simp [movesTo, placed, word?, Engine.steps, Engine.step]
    | dynamic source _ =>
      by_cases h : source = slot.cell <;> simp [movesTo, placed, word?, Engine.steps, Engine.step, h]
  | _ => rfl

variable (hengine : engine.Keeps data meets)

include hengine

theorem data_movesTo (hpath : ¬ meets path slot.path) :
    data (engine.steps m (v.movesTo slot)).world path = data m.world path := by
  unfold movesTo
  split <;> try split
  all_goals
    simp [Engine.steps, Engine.step, hengine.storedElsewhere _ _ _ _ hpath, hengine.copiedElsewhere _ _ _ _ hpath]

theorem content_movesTo : (v.placed slot).content? data (engine.steps m (v.movesTo slot)) = v.content? data m := by
  have hword : ((v.placed slot).word? (engine.steps m (v.movesTo slot)).cells).map Content.word =
      (v.word? m.cells).map .word := congrArg _ word_movesTo
  cases v with
  | string d =>
    cases d with
    | static text => simp [movesTo, placed, content?, Engine.steps, Engine.step, hengine.stored]
    | dynamic source _ =>
      by_cases h : source = slot.path <;>
        simp [movesTo, placed, content?, Engine.steps, Engine.step, hengine.copied, h]
  | number | fixed | bool => exact hword
  | _ => rfl

end Moving

variable {leaves : List (Value × Slot)} {m : Machine World}

theorem cells_moving (hc : ∀ leaf ∈ leaves, c ≠ leaf.2.cell) :
    (engine.steps m (moving leaves)).cells c = m.cells c := by
  induction leaves generalizing m with
  | nil => rfl
  | cons leaf rest ih =>
    obtain ⟨hleaf, hrest⟩ := forall_mem_cons.mp hc
    rw [moving, flatMap_cons, Engine.steps_append]
    exact (ih hrest).trans (cells_movesTo hleaf)

section Keeping

variable (hengine : engine.Keeps data meets)

include hengine

theorem data_moving (hpath : ∀ leaf ∈ leaves, ¬ meets path leaf.2.path) :
    data (engine.steps m (moving leaves)).world path = data m.world path := by
  induction leaves generalizing m with
  | nil => rfl
  | cons leaf rest ih =>
    obtain ⟨hleaf, hrest⟩ := forall_mem_cons.mp hpath
    rw [moving, flatMap_cons, Engine.steps_append]
    exact (ih hrest).trans (data_movesTo hengine hleaf)

theorem content_of_avoids (h : ∀ leaf ∈ leaves, v.Avoids meets leaf.2) :
    v.content? data (engine.steps m (moving leaves)) = v.content? data m := by
  cases v with
  | number d | fixed d | bool d =>
    cases d with
    | static => rfl
    | dynamic cell _ => exact congrArg (fun w => some (Content.word w)) (cells_moving h)
  | string d =>
    cases d with
    | static => rfl
    | dynamic path _ => exact congrArg (fun text => some (Content.text text)) (data_moving hengine h)
  | _ => rfl

/-- Values arrive as they were if none is kept where one before it is to live, and no place is touched by a later one. -/
theorem content_moving (hplaces : leaves.Pairwise fun a b => (a.1.placed a.2).Avoids meets b.2)
    (hreads : leaves.Pairwise fun a b => b.1.Avoids meets a.2) {leaf : Value × Slot} (hleaf : leaf ∈ leaves) :
    (leaf.1.placed leaf.2).content? data (engine.steps m (moving leaves)) = leaf.1.content? data m := by
  induction leaves generalizing m with
  | nil => cases hleaf
  | cons first rest ih =>
    obtain ⟨hfirst, hplaces⟩ := pairwise_cons.mp hplaces
    obtain ⟨hread, hreads⟩ := pairwise_cons.mp hreads
    rw [moving, flatMap_cons, Engine.steps_append]
    cases mem_cons.mp hleaf with
    | inl heq =>
      subst heq
      exact (content_of_avoids hengine hfirst).trans (content_movesTo hengine)
    | inr hmem =>
      refine (ih hplaces hreads hmem).trans ?_
      have hkept := content_of_avoids (m := m) hengine (forall_mem_singleton.mpr (hread leaf hmem))
      rwa [moving, flatMap_singleton] at hkept

end Keeping

/-- Whether the fields of a value and of its parts have different names without dots, so that no two parts share a slot. -/
inductive WellNamed : Value → Prop
  | flat {w : Value} : w.IsFlat → WellNamed w
  | struct {id name fields} : (fields.map Prod.fst).Nodup → (∀ x ∈ fields, '.' ∉ x.1.toList) →
      (∀ x ∈ fields, WellNamed x.2) → WellNamed (.struct id name fields)
  | array {items} : (∀ v ∈ items, WellNamed v) → WellNamed (.array items)

theorem WellNamed.pairwise_leavesAt (h : v.WellNamed) (slot : Slot) :
    (v.leavesAt slot).Pairwise fun a b => a.2.Apart b.2 := by
  induction h generalizing slot with
  | flat h =>
    rw [leavesAt_of_isFlat h]
    exact pairwise_singleton _ _
  | struct hnodup hdot _ ih =>
    rw [leavesAt, fieldLeavesAt_eq_flatMap, pairwise_flatMap]
    refine ⟨fun x hx => ih x hx _, (pairwise_map.mp hnodup).imp_of_mem fun {x y} hx hy hne a ha b hb => ?_⟩
    exact (Slot.Apart.member slot (hdot x hx) (hdot y hy) hne).mono (mem_leavesAt.mp ha).partOf (mem_leavesAt.mp hb).partOf
  | array _ ih =>
    rename_i items _
    rw [leavesAt, itemLeavesAt_eq_flatMap, pairwise_flatMap]
    refine ⟨fun x hx => ih x.1 (mem_of_getElem? (mem_zipIdx_iff_getElem?.mp hx)) _, ?_⟩
    have hpositions : (items.zipIdx.map Prod.snd).Nodup := by
      rw [zipIdx_map_snd]
      exact nodup_range'
    refine (pairwise_map.mp hpositions).imp fun {x y} hne a ha b hb => ?_
    exact (Slot.Apart.element slot hne).mono (mem_leavesAt.mp ha).partOf (mem_leavesAt.mp hb).partOf

theorem avoids_placed (hmeets : ∀ p q, meets p q → p.Overlaps q) {place : Slot} (h : place.Apart slot) (v : Value) :
    (v.placed place).Avoids meets slot := by
  obtain ⟨hcell, hpath⟩ := h place slot (.refl _) (.refl _)
  cases v with
  | number | fixed | bool => exact hcell
  | string => exact fun hmeet => hpath (hmeets _ _ hmeet)
  | _ => trivial

theorem movesTo_placed (v : Value) (slot : Slot) : (v.placed slot).movesTo slot = [] := by
  cases v with
  | number | fixed | bool | string => exact if_pos rfl
  | _ => rfl

theorem isStorable_placed (v : Value) (slot : Slot) : (v.placed slot).isStorable = v.isStorable := by
  cases v <;> rfl

theorem storing_placed (v : Value) (slot : Slot) : (v.placed slot).storing slot = [] := by
  refine eq_nil_iff_forall_not_mem.mpr fun i hi => ?_
  obtain ⟨_, place, hleaf, hi⟩ := mem_storing.mp hi
  obtain ⟨old, -, rfl⟩ := hleaf.of_placed
  rw [movesTo_placed] at hi
  cases hi

/-- Storing fails for a value with a function or a struct type in it. Any other value is found at the slot afterwards:
its parts are those that it had, each at the slot that is derived for it, and storing it there again does nothing. If no
value without parts is kept where one before it is to live, all of them stand for what they stood for, and only the
places of these have changed. -/
theorem stores_faithfully (v : Value) (slot : Slot) :
    ((∃ leaf ∈ v.leavesAt slot, leaf.1.isStorable = false) → ∀ e, ∃ error e', (v.store slot).run e = (.error error, e')) ∧
    ((∀ leaf ∈ v.leavesAt slot, leaf.1.isStorable = true) → v.WellNamed →
      (v.placed slot).kind = v.kind ∧
      (∀ path, (v.placed slot).selectPath path = (v.selectPath path).map (placed (slot.along path))) ∧
      (∀ e, ((v.placed slot).store slot).Yields e (v.placed slot) e) ∧
      ∃ new, (∀ e, (v.store slot).Yields e (v.placed slot) (e.adding new)) ∧
        ∀ {World : Type} (engine : Engine World) (data : World → Path → String) (meets : Path → Path → Prop),
          engine.Keeps data meets → (∀ p q, meets p q → p.Overlaps q) →
          (v.leavesAt slot).Pairwise (fun earlier later => later.1.Avoids meets earlier.2) → ∀ m,
            (∀ leaf ∈ v.leavesAt slot,
              (leaf.1.placed leaf.2).content? data (engine.steps m new) = leaf.1.content? data m) ∧
            (∀ cell, (∀ leaf ∈ v.leavesAt slot, cell ≠ leaf.2.cell) → (engine.steps m new).cells cell = m.cells cell) ∧
            ∀ path, (∀ leaf ∈ v.leavesAt slot, ¬ meets path leaf.2.path) →
              data (engine.steps m new).world path = data m.world path) := by
  constructor
  · rintro ⟨leaf, hleaf, hnot⟩ e
    rcases hrun : (v.store slot).run e with ⟨outcome, e'⟩
    cases outcome with
    | error error => exact ⟨error, e', rfl⟩
    | ok stored =>
      have hall := ((adds_store v slot).yields.mp hrun).1 leaf hleaf
      rw [hnot] at hall
      cases hall
  intro hstorable hnamed
  refine ⟨kind_placed v slot, selectPath_placed v slot, fun e => ?_, v.storing slot,
    fun e => (adds_store v slot).yields.mpr ⟨hstorable, rfl, rfl⟩, ?_⟩
  · refine yields_store.mpr ⟨fun leaf place hleaf => ?_, (placed_placed v slot).symm, ?_⟩
    · obtain ⟨old, hold, rfl⟩ := hleaf.of_placed
      rw [isStorable_placed]
      exact hstorable (old, place) (mem_leavesAt.mpr hold)
    · rw [storing_placed, Emission.adding_nil]
  · intro World engine data meets hengine hmeets hreads m
    have hplaces := (hnamed.pairwise_leavesAt slot).imp fun {a b} h => avoids_placed hmeets h a.1
    exact ⟨fun _ => content_moving hengine hplaces hreads, fun _ => cells_moving, fun _ => data_moving hengine⟩

end Value

def Engine.notebook : Engine (Path → String) where
  storeData path literal world := Function.update world path literal
  copyData target source world := Function.update world target (world source)
  scoreToData _ _ _ _ world := world
  dataToScore _ _ _ := 0
  predicate _ _ := false
  setBlock _ _ world := world
  raw _ state := state

theorem Engine.keeps_notebook : notebook.Keeps id (· = ·) where
  stored _ _ _ := Function.update_self ..
  copied _ _ _ := Function.update_self ..
  storedElsewhere _ _ _ _ h := Function.update_of_ne h ..
  copiedElsewhere _ _ _ _ h := Function.update_of_ne h ..

theorem Engine.keeps_overlaps_notebook : notebook.Keeps id Path.Overlaps where
  stored := keeps_notebook.stored
  copied := keeps_notebook.copied
  storedElsewhere _ _ _ _ h := keeps_notebook.storedElsewhere _ _ _ _ fun heq => h (.inl (.inl heq))
  copiedElsewhere _ _ _ _ h := keeps_notebook.copiedElsewhere _ _ _ _ fun heq => h (.inl (.inl heq))

def Value.parcel : Value :=
  .struct 0 "Parcel" [("weight", .number (.static 7)),
    ("labels", .array [.string (.dynamic ⟨"0_t"⟩ false), .string (.dynamic ⟨"0_p.labels.e1"⟩ false)])]

theorem Value.stores_faithfully_parcel : parcel.WellNamed ∧
    ∃ new, (∀ e, (parcel.store (.ofVariable 0 "p")).Yields e (parcel.placed (.ofVariable 0 "p")) (e.adding new)) ∧
      ∀ m : Machine (Path → String), (Engine.notebook.steps m new).cells ⟨".exp0_p.weight"⟩ = 7 ∧
        (Engine.notebook.steps m new).world ⟨"0_p.labels.e0"⟩ = m.world ⟨"0_t"⟩ ∧
        (Engine.notebook.steps m new).world ⟨"0_p.labels.e1"⟩ = m.world ⟨"0_p.labels.e1"⟩ ∧
        (Engine.notebook.steps m new).world ⟨"0_t"⟩ = m.world ⟨"0_t"⟩ := by
  have hnamed : parcel.WellNamed := by
    refine .struct (by decide) (by decide) (List.forall_mem_cons.mpr ⟨.flat trivial, ?_⟩)
    refine List.forall_mem_singleton.mpr (.array (List.forall_mem_cons.mpr ⟨.flat trivial, ?_⟩))
    exact List.forall_mem_singleton.mpr (.flat trivial)
  have hleaves : parcel.leavesAt (.ofVariable 0 "p") =
      [(.number (.static 7), ⟨⟨".exp0_p.weight"⟩, ⟨"0_p.weight"⟩, false⟩),
        (.string (.dynamic ⟨"0_t"⟩ false), ⟨⟨".exp0_p.labels.e0"⟩, ⟨"0_p.labels.e0"⟩, false⟩),
        (.string (.dynamic ⟨"0_p.labels.e1"⟩ false), ⟨⟨".exp0_p.labels.e1"⟩, ⟨"0_p.labels.e1"⟩, false⟩)] := by
    rfl
  have htheorem := (stores_faithfully parcel (.ofVariable 0 "p")).2
  rw [hleaves] at htheorem
  obtain ⟨-, -, -, new, hstore, hrun⟩ := htheorem (by decide) hnamed
  refine ⟨hnamed, new, hstore, fun m => ?_⟩
  obtain ⟨hcontent, -, hdata⟩ := hrun Engine.notebook id (· = ·) Engine.keeps_notebook (fun _ _ h => h ▸ Or.inl (.refl _))
    (by simp [Avoids]) m
  simp only [List.forall_mem_cons] at hcontent
  obtain ⟨hweight, hfirst, hsecond, -⟩ := hcontent
  exact ⟨Content.word.inj (Option.some.inj hweight), Content.text.inj (Option.some.inj hfirst),
    Content.text.inj (Option.some.inj hsecond), hdata ⟨"0_t"⟩ (by decide)⟩

end Datapack
