import Datapack.Proofs.Storing

/-!
What it means to assign to a part of a value. Only that part changes: every part that does not include it and is not
inside it is the one that it was, stands for what it stood for, and no place but those of the new part is written.
-/

namespace Datapack

open List

theorem Selector.toNat_ne {a b : Int32} (ha : 0 ≤ a.toInt) (hb : 0 ≤ b.toInt) (hne : element a ≠ .element b) :
    a.toInt.toNat ≠ b.toInt.toNat := by
  intro h
  have heq : a.toInt = b.toInt := by omega
  exact hne (congrArg _ (Int32.toInt_inj.mp heq))

namespace Value

variable {v part old next : Value} {selector other : Selector} {path rest : List Selector} {slot : Slot}

theorem Selects.select (h : v.Selects selector part) : v.select selector = .ok part := by
  cases h with
  | field hget => simp only [Value.select, hget]
  | element hsign hget =>
    have hlt := (List.getElem?_eq_some_iff.mp hget).1
    simp only [Value.select, position?, hsign, hlt, and_self, if_true, getD_eq_getElem?_getD, hget,
      Option.getD_some]

theorem selectPath_cons (h : v.select selector = .ok next) (rest : List Selector) :
    v.selectPath (selector :: rest) = next.selectPath rest := by
  rw [selectPath, h]

theorem selectPath_append (v : Value) (before rest : List Selector) :
    v.selectPath (before ++ rest) = (v.selectPath before).bind (·.selectPath rest) := by
  induction before generalizing v with
  | nil => rfl
  | cons selector before ih =>
    rw [cons_append, selectPath, selectPath]
    cases v.select selector with
    | error fault => rfl
    | ok next => exact ih next

theorem select_graft (h : v.select selector = .ok next) (rest : List Selector) (part : Value) :
    (v.graft (selector :: rest) part).select selector = .ok (next.graft rest part) := by
  refine Selects.select ?_
  cases selects_of_select h with
  | field hget => exact .field (by rw [Ordered.get?_modify hget, if_pos rfl])
  | element hsign hget => exact .element hsign (by rw [getElem?_modify_eq, hget]; rfl)

theorem select_graft_of_ne (h : v.select selector = .ok next) (hne : other ≠ selector) (rest : List Selector)
    (part : Value) : (v.graft (selector :: rest) part).select other = v.select other := by
  cases selects_of_select h with
  | field hget =>
    cases other with
    | field name => simp only [graft, select, Ordered.get?_modify_eq, if_neg fun heq => hne (congrArg _ heq)]
    | element index => rfl
  | @element items old _ hsign hget =>
    cases other with
    | field name => rfl
    | element index =>
      simp only [graft, select, length_modify]
      split
      next position hposition =>
        have hbounds : 0 ≤ index.toInt := by
          rw [position?] at hposition
          split at hposition
          next hbounds => exact hbounds.1
          next => cases hposition
        cases position?_eq_some hposition
        rw [getD_eq_getElem?_getD, getD_eq_getElem?_getD,
          getElem?_modify_ne _ _ (Selector.toNat_ne hsign hbounds hne.symm)]
      next => rfl

/-- What is found inside and around a part that has been replaced. -/
theorem selectPath_graft {before : List Selector} (h : v.selectPath before = .ok old) (rest : List Selector)
    (part : Value) : (v.graft (before ++ rest) part).selectPath before = .ok (old.graft rest part) := by
  induction before generalizing v with
  | nil => exact Except.ok.inj h ▸ rfl
  | cons selector before ih =>
    obtain ⟨next, hnext, h⟩ := exists_of_selectPath_cons h
    exact (selectPath_cons (select_graft hnext _ part) before).trans (ih h)

theorem selectPath_graft_of_apart {other : List Selector} (h : v.selectPath path = .ok old) (hpath : ¬ path <+: other)
    (hother : ¬ other <+: path) (part : Value) : (v.graft path part).selectPath other = v.selectPath other := by
  induction path generalizing v other with
  | nil => exact absurd nil_prefix hpath
  | cons selector rest ih =>
    obtain ⟨next, hnext, hold⟩ := exists_of_selectPath_cons h
    cases other with
    | nil => exact absurd nil_prefix hother
    | cons first others =>
      by_cases heq : first = selector
      · subst heq
        rw [prefix_cons_inj] at hpath hother
        rw [selectPath_cons hnext, selectPath_cons (select_graft hnext rest part)]
        exact ih hold hpath hother
      · rw [selectPath, selectPath, select_graft_of_ne hnext heq]

theorem placedFields_modify {field : String} {f g : Value → Value}
    (h : ∀ v, (f v).placed (slot.member field) = g (v.placed (slot.member field))) (fields : List (String × Value)) :
    placedFields slot (Ordered.modify field f fields) = Ordered.modify field g (placedFields slot fields) := by
  induction fields with
  | nil => rfl
  | cons x rest ih =>
    obtain ⟨name, v⟩ := x
    rw [Ordered.modify, placedFields, Ordered.modify]
    split
    next heq =>
      subst heq
      rw [placedFields, h]
    next => rw [placedFields, ih]

theorem placed_graft (v : Value) (path : List Selector) (part : Value) (slot : Slot) :
    (v.graft path part).placed slot = (v.placed slot).graft path (part.placed (slot.along path)) := by
  fun_induction graft v path part generalizing slot with
  | case1 => rfl
  | case2 id name fields field rest part ih =>
    exact congrArg (Value.struct id name) (placedFields_modify (fun v => ih v (slot.member field)) fields)
  | case3 items index rest part ih =>
    rw [placed, placed, placedItems_eq_mapIdx, placedItems_eq_mapIdx, graft]
    refine congrArg Value.array (ext_getElem? fun i => ?_)
    simp only [getElem?_mapIdx, getElem?_modify, Nat.zero_add, Slot.along]
    cases items[i]? with
    | none => rfl
    | some v =>
      simp only [Option.map_some, Option.map_eq_map]
      split
      next heq => rw [ih, heq]
      next => rfl
  | case4 v selector rest part hfield helement =>
    cases v with
    | struct id name fields =>
      cases selector with
      | field name => exact absurd rfl (hfield _ _ _ _ rfl)
      | element => rfl
    | array items =>
      cases selector with
      | field => rfl
      | element index => exact absurd rfl (helement _ _ rfl)
    | _ => cases selector <;> rfl

def outline (v : Value) : Kind × List String × Nat :=
  (v.kind, match v with | .struct _ _ fields => fields.map Prod.fst | _ => [],
    match v with | .array items => items.length | _ => 0)

theorem outline_graft (v : Value) (selector : Selector) (rest : List Selector) (part : Value) :
    (v.graft (selector :: rest) part).outline = v.outline := by
  cases v with
  | struct id name fields =>
    cases selector with
    | field field => simp [graft, outline, kind, Ordered.keys_modify]
    | element => rfl
  | array items =>
    cases selector with
    | field => rfl
    | element index => simp [graft, outline, kind]
  | _ => cases selector <;> rfl

theorem WellNamed.select (h : v.WellNamed) (hnext : v.select selector = .ok next) : next.WellNamed := by
  cases selects_of_select hnext with
  | field hget =>
    cases h with
    | flat h => exact h.elim
    | struct _ _ hparts => exact hparts _ (Ordered.mem_of_get? hget)
  | element _ hget =>
    cases h with
    | flat h => exact h.elim
    | array hparts => exact hparts _ (mem_of_getElem? hget)

theorem WellNamed.apart_along {other : List Selector} (hv : v.WellNamed) (h : v.selectPath path = .ok old)
    (h' : v.selectPath other = .ok part) (hpath : ¬ path <+: other) (hother : ¬ other <+: path) :
    (slot.along other).Apart (slot.along path) := by
  have halong : ∀ (slot : Slot) selector rest, slot.along (selector :: rest) = (slot.along [selector]).along rest :=
    fun _ selector _ => by cases selector <;> rfl
  induction path generalizing v other slot with
  | nil => exact absurd nil_prefix hpath
  | cons selector rest ih =>
    cases other with
    | nil => exact absurd nil_prefix hother
    | cons first others =>
      obtain ⟨next, hnext, hold⟩ := exists_of_selectPath_cons h
      obtain ⟨next', hnext', hpart⟩ := exists_of_selectPath_cons h'
      rw [halong, halong slot selector]
      by_cases heq : first = selector
      · subst heq
        cases Except.ok.inj (hnext.symm.trans hnext')
        rw [prefix_cons_inj] at hpath hother
        exact ih (hv.select hnext) hold hpart hpath hother
      · refine Slot.Apart.mono ?_ (Slot.partOf_along _ _) (Slot.partOf_along _ _)
        cases selects_of_select hnext with
        | field hget =>
          cases selects_of_select hnext' with
          | field hget' =>
            cases hv with
            | flat hflat => exact hflat.elim
            | struct _ hdot _ =>
              exact .member slot (hdot _ (Ordered.mem_of_get? hget')) (hdot _ (Ordered.mem_of_get? hget))
                fun hname => heq (congrArg _ hname)
        | element hsign _ =>
          cases selects_of_select hnext' with
          | element hsign' _ => exact .element slot (Selector.toNat_ne hsign' hsign heq)

theorem leafAt_of_selectPath (h : v.selectPath path = .ok part) (hflat : part.IsFlat) :
    v.LeafAt slot part (slot.along path) := by
  induction path generalizing v slot with
  | nil => exact Except.ok.inj h ▸ .flat (Except.ok.inj h ▸ hflat)
  | cons selector rest ih =>
    obtain ⟨next, hnext, hpart⟩ := exists_of_selectPath_cons h
    cases selects_of_select hnext with
    | field hget => exact .field (Ordered.mem_of_get? hget) (ih hpart)
    | element _ hget => exact .item hget (ih hpart)

variable {World : Type} {engine : Engine World} {data : World → Path → String} {meets : Path → Path → Prop}
  {m : Machine World}

/-- What a value stands for on a machine: the type and the content of its part at the end of each path. -/
def reading (data : World → Path → String) (m : Machine World) (v : Value) (path : List Selector) :
    Except CompileFault (Kind × Option Content) :=
  (v.selectPath path).map fun part => (part.kind, part.content? data m)

variable (hengine : engine.Keeps data meets)

include hengine

theorem reading_placed (hmeets : ∀ p q, meets p q → p.Overlaps q) (hv : v.WellNamed)
    (hreads : (v.leavesAt slot).Pairwise fun earlier later => later.1.Avoids meets earlier.2) (path : List Selector) :
    (v.placed slot).reading data (engine.steps m (v.storing slot)) path = v.reading data m path := by
  rw [reading, reading, selectPath_placed]
  cases hpart : v.selectPath path with
  | error fault => rfl
  | ok part =>
    have hplaces := (hv.pairwise_leavesAt slot).imp fun {a b} h => avoids_placed hmeets h a.1
    have hcontent : (part.placed (slot.along path)).content? data (engine.steps m (v.storing slot)) =
        part.content? data m := by
      cases part with
      | struct _ _ _ | array _ => rfl
      | _ => exact content_moving hengine hplaces hreads (mem_leavesAt.mpr (leafAt_of_selectPath hpart trivial))
    simp only [Except.map, kind_placed, hcontent]

theorem reading_of_avoids {leaves : List (Value × Slot)}
    (h : ∀ part, v.selectPath path = .ok part → ∀ leaf ∈ leaves, part.Avoids meets leaf.2) :
    v.reading data (engine.steps m (moving leaves)) path = v.reading data m path := by
  rw [reading, reading]
  cases hpart : v.selectPath path with
  | error fault => rfl
  | ok part => simp only [Except.map, content_of_avoids hengine (h part hpart)]

end Value

namespace Compile

open Value

/-- The slot at which a new part of a value is stored: the one that is derived for it, or else a temporary one. -/
def partSlot (next : Nat) (path : List Selector) : Option Slot → Slot
  | some slot => slot.along path
  | none => ⟨.temporary next, .temporary (next + 1), true⟩

variable {env : Environment} {span : Span} {v w old : Value} {path : List Selector} {slot : Option Slot}
  {s : CompilerState}

theorem exists_yields_replace (env : Environment) (span : Span) (h : v.selectPath path = .ok old)
    (hstorable : ∀ leaf ∈ w.leavesAt (partSlot s.nextTemporary path slot), leaf.1.isStorable = true)
    (hkind : slot.isSome → old.kind.accepts w.kind = true) :
    ∃ part leaves s', (replace w span path v slot).Yields env s (v.graft path part) s' ∧
      s'.draft = s.draft.appendAll
        ((moving leaves).map fun i => { Node.leaf i with location := some s.location }) ∧
      (part = w.placed (partSlot s.nextTemporary path slot) ∧ leaves = w.leavesAt (partSlot s.nextTemporary path slot) ∨
        slot = none ∧ part = w ∧ leaves = []) := by
  have hstore := fun e => (adds_store w _).yields (e := e).mpr ⟨hstorable, rfl, rfl⟩
  cases slot with
  | some slot =>
    have hstored : (tryEmitting span (w.store (slot.along path))).Yields env s _ _ :=
      yields_tryEmitting.mpr ⟨_, hstore _, rfl⟩
    refine ⟨_, _, _, yields_replace.mpr ⟨old, _, h, rfl, hkind rfl, hstored⟩, ?_, .inl ⟨rfl, rfl⟩⟩
    rw [absorb_adding]
    rfl
  | none =>
    cases hborrows : w.borrows with
    | false =>
      have hdetach := yields_detach (e := { nextTemporary := s.nextTemporary }).mpr (.inl ⟨hborrows, rfl, rfl⟩)
      have hkept : (tryEmitting span w.detach).Yields env s _ _ := yields_tryEmitting.mpr ⟨_, hdetach, rfl⟩
      exact ⟨w, [], _, yields_replace.mpr ⟨old, w, h, rfl, hkept⟩, rfl, .inr ⟨rfl, rfl, rfl⟩⟩
    | true =>
      have hdetach := yields_detach (e := { nextTemporary := s.nextTemporary }).mpr (.inr ⟨hborrows, hstore _⟩)
      have hcopied : (tryEmitting span w.detach).Yields env s _ _ := yields_tryEmitting.mpr ⟨_, hdetach, rfl⟩
      refine ⟨_, _, _, yields_replace.mpr ⟨old, _, h, rfl, hcopied⟩, ?_, .inl ⟨rfl, rfl⟩⟩
      simp [absorb, Emission.adding, storing]

/-- Assigning to a part of a value fails if there is no such part, and then nothing is emitted. Otherwise the new part
stands for what the given value stood for. All other parts are those that they were and stand for the same, the values
around the new part keep their fields and lengths, and what was laid out at a slot still is. Only the place of the new
part is written. -/
theorem replace_changes_part (env : Environment) (span : Span) (v w : Value) (path : List Selector) (slot : Option Slot)
    (s : CompilerState) :
    (∀ fault, v.selectPath path = .error fault →
      fault.IsNoPart ∧ (replace w span path v slot env).run s = (.error ⟨fault, span⟩, s)) ∧
    (∀ old, v.selectPath path = .ok old → v.WellNamed → w.WellNamed →
      (∀ leaf ∈ w.leavesAt (partSlot s.nextTemporary path slot), leaf.1.isStorable = true) →
      (∀ place, slot = some place → v.placed place = v ∧ old.kind.accepts w.kind = true) →
      ∃ new s' instrs, (replace w span path v slot).Yields env s new s' ∧
        s'.draft = s.draft.appendAll (instrs.map fun i => { Node.leaf i with location := some s.location }) ∧
        (∀ place, slot = some place → new.placed place = new) ∧
        (∀ other, ¬ path <+: other → ¬ other <+: path → new.selectPath other = v.selectPath other) ∧
        (∀ before, before <+: path → before ≠ path →
          (new.selectPath before).map outline = (v.selectPath before).map outline) ∧
        ∀ {World : Type} (engine : Engine World) (data : World → Path → String) (meets : Path → Path → Prop),
          engine.Keeps data meets → (∀ p q, meets p q → p.Overlaps q) →
          (w.leavesAt (partSlot s.nextTemporary path slot)).Pairwise
            (fun earlier later => later.1.Avoids meets earlier.2) →
          (slot = none → ∀ other part, v.selectPath other = .ok part →
            ∀ leaf ∈ w.leavesAt (partSlot s.nextTemporary path slot), part.Avoids meets leaf.2) → ∀ m,
            (∀ rest, new.reading data (engine.steps m instrs) (path ++ rest) = w.reading data m rest) ∧
            (∀ other, ¬ path <+: other → ¬ other <+: path →
              new.reading data (engine.steps m instrs) other = v.reading data m other) ∧
            (∀ cell, ¬ cell.PartOf (partSlot s.nextTemporary path slot).cell →
              (engine.steps m instrs).cells cell = m.cells cell) ∧
            ∀ other, ¬ other.Overlaps (partSlot s.nextTemporary path slot).path →
              data (engine.steps m instrs).world other = data m.world other) := by
  refine ⟨fun fault h => ⟨isNoPart_of_selectPath h, by rw [replace_eq, h]; rfl⟩, ?_⟩
  intro old h hv hw hstorable hslot
  obtain ⟨part, leaves, s', hyields, hdraft, hpart⟩ := exists_yields_replace env span h hstorable
    fun hsome => (hslot _ (Option.some_get hsome).symm).2
  refine ⟨_, s', _, hyields, hdraft, ?_, ?_, ?_, ?_⟩
  · rintro place rfl
    obtain ⟨rfl, -⟩ | ⟨⟨⟩, -⟩ := hpart
    rw [placed_graft, (hslot place rfl).1]
    exact congrArg _ (placed_placed w _)
  · exact fun other hpath hother => selectPath_graft_of_apart h hpath hother part
  · rintro before ⟨rest, rfl⟩ hne
    rw [selectPath_append] at h
    cases hmiddle : v.selectPath before with
    | error fault =>
      rw [hmiddle] at h
      cases h
    | ok middle =>
      rw [selectPath_graft hmiddle]
      cases rest with
      | nil => exact absurd (append_nil before).symm hne
      | cons selector rest => exact congrArg Except.ok (outline_graft middle selector rest part)
  · intro World engine data meets hengine hmeets hreads hnone m
    have hplace : ∀ leaf ∈ leaves, leaf.2.PartOf (partSlot s.nextTemporary path slot) := by
      intro leaf hleaf
      obtain ⟨-, rfl⟩ | ⟨-, -, rfl⟩ := hpart
      · exact (mem_leavesAt.mp hleaf).partOf
      · cases hleaf
    refine ⟨fun rest => ?_, fun other hpath hother => ?_, fun cell hcell => ?_, fun other hother => ?_⟩
    · have hgraft : (v.graft path part).selectPath path = .ok part := by
        simpa [graft] using selectPath_graft h [] part
      rw [reading, selectPath_append, hgraft]
      obtain ⟨rfl, rfl⟩ | ⟨-, rfl, rfl⟩ := hpart
      · exact reading_placed hengine hmeets hw hreads rest
      · rfl
    · rw [reading, selectPath_graft_of_apart h hpath hother]
      refine reading_of_avoids hengine fun found hfound leaf hleaf => ?_
      cases slot with
      | none =>
        obtain ⟨-, rfl⟩ | ⟨-, -, rfl⟩ := hpart
        · exact hnone rfl other found hfound leaf hleaf
        · cases hleaf
      | some place =>
        have hat := selectPath_placed v place other
        rw [(hslot place rfl).1, hfound] at hat
        rw [Except.ok.inj hat]
        have hapart := (hv.apart_along h hfound hpath hother).mono (.refl _) (hplace leaf hleaf)
        exact avoids_placed hmeets hapart found
    · exact cells_moving fun leaf hleaf heq => hcell (heq ▸ (hplace leaf hleaf).1)
    · refine data_moving hengine fun leaf hleaf hmeet => hother ?_
      exact (hmeets _ _ hmeet).elim (fun hin => Or.inl (hin.trans (hplace leaf hleaf).2))
        (·.overlaps (hplace leaf hleaf).2)

def shelved : Value :=
  .struct 0 "Parcel" [("weight", .number (.dynamic ⟨".exp0_p.weight"⟩ false)),
    ("labels", .array [.string (.dynamic ⟨"0_p.labels.e0"⟩ false), .string (.dynamic ⟨"0_p.labels.e1"⟩ false)])]

theorem replace_changes_part_label : ∃ new s' instrs,
    (replace (.string (.dynamic ⟨"0_t"⟩ false)) ⟨0, 0⟩ [.field "labels", .element 1] shelved
      (some (.ofVariable 0 "p"))).Yields ⟨⟨"", ""⟩, {}, {}, []⟩ {} new s' ∧
    ∀ m : Machine (Path → String),
      new.reading id (Engine.notebook.steps m instrs) [.field "labels", .element 1] =
        .ok (.string, some (.text (m.world ⟨"0_t"⟩))) ∧
      new.reading id (Engine.notebook.steps m instrs) [.field "labels", .element 0] =
        .ok (.string, some (.text (m.world ⟨"0_p.labels.e0"⟩))) := by
  have hnamed : shelved.WellNamed := by
    refine .struct (by decide) (by decide) (forall_mem_cons.mpr ⟨.flat trivial, ?_⟩)
    refine forall_mem_singleton.mpr (.array (forall_mem_cons.mpr ⟨.flat trivial, ?_⟩))
    exact forall_mem_singleton.mpr (.flat trivial)
  obtain ⟨new, s', instrs, hyields, -, -, -, -, hrun⟩ := (replace_changes_part ⟨⟨"", ""⟩, {}, {}, []⟩ ⟨0, 0⟩ shelved
    (.string (.dynamic ⟨"0_t"⟩ false)) [.field "labels", .element 1] (some (.ofVariable 0 "p")) {}).2 _ rfl hnamed
    (.flat trivial) (by decide) (by rintro place ⟨⟩; exact ⟨rfl, rfl⟩)
  refine ⟨new, s', instrs, hyields, fun m => ?_⟩
  obtain ⟨hpart, hothers, -⟩ := hrun Engine.notebook id (· = ·) Engine.keeps_notebook
    (fun _ _ h => h ▸ Or.inl (.refl _)) (pairwise_singleton _ _) nofun m
  exact ⟨hpart [], hothers _ (by decide) (by decide)⟩

end Compile

end Datapack
