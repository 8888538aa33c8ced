import Datapack.Proofs.Trail
import Datapack.Scope.Analysis
import Mathlib.Data.List.Find

/-!
The walk that analyses names follows the events of a script. Its scopes are those that the script opens, and it only
ever adds to what it has found: what is noted at any point of the walk is still noted in the end.
-/

namespace Datapack

open List Ordered ScopeMap

variable {scopes : ScopeMap} {key other : Span} {name : String} {l : NameLedger} {ev : NameEvent}

structure DeclaredName.Extends (d d' : DeclaredName) : Prop where
  declaration : d'.declaration = d.declaration
  reads : d.reads ⊆ d'.reads
  writes : d.writes ⊆ d'.writes

theorem DeclaredName.Extends.refl (d : DeclaredName) : d.Extends d := ⟨rfl, fun _ => id, fun _ => id⟩

theorem DeclaredName.Extends.trans {a b c : DeclaredName} (hab : a.Extends b) (hbc : b.Extends c) : a.Extends c :=
  ⟨hbc.declaration.trans hab.declaration, fun _ h => hbc.reads (hab.reads h), fun _ h => hbc.writes (hab.writes h)⟩

def Nest.ofEntry (entry : Span × ScopeRecord) : Nest := ⟨entry.1, entry.2.kind, entry.2.inner⟩

namespace ScopeMap

def noted? (scopes : ScopeMap) (key : Span) (name : String) : Option DeclaredName :=
  (Ordered.get? key scopes).bind (·.name? name)

def Extends (scopes scopes' : ScopeMap) : Prop :=
  ∀ key name d, scopes.noted? key name = some d → ∃ d', scopes'.noted? key name = some d' ∧ d.Extends d'

def declares (scopes : ScopeMap) (name : String) (key : Span) : Bool :=
  match Ordered.get? key scopes with
  | some r => (r.name? name).isSome
  | none => false

def NotesRead (scopes : ScopeMap) (key : Span) (name : String) (access : Access) : Prop :=
  ∃ r d, Ordered.get? key scopes = some r ∧ r.name? name = some d ∧ access ∈ d.reads

def NotesWrite (scopes : ScopeMap) (key : Span) (name : String) (access : Access) : Prop :=
  ∃ r d, Ordered.get? key scopes = some r ∧ r.name? name = some d ∧ access ∈ d.writes

def NotesDeclaration (scopes : ScopeMap) (key : Span) (name : String) (access : Access) : Prop :=
  ∃ r d, Ordered.get? key scopes = some r ∧ r.name? name = some d ∧ d.declaration = access

variable {scopes' scopes'' : ScopeMap} {access : Access} {f : ScopeRecord → ScopeRecord}

theorem exists_noted_iff {P : DeclaredName → Prop} :
    (∃ r d, Ordered.get? key scopes = some r ∧ r.name? name = some d ∧ P d) ↔ ∃ d, scopes.noted? key name = some d ∧ P d := by
  simp only [noted?, Option.bind_eq_some_iff]
  constructor
  · rintro ⟨r, d, hr, hd, h⟩
    exact ⟨d, ⟨r, hr, hd⟩, h⟩
  · rintro ⟨d, ⟨r, hr, hd⟩, h⟩
    exact ⟨r, d, hr, hd, h⟩

theorem declares_eq (scopes : ScopeMap) (name : String) (key : Span) :
    scopes.declares name key = (scopes.noted? key name).isSome := by
  rw [declares, noted?]
  cases Ordered.get? key scopes <;> rfl

theorem Extends.refl (scopes : ScopeMap) : scopes.Extends scopes := fun _ _ d h => ⟨d, h, .refl d⟩

theorem Extends.trans (h : scopes.Extends scopes') (h' : scopes'.Extends scopes'') : scopes.Extends scopes'' := by
  intro key name d hd
  obtain ⟨d', hd', hfirst⟩ := h key name d hd
  obtain ⟨d'', hd'', hsecond⟩ := h' key name d' hd'
  exact ⟨d'', hd'', hfirst.trans hsecond⟩

theorem Extends.of_eq (h : ∀ key name, scopes'.noted? key name = scopes.noted? key name) : scopes.Extends scopes' :=
  fun key name d hd => ⟨d, (h key name).trans hd, .refl d⟩

theorem Extends.declares (h : scopes.Extends scopes') (hname : scopes.declares name key = true) :
    scopes'.declares name key = true := by
  rw [declares_eq] at hname ⊢
  obtain ⟨d, hd⟩ := Option.isSome_iff_exists.mp hname
  obtain ⟨d', hd', -⟩ := h key name d hd
  rw [hd']
  rfl

theorem exists_noted_mono {P : DeclaredName → Prop} (hP : ∀ d d' : DeclaredName, d.Extends d' → P d → P d')
    (hgrows : scopes.Extends scopes') (h : ∃ r d, Ordered.get? key scopes = some r ∧ r.name? name = some d ∧ P d) :
    ∃ r d, Ordered.get? key scopes' = some r ∧ r.name? name = some d ∧ P d := by
  obtain ⟨d, hd, hnoted⟩ := exists_noted_iff.mp h
  obtain ⟨d', hd', hmore⟩ := hgrows key name d hd
  exact exists_noted_iff.mpr ⟨d', hd', hP d d' hmore hnoted⟩

theorem NotesRead.mono (h : scopes.NotesRead key name access) (hgrows : scopes.Extends scopes') :
    scopes'.NotesRead key name access := exists_noted_mono (fun _ _ hmore haccess => hmore.reads haccess) hgrows h

theorem NotesWrite.mono (h : scopes.NotesWrite key name access) (hgrows : scopes.Extends scopes') :
    scopes'.NotesWrite key name access := exists_noted_mono (fun _ _ hmore haccess => hmore.writes haccess) hgrows h

theorem NotesDeclaration.mono (h : scopes.NotesDeclaration key name access) (hgrows : scopes.Extends scopes') :
    scopes'.NotesDeclaration key name access :=
  exists_noted_mono (fun _ _ hmore haccess => hmore.declaration.trans haccess) hgrows h

def outline (scopes : ScopeMap) : List Nest := scopes.map Nest.ofEntry

theorem keys_outline (scopes : ScopeMap) : scopes.outline.map Nest.key = scopes.map Prod.fst := map_map

theorem mem_outline {r : ScopeRecord} (h : Ordered.get? key scopes = some r) : ⟨key, r.kind, r.inner⟩ ∈ scopes.outline :=
  mem_map.mpr ⟨(key, r), mem_of_get? h, rfl⟩

theorem outline_modify (key : Span) (hf : ∀ r, (f r).kind = r.kind ∧ (f r).inner = r.inner) (scopes : ScopeMap) :
    outline (Ordered.modify key f scopes) = outline scopes := by
  induction scopes with
  | nil => rfl
  | cons entry rest ih =>
    rw [Ordered.modify]
    split
    · simp [outline, Nest.ofEntry, hf]
    · exact congrArg (Nest.ofEntry entry :: ·) ih

theorem outline_modify_inner (h : (scopes.map Prod.fst).Nodup) (key added : Span) :
    outline (Ordered.modify key (fun r => { r with inner := r.inner ++ [added] }) scopes) =
      scopes.outline.map (Nest.grown [key] [added]) := by
  rw [modify_eq_map h, outline, outline, map_map, map_map]
  refine map_congr_left fun entry _ => ?_
  by_cases heq : entry.1 = key <;> simp [Nest.grown, Nest.ofEntry, heq]

theorem noted?_modify (key : Span) (f : ScopeRecord → ScopeRecord) (scopes : ScopeMap) (other : Span) (name : String) :
    noted? (Ordered.modify key f scopes) other name =
      if other = key then (Ordered.get? other scopes).bind fun r => (f r).name? name else scopes.noted? other name := by
  rw [noted?, get?_modify_eq]
  split
  · rw [Option.bind_map]
    rfl
  · rfl

end ScopeMap

namespace FrameShape

def owner? (name : String) (shape : List FrameShape) : Option Span :=
  (shape.find? (·.names.contains name)).map (·.scope)

def current (shape : List FrameShape) : Span := (shape.map (·.scope)).headD .zero

theorem owner?_eq_some_iff {shape : List FrameShape} : owner? name shape = some key ↔
    ∃ inner f outer, shape = inner ++ f :: outer ∧ f.scope = key ∧ name ∈ f.names ∧ ∀ g ∈ inner, name ∉ g.names := by
  simp only [owner?, Option.map_eq_some_iff, find?_eq_some_iff_append, contains_iff_mem, Bool.not_eq_true']
  constructor
  · rintro ⟨f, ⟨hname, inner, outer, rfl, hinner⟩, rfl⟩
    exact ⟨inner, f, outer, rfl, rfl, hname, fun g hg => by simpa using hinner g hg⟩
  · rintro ⟨inner, f, outer, rfl, rfl, hname, hinner⟩
    exact ⟨f, ⟨hname, inner, outer, rfl, fun g hg => by simpa using hinner g hg⟩, rfl⟩

theorem isSome_owner? (name : String) (shape : List FrameShape) : (owner? name shape).isSome = anyBinds name shape := by
  rw [owner?, Option.isSome_map, isSome_find?]
  rfl

end FrameShape

namespace NameLedger

variable {t : Trail} {site : Span} {constant : Bool} {f : DeclaredName → DeclaredName} {kind : ScopeKind}

theorem declaring?_eq (l : NameLedger) (name : String) : l.declaring? name = l.opened.find? (l.scopes.declares name) := rfl

theorem find?_updateFirst (hf : ∀ d, (f d).name = d.name) (other : String) (names : List DeclaredName) :
    (updateFirst name f names).find? (·.name == other) =
      if other = name then (names.find? (·.name == other)).map f else names.find? (·.name == other) := by
  induction names with
  | nil => simp [updateFirst]
  | cons d rest ih =>
    rw [updateFirst]
    by_cases hname : d.name = name
    · rw [if_pos hname]
      by_cases hother : other = name
      · simp [hf, hname, hother]
      · simp [hf, hname, Ne.symm hother, hother]
    · rw [if_neg hname]
      by_cases hother : other = name
      · simp only [hother, if_pos] at ih ⊢
        simp [hname, ih]
      · simp only [if_neg hother] at ih ⊢
        simp [find?_cons, ih]

theorem noted?_update (hf : ∀ d, (f d).name = d.name) (l : NameLedger) (key other : Span) (name called : String) :
    (l.update key name f).scopes.noted? other called =
      if other = key ∧ called = name then (l.scopes.noted? other called).map f else l.scopes.noted? other called := by
  have hname : ∀ r : ScopeRecord, ScopeRecord.name? { r with names := updateFirst name f r.names } called =
      if called = name then (r.name? called).map f else r.name? called := fun r => find?_updateFirst hf called r.names
  rw [update, noted?_modify, ScopeMap.noted?]
  by_cases hkey : other = key
  · cases Ordered.get? other l.scopes with
    | none => simp [hkey]
    | some r =>
      simp only [hkey, true_and, if_true, Option.bind_some]
      exact hname r
  · simp [hkey]

theorem noted?_declare (l : NameLedger) (name : String) (site : Span) (constant : Bool) (other : Span) (called : String) :
    (l.declare name site constant).scopes.noted? other called = (l.scopes.noted? other called).or
      (if other = l.current ∧ called = name ∧ other ∈ l.scopes.map Prod.fst then
        some { name, declaration := ⟨site, l.current⟩, constant } else none) := by
  rw [declare, noted?_modify, ScopeMap.noted?]
  by_cases hkey : other = l.current
  · cases hget : Ordered.get? other l.scopes with
    | none =>
      rw [get?_eq_none_iff] at hget
      simp [hget]
    | some r =>
      have hmem : other ∈ l.scopes.map Prod.fst := mem_map_of_mem (mem_of_get? hget)
      simp only [hkey, if_pos, Option.bind_some, ScopeRecord.name?, find?_append, find?_singleton]
      by_cases hcalled : called = name
      · simp [hcalled, ← hkey, hmem]
      · simp [hcalled, Ne.symm hcalled]
  · simp [hkey]

def told (key : Span) (opened : List Span) (scopes : ScopeMap) : ScopeMap :=
  opened.foldr (fun outer scopes => Ordered.modify outer (fun r => { r with inner := r.inner ++ [key] }) scopes) scopes

theorem keys_told (key : Span) (opened : List Span) (scopes : ScopeMap) :
    (told key opened scopes).map Prod.fst = scopes.map Prod.fst := by
  induction opened with
  | nil => rfl
  | cons outer rest ih => exact (keys_modify ..).trans ih

theorem noted?_told (key : Span) (opened : List Span) (scopes : ScopeMap) (other : Span) (name : String) :
    (told key opened scopes).noted? other name = scopes.noted? other name := by
  induction opened with
  | nil => rfl
  | cons outer rest ih =>
    change ScopeMap.noted? (Ordered.modify outer _ (told key rest scopes)) other name = _
    rw [noted?_modify, ← ih]
    split <;> rfl

theorem outline_told (key : Span) {opened : List Span} (hopened : opened.Nodup)
    (hscopes : (scopes.map Prod.fst).Nodup) :
    (told key opened scopes).outline = scopes.outline.map (Nest.grown opened [key]) := by
  induction opened with
  | nil => exact ((map_congr_left fun nest _ => rfl).trans (map_id _)).symm
  | cons outer rest ih =>
    obtain ⟨hnot, hrest⟩ := nodup_cons.mp hopened
    change ScopeMap.outline (Ordered.modify outer _ (told key rest scopes)) = _
    rw [outline_modify_inner (by rwa [keys_told]), ih hrest, map_map]
    refine map_congr_left fun nest _ => ?_
    by_cases heq : nest.key = outer
    · simp [Nest.grown, heq, hnot]
    · by_cases hopen : nest.key ∈ rest <;> simp [Nest.grown, heq, hopen]

theorem scopes_enter (hkey : key ∉ l.scopes.map Prod.fst) :
    (l.enter key kind).scopes = told key l.opened l.scopes ++ [(key, { kind := kind })] := by
  have hnone : Ordered.get? key (told key l.opened l.scopes) = none := by
    rwa [get?_eq_none_iff, keys_told]
  exact put_of_none hnone _

theorem noted?_enter (hkey : key ∉ l.scopes.map Prod.fst) (other : Span) (name : String) :
    (l.enter key kind).scopes.noted? other name = l.scopes.noted? other name := by
  have hput : (l.enter key kind).scopes = Ordered.put key { kind } (told key l.opened l.scopes) := rfl
  rw [hput, ← noted?_told key l.opened l.scopes, ScopeMap.noted?, get?_put]
  split
  next heq =>
    rw [← keys_told key l.opened, ← get?_eq_none_iff] at hkey
    rw [ScopeMap.noted?, heq, hkey]
    rfl
  · rfl

def step (l : NameLedger) : NameEvent → NameLedger
  | .enter key kind => l.enter key kind
  | .leave => l.leave
  | .declare name site => l.declare name site false
  | .assign name site => l.write name site false
  | .define name site constant => l.write name site constant
  | .part name site => l.writeExisting name site
  | .read name site => l.read name site

def run (events : List NameEvent) (l : NameLedger) : NameLedger := events.foldl step l

theorem run_append (events more : List NameEvent) (l : NameLedger) : l.run (events ++ more) = (l.run events).run more :=
  foldl_append

theorem extends_update (hf : ∀ d, (f d).name = d.name) (hmore : ∀ d : DeclaredName, d.Extends (f d)) :
    l.scopes.Extends (l.update key name f).scopes := by
  intro other called d hd
  rw [noted?_update hf, hd]
  split
  · exact ⟨f d, rfl, hmore d⟩
  · exact ⟨d, rfl, .refl d⟩

theorem extends_declare : l.scopes.Extends (l.declare name site constant).scopes :=
  fun other called d hd => ⟨d, by rw [noted?_declare, hd]; rfl, .refl d⟩

theorem extends_noteWrite : l.scopes.Extends (l.noteWrite key name site).scopes :=
  extends_update (fun _ => rfl) fun _ => ⟨rfl, fun _ => id, subset_append_left _ _⟩

theorem extends_step (hkey : ∀ key ∈ ev.key?, key ∉ l.scopes.map Prod.fst) : l.scopes.Extends (l.step ev).scopes := by
  cases ev with
  | enter key kind => exact .of_eq fun other name => noted?_enter (hkey key rfl) other name
  | leave => exact .refl _
  | declare => exact extends_declare
  | assign | define =>
    rw [step, write]
    split
    · exact extends_noteWrite
    · exact extends_declare
  | part =>
    rw [step, writeExisting]
    split
    · exact extends_noteWrite
    · exact .refl _
  | read =>
    rw [step, read]
    split
    · exact extends_update (fun _ => rfl) fun _ => ⟨rfl, subset_append_left _ _, fun _ => id⟩
    · split <;> exact .refl _

/-- Whether a walk has come to a point of a script: the same scopes are open in it, with the same names. -/
structure Follows (l : NameLedger) (t : Trail) : Prop where
  opened : l.opened = t.scopes
  outline : l.scopes.outline = t.nests
  names : ∀ f ∈ t.opened, ∀ name, (l.scopes.noted? f.scope name).isSome = f.names.contains name

namespace Follows

section

variable (h : l.Follows t)

include h

theorem keys : l.scopes.map Prod.fst = t.keys := by
  rw [← keys_outline, h.outline]
  rfl

theorem current : l.current = FrameShape.current t.opened := by
  rw [NameLedger.current, h.opened]
  rfl

theorem declaring? (name : String) : l.declaring? name = FrameShape.owner? name t.opened := by
  rw [declaring?_eq, h.opened, Trail.scopes, find?_map, FrameShape.owner?]
  refine congrArg _ (find?_congr fun f hf => ?_)
  exact (declares_eq ..).trans (h.names f hf name)

theorem update (hf : ∀ d, (f d).name = d.name) : (l.update key name f).Follows t := by
  refine ⟨h.opened, (outline_modify _ (by simp) _).trans h.outline, fun g hg called => ?_⟩
  rw [noted?_update hf, ← h.names g hg]
  split <;> simp

section

variable (ht : t.Sound)

include ht

theorem declare : (l.declare name site constant).Follows ⟨FrameShape.bind name t.opened, t.nests⟩ := by
  refine ⟨h.opened.trans (FrameShape.scopes_bind name t.opened).symm,
    (outline_modify _ (by simp) _).trans h.outline, ?_⟩
  have hcurrent := h.current
  obtain ⟨opened, nests⟩ := t
  cases opened with
  | nil => exact nofun
  | cons g rest =>
    have hnot : g.scope ∉ rest.map (·.scope) := (nodup_cons.mp ht.stacked.distinct).1
    have hcurrent : l.current = g.scope := hcurrent
    refine forall_mem_cons.mpr ⟨fun called => ?_, fun other hother called => ?_⟩
    · have hknown : g.scope ∈ l.scopes.map Prod.fst :=
        h.keys ▸ ht.stacked.mem_keys _ (mem_map_of_mem (.head _))
      rw [noted?_declare, Option.isSome_or, h.names g mem_cons_self, contains_append]
      by_cases hcalled : called = name <;> simp [hcurrent, hcalled, hknown]
    · have hne : other.scope ≠ g.scope := fun heq => hnot (heq ▸ mem_map_of_mem hother)
      rw [noted?_declare, if_neg (by simp [hcurrent, hne]), Option.or_none]
      exact h.names other (.tail _ hother) called

theorem write : (l.write name site constant).Follows ⟨FrameShape.assign name t.opened, t.nests⟩ := by
  have hsome := FrameShape.isSome_owner? name t.opened
  rw [NameLedger.write, h.declaring?, FrameShape.assign, ← hsome]
  cases FrameShape.owner? name t.opened with
  | some key => exact h.update fun _ => rfl
  | none => exact h.declare ht

theorem enter (hkey : key ∉ t.keys) : (l.enter key kind).Follows (t.step (.enter key kind)) := by
  have hnew : key ∉ l.scopes.map Prod.fst := h.keys ▸ hkey
  refine ⟨congrArg (key :: ·) h.opened, ?_, forall_mem_cons.mpr ⟨fun name => ?_, fun f hf name => ?_⟩⟩
  · rw [scopes_enter hnew, ScopeMap.outline, map_append]
    refine congrArg (· ++ _) ((outline_told key ?_ ?_).trans ?_)
    · exact h.opened ▸ ht.stacked.distinct
    · exact h.keys ▸ ht.distinct
    · rw [h.outline, h.opened]
  · rw [noted?_enter hnew, ScopeMap.noted?, get?_eq_none_iff.mpr hnew]
    rfl
  · rw [noted?_enter hnew]
    exact h.names f hf name

theorem step (hkey : ∀ key ∈ ev.key?, key ∉ t.keys) : (l.step ev).Follows (t.step ev) := by
  cases ev with
  | enter key kind => exact h.enter ht (hkey key rfl)
  | leave =>
    refine ⟨?_, h.outline, fun f hf => h.names f (mem_of_mem_tail hf)⟩
    exact (congrArg List.tail h.opened).trans map_tail.symm
  | declare name site => exact h.declare ht
  | assign name site | define name site constant => exact h.write ht
  | part name site =>
    rw [NameLedger.step, writeExisting]
    split
    · exact h.update fun _ => rfl
    · exact ⟨h.opened, h.outline, h.names⟩
  | read name site =>
    rw [NameLedger.step, NameLedger.read]
    split
    · exact h.update fun _ => rfl
    · split
      · exact h
      · exact ⟨h.opened, h.outline, h.names⟩

theorem run {events : List NameEvent} (hfresh : t.Fresh events) :
    (l.run events).Follows (t.run events) ∧ l.scopes.Extends (l.run events).scopes := by
  induction events generalizing l t with
  | nil => exact ⟨h, .refl _⟩
  | cons ev rest ih =>
    have hkey := hfresh.head
    obtain ⟨hrest, hextends⟩ := ih (h.step ht hkey) (ht.step hkey) hfresh.tail
    exact ⟨hrest, (extends_step (h.keys ▸ hkey)).trans hextends⟩

end

end

end Follows

theorem notes_update (hf : ∀ d, (f d).name = d.name) (h : l.declaring? name = some key) :
    ∃ d, (l.update key name f).scopes.noted? key name = some (f d) := by
  have hdeclares := find?_some h
  obtain ⟨d, hd⟩ := Option.isSome_iff_exists.mp ((declares_eq ..).symm.trans hdeclares)
  exact ⟨d, by rw [noted?_update hf, if_pos ⟨rfl, rfl⟩, hd]; rfl⟩

theorem notesWrite_noteWrite (h : l.declaring? name = some key) :
    (l.noteWrite key name site).scopes.NotesWrite key name ⟨site, l.current⟩ := by
  obtain ⟨d, hd⟩ := notes_update (f := fun d => { d with writes := d.writes ++ [⟨site, l.current⟩] }) (fun _ => rfl) h
  exact exists_noted_iff.mpr ⟨_, hd, mem_append_right _ (.head _)⟩

theorem notesWrite_step (hev : ev.write? = some (name, site)) (h : l.declaring? name = some key) :
    (l.step ev).scopes.NotesWrite key name ⟨site, l.current⟩ := by
  cases ev with
  | assign | define =>
    obtain ⟨rfl, rfl⟩ := Prod.mk.inj (Option.some.inj hev)
    rw [step, write, h]
    exact notesWrite_noteWrite h
  | part =>
    obtain ⟨rfl, rfl⟩ := Prod.mk.inj (Option.some.inj hev)
    rw [step, writeExisting, h]
    exact notesWrite_noteWrite h
  | enter | leave | declare | read => cases hev

theorem notesRead_step (h : l.declaring? name = some key) :
    (l.step (.read name site)).scopes.NotesRead key name ⟨site, l.current⟩ := by
  rw [step, read, h]
  obtain ⟨d, hd⟩ := notes_update (f := fun d => { d with reads := d.reads ++ [⟨site, l.current⟩] }) (fun _ => rfl) h
  exact exists_noted_iff.mpr ⟨_, hd, mem_append_right _ (.head _)⟩

theorem notesDeclaration_step (hcurrent : l.current ∈ l.opened) (hknown : l.current ∈ l.scopes.map Prod.fst)
    (h : l.declaring? name = none) :
    (l.step (.assign name site)).scopes.NotesDeclaration l.current name ⟨site, l.current⟩ := by
  have hnot := find?_eq_none.mp h l.current hcurrent
  have hnone : l.scopes.noted? l.current name = none := by
    have hdeclares := declares_eq l.scopes name l.current
    rw [← Option.not_isSome_iff_eq_none, ← hdeclares]
    exact hnot
  rw [step, write, h]
  refine exists_noted_iff.mpr ⟨{ name, declaration := ⟨site, l.current⟩, constant := false }, ?_, rfl⟩
  rw [noted?_declare, hnone, if_pos ⟨rfl, rfl, hknown⟩]
  rfl

end NameLedger

def NameWalk.after (walk : NameWalk Unit) (l : NameLedger) : NameLedger := (walk.run l).2

@[simp] theorem NameWalk.after_bind (walk : NameWalk Unit) (next : Unit → NameWalk Unit) :
    (walk >>= next).after l = (next ()).after (walk.after l) := rfl

open NameLedger NameWalk Syntax

theorem walkExpr_call {callee : Expr} (args : List Expr) (span : Span)
    (h : ∀ name site member memberSpan, callee ≠ .member (.var name site) member memberSpan) :
    walkExpr (.call callee args span) = (do
      walkExprs args
      walkExpr callee) := by
  rw [walkExpr]
  exact h

mutual

theorem after_walkExpr (l : NameLedger) : ∀ e : Expr, (walkExpr e).after l = l.run e.events
  | .int _ _ | .decimal _ _ | .string _ _ | .bool _ _ | .null _ | .var _ _ => by
    rw [walkExpr, Expr.events]
    rfl
  | .unary _ operand _ | .member operand _ _ => by
    rw [walkExpr, Expr.events]
    exact after_walkExpr l operand
  | .binary left _ right _ | .index left right _ => by
    rw [walkExpr, Expr.events, after_bind, after_walkExpr l left, run_append]
    exact after_walkExpr _ right
  | .call callee args span => by
    by_cases hmember : ∃ name site member memberSpan, callee = .member (.var name site) member memberSpan
    · obtain ⟨name, site, member, memberSpan, rfl⟩ := hmember
      rw [walkExpr, Expr.events, after_bind, after_walkExprs l args, run_append]
      split <;> rfl
    · have hmember' : ∀ name site member memberSpan, callee ≠ .member (.var name site) member memberSpan :=
        fun name site member memberSpan heq => hmember ⟨name, site, member, memberSpan, heq⟩
      rw [walkExpr_call args span hmember', Expr.events_call args span hmember', after_bind, after_walkExprs l args,
        run_append]
      exact after_walkExpr _ callee
  | .array items _ => by
    rw [walkExpr, Expr.events]
    exact after_walkExprs l items

theorem after_walkExprs (l : NameLedger) : ∀ es : List Expr, (walkExprs es).after l = l.run (Expr.allEvents es)
  | [] => by
    rw [walkExprs, Expr.allEvents]
    rfl
  | e :: rest => by
    rw [walkExprs, Expr.allEvents, after_bind, after_walkExpr l e, run_append]
    exact after_walkExprs _ rest

end

theorem after_walkDefaults (l : NameLedger) (params : List Param) :
    (walkDefaults params).after l = l.run (Expr.allEvents (params.filterMap (·.default?))) := by
  induction params generalizing l with
  | nil => rfl
  | cons param rest ih =>
    rw [walkDefaults]
    cases hdefault : param.default? with
    | none =>
      rw [filterMap_cons_none hdefault]
      exact ih l
    | some value =>
      rw [filterMap_cons_some hdefault, Expr.allEvents, run_append, ← after_walkExpr]
      exact ih _

theorem after_declareParams (l : NameLedger) (receiver : Option Span) (params : List Param) :
    (declareParams receiver params).after l = l.run (boundEvents receiver params) := by
  rw [boundEvents, run_append, NameLedger.run, foldl_map]
  cases receiver <;> rfl

theorem after_walkAssign (l : NameLedger) (target : Target) (span : Span) : (walkAssign target span).after l =
    l.run (target.events (if target.isPlain then .assign target.var span else .part target.var span)) := by
  cases target with
  | path var members => cases members <;> rfl
  | element var index =>
    rw [Target.events, run_append, ← after_walkExpr]
    rfl

theorem after_walkUpdate (l : NameLedger) (target : Target) (span : Span) :
    (walkUpdate target span).after l = l.run (target.events (.part target.var span)) := by
  cases target with
  | path var members => rfl
  | element var index =>
    rw [Target.events, run_append, ← after_walkExpr]
    rfl

theorem run_within (l : NameLedger) (key : Span) (kind : ScopeKind) (events : List NameEvent) :
    l.run (NameEvent.within key kind events) = ((l.enter key kind).run events).leave := by
  simp [NameEvent.within, NameLedger.run, NameLedger.step]

mutual

theorem after_walkStmt (l : NameLedger) : ∀ stmt : Stmt, (walkStmt stmt).after l = l.run stmt.events
  | .expr value _ | .return (some value) _ => by
    rw [walkStmt, Stmt.events]
    exact after_walkExpr l value
  | .assign target value span => by
    rw [walkStmt, Stmt.events, after_bind, after_walkExpr, run_append]
    exact after_walkAssign _ target span
  | .update target _ value span => by
    rw [walkStmt, Stmt.events, after_bind, after_walkExpr, run_append]
    exact after_walkUpdate _ target span
  | .destructure names value span => by
    rw [walkStmt, Stmt.events, after_bind, after_walkExpr, run_append]
    unfold NameLedger.run
    rw [foldl_map]
    rfl
  | .const name value span => by
    rw [walkStmt, Stmt.events, after_bind, after_walkExpr, run_append]
    rfl
  | .branch cond onTrue none _ => by
    rw [walkStmt, Stmt.events, after_bind, after_walkExpr, run_append]
    exact after_walkBlock _ .conditional onTrue
  | .branch cond onTrue (some onFalse) _ => by
    rw [walkStmt, Stmt.events, after_bind, after_bind, after_walkExpr, run_append, run_append,
      ← after_walkBlock _ .conditional onTrue]
    exact after_walkBlock _ .conditional onFalse
  | .repeatWhile cond body _ => by
    rw [walkStmt, Stmt.events, after_bind, after_walkExpr, run_append]
    exact after_walkBlock _ .loop body
  | .forEach var items ⟨stmts, scope⟩ _ => by
    rw [walkStmt, Stmt.events, after_bind, after_walkExpr, run_append, run_within]
    exact congrArg leave (after_walkStmts _ stmts)
  | .block body _ => by
    rw [walkStmt, Stmt.events]
    exact after_walkBlock l .block body
  | .function decl _ => by
    rw [walkStmt, Stmt.events, after_bind]
    exact after_walkFunction _ _ decl
  | .struct name _ methods body span => by
    rw [walkStmt, Stmt.events, after_bind, NameLedger.run, foldl_cons]
    exact (congrArg leave (after_walkMethods _ methods)).trans (run_within ..).symm
  | .return none _ => by
    rw [walkStmt, Stmt.events]
    rfl

theorem after_walkBlock (l : NameLedger) (kind : ScopeKind) : ∀ block : Block,
    (walkBlock kind block).after l = l.run (block.events kind)
  | ⟨stmts, span⟩ => by
    rw [walkBlock, Block.events, run_within]
    exact congrArg leave (after_walkStmts _ stmts)

theorem after_walkFunction (l : NameLedger) (kind : ScopeKind) : ∀ decl : Function,
    (walkFunction kind decl).after l = l.run (decl.events kind)
  | ⟨_, _, receiver, params, _, ⟨stmts, span⟩, _⟩ => by
    rw [walkFunction, Function.events, after_bind, after_walkDefaults, run_append, run_within, run_append,
      ← after_declareParams, ← after_walkStmts _ stmts]
    rfl

theorem after_walkMethods (l : NameLedger) : ∀ methods : List Function,
    (walkMethods methods).after l = l.run (Function.allEvents methods)
  | [] => by
    rw [walkMethods, Function.allEvents]
    rfl
  | decl :: rest => by
    rw [walkMethods, Function.allEvents, after_bind, after_walkFunction l .inlineFunction decl, run_append]
    exact after_walkMethods _ rest

theorem after_walkStmts (l : NameLedger) : ∀ stmts : List Stmt,
    (walkStmts stmts).after l = l.run (Stmt.allEvents stmts)
  | [] => by
    rw [walkStmts, Stmt.allEvents]
    rfl
  | stmt :: rest => by
    rw [walkStmts, Stmt.allEvents, after_bind, after_walkStmt l stmt, run_append]
    exact after_walkStmts _ rest

end

def Syntax.Script.events (script : Script) : List NameEvent := Stmt.allEvents script.stmts

def FrameShape.start : List FrameShape := [⟨.global, .zero, []⟩]

def Trail.start : Trail := ⟨FrameShape.start, [⟨.zero, .global, []⟩]⟩

theorem Trail.sound_start : start.Sound where
  distinct := nodup_singleton _
  listed := by simp [start]
  stacked := by
    refine ⟨nodup_singleton _, by simp [start, FrameShape.start], fun f rest hsuffix => ?_⟩
    obtain heq | hnil := suffix_cons_iff.mp hsuffix
    · obtain ⟨rfl, rfl⟩ := List.cons.inj heq
      simp [start]
    · cases suffix_nil.mp hnil

def NameLedger.start : NameLedger := ({} : NameLedger).enter .zero .global

theorem NameLedger.follows_start : start.Follows Trail.start := ⟨rfl, rfl, forall_mem_singleton.mpr fun _ => rfl⟩

theorem Analysis.run_events (script : Script) : Analysis.of script =
    ⟨(start.run script.events).scopes, (start.run script.events).errors⟩ := by
  rw [Script.events, ← after_walkStmts]
  rfl

theorem Trail.fresh_start {stop : Nat} {script : Script} {parts : List Stmt}
    (h : Laid 0 stop (Stmt.allNests script.stmts) parts) : start.Fresh script.events ∧
      (start.run script.events).nests =
        ⟨.zero, .global, (Stmt.allNests script.stmts).map Nest.key⟩ :: Stmt.allNests script.stmts := by
  have hnodup : (start.keys ++ (Stmt.allNests script.stmts).map Nest.key).Nodup :=
    nodup_cons.mpr ⟨h.zero_not_mem, h.distinct⟩
  have hopens := (Stmt.allWoven script.stmts).opens
  refine ⟨?_, (hopens _ sound_start hnodup).2⟩
  rw [Trail.Fresh, ← keys_run]
  exact (hopens.sound sound_start hnodup).1.distinct

end Datapack
