import Datapack.Proofs.Nesting

/-!
Which variables are kept at run time. What the analysis of names notes of a write is the innermost scope that has the
name at that place. So a variable needs storage exactly if it is written at a place that a scope between it and the
variable may bring up any number of times.
-/

namespace Datapack

open Syntax NameLedger FrameShape ScopeMap
open List hiding after

variable {source : Source} {script : Script} {events : List NameEvent} {ev : NameEvent} {name : String}
  {site key : Span} {access : Access}

namespace Syntax.Script

def At (script : Script) (events : List NameEvent) (view : List FrameShape) : Prop :=
  ∃ before after, script.events = before ++ (events ++ after) ∧ through before start = view

variable {inside post : List NameEvent} {view : List FrameShape}

theorem At.part (h : script.At events view) (pre : List NameEvent) (heq : events = pre ++ (inside ++ post)) :
    script.At inside (through pre view) := by
  obtain ⟨before, after, hevents, rfl⟩ := h
  exact ⟨before ++ pre, post ++ after, by simp [hevents, heq], through_append⟩

theorem At.head (h : script.At (ev :: events) view) : script.At [ev] view := h.part [] rfl

theorem At.tail (h : script.At (ev :: events) view) : script.At events (after view ev) :=
  h.part [ev] (congrArg (ev :: ·) (append_nil events).symm)

section

variable (hparse : Script.parse source = .ok script)

include hparse

theorem At.exists_walk (h : script.At events view) :
    ∃ (l : NameLedger) (t : Trail), t.opened = view ∧ t.Sound ∧ l.Follows t ∧
      (l.run events).scopes.Extends (Analysis.of script).scopes ∧
        Trail.Stacked (Analysis.of script).scopes.outline view := by
  obtain ⟨before, after, hevents, rfl⟩ := h
  obtain ⟨stop, hlaid⟩ := Script.laid hparse
  obtain ⟨hfresh, -⟩ := Trail.fresh_start hlaid
  rw [hevents] at hfresh
  have hsound := Trail.sound_start.run hfresh.left
  obtain ⟨hfollows, -⟩ := follows_start.run Trail.sound_start hfresh.left
  obtain ⟨hthere, -⟩ := hfollows.run hsound hfresh.run.left
  obtain ⟨hend, hextends⟩ := hthere.run (hsound.run hfresh.run.left) hfresh.run.run
  have hstacked := hsound.stacked.run hfresh.run
  rw [Trail.run_append, ← hend.outline, Trail.opened_run] at hstacked
  rw [Analysis.run_events, hevents, run_append, run_append]
  exact ⟨_, _, Trail.opened_run before .start, hsound, hfollows, hextends, hstacked⟩

theorem At.seen (h : script.At events view) : Trail.Stacked (Analysis.of script).scopes.outline view ∧
      ∀ f ∈ view, ∀ name ∈ f.names, (Analysis.of script).scopes.declares name f.scope = true := by
  have hplace : script.At [] view := h.part [] rfl
  obtain ⟨l, t, rfl, -, hfollows, hextends, hstacked⟩ := hplace.exists_walk hparse
  refine ⟨hstacked, fun f hf name hname => hextends.declares ?_⟩
  rw [declares_eq]
  exact (hfollows.names f hf name).trans (contains_iff_mem.mpr hname)

theorem At.notesWrite (h : script.At (ev :: events) view) (hev : ev.write? = some (name, site))
    (howner : owner? name view = some key) : (Analysis.of script).scopes.NotesWrite key name ⟨site, current view⟩ := by
  obtain ⟨l, t, rfl, -, hfollows, hextends, -⟩ := h.head.exists_walk hparse
  rw [← hfollows.declaring?] at howner
  rw [← hfollows.current]
  exact (notesWrite_step hev howner).mono hextends

end

end Syntax.Script

namespace NameLedger

variable {l : NameLedger} {t : Trail} {called : String} {owner : Span}

theorem of_noted?_update {f : DeclaredName → DeclaredName} {d : DeclaredName}
    (h : (l.update owner called f).scopes.noted? key name = some d) (hf : ∀ d, (f d).name = d.name) :
    ∃ d', l.scopes.noted? key name = some d' ∧ (d = d' ∨ (key = owner ∧ name = called) ∧ d = f d') := by
  rw [noted?_update hf] at h
  split at h
  next hsame =>
    obtain ⟨d', hd', rfl⟩ := Option.map_eq_some_iff.mp h
    exact ⟨d', hd', .inr ⟨hsame, rfl⟩⟩
  next => exact ⟨d, h, .inl rfl⟩

theorem of_notesWrite_noteWrite (h : (l.noteWrite owner called site).scopes.NotesWrite key name access) :
    l.scopes.NotesWrite key name access ∨ key = owner ∧ name = called ∧ access = ⟨site, l.current⟩ := by
  obtain ⟨d, hd, hwrite⟩ := exists_noted_iff.mp h
  obtain ⟨d', hd', rfl | ⟨hsame, rfl⟩⟩ := of_noted?_update hd fun _ => rfl
  · exact .inl (exists_noted_iff.mpr ⟨d, hd', hwrite⟩)
  · obtain hold | hnew := mem_append.mp hwrite
    · exact .inl (exists_noted_iff.mpr ⟨d', hd', hold⟩)
    · exact .inr ⟨hsame.1, hsame.2, mem_singleton.mp hnew⟩

theorem of_notesWrite_declare {constant : Bool}
    (h : (l.declare called site constant).scopes.NotesWrite key name access) : l.scopes.NotesWrite key name access := by
  obtain ⟨d, hd, hwrite⟩ := exists_noted_iff.mp h
  rw [noted?_declare, Option.or_eq_some_iff] at hd
  obtain hd | ⟨-, hd⟩ := hd
  · exact exists_noted_iff.mpr ⟨d, hd, hwrite⟩
  · split at hd
    · cases hd
      cases hwrite
    · cases hd

theorem of_notesWrite_step (hkey : ∀ key ∈ ev.key?, key ∉ l.scopes.map Prod.fst)
    (h : (l.step ev).scopes.NotesWrite key name access) : l.scopes.NotesWrite key name access ∨
      ev.write? = some (name, access.site) ∧ l.declaring? name = some key ∧ access.scope = l.current := by
  cases ev with
  | enter other kind =>
    obtain ⟨d, hd, hwrite⟩ := exists_noted_iff.mp h
    rw [step, noted?_enter (hkey other rfl)] at hd
    exact .inl (exists_noted_iff.mpr ⟨d, hd, hwrite⟩)
  | leave => exact .inl h
  | declare => exact .inl (of_notesWrite_declare h)
  | assign | define =>
    rw [step, write] at h
    split at h
    next owner howner =>
      refine (of_notesWrite_noteWrite h).imp_right ?_
      rintro ⟨rfl, rfl, rfl⟩
      exact ⟨rfl, howner, rfl⟩
    next => exact .inl (of_notesWrite_declare h)
  | part =>
    rw [step, writeExisting] at h
    split at h
    next owner howner =>
      refine (of_notesWrite_noteWrite h).imp_right ?_
      rintro ⟨rfl, rfl, rfl⟩
      exact ⟨rfl, howner, rfl⟩
    next => exact .inl h
  | read =>
    rw [step, read] at h
    split at h
    · obtain ⟨d, hd, hwrite⟩ := exists_noted_iff.mp h
      obtain ⟨d', hd', rfl | ⟨-, rfl⟩⟩ := of_noted?_update hd fun _ => rfl
      · exact .inl (exists_noted_iff.mpr ⟨d, hd', hwrite⟩)
      · exact .inl (exists_noted_iff.mpr ⟨d', hd', hwrite⟩)
    · split at h <;> exact .inl h

theorem Follows.of_notesWrite_run (h : l.Follows t) (ht : t.Sound) (hfresh : t.Fresh events)
    (hwrite : (l.run events).scopes.NotesWrite key name access) : l.scopes.NotesWrite key name access ∨
      ∃ before ev after, events = before ++ (ev :: after) ∧ ev.write? = some (name, access.site) ∧
        owner? name (through before t.opened) = some key ∧ access.scope = FrameShape.current (through before t.opened) := by
  induction events generalizing l t with
  | nil => exact .inl hwrite
  | cons ev rest ih =>
    have hkey := hfresh.head
    obtain hnow | ⟨before, ev', after, rfl, hev, howner, hscope⟩ := ih (h.step ht hkey) (ht.step hkey) hfresh.tail hwrite
    · refine (of_notesWrite_step (h.keys ▸ hkey) hnow).imp_right fun ⟨hev, howner, hscope⟩ => ?_
      rw [h.declaring?] at howner
      rw [h.current] at hscope
      exact ⟨[], ev, rest, rfl, hev, howner, hscope⟩
    · exact .inr ⟨ev :: before, ev', after, rfl, hev, howner, hscope⟩

end NameLedger

theorem Syntax.Script.notesWrite_iff
    (hparse : Script.parse source = .ok script) : (Analysis.of script).scopes.NotesWrite key name access ↔
      ∃ ev rest view, script.At (ev :: rest) view ∧ ev.write? = some (name, access.site) ∧ owner? name view = some key ∧
        access.scope = current view := by
  constructor
  · intro h
    obtain ⟨stop, hlaid⟩ := Script.laid hparse
    obtain ⟨hfresh, -⟩ := Trail.fresh_start hlaid
    rw [Analysis.run_events] at h
    obtain ⟨r, d, hr, hd, -⟩ | ⟨before, ev, after, hevents, hev, howner, hscope⟩ :=
      follows_start.of_notesWrite_run Trail.sound_start hfresh h
    · obtain ⟨-, rfl⟩ := Prod.mk.inj (mem_singleton.mp (Ordered.mem_of_get? hr))
      cases hd
    · exact ⟨ev, after, _, ⟨before, [], by simpa using hevents, rfl⟩, hev, howner, hscope⟩
  · rintro ⟨ev, rest, view, hat, hev, howner, hscope⟩
    obtain ⟨site, scope⟩ := access
    obtain rfl : scope = current view := hscope
    exact hat.notesWrite hparse hev howner

namespace ScopeMap

variable {scopes : ScopeMap} {inner outer : List FrameShape} {f : FrameShape} {record : ScopeRecord}

theorem exists_of_mem_outline (h : (scopes.map Prod.fst).Nodup) {nest : Nest} (hnest : nest ∈ scopes.outline) :
    ∃ r, Ordered.get? nest.key scopes = some r ∧ r.kind = nest.kind ∧ r.inner = nest.inner := by
  have hkey : nest.key ∈ scopes.map Prod.fst := keys_outline scopes ▸ mem_map_of_mem hnest
  obtain ⟨r, hr⟩ := Option.ne_none_iff_exists'.mp (mt Ordered.get?_eq_none_iff.mp (not_not.mpr hkey))
  rw [← keys_outline] at h
  have heq : nest = ⟨nest.key, r.kind, r.inner⟩ := inj_on_of_nodup_map h hnest (mem_outline hr) rfl
  exact ⟨r, hr, (congrArg Nest.kind heq).symm, (congrArg Nest.inner heq).symm⟩

theorem exists_dynamic_iff (hkeys : (scopes.map Prod.fst).Nodup)
    (hview : Trail.Stacked scopes.outline (inner ++ f :: outer)) (hrecord : Ordered.get? f.scope scopes = some record) :
    (FrameShape.current (inner ++ f :: outer) ≠ f.scope ∧ ∃ key ∈ record.inner, ∃ r, Ordered.get? key scopes = some r ∧
        reaches key (FrameShape.current (inner ++ f :: outer)) r = true ∧ r.kind.isStatic = false) ↔
      ∃ g ∈ inner, g.kind.isStatic = false := by
  have hdistinct := hview.distinct
  rw [map_append, map_cons] at hdistinct
  -- the scopes around the innermost one are those that have it inside
  have hreaches : ∀ {key r}, Ordered.get? key scopes = some r →
      (reaches key (FrameShape.current (inner ++ f :: outer)) r = true ↔ ∃ g ∈ inner ++ f :: outer, g.scope = key) := by
    intro key r hr
    rw [← mem_map]
    obtain ⟨g, rest, hshape⟩ : ∃ g rest, inner ++ f :: outer = g :: rest := by cases inner <;> exact ⟨_, _, rfl⟩
    have hinner := hview.inner g rest (hshape ▸ suffix_refl _) _ (mem_outline hr)
    rw [hshape, reaches, Bool.or_eq_true, beq_iff_eq, contains_iff_mem, map_cons, mem_cons]
    exact or_congr_right hinner
  have hinside : ∀ {g rest}, g :: rest <:+ inner ++ f :: outer → (g.scope ∈ record.inner ↔ f.scope ∈ rest.map (·.scope)) :=
    fun hsuffix => hview.inner _ _ hsuffix _ (mem_outline hrecord)
  have hkind : ∀ g ∈ inner ++ f :: outer, ∃ r, Ordered.get? g.scope scopes = some r ∧ r.kind = g.kind := by
    intro g hg
    obtain ⟨nest, hnest, hkey, hkind⟩ := hview.known g hg
    obtain ⟨r, hr, hr', -⟩ := exists_of_mem_outline hkeys hnest
    exact ⟨r, hkey ▸ hr, hr'.trans hkind⟩
  constructor
  · rintro ⟨-, key, hkey, r, hr, hreach, hdynamic⟩
    obtain ⟨g, hg, rfl⟩ := (hreaches hr).mp hreach
    obtain ⟨r', hr', hsame⟩ := hkind g hg
    cases Option.some.inj (hr.symm.trans hr')
    refine ⟨g, (mem_append.mp hg).resolve_right fun hout => ?_, hsame ▸ hdynamic⟩
    -- the scope itself and those around it are not inside it
    obtain ⟨pre, rest, hsplit⟩ := append_of_mem hout
    have hsuffix : g :: rest <:+ f :: outer := ⟨pre, hsplit.symm⟩
    have hmem := (hinside (hsuffix.trans (suffix_append _ _))).mp hkey
    have hrest : rest <:+ outer := by
      obtain heq | hsuffix := suffix_cons_iff.mp hsuffix
      · exact (List.cons.inj heq).2 ▸ suffix_refl _
      · exact (suffix_cons _ _).trans hsuffix
    exact (nodup_cons.mp (nodup_append'.mp hdistinct).2.1).1 ((hrest.map _).subset hmem)
  · rintro ⟨g, hg, hdynamic⟩
    obtain ⟨r, hr, hsame⟩ := hkind g (mem_append_left _ hg)
    refine ⟨fun heq => ?_, g.scope, ?_, r, hr, (hreaches hr).mpr ⟨g, mem_append_left _ hg, rfl⟩, hsame ▸ hdynamic⟩
    · cases inner with
      | nil => cases hg
      | cons first more => exact disjoint_of_nodup_append hdistinct (.head _) (heq ▸ mem_cons_self)
    · obtain ⟨pre, rest, rfl⟩ := append_of_mem hg
      have hsuffix : g :: (rest ++ f :: outer) <:+ pre ++ g :: rest ++ f :: outer := ⟨pre, by simp⟩
      exact (hinside hsuffix).mpr (by simp)

theorem requiresStorage_iff {declaring : Span} : scopes.requiresStorage declaring name = true ↔
    ∃ record access, Ordered.get? declaring scopes = some record ∧ scopes.NotesWrite declaring name access ∧
      access.scope ≠ declaring ∧ ∃ key ∈ record.inner, ∃ r, Ordered.get? key scopes = some r ∧
        reaches key access.scope r = true ∧ r.kind.isStatic = false := by
  rw [requiresStorage]
  constructor
  · intro h
    split at h
    next => cases h
    next record hrecord =>
      split at h
      next => cases h
      next declared hdeclared =>
        obtain ⟨access, haccess, hpath⟩ := any_eq_true.mp h
        obtain ⟨hne, hinner⟩ := Bool.and_eq_true_iff.mp hpath
        obtain ⟨key, hkey, hreach⟩ := any_eq_true.mp hinner
        refine ⟨record, access, hrecord, ⟨record, declared, hrecord, hdeclared, haccess⟩, bne_iff_ne.mp hne, key, hkey, ?_⟩
        split at hreach
        next r hr =>
          obtain ⟨hreach, hdynamic⟩ := Bool.and_eq_true_iff.mp hreach
          exact ⟨r, hr, hreach, by simpa using hdynamic⟩
        next => cases hreach
  · rintro ⟨record, access, hrecord, ⟨r, d, hr, hd, haccess⟩, hne, key, hkey, inner, hinner, hreach, hdynamic⟩
    cases Option.some.inj (hrecord.symm.trans hr)
    rw [hrecord]
    dsimp only
    rw [hd]
    refine any_eq_true.mpr ⟨access, haccess, Bool.and_eq_true_iff.mpr ⟨bne_iff_ne.mpr hne, ?_⟩⟩
    refine any_eq_true.mpr ⟨key, hkey, ?_⟩
    rw [hinner]
    simp [hreach, hdynamic]

end ScopeMap

/-- The decision to keep a variable at run time. A name of a scope needs storage if and only if some write, at a place
where that scope is the innermost one that has the name, stands in scopes further in of which one may be brought up any
number of times. -/
theorem Syntax.Script.requiresStorage_iff_written {source : Source} {script : Script}
    (hparse : Script.parse source = .ok script) (declaring : Span) (name : String) :
    (Analysis.of script).scopes.requiresStorage declaring name = true ↔
      ∃ before ev after site inner f outer, script.events = before ++ ev :: after ∧ ev.write? = some (name, site) ∧
        through before start = inner ++ f :: outer ∧ f.scope = declaring ∧ name ∈ f.names ∧
          (∀ g ∈ inner, name ∉ g.names) ∧ ∃ g ∈ inner, g.kind.isStatic = false := by
  obtain ⟨-, hkeys⟩ := outline_scopes hparse
  rw [ScopeMap.requiresStorage_iff]
  constructor
  · rintro ⟨record, access, hrecord, hwrite, hpath⟩
    obtain ⟨ev, rest, view, hat, hev, howner, hscope⟩ := (notesWrite_iff hparse).mp hwrite
    obtain ⟨inner, f, outer, rfl, rfl, hname, hinner⟩ := owner?_eq_some_iff.mp howner
    obtain ⟨hstacked, -⟩ := hat.seen hparse
    obtain ⟨before, after, hevents, hview⟩ := hat
    rw [hscope] at hpath
    have hdynamic := (ScopeMap.exists_dynamic_iff hkeys hstacked hrecord).mp hpath
    exact ⟨before, ev, rest ++ after, access.site, inner, f, outer, hevents, hev, hview, rfl, hname, hinner, hdynamic⟩
  · rintro ⟨before, ev, after, site, inner, f, outer, hevents, hev, hview, rfl, hname, hinner, hdynamic⟩
    have hat : script.At [ev] (inner ++ f :: outer) := ⟨before, after, hevents, hview⟩
    obtain ⟨hstacked, -⟩ := hat.seen hparse
    have hwrite := hat.notesWrite hparse hev (owner?_eq_some_iff.mpr ⟨inner, f, outer, rfl, rfl, hname, hinner⟩)
    have hrecord := hwrite
    obtain ⟨record, -, hrecord, -⟩ := hrecord
    exact ⟨record, _, hrecord, hwrite, (ScopeMap.exists_dynamic_iff hkeys hstacked hrecord).mpr hdynamic⟩

def Source.rainy : Source where
  name := "rainy"
  code := "x = 1 if (isRaining()) { x = 2 }"

def Syntax.rainy : Script where
  stmts := [.assign (.path "x" []) (.int 1 ⟨4, 5⟩) ⟨0, 5⟩,
    .branch (.call (.var "isRaining" ⟨10, 19⟩) [] ⟨10, 21⟩)
      ⟨[.assign (.path "x" []) (.int 2 ⟨29, 30⟩) ⟨25, 30⟩], ⟨23, 32⟩⟩ none ⟨6, 32⟩]
  span := ⟨0, 32⟩

theorem Syntax.parse_rainy : Script.parse Source.rainy = .ok rainy := by
  cbv

theorem Syntax.Script.requiresStorage_iff_written_rainy :
    Script.parse Source.rainy = .ok Syntax.rainy ∧ (Analysis.of Syntax.rainy).scopes.requiresStorage .zero "x" = true := by
  refine ⟨parse_rainy, (requiresStorage_iff_written parse_rainy .zero "x").mpr ?_⟩
  exact ⟨[.assign "x" ⟨0, 5⟩, .read "isRaining" ⟨10, 19⟩, .enter ⟨23, 32⟩ .conditional], .assign "x" ⟨25, 30⟩, [.leave],
    ⟨25, 30⟩, [⟨.conditional, ⟨23, 32⟩, []⟩], ⟨.global, .zero, ["x"]⟩, [], by decide, rfl, by decide, rfl, by decide,
    by decide, by decide⟩

end Datapack
