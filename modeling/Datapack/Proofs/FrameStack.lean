import Datapack.Frames
import Mathlib.Data.List.Basic
import Mathlib.Data.List.Perm.Subperm
import Mathlib.Data.List.Nodup

/-!
The open frames are a stack. They are kept in an arena that uses keys again; as long as frames are closed in the
opposite order, following the keys of parents gives exactly the frames that are open.
-/

namespace Datapack

open List

variable {key limit : Nat} {change : Frame → Frame} {stack : List (Nat × Frame)} {f : Frame}

namespace Arena

variable {α : Type} {a : Arena α} {value : α}

structure Valid (a : Arena α) : Prop where
  distinct : a.free.Nodup
  empty : ∀ key ∈ a.free, a.entries[key]? = some none

theorem get?_eq_some : a.get? key = some value ↔ a.entries[key]? = some (some value) := by
  rw [get?]
  split
  next entry h => simp [h]
  next h => simp [h]

theorem get?_of_entry {entry : Option α} (h : a.entries[key]? = some entry) : a.get? key = entry := by
  rw [get?, h]

theorem get?_congr {b : Arena α} (h : b.entries[key]? = a.entries[key]?) : b.get? key = a.get? key := by
  rw [get?, get?, h]

theorem lt_size_of_get? (h : a.get? key = some value) : key < a.entries.size :=
  (Array.getElem?_eq_some_iff.mp (get?_eq_some.mp h)).1

theorem Valid.insert (h : a.Valid) (value : α) :
    (a.insert value).2.Valid ∧ a.get? (a.insert value).1 = none ∧
      (a.insert value).2.get? (a.insert value).1 = some value ∧
      ∀ key, key ≠ (a.insert value).1 → (a.insert value).2.get? key = a.get? key := by
  rw [Arena.insert]
  split
  next key free hfree =>
    obtain ⟨hnot, hdistinct⟩ := nodup_cons.mp (hfree ▸ h.distinct)
    have hempty := h.empty key (hfree ▸ mem_cons_self)
    have hlt : key < a.entries.size := (Array.getElem?_eq_some_iff.mp hempty).1
    refine ⟨⟨hdistinct, ?_⟩, get?_of_entry hempty, ?_, ?_⟩
    · intro other hother
      have hne : other ≠ key := fun heq => hnot (heq ▸ hother)
      rw [Array.getElem?_setIfInBounds_ne (Ne.symm hne)]
      exact h.empty other (hfree ▸ mem_cons_of_mem _ hother)
    · rw [get?_eq_some]
      simp [hlt]
    · intro other hne
      exact get?_congr (Array.getElem?_setIfInBounds_ne (Ne.symm hne))
  next hfree =>
    refine ⟨⟨h.distinct, fun key hkey => ?_⟩, ?_, ?_, ?_⟩
    · rw [hfree] at hkey
      simp at hkey
    · simp [get?]
    · rw [get?_eq_some]
      simp
    · intro key hne
      refine get?_congr ?_
      simp only
      rw [Array.getElem?_push, if_neg hne]

theorem Valid.erase (h : a.Valid) (hget : a.get? key = some value) :
    (a.erase key).2.Valid ∧ ∀ other, other ≠ key → (a.erase key).2.get? other = a.get? other := by
  have hentry := get?_eq_some.mp hget
  have hlt := lt_size_of_get? hget
  rw [Arena.erase, hget]
  refine ⟨⟨nodup_cons.mpr ⟨fun hfree => ?_, h.distinct⟩, ?_⟩, ?_⟩
  · rw [h.empty key hfree] at hentry
    simp at hentry
  · intro other hother
    by_cases heq : other = key
    · subst heq
      simp [hlt]
    · have hother' : other ∈ a.free := by simpa [heq] using hother
      simp only
      rw [Array.getElem?_setIfInBounds_ne (Ne.symm heq)]
      exact h.empty other hother'
  · intro other hne
    exact get?_congr (Array.getElem?_setIfInBounds_ne (Ne.symm hne))

theorem get?_modify (a : Arena α) (key : Nat) (f : α → α) (other : Nat) :
    (a.modify key f).get? other = if other = key then (a.get? other).map f else a.get? other := by
  have hentry : (a.modify key f).entries[other]? =
      if key = other then (a.entries[other]?).map (Option.map f) else a.entries[other]? := by
    rw [Arena.modify, Array.getElem?_modify]
  by_cases h : other = key
  · subst h
    rw [if_pos rfl] at hentry ⊢
    rw [get?, get?, hentry]
    cases a.entries[other]? <;> rfl
  · rw [if_neg (Ne.symm h)] at hentry
    rw [if_neg h, get?_congr hentry]

theorem Valid.modify (h : a.Valid) (key : Nat) (f : α → α) : (a.modify key f).Valid := by
  refine ⟨h.distinct, fun other hother => ?_⟩
  rw [Arena.modify, Array.getElem?_modify, h.empty other hother]
  split <;> rfl

end Arena

namespace Frames

def Linked : List (Nat × Frame) → Prop
  | [] => True
  | [(_, f)] => f.parent = none
  | (_, f) :: (key, g) :: rest => f.parent = some key ∧ Linked ((key, g) :: rest)

structure Stack (fs : Frames) (stack : List (Nat × Frame)) : Prop where
  valid : fs.arena.Valid
  get : ∀ key f, (key, f) ∈ stack → fs.get? key = some f
  distinct : (stack.map (·.1)).Nodup
  linked : Linked stack
  current : stack.head?.map (·.1) = some fs.current
  ids : (stack.map (·.2.id)).Nodup
  fresh : ∀ e ∈ stack, e.2.id < fs.nextId

def changeAt (key : Nat) (change : Frame → Frame) (e : Nat × Frame) : Nat × Frame :=
  (e.1, if e.1 = key then change e.2 else e.2)

theorem map_changeAt_of_notMem (h : key ∉ stack.map (·.1)) : stack.map (changeAt key change) = stack := by
  refine (map_congr_left fun e he => ?_).trans (map_id stack)
  rw [changeAt, if_neg fun heq => h (mem_map.mpr ⟨e, he, heq⟩)]
  rfl

theorem chain_eq {a : Arena Frame} {rest : List (Nat × Frame)}
    (hget : ∀ k g, (k, g) ∈ (key, f) :: rest → a.get? k = some g) (hlinked : Linked ((key, f) :: rest))
    (hlimit : rest.length < limit) : a.chain (·.parent) limit key = (key, f) :: rest := by
  induction rest generalizing key f limit with
  | nil =>
    obtain ⟨limit, rfl⟩ : ∃ n, limit = n + 1 := ⟨limit - 1, by omega⟩
    rw [Linked] at hlinked
    simp only [Arena.chain, hget key f mem_cons_self, hlinked]
  | cons e rest ih =>
    obtain ⟨next, g⟩ := e
    obtain ⟨limit, rfl⟩ : ∃ n, limit = n + 1 := ⟨limit - 1, by omega⟩
    rw [Linked] at hlinked
    simp only [Arena.chain, hget key f mem_cons_self, hlinked.1]
    congr 1
    refine ih (fun k h hmem => hget k h (.tail _ hmem)) hlinked.2 ?_
    simp only [length_cons] at hlimit
    omega

namespace Stack

variable {fs : Frames}

section

variable (h : fs.Stack stack)

include h

theorem length_le : stack.length ≤ fs.arena.entries.size := by
  have hsub : stack.map (·.1) ⊆ List.range fs.arena.entries.size := by
    intro key hkey
    obtain ⟨e, he, rfl⟩ := mem_map.mp hkey
    exact mem_range.mpr (Arena.lt_size_of_get? (h.get e.1 e.2 he))
  simpa using (subperm_of_subset h.distinct hsub).length_le

theorem chain_eq_stack (hlimit : fs.arena.entries.size ≤ limit) :
    fs.arena.chain (·.parent) limit fs.current = stack := by
  cases stack with
  | nil => simpa using h.current
  | cons e rest =>
    obtain ⟨key, f⟩ := e
    obtain rfl : key = fs.current := by simpa using h.current
    refine chain_eq (fun k g hmem => h.get k g hmem) h.linked ?_
    have hlength := h.length_le
    simp only [length_cons] at hlength
    omega

theorem ancestors_eq : fs.ancestors = stack := h.chain_eq_stack .refl

theorem unique {other : List (Nat × Frame)} (h' : fs.Stack other) : stack = other := by
  rw [← h.ancestors_eq, h'.ancestors_eq]

end

theorem top_eq (h : fs.Stack ((key, f) :: stack)) : fs.top = f := by
  obtain rfl : key = fs.current := by simpa using h.current
  rw [top, h.get fs.current f mem_cons_self]
  rfl

theorem current_eq (h : fs.Stack ((key, f) :: stack)) : fs.current = key := by
  simpa using h.current.symm

theorem takeId (h : fs.Stack stack) : fs.takeId.2.Stack stack where
  valid := h.valid
  get := h.get
  distinct := h.distinct
  linked := h.linked
  current := h.current
  ids := h.ids
  fresh e he := Nat.lt_succ_of_lt (h.fresh e he)

theorem push (h : fs.Stack ((key, f) :: stack)) (kind : ScopeKind) (scope : Span) :
    ∃ new, (fs.push kind scope).Stack
      ((new, { id := fs.nextId, kind, parent := some key, scope }) :: (key, f) :: stack) := by
  cases h.current_eq
  obtain ⟨hvalid, hnone, hnew, hother⟩ :=
    h.valid.insert { id := fs.nextId, kind, parent := some fs.current, scope }
  have hne : ∀ k g, (k, g) ∈ (fs.current, f) :: stack →
      k ≠ (fs.arena.insert { id := fs.nextId, kind, parent := some fs.current, scope }).1 := by
    rintro k g hmem rfl
    have hsome := h.get _ g hmem
    rw [get?, hnone] at hsome
    simp at hsome
  refine ⟨(fs.arena.insert { id := fs.nextId, kind, parent := some fs.current, scope }).1, ?_⟩
  refine ⟨hvalid, ?_, ?_, ⟨rfl, h.linked⟩, rfl, ?_, ?_⟩
  · intro k g hmem
    cases mem_cons.mp hmem with
    | inl heq =>
      cases heq
      exact hnew
    | inr hmem => exact (hother k (hne k g hmem)).trans (h.get k g hmem)
  · refine nodup_cons.mpr ⟨fun hmem => ?_, h.distinct⟩
    obtain ⟨e, he, heq⟩ := mem_map.mp hmem
    exact hne e.1 e.2 he heq
  · refine nodup_cons.mpr ⟨fun hmem => ?_, h.ids⟩
    obtain ⟨e, he, heq⟩ := mem_map.mp hmem
    exact absurd (h.fresh e he) (by simp [heq])
  · intro e he
    cases mem_cons.mp he with
    | inl heq =>
      subst heq
      exact Nat.lt_succ_self _
    | inr he => exact Nat.lt_succ_of_lt (h.fresh e he)

theorem pop {next : Nat} {g : Frame} (h : fs.Stack ((key, f) :: (next, g) :: stack)) :
    fs.pop.2.Stack ((next, g) :: stack) := by
  cases h.current_eq
  obtain ⟨hparent, hlinked⟩ := h.linked
  obtain ⟨hvalid, hother⟩ := h.valid.erase (h.get fs.current f (.head _))
  obtain ⟨hnot, hdistinct⟩ := nodup_cons.mp h.distinct
  have hpop : fs.pop.2 = { fs with arena := (fs.arena.erase fs.current).2, current := next } := by
    rw [Frames.pop, h.top_eq, hparent]
  rw [hpop]
  refine ⟨hvalid, ?_, hdistinct, hlinked, rfl, (nodup_cons.mp h.ids).2,
    fun e he => h.fresh e (.tail _ he)⟩
  intro k e hmem
  have hne : k ≠ fs.current := by
    rintro rfl
    exact hnot (mem_map.mpr ⟨_, hmem, rfl⟩)
  exact (hother k hne).trans (h.get k e (.tail _ hmem))

theorem linked_map {change : Nat × Frame → Nat × Frame} (hkey : ∀ e, (change e).1 = e.1)
    (hparent : ∀ e, (change e).2.parent = e.2.parent) (h : Linked stack) : Linked (stack.map change) := by
  induction stack with
  | nil => exact h
  | cons e rest ih =>
    cases rest with
    | nil =>
      rw [Linked] at h
      simpa [Linked, hparent] using h
    | cons e' rest =>
      obtain ⟨hlink, hrest⟩ := h
      refine ⟨?_, ih hrest⟩
      rw [hparent, hlink, hkey]

theorem modify (h : fs.Stack stack) (key : Nat) (hparent : ∀ f, (change f).parent = f.parent)
    (hid : ∀ f, (change f).id = f.id) : (fs.modify key change).Stack (stack.map (changeAt key change)) := by
  have hkey' : ∀ e, (changeAt key change e).1 = e.1 := fun _ => rfl
  have hparent' : ∀ e, (changeAt key change e).2.parent = e.2.parent := by
    intro e
    rw [changeAt]
    split
    · exact hparent e.2
    · rfl
  have hid' : ∀ e, (changeAt key change e).2.id = e.2.id := by
    intro e
    rw [changeAt]
    split
    · exact hid e.2
    · rfl
  refine ⟨h.valid.modify key change, ?_, ?_, linked_map hkey' hparent' h.linked, ?_, ?_, ?_⟩
  · intro k f hmem
    obtain ⟨⟨k', g⟩, he, heq⟩ := mem_map.mp hmem
    cases heq
    have hget := h.get k' g he
    rw [Frames.get?] at hget
    rw [Frames.get?, Frames.modify, Arena.get?_modify, hget]
    split <;> rfl
  · rw [map_map]
    exact h.distinct
  · rw [head?_map, Option.map_map]
    exact h.current
  · have hids : (stack.map (changeAt key change)).map (·.2.id) = stack.map (·.2.id) := by
      rw [map_map]
      exact map_congr_left fun e _ => hid' e
    rw [hids]
    exact h.ids
  · intro e he
    obtain ⟨e', he', rfl⟩ := mem_map.mp he
    rw [hid']
    exact h.fresh e' he'

theorem modifyTop (h : fs.Stack ((key, f) :: stack)) (hparent : ∀ f, (change f).parent = f.parent)
    (hid : ∀ f, (change f).id = f.id) : (fs.modifyTop change).Stack ((key, change f) :: stack) := by
  cases h.current_eq
  have hmodify := h.modify fs.current hparent hid
  have hrest : stack.map (changeAt fs.current change) = stack := by
    refine (map_congr_left fun e he => ?_).trans (map_id stack)
    have hne : e.1 ≠ fs.current := fun heq =>
      (nodup_cons.mp h.distinct).1 (mem_map.mpr ⟨e, he, heq⟩)
    rw [changeAt, if_neg hne]
    rfl
  rw [map_cons, hrest, changeAt, if_pos rfl] at hmodify
  exact hmodify

end Stack

theorem start_stack : start.Stack
    [(0, { id := 0, kind := .global, parent := none, scope := .zero })] where
  valid := ⟨nodup_nil, by simp [start, Arena.insert]⟩
  get := by simp [start, Arena.insert, get?, Arena.get?]
  distinct := by simp
  linked := rfl
  current := rfl
  ids := by simp
  fresh := by simp [start]

end Frames

end Datapack
