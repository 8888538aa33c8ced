import Datapack.Proofs.Reference.Basic

/-!
What operations on values refer to. An operation on fit values writes fit instructions and gives a fit value. Operators
write nothing but cells.
-/

namespace Datapack

open Syntax List

variable {names : Prop} {v : Value}

def Discipline.fit (names : Prop) : Discipline where
  base := 0
  place _ c _ := c.Fit names
  read _ c := c.Fit names
  test _ c := c.Fit names
  write _ known i := i.Fit names known
  place_mono _ := id
  read_mono _ := id
  test_mono _ := id
  write_mono _ hknown h := h.mono hknown
  fresh _ := Cell.fit_temporary _
  reads := id
  range := id
  compare := .intro
  set := id
  add := id
  copy := .intro
  operate := .intro
  constant := .intro
  store := .intro

theorem Value.Fit.headPlaces {next : Nat} (h : v.Fit names) : v.HeadPlaces ((Discipline.fit names).place next) := by
  cases v with
  | number | fixed | bool => exact h
  | _ => trivial

theorem Value.Results.fit {n : Nat} (h : v.Results ((Discipline.fit names).place n)) : v.Fit names := by
  cases v with
  | number | fixed | bool => exact h
  | string d =>
    cases d with
    | static => trivial
    | dynamic => exact h.elim
  | _ => exact h.elim

section Storage

open Emit

variable {slot : Slot}

theorem Json.hexDigit_ne_lineFeed : ∀ n < 16, hexDigit n ≠ '\n' := by decide

theorem Json.not_mem_escape (c : Char) : '\n' ∉ escape c := by
  unfold escape
  split
  · decide
  · decide
  · decide
  · decide
  · decide
  next hc _ _ =>
    split
    · decide
    · split
      · decide
      · split
        · have hhigh := hexDigit_ne_lineFeed (c.toNat / 16) (by omega)
          have hlow := hexDigit_ne_lineFeed (c.toNat % 16) (by omega)
          simp [hhigh.symm, hlow.symm]
        · exact fun h => hc (mem_singleton.mp h).symm

theorem Json.oneLine_quote (text : String) : OneLine (quote text) := by
  simp only [OneLine, quote, String.toList_ofList, mem_cons, mem_append, mem_flatMap, not_mem_nil, or_false]
  rintro (h | ⟨c, -, hc⟩ | h)
  · exact absurd h (by decide)
  · exact not_mem_escape c hc
  · exact absurd h (by decide)

namespace Value

variable {v v' : Value} {e e' : Emission}

theorem LeafAt.fit {leaf : Value} {place : Slot} (h : v.LeafAt slot leaf place) (hv : v.Fit names)
    (hslot : slot.Fit names) : place.Fit names := by
  induction h with
  | flat => exact hslot
  | field hx _ ih =>
    obtain ⟨hname, hpart⟩ := fieldsFit_iff.mp hv _ hx
    exact ih hpart (hslot.member hname)
  | item hi _ ih => exact ih (itemsFit_iff.mp hv _ (mem_of_getElem? hi)) (hslot.element _)

theorem fit_of_mem_movesTo {known : List Int32} {i : Instr} (hv : v.Fit names) (hslot : slot.Fit names)
    (h : i ∈ v.movesTo slot) : i.Fit names known := by
  unfold movesTo at h
  split at h <;> try split at h
  all_goals
    first
    | exact absurd h not_mem_nil
    | obtain rfl := mem_singleton.mp h
  · exact hslot.cell
  · exact hslot.cell
  · exact hslot.cell
  · exact ⟨hslot.cell, hv⟩
  · exact ⟨hslot.cell, hv⟩
  · exact ⟨hslot.cell, hv⟩
  · exact ⟨hslot.path, Clean.of (Json.oneLine_quote _)⟩
  · exact ⟨hslot.path, hv⟩

theorem fits_store (hv : v.Fit names) (hslot : slot.Fit names)
    (h : (v.store slot).Yields e v' e') : e.Follows (.fit names) e' ∧ v'.Fit names := by
  obtain ⟨-, rfl, rfl⟩ := yields_store.mp h
  refine ⟨⟨.refl, fun _ => id, v.storing slot, by simp [Emission.adding], fun i hi => ?_⟩, ?_⟩
  · obtain ⟨leaf, place, hleaf, hi⟩ := mem_storing.mp hi
    exact fit_of_mem_movesTo (hleaf.of_leafwise leafwise_fit hv) (hleaf.fit hv hslot) hi
  · refine leafwise_fit.placed leafwise_fit (fun _ => id) (fun leaf place hleaf _ => ?_) hv
    have hplace := hleaf.fit hv hslot
    cases leaf with
    | number | fixed | bool => exact hplace.cell
    | string => exact hplace.path
    | struct _ _ _ | array _ => exact hleaf.isFlat.elim
    | _ => trivial

theorem fits_detach (hv : v.Fit names) (h : v.detach.Yields e v' e') : e.Follows (.fit names) e' ∧ v'.Fit names := by
  obtain ⟨-, rfl, rfl⟩ | ⟨-, hstore⟩ := yields_detach.mp h
  · exact ⟨.refl _, hv⟩
  · have htwo : e.Follows (.fit names) { e with nextTemporary := e.nextTemporary + 2 } :=
      ⟨Nat.le_add_right _ 2, fun _ => id, [], by simp, by simp⟩
    exact (fits_store hv ⟨Cell.fit_temporary _, Path.clean_temporary _⟩ hstore).imp_left htwo.trans

end Value

end Storage

end Datapack
