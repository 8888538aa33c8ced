import Datapack.Ordered
import Mathlib.Data.List.Basic

/-!
Maps that remember the order of their keys, and lists of distinct values: what is found in them, and what they hold after
a change.
-/

namespace Datapack.Ordered

open List

variable {κ β : Type} [DecidableEq κ] {key other : κ} {value : β} {pair : κ × β} {pairs : List (κ × β)} {f : β → β}

theorem mem_of_get? (h : get? key pairs = some value) : (key, value) ∈ pairs := by
  induction pairs with
  | nil => cases h
  | cons pair rest ih =>
    obtain ⟨k, v⟩ := pair
    rw [get?] at h
    split at h
    next heq => exact heq ▸ Option.some.inj h ▸ mem_cons_self
    next => exact .tail _ (ih h)

theorem get?_eq_none_iff : get? key pairs = none ↔ key ∉ pairs.map (·.1) := by
  induction pairs with
  | nil => simp [get?]
  | cons pair rest ih =>
    obtain ⟨k, v⟩ := pair
    rw [get?]
    split
    next heq => simp [heq]
    next hne => simp [ih, Ne.symm hne]

theorem get?_map {γ : Type} (f : κ → β → γ) :
    get? key (pairs.map fun pair => (pair.1, f pair.1 pair.2)) = (get? key pairs).map (f key) := by
  induction pairs with
  | nil => rfl
  | cons pair rest ih =>
    rw [map_cons, get?, get?, ih]
    split
    next heq => rw [heq, Option.map_some]
    next => rfl

theorem get?_append_of_some (h : get? key pairs = some value) (more : List (κ × β)) :
    get? key (pairs ++ more) = some value := by
  induction pairs with
  | nil => cases h
  | cons pair rest ih =>
    rw [cons_append, get?]
    rw [get?] at h
    split
    next heq => rwa [if_pos heq] at h
    next hne =>
      rw [if_neg hne] at h
      exact ih h

theorem get?_modify_eq (key other : κ) (f : β → β) (pairs : List (κ × β)) :
    get? other (modify key f pairs) = if other = key then (get? other pairs).map f else get? other pairs := by
  induction pairs with
  | nil => simp [modify, get?]
  | cons pair rest ih => grind [modify, get?]

theorem get?_modify (h : get? other pairs = some value) :
    get? other (modify key f pairs) = some (if other = key then f value else value) := by
  rw [get?_modify_eq, h]
  split <;> rfl

theorem get?_put (key other : κ) (value : β) (pairs : List (κ × β)) :
    get? other (put key value pairs) = if other = key then some value else get? other pairs := by
  induction pairs with
  | nil => grind [put, get?]
  | cons pair rest ih => grind [put, get?]

theorem put_of_none (h : get? key pairs = none) (value : β) : put key value pairs = pairs ++ [(key, value)] := by
  induction pairs with
  | nil => rfl
  | cons pair rest ih => grind [put, get?]

theorem modify_eq_map (h : (pairs.map (·.1)).Nodup) (key : κ) (f : β → β) :
    modify key f pairs = pairs.map fun pair => if pair.1 = key then (pair.1, f pair.2) else pair := by
  induction pairs with
  | nil => rfl
  | cons pair rest ih =>
    obtain ⟨hnot, hrest⟩ := nodup_cons.mp h
    rw [modify, map_cons]
    split
    next heq =>
      have hsame : rest.map (fun pair => if pair.1 = key then (pair.1, f pair.2) else pair) = rest := by
        refine (map_congr_left fun other hother => if_neg fun hkey => hnot ?_).trans (map_id rest)
        exact mem_map.mpr ⟨other, hother, hkey.trans heq.symm⟩
      rw [hsame]
    next => rw [ih hrest]

theorem keys_modify (key : κ) (f : β → β) (pairs : List (κ × β)) :
    (modify key f pairs).map (·.1) = pairs.map (·.1) := by
  induction pairs with
  | nil => rfl
  | cons pair rest ih =>
    obtain ⟨k, v⟩ := pair
    rw [modify]
    split
    · rfl
    · simpa using ih

theorem modify_eq_self (h : get? key pairs = some value) (hf : f value = value) : modify key f pairs = pairs := by
  induction pairs with
  | nil => rfl
  | cons pair rest ih =>
    obtain ⟨k, v⟩ := pair
    rw [get?] at h
    rw [modify]
    split
    next heq =>
      rw [if_pos heq] at h
      rw [Option.some.inj h, hf]
    next hne =>
      rw [if_neg hne] at h
      rw [ih h]

theorem of_mem_modify (h : pair ∈ modify key f pairs) :
    pair ∈ pairs ∨ ∃ value, get? key pairs = some value ∧ pair = (key, f value) := by
  induction pairs with
  | nil => cases h
  | cons first rest ih =>
    obtain ⟨k, v⟩ := first
    rw [modify] at h
    split at h
    next heq =>
      cases mem_cons.mp h with
      | inl h => exact .inr ⟨v, by rw [get?, if_pos heq], heq ▸ h⟩
      | inr h => exact .inl (.tail _ h)
    next hne =>
      cases mem_cons.mp h with
      | inl h => exact .inl (h ▸ mem_cons_self)
      | inr h =>
        refine (ih h).imp (mem_cons_of_mem _) ?_
        rintro ⟨value, hget, heq⟩
        exact ⟨value, by rw [get?, if_neg hne, hget], heq⟩

theorem put_eq_modify (h : get? key pairs = some value) : put key (f value) pairs = modify key f pairs := by
  induction pairs with
  | nil => cases h
  | cons first rest ih =>
    rw [get?] at h
    rw [put, modify]
    split
    next heq =>
      rw [if_pos heq] at h
      rw [Option.some.inj h]
    next hne =>
      rw [if_neg hne] at h
      rw [ih h]

theorem of_mem_put (h : pair ∈ put key value pairs) : pair ∈ pairs ∨ pair = (key, value) := by
  induction pairs with
  | nil => exact .inr (by simpa [put] using h)
  | cons first rest ih =>
    obtain ⟨k, v⟩ := first
    rw [put] at h
    split at h
    next heq =>
      cases mem_cons.mp h with
      | inl h => exact .inr (heq ▸ h)
      | inr h => exact .inl (.tail _ h)
    next =>
      cases mem_cons.mp h with
      | inl h => exact .inl (h ▸ mem_cons_self)
      | inr h => exact (ih h).imp_left (mem_cons_of_mem _)

theorem of_mem_ofPairs (h : pair ∈ ofPairs pairs) : pair ∈ pairs := by
  have hfold : ∀ (all start : List (κ × β)),
      pair ∈ all.foldl (fun m p => put p.1 p.2 m) start → pair ∈ start ∨ pair ∈ all := by
    intro all
    induction all with
    | nil => exact fun start h => .inl h
    | cons first rest ih =>
      intro start h
      obtain h | h := ih _ h
      · obtain h | rfl := of_mem_put h
        · exact .inl h
        · exact .inr (.head _)
      · exact .inr (.tail _ h)
  exact (hfold pairs [] h).resolve_left (by simp)

end Datapack.Ordered
