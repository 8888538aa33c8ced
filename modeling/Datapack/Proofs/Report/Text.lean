import Datapack.Proofs.Layout

/-!
Spans that cut a text between characters. Two offsets between characters, in order, cut the text into three; and they
still do in any part of the text, such as a line, once they are moved to its ends.
-/

namespace Datapack

open List

namespace Text

def Boundary (cs : List Char) (offset : Nat) : Prop :=
  ∃ before after, cs = before ++ after ∧ byteSize before = offset

theorem boundary_zero (cs : List Char) : Boundary cs 0 := ⟨[], cs, rfl, rfl⟩

theorem boundary_size (cs : List Char) : Boundary cs (byteSize cs) := ⟨cs, [], by simp, rfl⟩

variable {cs : List Char} {offset : Nat}

theorem Boundary.le (h : Boundary cs offset) : offset ≤ byteSize cs := by
  obtain ⟨before, after, rfl, rfl⟩ := h
  rw [byteSize_append]
  exact Nat.le_add_right _ _

theorem exists_of_append_eq {a b c d : List Char} (h : a ++ b = c ++ d) (hle : byteSize a ≤ byteSize c) :
    ∃ between, c = a ++ between ∧ b = between ++ d := by
  obtain ⟨between, hc, hb⟩ | ⟨extra, rfl, hd⟩ := append_eq_append_iff.mp h
  · exact ⟨between, hc, hb⟩
  · have hnil : extra = [] := by
      by_contra hne
      have := Syntax.byteSize_pos hne
      rw [byteSize_append] at hle
      omega
    exact ⟨[], by simp [hnil], by simp [hd, hnil]⟩

theorem Boundary.split {start stop : Nat} (hstart : Boundary cs start) (hstop : Boundary cs stop) (hle : start ≤ stop) :
    ∃ before inside after, cs = before ++ (inside ++ after) ∧ byteSize before = start ∧
      byteSize before + byteSize inside = stop := by
  obtain ⟨before, rest, rfl, rfl⟩ := hstart
  obtain ⟨whole, after, heq, rfl⟩ := hstop
  obtain ⟨inside, rfl, rfl⟩ := exists_of_append_eq heq hle
  exact ⟨before, inside, after, rfl, rfl, (byteSize_append _ _).symm⟩

theorem splitAtByte?_append (before after : List Char) :
    splitAtByte? (byteSize before) (before ++ after) = some (before, after) := by
  induction before with
  | nil => rw [byteSize, splitAtByte?, nil_append]
  | cons c before ih =>
    obtain ⟨n, hn⟩ := Nat.exists_eq_add_of_lt c.utf8Size_pos
    have hsize : byteSize (c :: before) = n + byteSize before + 1 := by
      rw [byteSize]
      omega
    have hrest : n + byteSize before + 1 - c.utf8Size = byteSize before := by omega
    rw [hsize, cons_append, splitAtByte?, if_pos (by omega), hrest, ih]

theorem divide?_append (before inside after : List Char) :
    divide? (byteSize before) (byteSize before + byteSize inside) (before ++ (inside ++ after)) =
      some (before, inside, after) := by
  have hle : ¬ byteSize before + byteSize inside < byteSize before := by omega
  rw [divide?, if_neg hle, splitAtByte?_append]
  simp only [Nat.add_sub_cancel_left, splitAtByte?_append]

/-- The place in a part of a text that is nearest to an offset, where the part begins at a given one. -/
def clamp (start size offset : Nat) : Nat := min (max offset start) (start + size) - start

theorem clamp_mono (start size : Nat) {other : Nat} (h : offset ≤ other) :
    clamp start size offset ≤ clamp start size other := by
  unfold clamp
  omega

theorem Boundary.clamp {before part after : List Char} (h : Boundary (before ++ (part ++ after)) offset) :
    Boundary part (clamp (byteSize before) (byteSize part) offset) := by
  unfold Text.clamp
  obtain hle | hge := Nat.le_total offset (byteSize before)
  · rw [Nat.max_eq_right hle, Nat.min_eq_left (Nat.le_add_right _ _), Nat.sub_self]
    exact boundary_zero part
  rw [Nat.max_eq_left hge]
  obtain hout | hin := Nat.le_total (byteSize before + byteSize part) offset
  · rw [Nat.min_eq_right hout, Nat.add_sub_cancel_left]
    exact boundary_size part
  rw [Nat.min_eq_left hin]
  obtain ⟨whole, rest, heq, rfl⟩ := h
  obtain ⟨first, rfl, hpart⟩ := exists_of_append_eq heq hge
  rw [byteSize_append] at hin ⊢
  obtain ⟨second, rfl, -⟩ := exists_of_append_eq hpart.symm (by omega)
  exact ⟨first, second, rfl, by omega⟩

theorem flatten_lines (cs : List Char) : (lines cs).flatten = cs := by
  fun_induction lines cs with
  | case1 => rfl
  | case2 cs ih => simp [ih]
  | case3 c cs hc hnil ih => simpa [hnil] using ih
  | case4 c cs hc line more hlines ih => simpa [hlines] using ih

theorem exists_eq_trimLineEnd_append (line : List Char) : ∃ ending, line = trimLineEnd line ++ ending := by
  refine ⟨(line.reverse.takeWhile fun c => c == '\n' || c == '\r').reverse, ?_⟩
  rw [trimLineEnd, ← reverse_append, takeWhile_append_dropWhile, reverse_reverse]

end Text

open Text

structure Span.Fits (source : Source) (span : Span) : Prop where
  ordered : span.start ≤ span.stop
  inside : span.stop ≤ source.size
  start : Boundary source.chars span.start
  stop : Boundary source.chars span.stop

theorem Source.byteSize_chars (source : Source) : byteSize source.chars = source.size :=
  byteSize_toList source.code

namespace Span.Fits

variable {source : Source} {span : Span}

theorem of_boundaries (hordered : span.start ≤ span.stop) (hstart : Boundary source.chars span.start)
    (hstop : Boundary source.chars span.stop) : span.Fits source :=
  ⟨hordered, source.byteSize_chars ▸ hstop.le, hstart, hstop⟩

theorem zero (source : Source) : Span.zero.Fits source :=
  .of_boundaries (Nat.le_refl 0) (boundary_zero _) (boundary_zero _)

theorem whole (source : Source) : source.span.Fits source :=
  have hstop : Boundary source.chars source.size := source.byteSize_chars ▸ boundary_size _
  .of_boundaries (Nat.zero_le _) (boundary_zero _) hstop

theorem ending (source : Source) : Span.Fits source ⟨source.size, source.size⟩ :=
  .of_boundaries .refl (whole source).stop (whole source).stop

end Span.Fits

end Datapack
