import Datapack.Address
import Mathlib.Data.List.Basic

/-!
Cells of different things are different: temporaries and their parts, variables and their parts, and
constants. The names are told apart by their second character, and within a group by the number that follows.
-/

namespace Datapack

open List

variable {c base : Cell} {j i : Nat} {x y : String} {p q : Path}

namespace Cell

def PartOf (c base : Cell) : Prop := c = base ∨ ∃ rest, c.name = base.name ++ "." ++ rest

def IsVariable (c : Cell) : Prop := ∃ rest, c.name = ".exp" ++ rest

theorem PartOf.refl (c : Cell) : c.PartOf c := .inl rfl

variable {k : Nat}

theorem PartOf.trans {a b : Cell} (hab : a.PartOf b) (hbc : b.PartOf c) : a.PartOf c := by
  obtain rfl | ⟨rest, hrest⟩ := hab
  · exact hbc
  · obtain rfl | ⟨rest', hrest'⟩ := hbc
    · exact .inr ⟨rest, hrest⟩
    · refine .inr ⟨rest' ++ "." ++ rest, ?_⟩
      rw [hrest, hrest']
      simp only [String.append_assoc]

theorem toString_injective (h : toString j = toString k) : j = k := by
  have hdigits := congrArg (fun text : String => Nat.ofDigitChars 10 text.toList 0) h
  simpa [Nat.toString_eq_repr, Nat.toList_repr] using hdigits

theorem temporary_injective (h : temporary j = temporary k) : j = k := by
  have hname : ".tmp" ++ toString j = ".tmp" ++ toString k := congrArg Cell.name h
  have hdigits : toString j = toString k := by
    have hlist := congrArg String.toList hname
    simp only [String.toList_append, append_cancel_left_eq] at hlist
    exact String.toList_inj.mp hlist
  exact toString_injective hdigits

theorem isDigit_of_mem_toString {n : Nat} {c : Char} (h : c ∈ (toString n).toList) : c.isDigit = true := by
  rw [Nat.toString_eq_repr, Nat.toList_repr] at h
  exact Nat.isDigit_of_mem_toDigits (by omega) (by omega) h

theorem eq_of_temporary_partOf (h : (temporary j).PartOf (temporary k)) : j = k := by
  obtain h | ⟨rest, hrest⟩ := h
  · exact temporary_injective h
  · have hlist := congrArg String.toList hrest
    simp only [temporary, String.toList_append, append_assoc, append_cancel_left_eq] at hlist
    have hdot : '.' ∈ (toString j).toList := by
      rw [hlist]
      simp
    exact absurd (isDigit_of_mem_toString hdot) (by decide)

theorem IsVariable.ne_temporary (h : c.IsVariable) (k : Nat) : c ≠ temporary k := by
  rintro rfl
  obtain ⟨rest, hrest⟩ := h
  have hlist := congrArg String.toList hrest
  simp [temporary] at hlist

theorem IsVariable.of_partOf (h : c.PartOf base) (hbase : base.IsVariable) : c.IsVariable := by
  obtain rfl | ⟨rest, hrest⟩ := h
  · exact hbase
  · obtain ⟨rest', hrest'⟩ := hbase
    refine ⟨rest' ++ "." ++ rest, ?_⟩
    rw [hrest, hrest']
    simp only [String.append_assoc]

theorem isVariable_ofVariable (frame : Nat) (name : String) : (Slot.ofVariable frame name).cell.IsVariable :=
  ⟨toString frame ++ "_" ++ name, by simp only [Slot.ofVariable, String.append_assoc]⟩

theorem constant_ne_temporary (value : Int32) (k : Nat) : constant value ≠ temporary k := by
  intro h
  have hlist := congrArg (fun c => c.name.toList) h
  rw [constant] at hlist
  split at hlist <;> simp [temporary] at hlist

theorem name_constant (value : Int32) : (constant value).name.toList = ".const_".toList ++
    if value.toInt < 0 then 'm' :: (toString value.toInt.natAbs).toList else (toString value.toInt.natAbs).toList := by
  by_cases hneg : value.toInt < 0
  · have hlt : value < 0 := Int32.lt_iff_toInt_lt.mpr hneg
    simp [constant, hlt, hneg, Word.distanceText]
  · have hlt : ¬ value < 0 := fun h => hneg (Int32.lt_iff_toInt_lt.mp h)
    obtain ⟨n, hn⟩ := Int.eq_ofNat_of_zero_le (Int.not_lt.mp hneg)
    have htext : Word.text value = toString n := by
      rw [Word.text, hn]
      rfl
    simp [constant, hlt, htext, hn]

theorem constant_injective : Function.Injective constant := by
  intro a b h
  have hlist := congrArg (fun c => c.name.toList) h
  simp only [name_constant, append_cancel_left_eq] at hlist
  have hmark : ∀ n k : Nat, 'm' :: (toString n).toList ≠ (toString k).toList := by
    intro n k heq
    exact absurd (isDigit_of_mem_toString (heq ▸ mem_cons_self)) (by decide)
  refine Int32.toInt_inj.mp ?_
  split at hlist <;> split at hlist
  · have := toString_injective (String.toList_inj.mp (List.cons.inj hlist).2)
    omega
  · exact absurd hlist (hmark _ _)
  · exact absurd hlist.symm (hmark _ _)
  · have := toString_injective (String.toList_inj.mp hlist)
    omega

theorem IsVariable.ne_constant (h : c.IsVariable) (value : Int32) : c ≠ constant value := by
  rintro rfl
  obtain ⟨rest, hrest⟩ := h
  have hlist := congrArg String.toList hrest
  rw [constant] at hlist
  split at hlist <;> simp at hlist

theorem append_underscore_inj {a b x y : List Char} (ha : '_' ∉ a) (hb : '_' ∉ b)
    (h : a ++ '_' :: x = b ++ '_' :: y) : a = b ∧ x = y := by
  induction a generalizing b with
  | nil =>
    cases b with
    | nil => exact ⟨rfl, (List.cons.inj h).2⟩
    | cons c b => exact absurd ((List.cons.inj h).1 ▸ mem_cons_self) hb
  | cons c a ih =>
    cases b with
    | nil => exact absurd ((List.cons.inj h).1 ▸ mem_cons_self) ha
    | cons d b =>
      simp only [cons_append, List.cons.injEq] at h
      simp only [mem_cons, not_or] at ha hb
      obtain ⟨rfl, rfl⟩ := ih ha.2 hb.2 h.2
      exact ⟨by rw [h.1], rfl⟩

theorem ofVariable_injective (h : (Slot.ofVariable i x).cell = (Slot.ofVariable j y).cell) : i = j ∧ x = y := by
  have hnone : ∀ n : Nat, '_' ∉ (toString n).toList := fun n hmem =>
    absurd (isDigit_of_mem_toString hmem) (by decide)
  have hlist := congrArg (fun c => c.name.toList) h
  simp only [Slot.ofVariable, String.toList_append, append_assoc, append_cancel_left_eq] at hlist
  obtain ⟨hid, hname⟩ := append_underscore_inj (hnone i) (hnone j) hlist
  exact ⟨toString_injective (String.toList_inj.mp hid), String.toList_inj.mp hname⟩

end Cell

namespace Path

def PartOf (p base : Path) : Prop := p = base ∨ ∃ rest, p.name = base.name ++ "." ++ rest

def Overlaps (p q : Path) : Prop := p.PartOf q ∨ q.PartOf p

theorem PartOf.refl (p : Path) : p.PartOf p := .inl rfl

variable {base : Path}

theorem PartOf.trans (hp : p.PartOf q) (hq : q.PartOf base) : p.PartOf base := by
  obtain rfl | ⟨rest, hrest⟩ := hp
  · exact hq
  · obtain rfl | ⟨rest', hrest'⟩ := hq
    · exact .inr ⟨rest, hrest⟩
    · refine .inr ⟨rest' ++ "." ++ rest, ?_⟩
      rw [hrest, hrest']
      simp only [String.append_assoc]

theorem partOf_of_append {middle rest more : List Char} (hlonger : p.name.toList = q.name.toList ++ middle)
    (hmiddle : '.' :: rest = middle ++ more) : p.PartOf q := by
  cases middle with
  | nil => exact .inl (congrArg Path.mk (String.toList_inj.mp (by simpa using hlonger)))
  | cons c middle =>
    obtain ⟨rfl, -⟩ := List.cons.inj hmiddle
    exact .inr ⟨.ofList middle, String.toList_inj.mp (by simpa using hlonger)⟩

theorem PartOf.overlaps (hq : p.PartOf q) (hbase : p.PartOf base) : q.Overlaps base := by
  obtain rfl | ⟨rest, hrest⟩ := hq
  · exact .inl hbase
  obtain rfl | ⟨rest', hrest'⟩ := hbase
  · exact .inr (.inr ⟨rest, hrest⟩)
  have hnames : q.name.toList ++ '.' :: rest.toList = base.name.toList ++ '.' :: rest'.toList := by
    simpa using congrArg String.toList (hrest.symm.trans hrest')
  -- the shorter of the two names is followed by a dot in the longer one
  obtain ⟨middle, hlonger, hmiddle⟩ | ⟨middle, hlonger, hmiddle⟩ := append_eq_append_iff.mp hnames
  · exact .inr (partOf_of_append hlonger hmiddle)
  · exact .inl (partOf_of_append hlonger hmiddle)

variable {a b : Path}

theorem not_overlaps_of_partOf (h : ¬ a.Overlaps b) (hp : p.PartOf a) (hq : q.PartOf b) : ¬ p.Overlaps q := by
  rintro (hpq | hqp)
  · exact h (hp.overlaps (hpq.trans hq))
  · exact h ((hqp.trans hp).overlaps hq)

theorem not_overlaps_append {base : String} (hx : '.' ∉ x.toList) (hy : '.' ∉ y.toList) (hne : x ≠ y) :
    ¬ Overlaps ⟨base ++ x⟩ ⟨base ++ y⟩ := by
  have hpart : ∀ {x y : String}, '.' ∉ x.toList → x ≠ y → ¬ PartOf ⟨base ++ x⟩ ⟨base ++ y⟩ := by
    rintro x y hx hne (heq | ⟨rest, hrest⟩)
    · have hlist := congrArg (fun path => path.name.toList) heq
      simp only [String.toList_append, append_cancel_left_eq] at hlist
      exact hne (String.toList_inj.mp hlist)
    · have hlist := congrArg String.toList hrest
      simp only [String.toList_append, append_assoc, append_cancel_left_eq] at hlist
      exact hx (by rw [hlist]; simp)
  exact fun h => h.elim (hpart hx hne) (hpart hy hne.symm)

end Path

theorem Cell.PartOf.path (h : c.PartOf base) : Path.PartOf ⟨c.name⟩ ⟨base.name⟩ := by
  obtain rfl | hrest := h
  · exact .refl _
  · exact .inr hrest

theorem Slot.member_partOf (slot : Slot) (field : String) : (slot.member field).cell.PartOf slot.cell :=
  .inr ⟨field, rfl⟩

theorem Slot.element_partOf (slot : Slot) (index : Nat) : (slot.element index).cell.PartOf slot.cell := by
  refine .inr ⟨"e" ++ toString index, ?_⟩
  simp only [element, String.append_assoc]
  rfl

def Slot.PartOf (part slot : Slot) : Prop := part.cell.PartOf slot.cell ∧ part.path.PartOf slot.path

theorem Slot.PartOf.refl (slot : Slot) : slot.PartOf slot := ⟨.refl _, .refl _⟩

theorem Slot.PartOf.trans {part middle slot : Slot} (h : part.PartOf middle) (h' : middle.PartOf slot) :
    part.PartOf slot :=
  ⟨h.1.trans h'.1, h.2.trans h'.2⟩

theorem Slot.partOf_member (slot : Slot) (field : String) : (slot.member field).PartOf slot :=
  ⟨slot.member_partOf field, .inr ⟨field, rfl⟩⟩

theorem Slot.partOf_element (slot : Slot) (index : Nat) : (slot.element index).PartOf slot := by
  refine ⟨slot.element_partOf index, .inr ⟨"e" ++ toString index, ?_⟩⟩
  simp only [element, String.append_assoc]
  rfl

def Slot.Apart (a b : Slot) : Prop := ∀ p q : Slot, p.PartOf a → q.PartOf b → p.cell ≠ q.cell ∧ ¬ p.path.Overlaps q.path

namespace Slot.Apart

variable {a b : Slot}

theorem mono (h : a.Apart b) {a' b' : Slot} (ha : a'.PartOf a) (hb : b'.PartOf b) : a'.Apart b' :=
  fun p q hp hq => h p q (hp.trans ha) (hq.trans hb)

theorem not_partOf (h : a.Apart b) : ¬ a.cell.PartOf b.cell := fun hpart =>
  (h a ⟨a.cell, b.path, false⟩ (.refl a) ⟨hpart, .refl _⟩).1 rfl

theorem not_overlaps (h : a.Apart b) : ¬ a.path.Overlaps b.path := (h a b (.refl a) (.refl b)).2

theorem of_append {c p : String} (hx : '.' ∉ x.toList) (hy : '.' ∉ y.toList) (hne : x ≠ y)
    (ha : a.cell = ⟨c ++ x⟩ ∧ a.path = ⟨p ++ x⟩) (hb : b.cell = ⟨c ++ y⟩ ∧ b.path = ⟨p ++ y⟩) : a.Apart b := by
  intro p q hp hq
  rw [PartOf, ha.1, ha.2] at hp
  rw [PartOf, hb.1, hb.2] at hq
  constructor
  · intro heq
    refine Path.not_overlaps_of_partOf (Path.not_overlaps_append hx hy hne) hp.1.path hq.1.path ?_
    exact heq ▸ .inl (.refl _)
  · exact Path.not_overlaps_of_partOf (Path.not_overlaps_append hx hy hne) hp.2 hq.2

theorem member (slot : Slot) (hx : '.' ∉ x.toList) (hy : '.' ∉ y.toList) (hne : x ≠ y) :
    (slot.member x).Apart (slot.member y) :=
  of_append hx hy hne ⟨rfl, rfl⟩ ⟨rfl, rfl⟩

theorem element (slot : Slot) (hne : i ≠ j) : (slot.element i).Apart (slot.element j) := by
  have hdot : ∀ n : Nat, '.' ∉ (toString n).toList := fun n hmem =>
    absurd (Cell.isDigit_of_mem_toString hmem) (by decide)
  exact of_append (hdot i) (hdot j) (fun h => hne (Cell.toString_injective h)) ⟨rfl, rfl⟩ ⟨rfl, rfl⟩

theorem ofVariable {frame : Nat} (hx : '.' ∉ x.toList) (hy : '.' ∉ y.toList) (hne : x ≠ y) :
    (Slot.ofVariable frame x).Apart (Slot.ofVariable frame y) :=
  of_append hx hy hne ⟨rfl, rfl⟩ ⟨rfl, rfl⟩

end Slot.Apart

end Datapack
