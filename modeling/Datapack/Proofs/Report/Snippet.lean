import Datapack.Proofs.Report.Text

/-!
Snippets. The report of a diagnostic shows the lines that its span touches, from the one that the span starts on, and
puts a caret under each character of the span. What belongs to the span is told by the offsets at which characters begin.
-/

namespace Datapack

open Text List

variable {offset number : Nat} {cs before after : List Char} {source : Source}

namespace Text

/-- The characters of a text that begin at offsets as asked for, where the text itself begins at a given one. -/
def portion (p : Nat → Prop) [DecidablePred p] : (offset : Nat) → List Char → List Char
  | _, [] => []
  | offset, c :: cs =>
    if p offset then c :: portion p (offset + c.utf8Size) cs else portion p (offset + c.utf8Size) cs

section Portion

variable {p : Nat → Prop} [DecidablePred p]

theorem portion_append (more : List Char) :
    portion p offset (cs ++ more) = portion p offset cs ++ portion p (offset + byteSize cs) more := by
  induction cs generalizing offset with
  | nil => rfl
  | cons c cs ih =>
    rw [cons_append, portion, portion, byteSize, ih, Nat.add_assoc]
    split <;> rfl

theorem portion_eq_self (h : ∀ o, offset ≤ o → o < offset + byteSize cs → p o) : portion p offset cs = cs := by
  induction cs generalizing offset with
  | nil => rfl
  | cons c cs ih =>
    have hc := c.utf8Size_pos
    rw [byteSize] at h
    rw [portion, if_pos (h offset .refl (by omega)), ih fun o hle hlt => h o (by omega) (by omega)]

theorem portion_eq_nil (h : ∀ o, offset ≤ o → o < offset + byteSize cs → ¬ p o) : portion p offset cs = [] := by
  induction cs generalizing offset with
  | nil => rfl
  | cons c cs ih =>
    have hc := c.utf8Size_pos
    rw [byteSize] at h
    rw [portion, if_neg (h offset .refl (by omega)), ih fun o hle hlt => h o (by omega) (by omega)]

end Portion

variable {start stop : Nat}

theorem portion_cover (hle : start ≤ stop) (offset : Nat) (cs : List Char) :
    portion (· < start) offset cs ++ (portion (fun o => start ≤ o ∧ o < stop) offset cs ++ portion (stop ≤ ·) offset cs) =
      cs := by
  induction cs generalizing offset with
  | nil => rfl
  | cons c cs ih =>
    have hrest := ih (offset + c.utf8Size)
    by_cases hstart : offset < start
    · simp only [portion, hstart, Nat.not_le.mpr hstart, show ¬ stop ≤ offset by omega, if_true, if_false, false_and,
        cons_append, hrest]
    rw [portion_eq_nil fun o _ _ => by omega, nil_append]
    by_cases hstop : offset < stop
    · rw [portion_eq_nil fun o _ _ => by omega, nil_append] at hrest
      simp only [portion, hstop, Nat.not_lt.mp hstart, Nat.not_le.mpr hstop, if_true, if_false, and_self,
        cons_append, hrest]
    · rw [portion_eq_nil fun o _ _ => by omega, portion_eq_self fun o _ _ => by omega, nil_append]

theorem divide?_clamp {part : List Char} (hstart : Boundary (before ++ (part ++ after)) start)
    (hstop : Boundary (before ++ (part ++ after)) stop) (hle : start ≤ stop) :
    divide? (clamp (byteSize before) (byteSize part) start) (clamp (byteSize before) (byteSize part) stop) part =
      some (portion (· < start) (byteSize before) part, portion (fun o => start ≤ o ∧ o < stop) (byteSize before) part,
        portion (stop ≤ ·) (byteSize before) part) := by
  obtain ⟨first, inside, last, rfl, hfirst, hinside⟩ :=
    hstart.clamp.split hstop.clamp (clamp_mono (byteSize before) (byteSize part) hle)
  rw [← hfirst, ← hinside, divide?_append]
  unfold clamp at hfirst hinside
  simp only [byteSize_append] at hfirst hinside
  have hbefore : portion (· < start) (byteSize before) (first ++ (inside ++ last)) = first := by
    rw [portion_append, portion_eq_self fun o _ _ => by omega, portion_eq_nil, append_nil]
    intro o hfrom hto
    rw [byteSize_append] at hto
    omega
  have hafter : portion (stop ≤ ·) (byteSize before) (first ++ (inside ++ last)) = last := by
    rw [portion_append, portion_append, portion_eq_nil fun o _ _ => by omega, portion_eq_nil fun o _ _ => by omega,
      portion_eq_self fun o _ _ => by omega, nil_append, nil_append]
  -- What is left of the text between its first and its last portion is the part inside.
  have hcover := portion_cover hle (byteSize before) (first ++ (inside ++ last))
  rw [hbefore, hafter] at hcover ⊢
  rw [append_cancel_right (append_cancel_left hcover)]

end Text

theorem Source.position?_of_append (h : source.chars = before ++ after) :
    source.position? (byteSize before) = some (positionAfter before) := by
  have hle : byteSize before ≤ source.size := by
    rw [← source.byteSize_chars, h, byteSize_append]
    exact Nat.le_add_right _ _
  rw [position?, Nat.min_eq_left hle, h, splitAtByte?_append]

theorem Source.isSome_position? (h : Boundary source.chars offset) : (source.position? offset).isSome = true := by
  obtain ⟨before, after, hchars, rfl⟩ := h
  rw [position?_of_append hchars]
  rfl

/-- Whether a position comes before another one: on an earlier line, or further left on the same one. -/
def Position.Before (p q : Position) : Prop := p.line < q.line ∨ p.line = q.line ∧ p.column < q.column

theorem Source.positionAfter_before (before : List Char) {more : List Char} (h : more ≠ []) :
    (positionAfter before).Before (positionAfter (before ++ more)) := by
  have hpos := length_pos_iff.mpr h
  by_cases hfeed : '\n' ∈ more
  · left
    simp only [positionAfter, count_append]
    exact Nat.add_lt_add_right (Nat.lt_add_of_pos_right (count_pos_iff.mpr hfeed)) 1
  · have hall : ∀ c ∈ more.reverse, (c != '\n') = true := fun c hc => by
      simpa using fun heq : c = '\n' => hfeed (heq ▸ mem_reverse.mp hc)
    refine .inr ⟨?_, ?_⟩
    · simp only [positionAfter, count_append, count_eq_zero.mpr hfeed, Nat.add_zero]
    · simp only [positionAfter, reverse_append, takeWhile_append_of_pos hall, length_append,
        length_reverse]
      omega

namespace Diagnostic

variable {span : Span} {lineStart : Nat} {d : Diagnostic}

/-- The rows of one line: the line, with the part that the span covers highlighted, and the carets below it. -/
def rows (colours : Bool) (gutter : Nat) (span : Span) (number lineStart : Nat) (line : List Char) : String :=
  let bar := Highlight.faint.paint colours "|"
  let before := portion (· < span.start) lineStart line
  let inside := portion (fun o => span.start ≤ o ∧ o < span.stop) lineStart line
  " " ++ Highlight.faint.paint colours (padLeft gutter (toString number)) ++ " " ++ bar ++ " " ++
    String.ofList before ++ Highlight.offending.paint colours (String.ofList inside) ++
    String.ofList (portion (span.stop ≤ ·) lineStart line) ++ "\n" ++
  " " ++ padLeft gutter "" ++ " " ++ bar ++ " " ++ String.ofList (List.replicate before.length ' ') ++
    Highlight.caret.paint colours (String.ofList (List.replicate (max inside.length 1) '^')) ++ "\n"

def numbered : (number lineStart : Nat) → List (List Char) → List (Nat × Nat × List Char)
  | _, _, [] => []
  | number, lineStart, line :: more =>
    (number, lineStart, line) :: numbered (number + 1) (lineStart + byteSize line) more

theorem le_of_mem_numbered {lines : List (List Char)} {x : Nat × Nat × List Char}
    (h : x ∈ numbered number lineStart lines) : number ≤ x.1 ∧ lineStart ≤ x.2.1 := by
  induction lines generalizing number lineStart with
  | nil => cases h
  | cons line more ih =>
    obtain rfl | h := mem_cons.mp h
    · exact ⟨.refl, .refl⟩
    · have hrest := ih h
      omega

/-- Whether a line is shown for a span that starts on a given line: that line is, and so are those after it that begin
before the end of the span. -/
def IsShown (span : Span) (first : Nat) (x : Nat × Nat × List Char) : Prop :=
  x.1 = first ∨ first < x.1 ∧ x.2.1 < span.stop

instance (span : Span) (first : Nat) : DecidablePred (IsShown span first) := fun _ => inferInstanceAs (Decidable (_ ∨ _))

theorem snippetLine?_eq (colours : Bool) (gutter number : Nat) {line : List Char} (hordered : span.start ≤ span.stop)
    (hstart : Boundary (before ++ (line ++ after)) span.start)
    (hstop : Boundary (before ++ (line ++ after)) span.stop) :
    snippetLine? colours gutter span number (byteSize before) line =
      some (rows colours gutter span number (byteSize before) line) := by
  have hcut := divide?_clamp hstart hstop hordered
  unfold clamp at hcut
  unfold snippetLine?
  simp only [hcut]
  rfl

def shownRows (colours : Bool) (gutter : Nat) (span : Span) (first : Nat) (lines : List (Nat × Nat × List Char)) : String :=
  String.join ((lines.filter (IsShown span first)).map fun x => rows colours gutter span x.1 x.2.1 (trimLineEnd x.2.2))

theorem snippet?_eq (colours : Bool) (gutter : Nat) (hordered : span.start ≤ span.stop)
    (hstart : Boundary cs span.start) (hstop : Boundary cs span.stop) (lines : List (List Char)) {first : Nat}
    (hcs : cs = before ++ lines.flatten) (hfirst : first ≤ number) :
    snippet? colours gutter span (number == first) number (byteSize before) lines =
      some (shownRows colours gutter span first (numbered number (byteSize before) lines)) := by
  induction lines generalizing number before with
  | nil => rfl
  | cons line more ih =>
    rw [snippet?]
    split
    next hend =>
      have hnone : (numbered number (byteSize before) (line :: more)).filter (IsShown span first) = [] := by
        refine filter_eq_nil_iff.mpr fun x hx hshown => ?_
        have hle := le_of_mem_numbered hx
        have hshown : IsShown span first x := of_decide_eq_true hshown
        simp only [Bool.and_eq_true, Bool.not_eq_true', beq_eq_false_iff_ne, decide_eq_true_eq] at hend
        unfold IsShown at hshown
        omega
      rw [shownRows, hnone]
      rfl
    next hmore =>
      obtain ⟨ending, hline⟩ := exists_eq_trimLineEnd_append line
      have htrimmed : cs = before ++ (trimLineEnd line ++ (ending ++ more.flatten)) := by
        rw [hcs, flatten_cons, ← append_assoc (trimLineEnd line), ← hline]
      have hshown : IsShown span first (number, byteSize before, line) := by
        simp only [Bool.and_eq_true, Bool.not_eq_true', beq_eq_false_iff_ne, decide_eq_true_eq] at hmore
        unfold IsShown
        dsimp only
        omega
      have hrest : snippet? colours gutter span (number + 1 == first) (number + 1) (byteSize (before ++ line)) more = _ :=
        ih (by simp [hcs]) (by omega)
      have hlater : (number + 1 == first) = false := beq_eq_false_iff_ne.mpr (by omega)
      rw [hlater, byteSize_append] at hrest
      simp only [snippetLine?_eq colours gutter number hordered (htrimmed ▸ hstart) (htrimmed ▸ hstop), hrest]
      simp only [shownRows, numbered, filter_cons, hshown, decide_true, if_true, map_cons, String.join_cons]

theorem shownRows_append (colours : Bool) (gutter first : Nat) (lines others : List (List Char))
    (h : number + lines.length ≤ first) :
    shownRows colours gutter span first (numbered number lineStart (lines ++ others)) =
      shownRows colours gutter span first (numbered (number + lines.length) (lineStart + byteSize lines.flatten) others) := by
  induction lines generalizing number lineStart with
  | nil => rfl
  | cons line more ih =>
    rw [length_cons] at h
    have hnot : ¬ IsShown span first (number, lineStart, line) := by
      unfold IsShown
      dsimp only
      omega
    have hrest := @ih (number + 1) (lineStart + byteSize line) (by omega)
    rw [shownRows, cons_append, numbered, filter_cons_of_neg (by simpa using hnot), ← shownRows, hrest,
      flatten_cons, byteSize_append, length_cons, Nat.add_assoc number, Nat.add_comm 1, Nat.add_assoc]

theorem length_lines_le (cs : List Char) : cs.count '\n' ≤ (lines cs).length := by
  fun_induction lines cs with
  | case1 => exact Nat.le_refl 0
  | case2 cs ih => simpa using ih
  | case3 c cs hc hnil ih => simp_all
  | case4 c cs hc line more hlines ih => simp_all

theorem render?_eq (h : d.span.Fits source) (colours : Bool) :
    ∃ start, source.position? d.span.start = some start ∧ d.render? colours source =
      some (header colours source d start ++
        shownRows colours (toString (start.line + (lines source.chars).length)).length d.span start.line
          (numbered 1 0 (lines source.chars))) := by
  obtain ⟨before, after, hchars, hstart⟩ := h.start
  refine ⟨Source.positionAfter before, hstart ▸ Source.position?_of_append hchars, ?_⟩
  have hcount : before.count '\n' ≤ (lines source.chars).length := by
    refine Nat.le_trans ?_ (length_lines_le _)
    rw [hchars, count_append]
    exact Nat.le_add_right _ _
  have hlength : ((lines source.chars).take (before.count '\n')).length = before.count '\n' :=
    length_take_of_le hcount
  have hlines : source.chars = ((lines source.chars).take (before.count '\n')).flatten ++
      ((lines source.chars).drop (before.count '\n')).flatten := by
    rw [← flatten_append, take_append_drop, flatten_lines]
  have hbody := snippet?_eq colours (toString (before.count '\n' + 1 + (lines source.chars).length)).length h.ordered
    h.start h.stop _ hlines (Nat.le_refl (before.count '\n' + 1))
  have hskip := @shownRows_append 1 d.span 0 colours (toString (before.count '\n' + 1 + (lines source.chars).length)).length
    (before.count '\n' + 1) ((lines source.chars).take (before.count '\n')) ((lines source.chars).drop (before.count '\n'))
    (by omega)
  rw [take_append_drop, hlength, Nat.zero_add, Nat.add_comm 1] at hskip
  rw [render?, ← hstart, Source.position?_of_append hchars]
  rw [beq_self_eq_true] at hbody
  simp only [Source.positionAfter, Nat.add_sub_cancel, hbody, hskip]

theorem isSome_render? (h : d.span.Fits source) (colours : Bool) : (d.render? colours source).isSome = true := by
  obtain ⟨start, -, hrender⟩ := render?_eq h colours
  rw [hrender]
  rfl

/-- The rows of one line without colours: the line without its ending, and below it a blank for each character before
the span and a caret for each character of the span, or one caret if there is none. -/
def plainRows (gutter : Nat) (span : Span) (x : Nat × Nat × List Char) : String :=
  " " ++ padLeft gutter (toString x.1) ++ " " ++ "|" ++ " " ++ String.ofList (trimLineEnd x.2.2) ++ "\n" ++
  " " ++ padLeft gutter "" ++ " " ++ "|" ++ " " ++
    String.ofList (List.replicate (portion (· < span.start) x.2.1 (trimLineEnd x.2.2)).length ' ') ++
    String.ofList (List.replicate (max
      (portion (fun o => span.start ≤ o ∧ o < span.stop) x.2.1 (trimLineEnd x.2.2)).length 1) '^') ++ "\n"

theorem rows_plain (gutter : Nat) (h : span.start ≤ span.stop) (x : Nat × Nat × List Char) :
    rows false gutter span x.1 x.2.1 (trimLineEnd x.2.2) = plainRows gutter span x := by
  have hline : ∀ text : String, text ++ String.ofList (portion (· < span.start) x.2.1 (trimLineEnd x.2.2)) ++
      String.ofList (portion (fun o => span.start ≤ o ∧ o < span.stop) x.2.1 (trimLineEnd x.2.2)) ++
      String.ofList (portion (span.stop ≤ ·) x.2.1 (trimLineEnd x.2.2)) = text ++ String.ofList (trimLineEnd x.2.2) := by
    intro text
    rw [String.append_assoc, String.append_assoc, ← String.ofList_append, ← String.ofList_append, portion_cover h]
  have hpaint : ∀ (style : Highlight) (text : String), style.paint false text = text := fun _ _ => rfl
  unfold rows plainRows
  dsimp only
  rw [hpaint, hpaint, hpaint, hpaint, hline]

/-- The report of a span that cuts a script between characters, without colours: a header with the line and the column
of the start, then two rows for each line from that of the start up to the last one that begins before the end of the
span. Positions grow with offsets. -/
theorem report_underlines_span {source : Source} {d : Diagnostic} (h : d.span.Fits source) :
    (∃ start, source.position? d.span.start = some start ∧ d.render? false source =
      some (d.heading ++ ": " ++ d.message ++ "\n" ++ "in" ++ " " ++ source.name ++ ":" ++ toString start.line ++ ":" ++
        toString start.column ++ "\n" ++
        String.join (((numbered 1 0 (lines source.chars)).filter (IsShown d.span start.line)).map
          (plainRows (toString (start.line + (lines source.chars).length)).length d.span)))) ∧
    ∀ a b, Boundary source.chars a → Boundary source.chars b → a < b →
      ∃ p q, source.position? a = some p ∧ source.position? b = some q ∧ p.Before q := by
  constructor
  · obtain ⟨start, hstart, hrender⟩ := render?_eq h false
    refine ⟨start, hstart, hrender.trans ?_⟩
    rw [shownRows, List.map_congr_left fun x _ => rows_plain _ h.ordered x]
    rfl
  · rintro a b ha hb hlt
    obtain ⟨before, inside, after, hchars, rfl, rfl⟩ := ha.split hb (Nat.le_of_lt hlt)
    have hinside : inside ≠ [] := by
      rintro rfl
      simp [byteSize] at hlt
    refine ⟨_, _, Source.position?_of_append hchars, ?_, Source.positionAfter_before before hinside⟩
    rw [← byteSize_append]
    exact Source.position?_of_append (hchars.trans (List.append_assoc ..).symm)

/-- A script of two lines, the first of which ends with a carriage return, and a span from one to the other. -/
theorem report_underlines_span_twice :
    Diagnostic.render? false ⟨"pair", "ab\r\néf"⟩ ⟨"Type Error", "odd", ⟨1, 6⟩⟩ =
      some "Type Error: odd\nin pair:1:2\n 1 | ab\n   |  ^\n 2 | éf\n   | ^\n" := by
  have hfits : Span.Fits ⟨"pair", "ab\r\néf"⟩ ⟨1, 6⟩ :=
    .of_boundaries (by decide) ⟨['a'], ['b', '\r', '\n', 'é', 'f'], by rfl, by rfl⟩
      ⟨['a', 'b', '\r', '\n', 'é'], ['f'], by rfl, by rfl⟩
  obtain ⟨start, hstart, hrender⟩ := (@report_underlines_span _ ⟨"Type Error", "odd", ⟨1, 6⟩⟩ hfits).1
  obtain rfl : Position.mk 1 2 = start := Option.some.inj hstart
  rw [hrender]
  decide +kernel

end Diagnostic

end Datapack
