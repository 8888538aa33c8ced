import Datapack.Proofs.Printing.Spelling
import Datapack.Proofs.Report.Text

/-!
Lexemes and what is skipped between them make up a script. What may be skipped is told without the reader: blanks, and
comments that go from two slashes to the end of their line. String literals can denote every text, and the reader of
lexemes and the decoder of literals agree on where escapes and literals end.
-/

namespace Datapack.Syntax

open Text List

def Lexeme.Cut (source : Source) (lexeme : Lexeme) : Prop :=
  ∃ before after, divide? lexeme.span.start lexeme.span.stop source.chars = some (before, lexeme.text, after)

/-- Whether a text is made of blanks and of comments, each of which goes from two slashes up to a line feed. Only where
the script ends, a comment may end without one. -/
inductive Trivia (atEnd : Bool) : List Char → Prop
  | nil : Trivia atEnd []
  | blank {c : Char} {cs : List Char} : isBlank c = true → Trivia atEnd cs → Trivia atEnd (c :: cs)
  | comment {body rest : List Char} : '\n' ∉ body → Trivia atEnd ('\n' :: rest) →
      Trivia atEnd ('/' :: '/' :: (body ++ '\n' :: rest))
  | lastComment {body : List Char} : atEnd = true → '\n' ∉ body → Trivia atEnd ('/' :: '/' :: body)

/-- Whether a text is skipped where a comment is open: the comment goes on up to a line feed or to the end. -/
def CommentRest (atEnd : Bool) (cs : List Char) : Prop :=
  ∃ body, '\n' ∉ body ∧
    (cs = body ∧ atEnd = true ∨ ∃ rest, cs = body ++ '\n' :: rest ∧ Trivia atEnd ('\n' :: rest))

namespace CommentRest

variable {atEnd : Bool} {cs : List Char}

theorem newline (h : Trivia atEnd cs) : CommentRest atEnd ('\n' :: cs) :=
  ⟨[], by simp, .inr ⟨cs, rfl, .blank (by decide) h⟩⟩

theorem cons {c : Char} (hc : c ≠ '\n') (h : CommentRest atEnd cs) : CommentRest atEnd (c :: cs) := by
  obtain ⟨body, hbody, htail⟩ := h
  refine ⟨c :: body, by simp [hbody, hc.symm], ?_⟩
  obtain ⟨rfl, hend⟩ | ⟨rest, rfl, hrest⟩ := htail
  · exact .inl ⟨rfl, hend⟩
  · exact .inr ⟨rest, rfl, hrest⟩

theorem trivia (h : CommentRest atEnd ('/' :: cs)) : Trivia atEnd ('/' :: '/' :: cs) := by
  obtain ⟨body, hbody, ⟨heq, hend⟩ | ⟨rest, heq, hrest⟩⟩ := h
  · exact .lastComment hend (not_mem_of_not_mem_cons (heq ▸ hbody))
  · cases body with
    | nil => simp at heq
    | cons c body =>
      obtain ⟨rfl, rfl⟩ := List.cons.inj heq
      exact .comment (not_mem_of_not_mem_cons hbody) hrest

end CommentRest

theorem trivia_skipTrivia (inComment : Bool) (offset : Nat) (cs : List Char) :
    ∃ gap, cs = gap ++ (skipTrivia inComment offset cs).2 ∧
      (skipTrivia inComment offset cs).1 = offset + byteSize gap ∧
        bif inComment then CommentRest (skipTrivia inComment offset cs).2.isEmpty gap
        else Trivia (skipTrivia inComment offset cs).2.isEmpty gap := by
  fun_induction skipTrivia inComment offset cs with
  | case1 inComment offset =>
    refine ⟨[], rfl, rfl, ?_⟩
    cases inComment with
    | true => exact ⟨[], by simp, .inl ⟨rfl, rfl⟩⟩
    | false => exact .nil
  | case2 offset c cs ih =>
    obtain ⟨gap, hcs, hoffset, hgap⟩ := ih
    refine ⟨c :: gap, congrArg (c :: ·) hcs, by rw [hoffset, byteSize, Nat.add_assoc], ?_⟩
    by_cases hc : c = '\n'
    · subst hc
      exact .newline hgap
    · have hopen : (c != '\n') = true := by simpa using hc
      rw [hopen] at hgap ⊢
      exact .cons hc hgap
  | case3 offset c hblank => exact ⟨[c], rfl, rfl, .blank hblank .nil⟩
  | case4 | case7 => exact ⟨[], rfl, rfl, .nil⟩
  | case5 offset c d cs hblank ih =>
    obtain ⟨gap, hcs, hoffset, hgap⟩ := ih
    exact ⟨c :: gap, congrArg (c :: ·) hcs, by rw [hoffset, byteSize, Nat.add_assoc], .blank hblank hgap⟩
  | case6 offset c d cs _ hslashes ih =>
    obtain ⟨gap, hcs, hoffset, hgap⟩ := ih
    obtain ⟨rfl, rfl⟩ := hslashes
    refine ⟨'/' :: gap, congrArg ('/' :: ·) hcs, by rw [hoffset, byteSize, Nat.add_assoc], ?_⟩
    cases gap with
    | nil =>
      -- the second slash is skipped too, as it is no line feed
      obtain ⟨body, -, ⟨-, hend⟩ | ⟨rest, heq, -⟩⟩ := hgap
      · rw [List.isEmpty_iff.mp hend] at hcs
        cases hcs
      · simp at heq
    | cons c gap =>
      obtain ⟨rfl, -⟩ := List.cons.inj hcs
      exact hgap.trivia

/-- Whether a text that starts at a byte offset is made of lexemes and of what is skipped before, between and behind
them. Every lexeme has a text, and its span is where that text stands; behind the last one nothing but blanks and
comments are left up to where the text stops. -/
inductive Segments (stop : Nat) : Nat → List Char → List Lexeme → Prop
  | done {offset : Nat} {gap : List Char} : Trivia true gap → offset + byteSize gap = stop →
      Segments stop offset gap []
  | lexeme {offset : Nat} {gap rest : List Char} {lexeme : Lexeme} {ls : List Lexeme} : Trivia false gap →
      lexeme.text ≠ [] → lexeme.span.start = offset + byteSize gap →
        lexeme.span.stop = lexeme.span.start + byteSize lexeme.text → Segments stop lexeme.span.stop rest ls →
          Segments stop offset (gap ++ (lexeme.text ++ rest)) (lexeme :: ls)

theorem segments_lexemesFrom (bound offset : Nat) (cs : List Char) (hbound : cs.length ≤ bound) :
    Segments (offset + byteSize cs) offset cs (lexemesFrom bound offset cs) := by
  fun_induction lexemesFrom bound offset cs with
  | case1 offset cs =>
    cases eq_nil_of_length_eq_zero (Nat.le_zero.mp hbound)
    exact .done .nil rfl
  | case2 bound offset cs stop hskip =>
    obtain ⟨gap, hcs, -, hgap⟩ := trivia_skipTrivia false offset cs
    rw [hskip, append_nil] at hcs
    rw [hskip] at hgap
    exact .done (hcs ▸ hgap) rfl
  | case3 bound offset cs start c rest hskip reading stop ih =>
    obtain ⟨gap, hcs, hstart, hgap⟩ := trivia_skipTrivia false offset cs
    simp only [hskip] at hcs hstart hgap
    have hsplits : reading.Splits (c :: rest) := splits_readLexeme c rest
    have htaken := length_pos_iff.mpr hsplits.taken_ne
    rw [← hsplits.text_eq] at hcs
    have hlength : reading.rest.length ≤ bound := by
      simp only [hcs, length_append] at hbound
      omega
    have hstop : stop + byteSize reading.rest = offset + byteSize (gap ++ (reading.taken ++ reading.rest)) := by
      simp only [stop, hstart, byteSize_append, Nat.add_assoc]
    have hrest := hstop ▸ ih hlength
    subst hcs
    exact @Segments.lexeme _ _ _ _ ⟨_, ⟨_, _⟩, _⟩ _ hgap hsplits.taken_ne hstart rfl hrest

namespace Segments

variable {stop offset : Nat} {cs : List Char} {ls : List Lexeme} (h : Segments stop offset cs ls)

include h

theorem exists_gaps :
    ∃ gaps tail, List.Forall₂ (fun gap _ => Trivia false gap) gaps ls ∧ Trivia true tail ∧
      (List.zipWith (fun gap lexeme => gap ++ lexeme.text) gaps ls).flatten ++ tail = cs := by
  induction h with
  | @done _ gap hgap => exact ⟨[], gap, .nil, hgap, rfl⟩
  | @lexeme _ gap _ _ _ hgap _ _ _ _ ih =>
    obtain ⟨gaps, tail, hgaps, htail, rfl⟩ := ih
    exact ⟨gap :: gaps, tail, .cons hgap hgaps, htail, by simp [append_assoc]⟩

theorem start_le {lexeme : Lexeme} (hmem : lexeme ∈ ls) :
    offset ≤ lexeme.span.start ∧ lexeme.span.start < lexeme.span.stop := by
  induction h with
  | done => cases hmem
  | lexeme _ htext hstart hstop _ ih =>
    have hpos := byteSize_pos htext
    obtain rfl | hmem := mem_cons.mp hmem
    · omega
    · have := ih hmem
      omega

theorem exists_of_mem {lexeme : Lexeme} (hmem : lexeme ∈ ls) :
    ∃ pre post, cs = pre ++ (lexeme.text ++ post) ∧ offset + byteSize pre = lexeme.span.start ∧
      lexeme.span.start + byteSize lexeme.text = lexeme.span.stop := by
  induction h with
  | done => cases hmem
  | @lexeme _ gap rest first _ _ _ hstart hstop _ ih =>
    obtain rfl | hmem := mem_cons.mp hmem
    · exact ⟨gap, rest, rfl, hstart.symm, hstop.symm⟩
    · obtain ⟨pre, post, rfl, hpre, hpost⟩ := ih hmem
      exact ⟨gap ++ (first.text ++ pre), post, by simp, by simp only [byteSize_append]; omega, hpost⟩

theorem ordered : ls.Pairwise fun a b => a.span.stop ≤ b.span.start := by
  induction h with
  | done => exact .nil
  | lexeme _ _ _ _ hrest ih => exact .cons (fun _ hmem => (hrest.start_le hmem).1) ih

end Segments

theorem segments_lexemes (source : Source) : Segments source.size 0 source.chars (lexemes source) := by
  have h := segments_lexemesFrom source.chars.length 0 source.chars .refl
  rwa [Nat.zero_add, source.byteSize_chars] at h

variable {lexeme : Lexeme} {source : Source}

theorem Lexeme.cut_of_mem (h : lexeme ∈ lexemes source) : lexeme.span.Fits source ∧ lexeme.Cut source := by
  obtain ⟨pre, post, heq, hpre, hpost⟩ := (segments_lexemes source).exists_of_mem h
  rw [Nat.zero_add] at hpre
  refine ⟨.of_boundaries (by omega) ⟨pre, _, heq, hpre⟩ ⟨pre ++ lexeme.text, post, by simp [heq], ?_⟩, pre, post, ?_⟩
  · rw [byteSize_append, hpre, hpost]
  · rw [← hpost, ← hpre, heq, divide?_append]

theorem exists_splits_of_mem {bound offset : Nat} {cs : List Char} (h : lexeme ∈ lexemesFrom bound offset cs) :
    ∃ (reading : Reading) (text : List Char), reading.Splits text ∧ reading.outcome = lexeme.outcome ∧
      reading.taken = lexeme.text := by
  fun_induction lexemesFrom bound offset cs with
  | case1 | case2 => cases h
  | case3 bound offset cs start c rest hskip reading stop ih =>
    obtain rfl | h := mem_cons.mp h
    · exact ⟨_, _, splits_readLexeme c rest, rfl, rfl⟩
    · exact ih h

theorem isName_of_mem_lexemes (h : lexeme ∈ lexemes source) (hname : lexeme.outcome = .ok .identifier) :
    IsName (.ofList lexeme.text) := by
  obtain ⟨reading, text, hsplits, houtcome, htaken⟩ := exists_splits_of_mem h
  exact htaken ▸ hsplits.isName (houtcome.trans hname)

theorem exists_of_mem_lexemes (h : lexeme ∈ lexemes source) (hstring : lexeme.outcome = .ok .string) :
    ∃ inside text, Denotes inside text ∧ lexeme.text = '"' :: (inside ++ ['"']) := by
  obtain ⟨reading, text, hsplits, houtcome, htaken⟩ := exists_splits_of_mem h
  exact htaken ▸ hsplits.isLiteral (houtcome.trans hstring)

theorem unescape?_quoted (inside : List Char) :
    unescape? ('"' :: (inside ++ ['"'])) = some (unescapeInside inside) := by
  have hsize : byteSize ('"' :: (inside ++ ['"'])) - 1 = byteSize ['"'] + byteSize inside := by
    rw [byteSize, byteSize_append]
    change 1 + (byteSize inside + 1) - 1 = 1 + byteSize inside
    omega
  have hcut : divide? 1 (byteSize ('"' :: (inside ++ ['"'])) - 1) ('"' :: (inside ++ ['"'])) =
      some (['"'], inside, ['"']) := by
    rw [hsize]
    exact divide?_append ['"'] inside ['"']
  rw [unescape?, hcut]

theorem length_lexemesFrom (bound offset : Nat) (cs : List Char) : (lexemesFrom bound offset cs).length ≤ bound := by
  fun_induction lexemesFrom bound offset cs with
  | case1 | case2 => exact Nat.zero_le _
  | case3 => simpa using by assumption

/-- The lexemes of a script, tokens and faults alike, are finitely many. Their spans are not empty, cut the script
between characters and come one after the other; what stands between them is blanks and whole comments, and with it
their texts make up the script. Behind them the reader stands at the end of the script, with an empty span. -/
theorem lexemes_partition_source (source : Source) :
    Segments source.size 0 source.chars (lexemes source) ∧
    (lexemes source).length ≤ source.chars.length ∧
    (∀ lexeme ∈ lexemes source, lexeme.span.start < lexeme.span.stop ∧ lexeme.span.Fits source ∧
      lexeme.Cut source) ∧
    (lexemes source).Pairwise (fun a b => a.span.stop ≤ b.span.start) ∧
    (∃ gaps tail, List.Forall₂ (fun gap _ => Trivia false gap) gaps (lexemes source) ∧ Trivia true tail ∧
      (List.zipWith (fun gap lexeme => gap ++ lexeme.text) gaps (lexemes source)).flatten ++ tail = source.chars) ∧
    ∀ last text, Parse.next.run { Lexemes.of source with last, text, rest := [] } =
      .ok (.endOfFile, { Lexemes.of source with last := ⟨source.size, source.size⟩, text := [], rest := [] }) := by
  have hsegments := segments_lexemes source
  refine ⟨hsegments, length_lexemesFrom _ _ _, fun lexeme hmem => ?_, hsegments.ordered, hsegments.exists_gaps,
    fun _ _ => rfl⟩
  exact ⟨(hsegments.start_le hmem).2, Lexeme.cut_of_mem hmem⟩

def literal (inside : List Char) : List Char := '"' :: (inside ++ ['"'])

/-- What follows each backslash that is met where the inside of a literal is decoded: a character, or nothing if the
inside ends there. -/
def escapesMet : List Char → List (Option Char)
  | [] => []
  | ['\\'] => [none]
  | '\\' :: c :: cs => some c :: escapesMet cs
  | _ :: cs => escapesMet cs

namespace Denotes

variable {inside text : List Char} (h : Denotes inside text)
include h

theorem mem_escapesMet : ∀ met ∈ escapesMet inside, met = some '"' ∨ met = some '\\' ∨ met = some 'n' := by
  induction h with
  | nil => simp [escapesMet]
  | plain _ hslash _ ih => simpa [escapesMet, hslash] using ih
  | escaped hc _ ih => obtain rfl | rfl := hc <;> simpa [escapesMet] using ih
  | newline _ ih => simpa [escapesMet] using ih

theorem lexemesFrom_literal (bound offset : Nat) (more : List Char) :
    lexemesFrom (bound + 1) offset (literal inside ++ more) =
      ⟨.ok .string, ⟨offset, offset + byteSize (literal inside)⟩, literal inside⟩ ::
        lexemesFrom bound (offset + byteSize (literal inside)) more := by
  have htext : literal inside ++ more = '"' :: (inside ++ '"' :: more) := by simp [literal]
  rw [htext, lexemesFrom, skipTrivia_solid (by decide) (by simp)]
  simp [readLexeme, h.readString, literal]

end Denotes

/-- String literals can denote every text. A literal that denotes one is read as one string that covers exactly the
literal, wherever it stands and whatever follows, and is decoded to that text. And in decoding a string of a script no
escapes are met but those of quotes, backslashes and line feeds. -/
theorem literals_denote_texts :
    (∀ text, ∃ inside, Denotes inside text) ∧
    (∀ inside text, Denotes inside text → ∀ bound offset more,
      lexemesFrom (bound + 1) offset (literal inside ++ more) =
        ⟨.ok .string, ⟨offset, offset + byteSize (literal inside)⟩, literal inside⟩ ::
          lexemesFrom bound (offset + byteSize (literal inside)) more ∧
      unescape? (literal inside) = some text) ∧
    ∀ source, ∀ lexeme ∈ lexemes source, lexeme.outcome = .ok .string →
      ∃ inside, lexeme.text = literal inside ∧ unescape? lexeme.text = some (unescapeInside inside) ∧
        ∀ met ∈ escapesMet inside, met = some '"' ∨ met = some '\\' ∨ met = some 'n' := by
  refine ⟨fun text => ⟨_, Symbol.denotes_escape text⟩, fun inside text h bound offset more => ?_,
    fun source lexeme hmem hstring => ?_⟩
  · exact ⟨h.lexemesFrom_literal bound offset more, h.unescapeInside ▸ unescape?_quoted inside⟩
  · obtain ⟨inside, text, h, htext⟩ := exists_of_mem_lexemes hmem hstring
    exact ⟨inside, htext, htext ▸ unescape?_quoted inside, h.mem_escapesMet⟩

/-- The literal of a quote, a backslash, a kept and an escaped line feed. -/
theorem literals_denote_texts_mixed :
    Denotes ['\\', '"', '\\', '\\', '\n', '\\', 'n'] ['"', '\\', '\n', '\n'] ∧
      unescape? (literal ['\\', '"', '\\', '\\', '\n', '\\', 'n']) = some ['"', '\\', '\n', '\n'] := by
  have h : Denotes ['\\', '"', '\\', '\\', '\n', '\\', 'n'] ['"', '\\', '\n', '\n'] :=
    .escaped (.inl rfl) (.escaped (.inr rfl) (.plain (by decide) (by decide) (.newline .nil)))
  exact ⟨h, (literals_denote_texts.2.1 _ _ h 0 0 []).2⟩

end Datapack.Syntax
