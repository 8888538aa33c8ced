import Datapack.Scope.Basic
import Datapack.Syntax.Parser
import Mathlib.Data.List.Nodup

/-!
Where the parts of a script stand. Lexemes follow each other in the text, and words are told from keywords. The scopes
of a script are laid out where each stands inside another one or behind it, and what they bind is called by words that
are no keywords.
-/

namespace Datapack

open List

theorem Text.byteSize_append (a b : List Char) : byteSize (a ++ b) = byteSize a + byteSize b := by
  induction a with
  | nil => simp [byteSize]
  | cons c rest ih => simp [byteSize, ih, Nat.add_assoc]

theorem Text.byteSize_toList (text : String) : byteSize text.toList = text.utf8ByteSize := by
  have hencode : ∀ chars : List Char, chars.utf8Encode.size = byteSize chars := by
    intro chars
    induction chars with
    | nil => simp [byteSize]
    | cons c rest ih =>
      rw [← singleton_append, utf8Encode_append, ByteArray.size_append, ih, utf8Encode_singleton,
        size_toByteArray, String.length_utf8EncodeChar]
      rfl
  rw [← hencode, String.utf8ByteSize, ← String.toByteArray_ofList, String.ofList_toList]

/-- A scope of a script: its key, what opens it, and the keys of all scopes inside it in the order in which they open. -/
structure Nest where
  key : Span
  kind : ScopeKind
  inner : List Span

structure Nest.Encloses (nest : Nest) : Prop where
  nonempty : nest.key.start < nest.key.stop
  inner : ∀ key ∈ nest.inner, nest.key.start < key.start ∧ key.start < key.stop ∧ key.stop ≤ nest.key.stop

namespace Syntax

/-- Whether a text is a word that stands for itself: it is made of letters, digits and underscores and is no
keyword. -/
def IsName (name : String) : Prop :=
  Token.ofWord name.toList = .identifier ∧ ∀ c ∈ name.toList, isWordCharacter c = true

theorem skipTrivia_solid {c : Char} {cs : List Char} (hblank : Text.isBlank c = false)
    (hcomment : ¬ (c = '/' ∧ cs.head? = some '/'))
    (offset : Nat) : skipTrivia false offset (c :: cs) = (offset, c :: cs) := by
  cases cs with
  | nil => simp [skipTrivia, hblank]
  | cons d cs =>
    have hcomment : ¬ (c = '/' ∧ d = '/') := by simpa using hcomment
    rw [skipTrivia, if_neg (by simp [hblank]), if_neg hcomment]

/-- Whether the inside of a string literal denotes a text: each quote and each backslash of the text follows a backslash,
and each line feed is kept or stands as the letter n behind a backslash. -/
inductive Denotes : (inside text : List Char) → Prop
  | nil : Denotes [] []
  | plain {c : Char} {inside text : List Char} : c ≠ '"' → c ≠ '\\' → Denotes inside text →
      Denotes (c :: inside) (c :: text)
  | escaped {c : Char} {inside text : List Char} : c = '"' ∨ c = '\\' → Denotes inside text →
      Denotes ('\\' :: c :: inside) (c :: text)
  | newline {inside text : List Char} : Denotes inside text → Denotes ('\\' :: 'n' :: inside) ('\n' :: text)

namespace Denotes

variable {inside text : List Char}

theorem readString (h : Denotes inside text) (seen more : List Char) :
    readString seen (inside ++ '"' :: more) = ⟨.ok .string, seen.reverse ++ (inside ++ ['"']), more⟩ := by
  induction h generalizing seen with
  | nil => simp [Syntax.readString]
  | plain _ hslash _ ih => simp [Syntax.readString, hslash, ih]
  | escaped hc _ ih => obtain rfl | rfl := hc <;> simp [Syntax.readString, ih]
  | newline _ ih => simp [Syntax.readString, ih]

theorem unescapeInside (h : Denotes inside text) : unescapeInside inside = text := by
  induction h with
  | nil => rfl
  | plain _ hslash _ ih => simp [Syntax.unescapeInside, hslash, ih]
  | escaped hc _ ih => obtain rfl | rfl := hc <;> simp [Syntax.unescapeInside, ih]
  | newline _ ih => simp [Syntax.unescapeInside, ih]

end Denotes

/-- Whether a reading splits a text behind its first character, and what it takes for an identifier is a name, and what
it takes for a string is a literal that denotes a text. -/
structure Reading.Splits (r : Reading) (text : List Char) : Prop where
  text_eq : r.taken ++ r.rest = text
  taken_ne : r.taken ≠ []
  isName : r.outcome = .ok .identifier → IsName (.ofList r.taken)
  isLiteral : r.outcome = .ok .string → ∃ inside denoted, Denotes inside denoted ∧ r.taken = '"' :: (inside ++ ['"'])

theorem exists_of_readString (seen cs : List Char) :
    ∃ more, (readString seen cs).taken = seen.reverse ++ more ∧ more ++ (readString seen cs).rest = cs ∧
      (readString seen cs).outcome ≠ .ok .identifier ∧
      ((readString seen cs).outcome = .ok .string → ∃ inside text, Denotes inside text ∧ more = inside ++ ['"']) := by
  fun_induction readString seen cs with
  | case1 seen => exact ⟨[], by simp, rfl, by simp, by simp⟩
  | case3 seen => exact ⟨['\\'], by simp, rfl, by simp, by simp⟩
  | case5 seen c => exact ⟨['\\', c], by simp, rfl, by simp, by simp⟩
  | case2 seen rest => exact ⟨['"'], by simp, rfl, by simp, fun _ => ⟨[], [], .nil, rfl⟩⟩
  | case4 seen c rest hc ih =>
    obtain ⟨more, htaken, hrest, hword, hmore⟩ := ih
    refine ⟨'\\' :: c :: more, by simp [htaken], by simp [hrest], hword, fun hstring => ?_⟩
    obtain ⟨inside, text, htext, rfl⟩ := hmore hstring
    obtain hc | hc | rfl := hc
    · exact ⟨_, _, .escaped (.inl hc) htext, rfl⟩
    · exact ⟨_, _, .escaped (.inr hc) htext, rfl⟩
    · exact ⟨_, _, .newline htext, rfl⟩
  | case6 seen c rest hquote hlast hslash ih =>
    obtain ⟨more, htaken, hrest, hword, hmore⟩ := ih
    refine ⟨c :: more, by simp [htaken], by simp [hrest], hword, fun hstring => ?_⟩
    obtain ⟨inside, text, htext, rfl⟩ := hmore hstring
    refine ⟨_, _, .plain hquote (fun hc => ?_) htext, rfl⟩
    cases rest with
    | nil => exact hlast hc rfl
    | cons d rest => exact hslash d rest hc rfl

theorem splits_readString (cs : List Char) : (readString ['"'] cs).Splits ('"' :: cs) := by
  obtain ⟨more, htaken, hrest, hword, hstring⟩ := exists_of_readString ['"'] cs
  rw [reverse_singleton, singleton_append] at htaken
  refine ⟨by rw [htaken, cons_append, hrest], by simp [htaken], fun h => absurd h hword, fun h => ?_⟩
  obtain ⟨inside, text, htext, rfl⟩ := hstring h
  exact ⟨inside, text, htext, htaken⟩

theorem Token.ofWord_ne_string (word : List Char) : ofWord word ≠ .string := by
  have hwords : ∀ {p : Prop} [Decidable p] {token other : Token}, token ≠ .string → other ≠ .string →
      (if p then token else other) ≠ .string := by
    intro p _ token other htoken hother
    split
    · exact htoken
    · exact hother
  unfold ofWord
  repeat refine hwords (by decide) ?_
  decide

theorem splits_readNumber (first : Char) (cs : List Char) : (readNumber first cs).Splits (first :: cs) := by
  have hsplit := takeWhile_append_dropWhile (p := isDigit) (l := cs)
  unfold readNumber
  dsimp only
  split
  next d more hrest =>
    split
    · rw [hrest] at hsplit
      exact ⟨by simpa using hsplit, by simp, by simp, by simp⟩
    · exact ⟨by simp [hsplit], by simp, by simp, by simp⟩
  next => exact ⟨by simp [hsplit], by simp, by simp, by simp⟩

theorem splits_readWithEquals (first : Char) {plain compound : Token} (cs : List Char)
    (hplain : plain ≠ .identifier ∧ plain ≠ .string) (hcompound : compound ≠ .identifier ∧ compound ≠ .string) :
    (readWithEquals first plain compound cs).Splits (first :: cs) := by
  unfold readWithEquals
  split
  · exact ⟨by simp, by simp, by simp [hcompound], by simp [hcompound]⟩
  · exact ⟨by simp, by simp, by simp [hplain], by simp [hplain]⟩

theorem splits_readWord (c : Char) (cs : List Char) (hc : isWordCharacter c = true) :
    (Reading.mk (.ok (.ofWord (c :: cs.takeWhile isWordCharacter))) (c :: cs.takeWhile isWordCharacter)
      (cs.dropWhile isWordCharacter)).Splits (c :: cs) := by
  refine ⟨by simp [takeWhile_append_dropWhile], by simp, fun hword => ?_,
    fun h => absurd (Except.ok.inj h) (Token.ofWord_ne_string _)⟩
  rw [IsName, String.toList_ofList]
  exact ⟨Except.ok.inj hword, forall_mem_cons.mpr ⟨hc, fun d hd => all_eq_true.mp all_takeWhile d hd⟩⟩

theorem splits_readLexeme (c : Char) (cs : List Char) : (readLexeme c cs).Splits (c :: cs) := by
  unfold readLexeme
  dsimp only
  split
  case h_2 =>
    split
    · exact ⟨by simp, by simp, by simp, by simp⟩
    · exact splits_readWithEquals _ _ (by decide) (by decide)
  case h_20 => exact splits_readString cs
  case h_21 =>
    have hpair : ∀ d, cs.head? = some d → [c, d] ++ cs.drop 1 = c :: cs := by
      intro d hd
      cases cs with
      | nil => cases hd
      | cons e rest =>
        cases hd
        rfl
    split
    next h => exact ⟨hpair _ h.2, by simp, by simp, by simp⟩
    next =>
      split
      next h => exact ⟨hpair _ h.2, by simp, by simp, by simp⟩
      next =>
        split
        · exact splits_readNumber c cs
        · split
          next hc => exact splits_readWord c cs hc
          next => exact ⟨rfl, by simp, by simp, by simp⟩
  all_goals first
    | exact splits_readWithEquals _ cs (by decide) (by decide)
    | exact ⟨rfl, by simp, by simp, by simp⟩

theorem byteSize_pos {text : List Char} (h : text ≠ []) : 0 < Text.byteSize text := by
  cases text with
  | nil => exact absurd rfl h
  | cons c rest =>
    have := c.utf8Size_pos
    rw [Text.byteSize]
    omega

def Lexemes.pos (ls : Lexemes) : Nat := ls.last.stop

def Expr.root? : Expr → Option String
  | .var name _ => some name
  | .member base _ _ | .index base _ _ => base.root?
  | _ => none

def Expr.Rooted (e : Expr) : Prop := ∀ name, e.root? = some name → IsName name

variable {e : Expr}

theorem Expr.Rooted.withSpan (h : e.Rooted) (span : Span) : (e.withSpan span).Rooted := by
  cases e <;> exact h

theorem Expr.rooted_of_none (h : e.root? = none) : e.Rooted := by
  intro name hname
  rw [h] at hname
  cases hname

mutual

def Stmt.nests : Stmt → List Nest
  | .branch _ onTrue none _ => onTrue.nests .conditional
  | .branch _ onTrue (some onFalse) _ => onTrue.nests .conditional ++ onFalse.nests .conditional
  | .repeatWhile _ body _ | .forEach _ _ body _ => body.nests .loop
  | .block body _ => body.nests .block
  | .function decl _ => decl.nests (if decl.isInline then .inlineFunction else .function)
  | .struct _ _ methods body _ =>
    ⟨body, .struct, (Function.allNests methods).map Nest.key⟩ :: Function.allNests methods
  | .expr _ _ | .assign _ _ _ | .update _ _ _ _ | .destructure _ _ _ | .const _ _ _ | .return _ _ => []

def Block.nests (kind : ScopeKind) : Block → List Nest
  | ⟨stmts, span⟩ => ⟨span, kind, (Stmt.allNests stmts).map Nest.key⟩ :: Stmt.allNests stmts

def Function.nests (kind : ScopeKind) : Function → List Nest
  | ⟨_, _, _, _, _, body, _⟩ => body.nests kind

def Stmt.allNests : List Stmt → List Nest
  | [] => []
  | stmt :: rest => stmt.nests ++ Stmt.allNests rest

def Function.allNests : List Function → List Nest
  | [] => []
  | decl :: rest => decl.nests .inlineFunction ++ Function.allNests rest

end

mutual

def Stmt.parts : Stmt → List Stmt
  | .branch cond onTrue none span => .branch cond onTrue none span :: onTrue.parts
  | .branch cond onTrue (some onFalse) span =>
    .branch cond onTrue (some onFalse) span :: (onTrue.parts ++ onFalse.parts)
  | .repeatWhile cond body span => .repeatWhile cond body span :: body.parts
  | .forEach var items body span => .forEach var items body span :: body.parts
  | .block body span => .block body span :: body.parts
  | .function decl span => .function decl span :: decl.parts
  | .struct name fields methods body span => .struct name fields methods body span :: Function.allParts methods
  | .expr value span => [.expr value span]
  | .assign target value span => [.assign target value span]
  | .update target op value span => [.update target op value span]
  | .destructure names value span => [.destructure names value span]
  | .const name value span => [.const name value span]
  | .return value span => [.return value span]

def Block.parts : Block → List Stmt
  | ⟨stmts, _⟩ => Stmt.allParts stmts

def Function.parts : Function → List Stmt
  | ⟨_, _, _, _, _, body, _⟩ => body.parts

def Stmt.allParts : List Stmt → List Stmt
  | [] => []
  | stmt :: rest => stmt.parts ++ Stmt.allParts rest

def Function.allParts : List Function → List Stmt
  | [] => []
  | decl :: rest => decl.parts ++ Function.allParts rest

end

def Function.Named (decl : Function) : Prop := IsName decl.name ∧ ∀ param ∈ decl.params, IsName param.name

def Stmt.Named : Stmt → Prop
  | .assign target _ _ => IsName target.var
  | .destructure names _ _ => ∀ name ∈ names, IsName name.name
  | .const name _ _ => IsName name
  | .forEach var _ _ _ => IsName var.name
  | .function decl _ => decl.Named
  | .struct name fields methods _ _ =>
    IsName name ∧ (∀ field ∈ fields, IsName field.1) ∧ ∀ decl ∈ methods, decl.Named
  | _ => True

/-- Whether scopes stand between two places, each inside another one or behind it, and the statements inside them bind
names. -/
structure Laid (start stop : Nat) (nests : List Nest) (parts : List Stmt) : Prop where
  inside : ∀ nest ∈ nests, start ≤ nest.key.start ∧ nest.key.stop ≤ stop
  encloses : ∀ nest ∈ nests, nest.Encloses
  apart : nests.Pairwise fun nest later => later.key ∈ nest.inner ∨ nest.key.stop ≤ later.key.start
  listed : ∀ nest ∈ nests, nest.inner.Sublist (nests.map Nest.key)
  named : ∀ stmt ∈ parts, stmt.Named

namespace Laid

variable {start mid stop : Nat} {nests others : List Nest} {parts more : List Stmt}

theorem nil (start stop : Nat) : Laid start stop [] [] := ⟨by simp, by simp, .nil, by simp, by simp⟩

theorem mono {start' stop' : Nat} (h : Laid start stop nests parts) (hstart : start' ≤ start) (hstop : stop ≤ stop') :
    Laid start' stop' nests parts := by
  refine { h with inside := fun nest hnest => ?_ }
  obtain ⟨hle, hin⟩ := h.inside nest hnest
  exact ⟨Nat.le_trans hstart hle, Nat.le_trans hin hstop⟩

theorem append (h : Laid start mid nests parts) (h' : Laid mid stop others more) (hstart : start ≤ mid)
    (hstop : mid ≤ stop) : Laid start stop (nests ++ others) (parts ++ more) where
  inside := forall_mem_append.mpr
    ⟨(h.mono .refl hstop).inside, (h'.mono hstart .refl).inside⟩
  encloses := forall_mem_append.mpr ⟨h.encloses, h'.encloses⟩
  apart := pairwise_append.mpr ⟨h.apart, h'.apart, fun nest hnest later hlater =>
    .inr (Nat.le_trans (h.inside nest hnest).2 (h'.inside later hlater).1)⟩
  listed := by
    rw [map_append]
    exact forall_mem_append.mpr ⟨fun nest hnest => (h.listed nest hnest).trans (sublist_append_left _ _),
      fun nest hnest => (h'.listed nest hnest).trans (sublist_append_right _ _)⟩
  named := forall_mem_append.mpr ⟨h.named, h'.named⟩

theorem around {span : Span} (h : Laid mid stop nests parts) (kind : ScopeKind) (hstart : start ≤ span.start)
    (hmid : span.start < mid) (hstop : mid ≤ stop) (hend : span.stop = stop) :
    Laid start stop (⟨span, kind, nests.map Nest.key⟩ :: nests) parts where
  inside := forall_mem_cons.mpr ⟨⟨hstart, Nat.le_of_eq hend⟩, (h.mono (by omega) .refl).inside⟩
  encloses := by
    refine forall_mem_cons.mpr ⟨⟨hend ▸ Nat.lt_of_lt_of_le hmid hstop, fun key hkey => ?_⟩, h.encloses⟩
    obtain ⟨nest, hnest, rfl⟩ := mem_map.mp hkey
    obtain ⟨hfrom, hto⟩ := h.inside nest hnest
    exact ⟨Nat.lt_of_lt_of_le hmid hfrom, (h.encloses nest hnest).nonempty, hend ▸ hto⟩
  apart := pairwise_cons.mpr ⟨fun _ hnest => .inl (mem_map_of_mem hnest), h.apart⟩
  listed := forall_mem_cons.mpr ⟨sublist_cons_self _ _, fun nest hnest => (h.listed nest hnest).cons _⟩
  named := h.named

section

variable (h : Laid start stop nests parts)

include h

theorem stmt {stmt : Stmt} (hstmt : stmt.Named) : Laid start stop nests (stmt :: parts) :=
  { h with named := forall_mem_cons.mpr ⟨hstmt, h.named⟩ }

theorem distinct : (nests.map Nest.key).Nodup := by
  refine pairwise_map.mpr (h.apart.imp_of_mem fun {nest later} hnest _ hapart heq => ?_)
  obtain ⟨hnonempty, hinner⟩ := h.encloses nest hnest
  rw [← heq] at hapart
  obtain hmem | hle := hapart
  · exact Nat.lt_irrefl _ (hinner _ hmem).1
  · exact Nat.not_lt.mpr hle hnonempty

theorem zero_not_mem : Span.zero ∉ nests.map Nest.key := by
  intro hmem
  obtain ⟨nest, hnest, hzero⟩ := mem_map.mp hmem
  have hnonempty := (h.encloses nest hnest).nonempty
  rw [hzero] at hnonempty
  exact Nat.lt_irrefl 0 hnonempty

end

end Laid

theorem isName_of_ofExpr {target : Target} (he : e.Rooted) (h : Target.ofExpr e = .ok target) : IsName target.var := by
  suffices hroot : e.root? = some target.var from he _ hroot
  clear he
  fun_induction Target.ofExpr e generalizing target with
  | case1 name span => exact Except.ok.inj h ▸ rfl
  | case2 base name span var members hbase ih =>
    have hroot := ih hbase
    exact Except.ok.inj h ▸ hroot
  | case5 name span index => exact Except.ok.inj h ▸ rfl
  | case3 | case4 | case6 => cases h

end Syntax

end Datapack
