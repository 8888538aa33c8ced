import Datapack.Proofs.Address
import Datapack.Proofs.Layout
import Datapack.Proofs.Printing.Text
import Mathlib.Data.List.Forall2

/-!
The lexemes of a printed script. Every symbol is read as the lexeme it stands for if a blank follows, so the lexemes of
the text are the symbols in their order.
-/

namespace Datapack.Syntax

open Text List

structure Lexeme.Spells (lexeme : Lexeme) (symbol : Symbol) : Prop where
  outcome : lexeme.outcome = .ok symbol.token
  text : lexeme.text = symbol.text

namespace Symbol

def Readable (symbol : Symbol) : Prop :=
  ∃ c cs, symbol.text = c :: cs ∧ isBlank c = false ∧ ¬ (c = '/' ∧ cs.head? = some '/') ∧
    ∀ more, readLexeme c (cs ++ ' ' :: more) = ⟨.ok symbol.token, c :: cs, ' ' :: more⟩

def isFixed : Token → Bool
  | .int | .decimal | .string | .identifier | .endOfFile => false
  | _ => true

theorem readable_sign {token : Token} (h : isFixed token = true) : (sign token).Readable := by
  cases token
  case int | decimal | string | identifier | endOfFile => cases h
  all_goals exact ⟨_, _, rfl, by decide, by decide, fun _ => rfl⟩

variable {cs : List Char} {c : Char} {blanks : List Char}

theorem takeWhile_append_blank {p : Char → Bool} (hblank : p ' ' = false) (h : cs.all p = true) (more : List Char) :
    (cs ++ ' ' :: more).takeWhile p = cs ∧ (cs ++ ' ' :: more).dropWhile p = ' ' :: more := by
  induction cs with
  | nil => simp [hblank]
  | cons c cs ih =>
    simp only [all_cons, Bool.and_eq_true] at h
    simp [h.1, ih h.2]

theorem readLexeme_word (hdigit : isDigit c = false) (hword : isWordCharacter c = true) (cs : List Char) :
    readLexeme c cs =
      ⟨.ok (.ofWord (c :: cs.takeWhile isWordCharacter)), c :: cs.takeWhile isWordCharacter,
        cs.dropWhile isWordCharacter⟩ := by
  unfold readLexeme
  dsimp only
  split
  case h_21 =>
    have hand : c ≠ '&' := by rintro rfl; exact absurd hword (by decide)
    have hor : c ≠ '|' := by rintro rfl; exact absurd hword (by decide)
    simp [hand, hor, hdigit, hword]
  all_goals exact absurd hword (by decide)

theorem readLexeme_digit (hdigit : isDigit c = true) (cs : List Char) : readLexeme c cs = readNumber c cs := by
  unfold readLexeme
  dsimp only
  split
  case h_21 =>
    have hand : c ≠ '&' := by rintro rfl; exact absurd hdigit (by decide)
    have hor : c ≠ '|' := by rintro rfl; exact absurd hdigit (by decide)
    simp [hand, hor, hdigit]
  all_goals exact absurd hdigit (by decide)

theorem not_trivia_of_word (h : isWordCharacter c = true) (cs : List Char) :
    isBlank c = false ∧ ¬ (c = '/' ∧ cs.head? = some '/') := by
  constructor
  · simp only [isWordCharacter, Bool.or_eq_true, Bool.and_eq_true, decide_eq_true_eq, beq_iff_eq, Char.le_def,
      UInt32.le_iff_toNat_le, ← Char.toNat_inj] at h
    change (((97 ≤ c.toNat ∧ c.toNat ≤ 122) ∨ (65 ≤ c.toNat ∧ c.toNat ≤ 90)) ∨ (48 ≤ c.toNat ∧ c.toNat ≤ 57)) ∨
      c.toNat = 95 at h
    simp [isBlank]
    omega
  · rintro ⟨rfl, -⟩
    exact absurd h (by decide)

theorem readable_word {name : String} (h : isIdentifier name = true) : (word name).Readable := by
  unfold isIdentifier at h
  split at h
  · cases h
  next c cs hname =>
    simp only [Bool.and_eq_true, Bool.not_eq_true', beq_iff_eq, all_cons] at h
    obtain ⟨⟨hdigit, hword, hwords⟩, htoken⟩ := h
    refine ⟨c, cs, hname, (not_trivia_of_word hword cs).1, (not_trivia_of_word hword cs).2, fun more => ?_⟩
    obtain ⟨htake, hdrop⟩ := takeWhile_append_blank (p := isWordCharacter) (by decide) hwords more
    rw [readLexeme_word hdigit hword, htake, hdrop, htoken]
    rfl

theorem readable_number (n : Nat) : (number n).Readable := by
  have hdigits : ∀ c ∈ (toString n).toList, isDigit c = true := fun c hc => Cell.isDigit_of_mem_toString hc
  cases htext : (toString n).toList with
  | nil =>
    rw [Nat.toString_eq_repr, Nat.toList_repr] at htext
    exact absurd htext (Nat.toDigits_ne_nil)
  | cons c cs =>
    rw [htext, forall_mem_cons] at hdigits
    have hword : isWordCharacter c = true := by
      have := hdigits.1
      simp only [isDigit, Bool.and_eq_true] at this
      simp [isWordCharacter, this.1, this.2]
    refine ⟨c, cs, htext, (not_trivia_of_word hword cs).1, (not_trivia_of_word hword cs).2, fun more => ?_⟩
    obtain ⟨htake, hdrop⟩ := takeWhile_append_blank (p := isDigit) (by decide) (all_eq_true.mpr hdigits.2) more
    rw [readLexeme_digit hdigits.1, readNumber, htake, hdrop]
    rfl

theorem denotes_escape (cs : List Char) : Denotes (escape cs) cs := by
  induction cs with
  | nil => exact .nil
  | cons c cs ih =>
    rw [escape]
    split
    next h => exact h ▸ .escaped (.inl h) ih
    next hquote =>
      split
      next h => exact h ▸ .escaped (.inr h) ih
      next hslash =>
        split
        next h => exact h ▸ .newline ih
        next => exact .plain hquote hslash ih

theorem readable_quoted (value : String) : (quoted value).Readable := by
  refine ⟨'"', escape value.toList ++ ['"'], rfl, by decide, by simp, fun more => ?_⟩
  have hread := (denotes_escape value.toList).readString ['"'] (' ' :: more)
  simpa [readLexeme, quoted] using hread

theorem exists_skipTrivia (hblanks : blanks = [] ∨ blanks = [' ']) (hblank : isBlank c = false)
    (hcomment : ¬ (c = '/' ∧ cs.head? = some '/')) (offset : Nat) :
    ∃ start, skipTrivia false offset (blanks ++ c :: cs) = (start, c :: cs) := by
  obtain rfl | rfl := hblanks
  · exact ⟨offset, skipTrivia_solid hblank hcomment offset⟩
  · refine ⟨offset + 1, ?_⟩
    change skipTrivia false offset (' ' :: c :: cs) = _
    rw [skipTrivia, if_pos (by decide)]
    exact skipTrivia_solid hblank hcomment (offset + 1)

theorem spells_lexemesFrom {symbols : List Symbol} (h : ∀ symbol ∈ symbols, symbol.Readable) {bound : Nat}
    (hbound : symbols.length ≤ bound) (offset : Nat) (hblanks : blanks = [] ∨ blanks = [' ']) :
    List.Forall₂ Lexeme.Spells (lexemesFrom bound offset (blanks ++ spell symbols)) symbols := by
  induction symbols generalizing bound offset blanks with
  | nil =>
    have hnone : lexemesFrom bound offset (blanks ++ spell []) = [] := by
      obtain rfl | rfl := hblanks <;> cases bound <;> rfl
    rw [hnone]
    exact .nil
  | cons symbol rest ih =>
    rw [forall_mem_cons] at h
    obtain ⟨⟨c, cs, htext, hblank, hcomment, hread⟩, hrest⟩ := h
    have hcs : spell (symbol :: rest) = c :: (cs ++ ' ' :: spell rest) := by simp [spell, htext]
    have hcomment' : ¬ (c = '/' ∧ (cs ++ ' ' :: spell rest).head? = some '/') := by
      cases cs with
      | nil => simp
      | cons d cs => simpa using hcomment
    obtain ⟨start, hskip⟩ := exists_skipTrivia hblanks hblank hcomment' offset
    cases bound with
    | zero => exact absurd hbound (Nat.not_succ_le_zero _)
    | succ bound =>
      rw [hcs, lexemesFrom, hskip]
      dsimp only
      rw [hread]
      exact .cons ⟨rfl, htext.symm⟩ (ih hrest (Nat.le_of_succ_le_succ hbound) _ (.inr rfl))

end Symbol

def AllReadable (symbols : List Symbol) : Prop := ∀ symbol ∈ symbols, symbol.Readable

namespace AllReadable

open Syntax.Symbol

variable {symbol : Symbol} {symbols others : List Symbol}

theorem nil : AllReadable [] := by simp [AllReadable]

theorem cons (h : symbol.Readable) (hs : AllReadable symbols) : AllReadable (symbol :: symbols) :=
  forall_mem_cons.mpr ⟨h, hs⟩

theorem sign {token : Token} (h : isFixed token = true) (hs : AllReadable symbols) :
    AllReadable (.sign token :: symbols) := cons (readable_sign h) hs

theorem word {name : String} (h : isIdentifier name = true) (hs : AllReadable symbols) :
    AllReadable (.word name :: symbols) := cons (readable_word h) hs

theorem append (h : AllReadable symbols) (h' : AllReadable others) : AllReadable (symbols ++ others) :=
  forall_mem_append.mpr ⟨h, h'⟩

theorem enclosed (h : AllReadable symbols) (needed : Bool) : AllReadable (Symbol.enclosed needed symbols) := by
  cases needed
  · exact h
  · exact sign rfl (h.append (sign rfl nil))

theorem commas {items : List (List Symbol)} (h : ∀ item ∈ items, AllReadable item) :
    AllReadable (Symbol.commas items) := by
  fun_induction Symbol.commas items with
  | case1 => exact nil
  | case2 item => exact h item (.head _)
  | case3 item other rest ih =>
    rw [forall_mem_cons] at h
    exact h.1.append (sign rfl (ih h.2))

theorem flatMap {α : Type} {items : List α} {f : α → List Symbol} (h : ∀ item ∈ items, AllReadable (f item)) :
    AllReadable (items.flatMap f) := by
  intro symbol hsymbol
  obtain ⟨item, hitem, hsymbol⟩ := mem_flatMap.mp hsymbol
  exact h item hitem symbol hsymbol

end AllReadable

theorem isFixed_binary (op : BinaryOp) : Symbol.isFixed op.token = true := by cases op <;> rfl

theorem isFixed_unary (op : UnaryOp) : Symbol.isFixed op.token = true := by cases op <;> rfl

mutual

theorem Expr.readable_symbols : ∀ (level : Nat) (e : Expr), e.isPrintable = true → AllReadable (e.symbols level)
  | _, .int value _, _ => .cons (Symbol.readable_number _) .nil
  | _, .decimal _ _, h => by cases h
  | _, .string value _, _ => .cons (Symbol.readable_quoted value) .nil
  | _, .bool true _, _ => .sign rfl .nil
  | _, .bool false _, _ => .sign rfl .nil
  | _, .null _, _ => .sign rfl .nil
  | _, .var name _, h => .word h .nil
  | level, .unary op operand _, h => by
    rw [Expr.symbols]
    exact .enclosed (.sign (isFixed_unary op) (operand.readable_symbols _ h)) _
  | level, .binary left op right _, h => by
    rw [Expr.isPrintable, Bool.and_eq_true] at h
    rw [Expr.symbols]
    refine .enclosed (.append (left.readable_symbols _ h.1) ?_) _
    exact .sign (isFixed_binary op) (right.readable_symbols _ h.2)
  | _, .index base subscript _, h => by
    rw [Expr.isPrintable, Bool.and_eq_true] at h
    rw [Expr.symbols]
    refine .append (base.readable_symbols _ h.1) (.sign rfl ?_)
    exact .append (subscript.readable_symbols _ h.2) (.sign rfl .nil)
  | _, .member base name _, h => by
    rw [Expr.isPrintable, Bool.and_eq_true] at h
    rw [Expr.symbols]
    exact .append (base.readable_symbols _ h.1) (.sign rfl (.word h.2 .nil))
  | _, .call callee args _, h => by
    rw [Expr.isPrintable, Bool.and_eq_true] at h
    rw [Expr.symbols]
    refine .append (callee.readable_symbols _ h.1) (.sign rfl ?_)
    exact .append (.commas (Expr.readable_listed args h.2)) (.sign rfl .nil)
  | _, .array items _, h => by
    rw [Expr.isPrintable] at h
    rw [Expr.symbols]
    exact .sign rfl (.append (.commas (Expr.readable_listed items h)) (.sign rfl .nil))

theorem Expr.readable_listed : ∀ es : List Expr, Expr.arePrintable es = true →
    ∀ item ∈ Expr.listed es, AllReadable item
  | [], _ => by simp [Expr.listed]
  | e :: rest, h => by
    rw [Expr.arePrintable, Bool.and_eq_true] at h
    rw [Expr.listed, forall_mem_cons]
    exact ⟨e.readable_symbols 0 h.1, Expr.readable_listed rest h.2⟩

end

theorem Target.readable_symbols {target : Target} (h : target.isPrintable = true) : AllReadable target.symbols := by
  cases target with
  | path var members =>
    rw [isPrintable, Bool.and_eq_true, all_eq_true] at h
    exact .word h.1 (.flatMap fun name hname => .sign rfl (.word (h.2 name hname) .nil))
  | element var index =>
    rw [isPrintable, Bool.and_eq_true] at h
    exact .word h.1 (.sign rfl (.append (index.readable_symbols 0 h.2) (.sign rfl .nil)))

theorem Param.readable_symbols {param : Param} (h : param.isPrintable = true) : AllReadable param.symbols := by
  obtain ⟨name, type, default?, span⟩ := param
  simp only [isPrintable, Bool.and_eq_true] at h
  refine .word h.1.1 (.sign rfl (.word h.1.2 ?_))
  cases default? with
  | none => exact .nil
  | some value => exact .sign rfl (value.readable_symbols 0 h.2)

theorem Param.readable_list {params : List Param} (h : params.all isPrintable = true) (receiver : Option Span) :
    ∀ item ∈ list receiver params, AllReadable item := by
  rw [all_eq_true] at h
  have hparams : ∀ item ∈ params.map symbols, AllReadable item :=
    forall_mem_map.mpr fun param hparam => readable_symbols (h param hparam)
  cases receiver with
  | none => exact hparams
  | some span => exact forall_mem_cons.mpr ⟨.word (by decide) .nil, hparams⟩

mutual

theorem Stmt.readable_symbols : ∀ stmt : Stmt, stmt.isPrintable = true → AllReadable stmt.symbols
  | .expr value _, h => value.readable_symbols 0 h
  | .assign target value _, h => by
    rw [Stmt.isPrintable, Bool.and_eq_true] at h
    exact .append (Target.readable_symbols h.1) (.sign rfl (value.readable_symbols 0 h.2))
  | .update target op value _, h => by
    simp only [Stmt.isPrintable, Bool.and_eq_true] at h
    refine .append (.append (Target.readable_symbols h.1.1) ?_) (value.readable_symbols 0 h.2)
    cases op <;> first | exact .sign rfl .nil | exact .nil
  | .destructure names value _, h => by
    simp only [Stmt.isPrintable, Bool.and_eq_true, all_eq_true] at h
    refine .append (.commas (forall_mem_map.mpr fun name hname => ?_)) (.sign rfl (value.readable_symbols 0 h.2))
    exact .word (h.1.2 name hname) .nil
  | .const name value _, h => by
    rw [Stmt.isPrintable, Bool.and_eq_true] at h
    exact .sign rfl (.word h.1 (.sign rfl (value.readable_symbols 0 h.2)))
  | .branch cond onTrue none _, h => by
    rw [Stmt.isPrintable, Bool.and_eq_true] at h
    rw [Stmt.symbols]
    refine .sign rfl (.sign rfl (.append (cond.readable_symbols 0 h.1) ?_))
    exact .sign rfl (onTrue.readable_symbols h.2)
  | .branch cond onTrue (some onFalse) _, h => by
    simp only [Stmt.isPrintable, Bool.and_eq_true] at h
    rw [Stmt.symbols]
    refine .sign rfl (.sign rfl (.append (cond.readable_symbols 0 h.1.1) (.sign rfl ?_)))
    exact .append (onTrue.readable_symbols h.1.2) (.sign rfl (onFalse.readable_elseSymbols h.2))
  | .repeatWhile cond body _, h => by
    rw [Stmt.isPrintable, Bool.and_eq_true] at h
    rw [Stmt.symbols]
    refine .sign rfl (.sign rfl (.append (cond.readable_symbols 0 h.1) ?_))
    exact .sign rfl (body.readable_symbols h.2)
  | .forEach var items body _, h => by
    simp only [Stmt.isPrintable, Bool.and_eq_true] at h
    rw [Stmt.symbols]
    refine .sign rfl (.sign rfl (.word h.1.1 (.sign rfl (.append (items.readable_symbols 0 h.1.2) ?_))))
    exact .sign rfl (body.readable_symbols h.2)
  | .block body _, h => by
    rw [Stmt.isPrintable] at h
    rw [Stmt.symbols]
    exact body.readable_symbols h
  | .function decl _, h => by
    rw [Stmt.isPrintable] at h
    rw [Stmt.symbols]
    exact decl.readable_symbols h
  | .struct name fields methods _ _, h => by
    simp only [Stmt.isPrintable, Bool.and_eq_true, all_eq_true] at h
    rw [Stmt.symbols]
    refine .sign rfl (.word h.1.1 (.sign rfl (.append (.flatMap fun field hfield => ?_) ?_)))
    · have hnames := h.1.2 field hfield
      exact .word hnames.1 (.sign rfl (.word hnames.2 (.sign rfl .nil)))
    · exact .append (Function.readable_allSymbols methods h.2) (.sign rfl .nil)
  | .return none _, _ => .sign rfl .nil
  | .return (some value) _, h => .sign rfl (value.readable_symbols 0 h)

theorem Block.readable_symbols : ∀ block : Block, block.isPrintable = true → AllReadable block.symbols
  | ⟨stmts, _⟩, h => by
    rw [Block.isPrintable] at h
    rw [Block.symbols]
    exact .sign rfl (.append (Stmt.readable_allSymbols stmts h) (.sign rfl .nil))

theorem Block.readable_elseSymbols : ∀ block : Block, block.isPrintable = true → AllReadable block.elseSymbols
  | ⟨[], _⟩, _ => .sign rfl (.sign rfl .nil)
  | ⟨[stmt], _⟩, h => by
    rw [Block.isPrintable, Stmt.arePrintable, Bool.and_eq_true] at h
    have hstmt := stmt.readable_symbols h.1
    rw [Block.elseSymbols]
    split
    · exact hstmt
    · exact .sign rfl (.append hstmt (.sign rfl (.sign rfl .nil)))
  | ⟨stmt :: other :: rest, _⟩, h => by
    rw [Block.isPrintable] at h
    rw [Block.elseSymbols]
    · exact .sign rfl (.append (Stmt.readable_allSymbols _ h) (.sign rfl .nil))
    · simp

theorem Function.readable_symbols : ∀ decl : Function, decl.isPrintable = true → AllReadable decl.symbols
  | ⟨name, isInline, receiver, params, result, body, _⟩, h => by
    simp only [Function.isPrintable, Bool.and_eq_true] at h
    obtain ⟨⟨⟨hname, hparams⟩, hresult⟩, hbody⟩ := h
    have hinline : AllReadable (if isInline then [.sign .inlineWord] else []) := by
      cases isInline
      · exact .nil
      · exact .sign rfl .nil
    have htype : AllReadable (resultSymbols result) := by
      cases result with
      | none => exact .nil
      | some type => exact .sign rfl (.word hresult .nil)
    rw [Function.symbols]
    refine .append hinline (.sign rfl (.word hname (.sign rfl (.append ?_ (.sign rfl ?_)))))
    · exact .commas (Param.readable_list hparams receiver)
    · exact .append htype (body.readable_symbols hbody)

theorem Stmt.readable_allSymbols : ∀ stmts : List Stmt, Stmt.arePrintable stmts = true →
    AllReadable (Stmt.allSymbols stmts)
  | [], _ => .nil
  | stmt :: rest, h => by
    rw [Stmt.arePrintable, Bool.and_eq_true] at h
    rw [Stmt.allSymbols]
    exact .append (stmt.readable_symbols h.1) (.sign rfl (Stmt.readable_allSymbols rest h.2))

theorem Function.readable_allSymbols : ∀ methods : List Function, Function.arePrintable methods = true →
    AllReadable (Function.allSymbols methods)
  | [], _ => .nil
  | decl :: rest, h => by
    rw [Function.arePrintable, Bool.and_eq_true] at h
    rw [Function.allSymbols]
    exact .append (decl.readable_symbols h.1) (Function.readable_allSymbols rest h.2)

end

theorem spells_lexemes {symbols : List Symbol} (h : AllReadable symbols) (name : String) :
    List.Forall₂ Lexeme.Spells (lexemes ⟨name, .ofList (Symbol.spell symbols)⟩) symbols := by
  have hlength : symbols.length ≤ (Symbol.spell symbols).length := by
    induction symbols with
    | nil => exact Nat.le_refl 0
    | cons symbol rest ih =>
      have := ih fun other hother => h other (.tail _ hother)
      simp only [Symbol.spell, flatMap_cons, length_append, length_cons, length_nil] at this ⊢
      omega
  have hchars : Source.chars ⟨name, .ofList (Symbol.spell symbols)⟩ = Symbol.spell symbols := String.toList_ofList
  rw [lexemes, hchars]
  exact Symbol.spells_lexemesFrom h hlength 0 (.inl rfl)

end Datapack.Syntax
