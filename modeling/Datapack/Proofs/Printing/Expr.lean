import Datapack.Proofs.Report.Parse

/-!
Reading printed expressions. Operators of one level and what stands behind a unit are read by loops, so the symbols of a
left operand are read up to the point where such a loop goes on with what it has read so far.
-/

namespace Datapack.Syntax

open List hiding head

def Lexemes.Shows (ls : Lexemes) (symbols : List Symbol) : Prop := Forall₂ Lexeme.Spells ls.rest symbols

variable {ls : Lexemes} {e : Expr} {symbols : List Symbol}

theorem Lexemes.Shows.allowance (h : ls.Shows symbols) :
    ls.allowance = 16 * (symbols.length + 2) := by rw [Lexemes.allowance, h.length_eq]

theorem Lexemes.Shows.exists_of_cons {symbol : Symbol} (h : ls.Shows (symbol :: symbols)) :
    ∃ span rest, ls.rest = ⟨.ok symbol.token, span, symbol.text⟩ :: rest ∧ Forall₂ Lexeme.Spells rest symbols := by
  obtain ⟨lexeme, rest, hspells, hrest, heq⟩ := forall₂_cons_right_iff.mp h
  obtain ⟨outcome, span, text⟩ := lexeme
  obtain ⟨rfl, rfl⟩ := hspells
  exact ⟨span, rest, heq, hrest⟩

theorem Lexemes.Shows.rest_of_nil (h : ls.Shows []) : ls.rest = [] :=
  forall₂_nil_right_iff.mp h

def Symbol.head : List Symbol → Token
  | [] => .endOfFile
  | symbol :: _ => symbol.token

theorem Symbol.head_sign (token : Token) (symbols : List Symbol) : head (sign token :: symbols) = token := rfl

namespace Parse

open Syntax.Symbol

variable {α β : Type} {symbols more rest : List Symbol} {P : α → Prop} {Q : β → Prop}

/-- Whether a step that finds given symbols reads some of them and leaves the others, and gives a result as told. -/
def Runs (step : Parse α) (symbols rest : List Symbol) (P : α → Prop) : Prop :=
  ∀ ls, ls.Shows symbols → ∃ a ls', step.run ls = .ok (a, ls') ∧ ls'.Shows rest ∧ P a

namespace Runs

variable {a : α} {f : α → Parse β} {step : Parse α}

theorem pure (h : P a) : Runs (Pure.pure a) symbols symbols P := fun ls hls => ⟨a, ls, rfl, hls, h⟩

theorem bind (h : Runs step symbols more P)
    (hf : ∀ a, P a → Runs (f a) more rest Q) : Runs (step >>= f) symbols rest Q := by
  intro ls hls
  obtain ⟨a, ls1, hrun, hls1, ha⟩ := h ls hls
  obtain ⟨b, ls2, hrun', hls2, hb⟩ := hf a ha ls1 hls1
  refine ⟨b, ls2, ?_, hls2, hb⟩
  rw [StateT.run_bind, hrun]
  exact hrun'

theorem imp {P' : α → Prop} (h : Runs step symbols rest P) (hP : ∀ a, P a → P' a) : Runs step symbols rest P' := by
  intro ls hls
  obtain ⟨a, ls', hrun, hls', ha⟩ := h ls hls
  exact ⟨a, ls', hrun, hls', hP a ha⟩

theorem pureBind (h : Runs (f a) symbols rest Q) : Runs (Pure.pure a >>= f) symbols rest Q := h

theorem getBind {f : Lexemes → Parse β} (h : ∀ ls, ls.Shows symbols → Runs (f ls) symbols rest Q) :
    Runs (get >>= f) symbols rest Q := fun ls hls => h ls hls ls hls

theorem lastSpanBind {f : Span → Parse β} (h : ∀ span, Runs (f span) symbols rest Q) :
    Runs (lastSpan >>= f) symbols rest Q := fun ls hls => h ls.last ls hls

theorem peek : Runs Parse.peek symbols symbols (· = head symbols) := by
  intro ls hls
  refine ⟨head symbols, ls, ?_, hls, rfl⟩
  obtain ⟨last, text, rest, stop⟩ := ls
  cases symbols with
  | nil =>
    obtain rfl : rest = [] := hls.rest_of_nil
    rfl
  | cons symbol symbols =>
    obtain ⟨span, others, heq, -⟩ := hls.exists_of_cons
    obtain rfl : rest = _ := heq
    rfl

theorem peekSpan : Runs Parse.peekSpan symbols symbols fun _ => True := by
  intro ls hls
  obtain ⟨last, text, rest, stop⟩ := ls
  cases symbols with
  | nil =>
    obtain rfl : rest = [] := hls.rest_of_nil
    exact ⟨_, _, rfl, hls, trivial⟩
  | cons symbol symbols =>
    obtain ⟨span, others, heq, -⟩ := hls.exists_of_cons
    obtain rfl : rest = _ := heq
    exact ⟨_, _, rfl, hls, trivial⟩

end Runs

theorem exists_run_next {symbol : Symbol} (h : ls.Shows (symbol :: symbols)) :
    ∃ ls', Parse.next.run ls = .ok (symbol.token, ls') ∧ ls'.Shows symbols ∧ ls'.text = symbol.text := by
  obtain ⟨last, text, lexemes, stop⟩ := ls
  obtain ⟨span, others, heq, hothers⟩ := h.exists_of_cons
  obtain rfl : lexemes = _ := heq
  exact ⟨⟨span, symbol.text, others, stop⟩, rfl, hothers, rfl⟩

namespace Runs

variable {symbol : Symbol} {f : Token → Parse β} {token : Token}

theorem next : Runs Parse.next (symbol :: symbols) symbols (· = symbol.token) := by
  intro ls hls
  obtain ⟨ls', hrun, hls', -⟩ := exists_run_next hls
  exact ⟨symbol.token, ls', hrun, hls', rfl⟩

theorem peekBind (h : Runs (f (head symbols)) symbols rest Q) :
    Runs (Parse.peek >>= f) symbols rest Q := .bind peek fun _ htoken => htoken ▸ h

theorem nextBind (h : Runs (f symbol.token) symbols rest Q) :
    Runs (Parse.next >>= f) (symbol :: symbols) rest Q := .bind next fun _ htoken => htoken ▸ h

theorem nextIs : Runs (Parse.nextIs token) symbols symbols (· = (head symbols == token)) :=
  .peekBind (.pure rfl)

theorem skipBind {f : Bool → Parse β} (h : Runs (f true) symbols rest Q) :
    Runs (Parse.skip token >>= f) (.sign token :: symbols) rest Q := by
  refine .bind (P := (· = true)) (.bind nextIs fun found hfound => ?_) fun _ htrue => htrue ▸ h
  obtain rfl : found = true := hfound.trans (beq_self_eq_true token)
  exact .nextBind (.pure rfl)

theorem passBind {f : Bool → Parse β} (hhead : head symbols ≠ token)
    (h : Runs (f false) symbols rest Q) : Runs (Parse.skip token >>= f) symbols rest Q := by
  refine .bind (P := (· = false)) (.bind nextIs fun found hfound => ?_) fun _ hfalse => hfalse ▸ h
  obtain rfl : found = false := hfound.trans (beq_eq_false_iff_ne.mpr hhead)
  exact .pure rfl

theorem expect : Runs (Parse.expect token) (.sign token :: symbols) symbols fun _ => True := by
  refine .nextBind ?_
  rw [if_neg (show ¬ (sign token).token ≠ token from not_not_intro rfl)]
  exact .pure trivial

theorem expectBind {f : Unit → Parse β} (h : Runs (f ()) symbols rest Q) :
    Runs (Parse.expect token >>= f) (.sign token :: symbols) rest Q := .bind expect fun _ _ => h

theorem identBind {name : String} {f : Ident → Parse β}
    (h : ∀ ident, ident.name = name → Runs (f ident) symbols rest Q) :
    Runs (Parse.ident >>= f) (.word name :: symbols) rest Q := by
  refine .bind (P := (·.name = name)) (fun ls hls => ?_) h
  obtain ⟨ls', hrun, hls', htext⟩ := exists_run_next hls
  refine ⟨⟨.ofList ls'.text, ls'.last⟩, ls', ?_, hls', by rw [htext]; exact String.ofList_toList⟩
  rw [Parse.ident, Parse.expect, StateT.run_bind, StateT.run_bind, hrun]
  rfl

end Runs

end Parse

open Parse Syntax.Symbol

theorem BinaryOp.level_le (op : BinaryOp) : op.level ≤ tightestLevel := by cases op <;> decide

theorem infixLevel_token (level : Nat) (op : BinaryOp) :
    infixLevel level op.token = if level = op.level then some op else none := by cases op <;> rfl

theorem unaryOp_token (op : UnaryOp) : unaryOp op.token = some op := by cases op <;> rfl

def Token.closes : Token → Bool
  | .closeParen | .closeSquare | .comma | .semicolon | .assign | .plusAssign | .minusAssign | .timesAssign
  | .divideAssign | .moduloAssign => true
  | _ => false

structure Stops (level : Nat) (symbols : List Symbol) : Prop where
  parts : head symbols ≠ .openParen ∧ head symbols ≠ .period ∧ head symbols ≠ .openSquare
  operators : ∀ higher, level ≤ higher → infixLevel higher (head symbols) = none

namespace Stops

variable {level : Nat} {symbols : List Symbol}

theorem mono {higher : Nat} (h : Stops level symbols) (hle : level ≤ higher) : Stops higher symbols :=
  ⟨h.parts, fun other hother => h.operators other (hle.trans hother)⟩

theorem operator (op : BinaryOp) : Stops (op.level + 1) (.sign op.token :: symbols) := by
  refine ⟨?_, fun higher hle => ?_⟩
  · change op.token ≠ .openParen ∧ op.token ≠ .period ∧ op.token ≠ .openSquare
    cases op <;> decide
  · exact (infixLevel_token higher op).trans (if_neg (by omega))

theorem closing {token : Token} (h : token.closes = true) : Stops level (.sign token :: symbols) := by
  refine ⟨?_, fun higher _ => ?_⟩
  · change token ≠ .openParen ∧ token ≠ .period ∧ token ≠ .openSquare
    cases token <;> first | decide | cases h
  · change infixLevel higher token = none
    cases token <;> first | rfl | cases h

end Stops

def Expr.level : Expr → Nat
  | .unary _ _ _ => operandLevel
  | .binary _ op _ _ => op.level
  | _ => unitLevel

theorem Expr.symbols_succ {level : Nat} (h : e.level ≠ level) : e.symbols (level + 1) = e.symbols level := by
  cases e
  case bool value _ => cases value <;> rfl
  case unary op operand _ =>
    have h : operandLevel ≠ level := h
    have hsame : decide (operandLevel < level + 1) = decide (operandLevel < level) := decide_eq_decide.mpr (by omega)
    rw [symbols, symbols, hsame]
  case binary left op right _ =>
    have h : op.level ≠ level := h
    have hsame : decide (op.level < level + 1) = decide (op.level < level) := decide_eq_decide.mpr (by omega)
    rw [symbols, symbols, hsame]
  all_goals rfl

theorem Expr.symbols_unit (h : e.level < unitLevel) :
    e.symbols unitLevel = .sign .openParen :: (e.symbols 0 ++ [.sign .closeParen]) := by
  cases e
  case unary op operand _ =>
    rw [symbols, symbols]
    rfl
  case binary left op right _ =>
    have h : op.level < unitLevel := h
    rw [symbols, symbols, decide_eq_true h]
    rfl
  all_goals exact absurd h (Nat.lt_irrefl unitLevel)

def Token.startsExpr : Token → Bool
  | .int | .string | .trueWord | .falseWord | .nullWord | .identifier | .openParen | .openSquare | .minus | .not => true
  | _ => false

theorem Expr.exists_symbols : ∀ (e : Expr), e.isPrintable = true → ∀ level,
    ∃ symbol rest, e.symbols level = symbol :: rest ∧ symbol.token.startsExpr = true
  | .int _ _, _, _ | .string _ _, _, _ | .bool true _, _, _ | .bool false _, _, _ | .null _, _, _ | .var _ _, _, _ =>
    ⟨_, _, rfl, rfl⟩
  | .decimal _ _, h, _ => by cases h
  | .unary op operand _, _, level => by
    rw [symbols, Symbol.enclosed]
    split
    · exact ⟨_, _, rfl, rfl⟩
    · exact ⟨_, _, rfl, by cases op <;> rfl⟩
  | .binary left op right _, h, level => by
    rw [isPrintable, Bool.and_eq_true] at h
    rw [symbols, Symbol.enclosed]
    split
    · exact ⟨_, _, rfl, rfl⟩
    · obtain ⟨symbol, rest, hsymbols, hstarts⟩ := left.exists_symbols h.1 op.level
      exact ⟨symbol, _, by rw [hsymbols, cons_append], hstarts⟩
  | .index base _ _, h, _ => by
    rw [isPrintable, Bool.and_eq_true] at h
    obtain ⟨symbol, rest, hsymbols, hstarts⟩ := base.exists_symbols h.1 unitLevel
    exact ⟨symbol, _, by rw [symbols, hsymbols, cons_append], hstarts⟩
  | .member base _ _, h, _ => by
    rw [isPrintable, Bool.and_eq_true] at h
    obtain ⟨symbol, rest, hsymbols, hstarts⟩ := base.exists_symbols h.1 unitLevel
    exact ⟨symbol, _, by rw [symbols, hsymbols, cons_append], hstarts⟩
  | .call callee _ _, h, _ => by
    rw [isPrintable, Bool.and_eq_true] at h
    obtain ⟨symbol, rest, hsymbols, hstarts⟩ := callee.exists_symbols h.1 unitLevel
    exact ⟨symbol, _, by rw [symbols, hsymbols, cons_append], hstarts⟩
  | .array _ _, _, _ => by
    rw [symbols]
    exact ⟨_, _, rfl, rfl⟩

theorem Expr.head_symbols (h : e.isPrintable = true) (level : Nat) (symbols : List Symbol) :
    (head (e.symbols level ++ symbols)).startsExpr = true := by
  obtain ⟨symbol, rest, hsymbols, hstarts⟩ := e.exists_symbols h level
  rw [hsymbols]
  exact hstarts

theorem Expr.length_symbols_pos (e : Expr) (h : e.isPrintable = true) (level : Nat) : 0 < (e.symbols level).length := by
  obtain ⟨symbol, rest, hsymbols, -⟩ := e.exists_symbols h level
  rw [hsymbols]
  exact Nat.succ_pos _

def readAt (n level : Nat) : Parse Expr := if level < operandLevel then parseLevel n level else parseValue n

namespace Expr

/-- Whether an expression is read where a level is asked for, up to the loop that goes on with operators of the
level. -/
def ReadsFrom (e : Expr) (level : Nat) : Prop :=
  ∀ n symbols rest (Q : Expr → Prop), 16 * (e.symbols level).length + 8 ≤ n + level → Stops (level + 1) symbols →
    (∀ m left, n ≤ m + (e.symbols level).length → left.bare = e.bare → Runs (parseInfix m level left) symbols rest Q) →
      Runs (parseLevel n level) (e.symbols level ++ symbols) rest Q

def ReadsAt (e : Expr) (level : Nat) : Prop :=
  ∀ n symbols, 16 * (e.symbols level).length + 8 ≤ n + level → Stops level symbols →
    Runs (readAt n level) (e.symbols level ++ symbols) symbols (·.bare = e.bare)

/-- Whether an expression is read where a unit is asked for, up to the loop that goes on with parts and calls of it. -/
def ReadsUnit (e : Expr) : Prop :=
  ∀ n symbols rest (Q : Expr → Prop), 16 * (e.symbols unitLevel).length + 2 ≤ n →
    (∀ m base, n ≤ m + (e.symbols unitLevel).length → base.bare = e.bare → Runs (parsePostfix m base) symbols rest Q) →
      Runs (parseValue n) (e.symbols unitLevel ++ symbols) rest Q

structure Reads (e : Expr) : Prop where
  loop : ∀ level, level ≤ tightestLevel → e.ReadsFrom level
  whole : ∀ level, level ≤ operandLevel → e.ReadsAt level
  unit : e.ReadsUnit

variable {e : Expr} {level : Nat} {n : Nat} {base : Expr} {symbols : List Symbol}

theorem runs_infix_end (hn : 0 < n) (h : Stops level symbols) (left : Expr) :
    Runs (parseInfix n level left) symbols symbols (· = left) := by
  obtain ⟨n, rfl⟩ := Nat.exists_eq_add_one.mpr hn
  rw [parseInfix]
  refine .peekBind ?_
  rw [h.operators level .refl]
  exact .pure rfl

theorem runs_postfix_end (hn : 0 < n) (h : Stops level symbols) (base : Expr) :
    Runs (parsePostfix n base) symbols symbols (· = base) := by
  obtain ⟨n, rfl⟩ := Nat.exists_eq_add_one.mpr hn
  obtain ⟨hcall, hmember, hindex⟩ := h.parts
  rw [parsePostfix]
  refine .peekBind ?_
  split
  · exact absurd ‹_› hcall
  · exact absurd ‹_› hmember
  · exact absurd ‹_› hindex
  · exact .pure rfl

theorem ReadsFrom.readsAt (h : e.ReadsFrom level) (hlevel : level ≤ tightestLevel) : e.ReadsAt level := by
  intro n symbols hn hstops
  rw [readAt, if_pos (show level < operandLevel from Nat.lt_succ_of_le hlevel)]
  refine h n symbols symbols _ hn (hstops.mono (Nat.le_succ _)) fun m left hm hleft => ?_
  have hlevel : level ≤ 5 := hlevel
  exact .imp (runs_infix_end (by omega) hstops left) fun _ hsame => hsame ▸ hleft

theorem ReadsAt.operand (h : e.ReadsAt (level + 1)) {symbols rest : List Symbol} {Q : Expr → Prop}
    (hn : 16 * (e.symbols (level + 1)).length + 8 ≤ n + (level + 1)) (hstops : Stops (level + 1) symbols)
    {f : Expr → Parse Expr} (hf : ∀ operand, operand.bare = e.bare → Runs (f operand) symbols rest Q) :
    Runs (if level < tightestLevel then parseLevel n (level + 1) >>= f else parseValue n >>= f)
      (e.symbols (level + 1) ++ symbols) rest Q := by
  have hread := h n symbols hn hstops
  unfold readAt at hread
  split at hread
  next hlevel =>
    rw [if_pos (Nat.lt_of_succ_lt_succ hlevel)]
    exact .bind hread hf
  next hlevel =>
    rw [if_neg fun hlt => hlevel (Nat.succ_lt_succ hlt)]
    exact .bind hread hf

theorem ReadsAt.readsFrom (h : e.ReadsAt (level + 1)) (hprint : e.isPrintable = true) (hne : e.level ≠ level)
    (hlevel : level ≤ tightestLevel) : e.ReadsFrom level := by
  intro n symbols rest Q hn hstops hloop
  have hlevel : level ≤ 5 := hlevel
  have hpos := e.length_symbols_pos hprint level
  obtain _ | n := n
  · omega
  rw [← symbols_succ hne] at hn hpos hloop ⊢
  rw [parseLevel]
  exact h.operand (by omega) hstops fun left hleft => hloop n left (by omega) hleft

theorem ReadsAt.descend (hprint : e.isPrintable = true) {top : Nat} (h : e.ReadsAt top) (htop : top ≤ operandLevel)
    (bottom : Nat) (hne : ∀ level, bottom ≤ level → level < top → e.level ≠ level) (hle : bottom ≤ top) :
    e.ReadsAt bottom ∧ (bottom < top → e.ReadsFrom bottom) := by
  obtain ⟨d, rfl⟩ := Nat.exists_eq_add_of_le hle
  induction d generalizing bottom with
  | zero => exact ⟨h, fun hlt => absurd hlt (Nat.lt_irrefl _)⟩
  | succ d ih =>
    rw [Nat.add_succ, ← Nat.succ_add] at h htop hne
    have habove := (ih _ h htop (fun level hlow hhigh => hne level (Nat.le_of_succ_le hlow) hhigh) (by omega)).1
    have htight : bottom ≤ tightestLevel := by
      have : bottom + 1 + d ≤ tightestLevel + 1 := htop
      omega
    have hloop := habove.readsFrom hprint (hne bottom .refl (by omega)) htight
    exact ⟨hloop.readsAt htight, fun _ => hloop⟩

theorem ReadsUnit.readsAt (h : e.ReadsUnit) (hne : e.level ≠ operandLevel) : e.ReadsAt operandLevel := by
  intro n symbols hn hstops
  have hsymbols : e.symbols unitLevel = e.symbols operandLevel := symbols_succ hne
  rw [readAt, if_neg (Nat.lt_irrefl _), ← hsymbols]
  have hn : 16 * (e.symbols operandLevel).length + 8 ≤ n + 6 := hn
  rw [← hsymbols] at hn
  refine h n symbols symbols _ (by omega) fun m base hm hbase => ?_
  exact .imp (runs_postfix_end (by omega) hstops base) fun _ hsame => hsame ▸ hbase

theorem bare_withSpan (e : Expr) (span : Span) : (e.withSpan span).bare = e.bare := by cases e <;> rfl

theorem runs_parseValue {symbols more rest : List Symbol} {P Q : Expr → Prop} (hhead : unaryOp (head symbols) = none)
    (hunit : Runs (Syntax.parseUnit n) symbols more P)
    (hloop : ∀ unit, P unit → Runs (parsePostfix n unit) more rest Q) : Runs (parseValue (n + 1)) symbols rest Q := by
  rw [parseValue]
  refine .peekBind ?_
  rw [hhead]
  exact .bind hunit hloop

theorem ReadsAt.readsUnit (h : e.ReadsAt 0) (hlevel : e.level < unitLevel) : e.ReadsUnit := by
  intro n symbols rest Q hn hloop
  rw [symbols_unit hlevel] at hn hloop ⊢
  simp only [length_cons, length_append, length_nil, cons_append, append_assoc,
    nil_append] at hn hloop ⊢
  obtain _ | _ | n := n
  iterate 2 · omega
  refine runs_parseValue (P := (·.bare = e.bare)) rfl ?_ fun unit hunit => hloop (n + 1) unit (by omega) hunit
  rw [Syntax.parseUnit]
  refine .nextBind (.lastSpanBind fun start => .getBind fun _ _ => .bind (h n _ (by omega) ?_) fun inner hinner => ?_)
  · exact .closing rfl
  · exact .expectBind (.lastSpanBind fun stop => .pure ((bare_withSpan _ _).trans hinner))

section

variable (hprint : e.isPrintable = true)

include hprint

theorem Reads.of_unit (hlevel : e.level = unitLevel) (h : e.ReadsUnit) : e.Reads := by
  have htop : e.ReadsAt operandLevel := h.readsAt (by rw [hlevel]; decide)
  have hdown : ∀ bottom, bottom ≤ operandLevel → e.ReadsAt bottom ∧ (bottom < operandLevel → e.ReadsFrom bottom) := by
    refine fun bottom hle => htop.descend hprint .refl bottom (fun level _ hlt heq => ?_) hle
    rw [hlevel] at heq
    exact absurd (heq ▸ hlt) (by decide)
  exact ⟨fun level hle => (hdown level (Nat.le_succ_of_le hle)).2 (Nat.lt_succ_of_le hle),
    fun level hle => (hdown level hle).1, h⟩

theorem Reads.of_level (hlevel : e.level < unitLevel) (h : e.ReadsAt e.level)
    (hloop : e.level ≤ tightestLevel → e.ReadsFrom e.level) : e.Reads := by
  have hle : e.level ≤ operandLevel := Nat.le_of_lt_succ hlevel
  have hbelow : ∀ bottom, bottom ≤ e.level → e.ReadsAt bottom ∧ (bottom < e.level → e.ReadsFrom bottom) :=
    fun bottom => h.descend hprint hle bottom fun level _ hlt heq => Nat.ne_of_gt hlt heq
  have hunit : e.ReadsUnit := (hbelow 0 (Nat.zero_le _)).1.readsUnit hlevel
  have habove : ∀ bottom, e.level < bottom → bottom ≤ operandLevel →
      e.ReadsAt bottom ∧ (bottom < operandLevel → e.ReadsFrom bottom) := by
    intro bottom hlt hbottom
    have htop : e.ReadsAt operandLevel := hunit.readsAt (Nat.ne_of_lt (hlt.trans_le hbottom))
    exact htop.descend hprint .refl bottom (fun level hlow _ heq => by omega) hbottom
  refine ⟨fun level htight => ?_, fun level htop => ?_, hunit⟩
  · obtain hlt | heq | hgt := Nat.lt_trichotomy level e.level
    · exact (hbelow level hlt.le).2 hlt
    · exact heq ▸ hloop (heq ▸ htight)
    · exact (habove level hgt (Nat.le_succ_of_le htight)).2 (Nat.lt_succ_of_le htight)
  · obtain hle | hgt := Nat.lt_or_ge e.level level |>.symm
    · exact (hbelow level hle).1
    · exact (habove level hgt htop).1

theorem Reads.of_operator (hlevel : e.level ≤ tightestLevel) (h : e.ReadsFrom e.level) : e.Reads :=
  .of_level hprint (Nat.lt_succ_of_le (Nat.le_succ_of_le hlevel)) (h.readsAt hlevel) fun _ => h

theorem Reads.of_leaf (hlevel : e.level = unitLevel) {symbol : Symbol}
    (hsymbols : e.symbols unitLevel = [symbol]) (hhead : unaryOp symbol.token = none)
    (h : ∀ n symbols, Runs (Syntax.parseUnit (n + 1)) (symbol :: symbols) symbols (·.bare = e.bare)) : e.Reads := by
  refine .of_unit hprint hlevel fun n symbols rest Q hn hloop => ?_
  rw [hsymbols] at hn hloop ⊢
  obtain ⟨n, rfl⟩ := Nat.exists_eq_add_of_le' (show 2 ≤ n from (Nat.le_add_left _ _).trans hn)
  exact runs_parseValue hhead (h n symbols) fun unit hunit => hloop (n + 1) unit .refl hunit

end

theorem digitsValue_toString (n : Nat) : Double.digitsValue (toString n).toList = n := by
  have hsame : ∀ (digits : List Char) (value : Nat),
      digits.foldl (fun value c => value * 10 + (c.toNat - '0'.toNat)) value = Nat.ofDigitChars 10 digits value := by
    intro digits
    induction digits with
    | nil => exact fun _ => rfl
    | cons c digits ih =>
      intro value
      rw [foldl_cons, ih, Nat.ofDigitChars, Nat.ofDigitChars, foldl_cons, Nat.mul_comm]
  rw [Double.digitsValue, hsame, Nat.toString_eq_repr, Nat.toList_repr]
  simp

variable {span : Span} {name : String} {args : List Expr}

theorem reads_int {value : Int32} (h : (Expr.int value span).isPrintable = true) : (Expr.int value span).Reads := by
  refine .of_leaf h rfl rfl rfl fun n symbols ls hls => ?_
  obtain ⟨ls', hrun, hls', htext⟩ := exists_run_next hls
  have hvalue : Double.digitsValue ls'.text = value.toInt.toNat := by
    rw [htext]
    exact digitsValue_toString _
  have hpos : 0 ≤ value.toInt := of_decide_eq_true h
  have hlt : value.toInt < 2 ^ 31 := Int32.toInt_lt value
  refine ⟨.int (.ofNat value.toInt.toNat) ls'.last, ls', ?_, hls', ?_⟩
  · have hliteral : (intLiteral ls'.text ls'.last).run ls' = .ok (.int (.ofNat value.toInt.toNat) ls'.last, ls') := by
      rw [intLiteral, hvalue, if_pos (by omega)]
      rfl
    rw [Syntax.parseUnit, StateT.run_bind, hrun]
    exact hliteral
  · have hsame : Int32.ofNat value.toInt.toNat = value := by
      refine Int32.toInt_inj.mp ?_
      rw [Int32.toInt_ofNat_of_lt (by omega), Int.toNat_of_nonneg hpos]
    rw [hsame]
    rfl

theorem reads_string (value : String) (span : Span) : (Expr.string value span).Reads := by
  refine .of_leaf rfl rfl rfl rfl fun n symbols ls hls => ?_
  obtain ⟨ls', hrun, hls', htext⟩ := exists_run_next hls
  have htext : ls'.text = '"' :: (escape value.toList ++ ['"']) := htext
  refine ⟨.string value ls'.last, ls', ?_, hls', rfl⟩
  have hliteral : (stringLiteral ls'.text ls'.last).run ls' = .ok (.string value ls'.last, ls') := by
    rw [stringLiteral, htext, unescape?_quoted, (denotes_escape _).unescapeInside]
    change Except.ok (Expr.string (.ofList value.toList) ls'.last, ls') = _
    rw [String.ofList_toList]
  rw [Syntax.parseUnit, StateT.run_bind, hrun]
  exact hliteral

theorem reads_var (h : (Expr.var name span).isPrintable = true) : (Expr.var name span).Reads := by
  refine .of_leaf h rfl rfl rfl fun n symbols ls hls => ?_
  obtain ⟨ls', hrun, hls', htext⟩ := exists_run_next hls
  refine ⟨.var (.ofList ls'.text) ls'.last, ls', ?_, hls', ?_⟩
  · rw [Syntax.parseUnit, StateT.run_bind, hrun]
    rfl
  · have hname : String.ofList ls'.text = name := by
      rw [htext]
      exact String.ofList_toList
    rw [hname]
    rfl

theorem reads_bool (value : Bool) (span : Span) : (Expr.bool value span).Reads := by
  cases value
  all_goals
    refine .of_leaf rfl rfl rfl rfl fun n symbols => ?_
    rw [Syntax.parseUnit]
    exact .nextBind (.lastSpanBind fun start => .getBind fun _ _ => .pure rfl)

theorem reads_null (span : Span) : (Expr.null span).Reads := by
  refine .of_leaf rfl rfl rfl rfl fun n symbols => ?_
  rw [Syntax.parseUnit]
  exact .nextBind (.lastSpanBind fun start => .getBind fun _ _ => .pure rfl)

theorem Reads.unary {op : UnaryOp} {operand : Expr} (hprint : (Expr.unary op operand span).isPrintable = true)
    (h : operand.Reads) : (Expr.unary op operand span).Reads := by
  have hread : (Expr.unary op operand span).ReadsAt operandLevel := by
    intro n symbols hn hstops
    have hsymbols : (Expr.unary op operand span).symbols operandLevel =
        .sign op.token :: operand.symbols operandLevel := by
      rw [Expr.symbols]
      rfl
    have hn : 16 * ((Expr.unary op operand span).symbols operandLevel).length + 8 ≤ n + 6 := hn
    rw [hsymbols, length_cons] at hn
    obtain _ | n := n
    · omega
    rw [readAt, if_neg (Nat.lt_irrefl _), hsymbols, cons_append, parseValue]
    refine .peekBind ?_
    rw [head_sign, unaryOp_token]
    refine .nextBind (.lastSpanBind fun start => ?_)
    have hoperand := h.whole operandLevel .refl n symbols
      (show 16 * (operand.symbols operandLevel).length + 8 ≤ n + 6 by omega) hstops
    rw [readAt, if_neg (Nat.lt_irrefl _)] at hoperand
    exact .bind hoperand fun operand' hoperand' => .pure (by rw [Expr.bare, Expr.bare, hoperand'])
  exact .of_level hprint .refl hread fun hle => absurd hle (Nat.not_succ_le_self _)

theorem Reads.binary {left : Expr} {op : BinaryOp} {right : Expr}
    (hprint : (Expr.binary left op right span).isPrintable = true) (hleft : left.Reads) (hright : right.Reads) :
    (Expr.binary left op right span).Reads := by
  have hlevel := op.level_le
  refine .of_operator hprint hlevel fun n symbols rest Q hn hstops hloop => ?_
  have hsymbols : (Expr.binary left op right span).symbols op.level =
      left.symbols op.level ++ .sign op.token :: right.symbols (op.level + 1) := by
    rw [Expr.symbols, decide_eq_false (Nat.lt_irrefl _)]
    rfl
  change 16 * ((Expr.binary left op right span).symbols op.level).length + 8 ≤ n + op.level at hn
  change ∀ m left', n ≤ m + ((Expr.binary left op right span).symbols op.level).length → _ →
    Runs (parseInfix m op.level left') symbols rest Q at hloop
  change Runs (parseLevel n op.level) ((Expr.binary left op right span).symbols op.level ++ symbols) rest Q
  have hlevel : op.level ≤ 5 := hlevel
  rw [hsymbols, length_append, length_cons] at hn hloop
  rw [hsymbols, append_assoc, cons_append]
  refine hleft.loop op.level hlevel n _ rest Q (by omega) (.operator op) fun m left' hm hleft' => ?_
  obtain _ | m := m
  · omega
  rw [parseInfix]
  refine .peekBind ?_
  rw [head_sign, infixLevel_token, if_pos rfl]
  refine .nextBind ((hright.whole (op.level + 1) (Nat.succ_le_succ hlevel)).operand (by omega) hstops ?_)
  intro right' hright'
  exact hloop m _ (by omega) (by rw [Expr.bare, Expr.bare, hleft', hright'])

theorem Reads.of_base (hprint : e.isPrintable = true) (hlevel : e.level = unitLevel) (hbase : base.Reads)
    {tail : List Symbol} (hsymbols : e.symbols unitLevel = base.symbols unitLevel ++ tail)
    (h : ∀ n symbols rest (Q : Expr → Prop) base', 16 * tail.length ≤ n → base'.bare = base.bare →
      (∀ m e', n ≤ m + tail.length → e'.bare = e.bare → Runs (parsePostfix m e') symbols rest Q) →
        Runs (parsePostfix n base') (tail ++ symbols) rest Q) : e.Reads := by
  refine .of_unit hprint hlevel fun n symbols rest Q hn hloop => ?_
  rw [hsymbols, length_append] at hn hloop
  rw [hsymbols, append_assoc]
  refine hbase.unit n _ rest Q (by omega) fun m base' hm hbase' => ?_
  exact h m symbols rest Q base' (by omega) hbase' fun m' e' hm' he' => hloop m' e' (by omega) he'

theorem Reads.member (hprint : (Expr.member base name span).isPrintable = true)
    (h : base.Reads) : (Expr.member base name span).Reads := by
  refine .of_base hprint rfl h (by rw [Expr.symbols]) fun n symbols rest Q base' hn hbase' hloop => ?_
  simp only [length_cons, length_nil] at hn hloop
  obtain _ | n := n
  · omega
  rw [parsePostfix]
  refine .peekBind (.nextBind (.identBind fun ident hident => .lastSpanBind fun stop => hloop n _ (by omega) ?_))
  rw [Expr.bare, Expr.bare, hbase', hident]

theorem Reads.index {subscript : Expr} (hprint : (Expr.index base subscript span).isPrintable = true)
    (hbase : base.Reads) (h : subscript.Reads) : (Expr.index base subscript span).Reads := by
  refine .of_base hprint rfl hbase (by rw [Expr.symbols]) fun n symbols rest Q base' hn hbase' hloop => ?_
  simp only [length_cons, length_append, length_nil, cons_append, append_assoc,
    nil_append] at hn hloop ⊢
  obtain _ | n := n
  · omega
  rw [parsePostfix]
  refine .peekBind (.nextBind (.bind (h.whole 0 (Nat.zero_le _) n _ (by omega) (.closing rfl)) ?_))
  intro subscript' hsubscript'
  refine .expectBind (.lastSpanBind fun stop => hloop n _ (by omega) ?_)
  rw [Expr.bare, Expr.bare, hbase', hsubscript']

theorem runs_parseArgs {close : Token} (hclose : close = .closeParen ∨ close = .closeSquare)
    (hprint : Expr.arePrintable args = true) (h : ∀ arg ∈ args, arg.Reads)
    (hn : 16 * (commas (listed args)).length + 10 ≤ n) (symbols : List Symbol) :
    Runs (parseArgs n close) (commas (listed args) ++ .sign close :: symbols) symbols fun args' =>
      allBare args' = allBare args := by
  induction args generalizing n with
  | nil =>
    obtain _ | n := n
    · omega
    rw [parseArgs]
    exact .skipBind (.pure rfl)
  | cons arg args ih =>
    obtain _ | n := n
    · omega
    rw [Expr.arePrintable, Bool.and_eq_true] at hprint
    rw [forall_mem_cons] at h
    have hhead : ∀ more, head (arg.symbols 0 ++ more) ≠ close := by
      intro more heq
      have hstarts := head_symbols hprint.1 0 more
      rw [heq] at hstarts
      obtain rfl | rfl := hclose <;> cases hstarts
    have hclosing : Stops 0 (.sign close :: symbols) ∧ close ≠ .comma := by
      obtain rfl | rfl := hclose <;> exact ⟨.closing rfl, by decide⟩
    rw [parseArgs]
    cases args with
    | nil =>
      change 16 * (arg.symbols 0).length + 10 ≤ n + 1 at hn
      change Runs _ (arg.symbols 0 ++ .sign close :: symbols) _ _
      refine .passBind (hhead _) (.bind (h.1.whole 0 (Nat.zero_le _) n _ (by omega) hclosing.1) ?_)
      intro arg' harg'
      refine .passBind hclosing.2 (.expectBind (.pure ?_))
      rw [allBare, allBare, harg']
      rfl
    | cons other args =>
      have hcommas : commas (listed (arg :: other :: args)) =
          arg.symbols 0 ++ .sign .comma :: commas (listed (other :: args)) := by
        rw [listed, listed, commas]
      rw [hcommas, length_append, length_cons] at hn
      rw [hcommas, append_assoc, cons_append]
      refine .passBind (hhead _) (.bind (h.1.whole 0 (Nat.zero_le _) n _ (by omega) (.closing rfl)) ?_)
      intro arg' harg'
      refine .skipBind (.bind (ih hprint.2 h.2 (by omega)) fun args' hargs' => .pure ?_)
      rw [allBare, harg', hargs']
      rfl

theorem Reads.call {callee : Expr} (hprint : (Expr.call callee args span).isPrintable = true) (hcallee : callee.Reads)
    (h : ∀ arg ∈ args, arg.Reads) : (Expr.call callee args span).Reads := by
  refine .of_base hprint rfl hcallee (by rw [Expr.symbols]) fun n symbols rest Q base' hn hbase' hloop => ?_
  simp only [length_cons, length_append, length_nil, cons_append, append_assoc,
    nil_append] at hn hloop ⊢
  obtain _ | n := n
  · omega
  rw [Expr.isPrintable, Bool.and_eq_true] at hprint
  rw [parsePostfix]
  refine .peekBind (.nextBind (.bind (runs_parseArgs (.inl rfl) hprint.2 h (by omega) symbols) fun args' hargs' => ?_))
  refine .lastSpanBind fun stop => hloop n _ (by omega) ?_
  rw [Expr.bare, Expr.bare, hbase', hargs']

theorem Reads.array {items : List Expr} (hprint : (Expr.array items span).isPrintable = true)
    (h : ∀ item ∈ items, item.Reads) : (Expr.array items span).Reads := by
  refine .of_unit hprint rfl fun n symbols rest Q hn hloop => ?_
  rw [Expr.symbols] at hn hloop ⊢
  simp only [length_cons, length_append, length_nil, cons_append, append_assoc,
    nil_append] at hn hloop ⊢
  obtain _ | _ | n := n
  iterate 2 · omega
  rw [Expr.isPrintable] at hprint
  refine runs_parseValue (P := (·.bare = (Expr.array items span).bare)) rfl ?_ fun unit hunit =>
    hloop (n + 1) unit (by omega) hunit
  rw [Syntax.parseUnit]
  refine .nextBind (.lastSpanBind fun start => .getBind fun _ _ => ?_)
  refine .bind (runs_parseArgs (.inr rfl) hprint h (by omega) symbols) fun items' hitems' => ?_
  exact .lastSpanBind fun stop => .pure (by rw [Expr.bare, Expr.bare, hitems'])

mutual

theorem reads : ∀ e : Expr, e.isPrintable = true → e.Reads
  | .int _ _, h => reads_int h
  | .decimal _ _, h => by cases h
  | .string value span, _ => reads_string value span
  | .bool value span, _ => reads_bool value span
  | .null span, _ => reads_null span
  | .var _ _, h => reads_var h
  | .unary _ operand _, h => .unary h (operand.reads h)
  | .binary left _ right _, h => by
    have hparts := h
    rw [Expr.isPrintable, Bool.and_eq_true] at hparts
    exact .binary h (left.reads hparts.1) (right.reads hparts.2)
  | .index base subscript _, h => by
    have hparts := h
    rw [Expr.isPrintable, Bool.and_eq_true] at hparts
    exact .index h (base.reads hparts.1) (subscript.reads hparts.2)
  | .member base _ _, h => by
    have hparts := h
    rw [Expr.isPrintable, Bool.and_eq_true] at hparts
    exact .member h (base.reads hparts.1)
  | .call callee args _, h => by
    have hparts := h
    rw [Expr.isPrintable, Bool.and_eq_true] at hparts
    exact .call h (callee.reads hparts.1) (readsAll args hparts.2)
  | .array items _, h => .array h (readsAll items h)

theorem readsAll : ∀ es : List Expr, Expr.arePrintable es = true → ∀ e ∈ es, e.Reads
  | [], _ => by simp
  | e :: rest, h => by
    rw [Expr.arePrintable, Bool.and_eq_true] at h
    exact forall_mem_cons.mpr ⟨e.reads h.1, readsAll rest h.2⟩

end

theorem runs_parse (h : e.isPrintable = true) {symbols : List Symbol} (hstops : Stops 0 symbols) :
    Runs Expr.parse (e.symbols 0 ++ symbols) symbols (·.bare = e.bare) := by
  refine .getBind fun ls hls => (e.reads h).whole 0 (Nat.zero_le _) ls.allowance symbols ?_ hstops
  rw [hls.allowance, length_append]
  omega

end Expr

end Datapack.Syntax
