import Datapack.Proofs.Printing.Expr
import Mathlib.Data.List.Induction

/-!
Reading printed scripts. Statements are told apart by their first token, and a semicolon ends each of them. So a script
is read back from its text, and from every other text with the same tokens.
-/

namespace Datapack.Syntax

open Parse Syntax.Symbol
open List hiding head

namespace Target

def expr : Target → Expr
  | .path var members => members.foldl (fun base name => .member base name .zero) (.var var .zero)
  | .element var index => .index (.var var .zero) index .zero

theorem symbols_foldl (members : List String) (base : Expr) (hbase : ∀ level, base.symbols level = base.symbols 0)
    (level : Nat) : (members.foldl (fun base name => Expr.member base name .zero) base).symbols level =
      base.symbols 0 ++ members.flatMap fun name => [.sign .period, .word name] := by
  induction members generalizing base with
  | nil => rw [foldl_nil, flatMap_nil, append_nil, hbase]
  | cons name members ih =>
    rw [foldl_cons, ih _ fun _ => by rw [Expr.symbols, Expr.symbols], Expr.symbols, hbase, append_assoc]
    rfl

theorem symbols_expr (target : Target) : target.expr.symbols 0 = target.symbols := by
  cases target with
  | path var members => exact symbols_foldl members (.var var .zero) (fun _ => rfl) 0
  | element var index => rw [expr, Expr.symbols, Expr.symbols, symbols]; rfl

variable {target : Target} {e : Expr}

theorem isPrintable_expr (h : target.isPrintable = true) : target.expr.isPrintable = true := by
  cases target with
  | element var index => exact h
  | path var members =>
    rw [isPrintable, Bool.and_eq_true, all_eq_true] at h
    obtain ⟨hvar, hmembers⟩ := h
    have hfold : ∀ (base : Expr), base.isPrintable = true →
        (members.foldl (fun base name => Expr.member base name .zero) base).isPrintable = true := by
      clear hvar
      induction members with
      | nil => exact fun _ hbase => hbase
      | cons name members ih =>
        rw [forall_mem_cons] at hmembers
        intro base hbase
        refine ih hmembers.2 _ ?_
        rw [Expr.isPrintable, hbase, hmembers.1]
        rfl
    exact hfold _ hvar

theorem exists_ofExpr (h : e.bare = target.expr.bare) :
    ∃ target', Target.ofExpr e = .ok target' ∧ target'.bare = target.bare := by
  cases target with
  | element var index =>
    cases e <;> simp only [expr, Expr.bare, reduceCtorEq, Expr.index.injEq] at h
    rename_i base index' span
    cases base <;> simp only [Expr.bare, reduceCtorEq, Expr.var.injEq, false_and, and_true] at h
    rename_i name span'
    exact ⟨.element name index', rfl, by rw [bare, bare, h.1, h.2]⟩
  | path var members =>
    refine ⟨.path var members, ?_, rfl⟩
    induction members using List.reverseRecOn generalizing e with
    | nil =>
      cases e <;> simp only [expr, foldl_nil, Expr.bare, reduceCtorEq, Expr.var.injEq] at h
      rw [ofExpr, h.1]
    | append_singleton members name ih =>
      rw [expr, foldl_append] at h
      cases e <;> simp only [foldl_cons, foldl_nil, Expr.bare, reduceCtorEq, Expr.member.injEq] at h
      rw [ofExpr, ih h.1, h.2.1]

theorem runs_expr (h : target.isPrintable = true) {symbols : List Symbol} (hstops : Stops 0 symbols) :
    Runs Expr.parse (target.symbols ++ symbols) symbols (·.bare = target.expr.bare) := by
  rw [← symbols_expr]
  exact Expr.runs_parse (isPrintable_expr h) hstops

theorem runs_ofExpr (h : e.bare = target.expr.bare) (symbols : List Symbol) :
    Runs (liftM (Target.ofExpr e) : Parse Target) symbols symbols (·.bare = target.bare) := by
  obtain ⟨target', hof, hbare⟩ := exists_ofExpr h
  intro ls hls
  refine ⟨target', ls, ?_, hls, hbare⟩
  rw [hof]
  rfl

end Target

theorem Symbol.commas_cons (item : List Symbol) (items : List (List Symbol)) :
    commas (item :: items) = item ++ items.flatMap (.sign .comma :: ·) := by
  induction items generalizing item with
  | nil => exact (append_nil _).symm
  | cons other items ih => rw [commas, ih, flatMap_cons, cons_append]

theorem Symbol.length_le_commas (items : List (List Symbol)) : items.length ≤ (commas items).length + 1 := by
  induction items using commas.induct with
  | case1 => exact Nat.zero_le _
  | case2 item => exact Nat.succ_le_succ (Nat.zero_le _)
  | case3 item other rest ih =>
    rw [commas, length_append]
    simp only [length_cons] at ih ⊢
    omega

theorem updateOp_assigning {op : BinaryOp} {token : Token} (h : op.assigning? = some token) :
    updateOp token = some op := by cases op <;> cases h <;> rfl

variable {n : Nat} {symbols rest : List Symbol} {stmt : Stmt} {params : List Param} {stmts : List Stmt} {span : Span}
  {param : Param} {Q : Option Span × List Param → Prop} {receiver : Option Span}

theorem runs_parseNames {names : List Ident} (hn : names.length < n) (hhead : head symbols ≠ .comma) :
    Runs (parseNames n) ((names.map fun name => [.word name.name]).flatMap (.sign .comma :: ·) ++ symbols) symbols
      fun names' => names'.map Ident.bare = names.map Ident.bare := by
  obtain _ | n := n
  · omega
  induction names generalizing n with
  | nil => exact .passBind hhead (.pure rfl)
  | cons name names ih =>
    obtain _ | n := n
    · simp at hn
    refine .skipBind (.identBind fun ident hident => ?_)
    refine .bind (ih n (Nat.lt_of_succ_lt_succ hn)) fun names' hnames' => .pure ?_
    rw [map_cons, map_cons, hnames', Ident.bare, hident, Ident.bare]

def Stmt.startsWithExpr : Stmt → Bool
  | .expr _ _ | .assign _ _ _ | .update _ _ _ _ | .destructure _ _ _ => true
  | _ => false

theorem Stmt.head_startsExpr (h : stmt.isPrintable = true) (hkind : stmt.startsWithExpr = true)
    (symbols : List Symbol) : (head (stmt.symbols ++ symbols)).startsExpr = true := by
  cases stmt <;> try cases hkind
  case expr value span => exact Expr.head_symbols h 0 symbols
  case assign target value span => cases target <;> rfl
  case update target op value span => cases target <;> rfl
  case destructure names value span =>
    match names, h with
    | [], h => cases h
    | [_], _ | _ :: _ :: _, _ => rfl

theorem Stmt.runs_parseExprStmt (h : stmt.isPrintable = true) (hkind : stmt.startsWithExpr = true) (start : Span)
    (symbols : List Symbol) :
    Runs (parseExprStmt start) (stmt.symbols ++ .sign .semicolon :: symbols) (.sign .semicolon :: symbols)
      (·.bare = stmt.bare) := by
  cases stmt <;> try cases hkind
  case expr value span =>
      refine .bind (Expr.runs_parse h (.closing rfl)) fun value' hvalue' => .peekBind ?_
      exact .lastSpanBind fun stop => .pure (by rw [Stmt.bare, Stmt.bare, hvalue'])
  case assign target value span =>
      rw [Stmt.isPrintable, Bool.and_eq_true] at h
      rw [Stmt.symbols, append_assoc, cons_append]
      refine .bind (Target.runs_expr h.1 (.closing rfl)) fun e he => .peekBind (.nextBind ?_)
      refine .bind (Target.runs_ofExpr he _) fun target' htarget' => ?_
      refine .bind (Expr.runs_parse h.2 (.closing rfl)) fun value' hvalue' => ?_
      exact .lastSpanBind fun stop => .pure (by rw [Stmt.bare, Stmt.bare, htarget', hvalue'])
  case update target op value span =>
      simp only [Stmt.isPrintable, Bool.and_eq_true] at h
      obtain ⟨⟨htarget, hop⟩, hvalue⟩ := h
      obtain ⟨token, htoken⟩ := Option.isSome_iff_exists.mp hop
      have hcloses : token.closes = true := by cases op <;> cases htoken <;> rfl
      have hsymbols : (Stmt.update target op value span).symbols =
          target.symbols ++ .sign token :: value.symbols 0 := by
        rw [Stmt.symbols, htoken, append_assoc]
        rfl
      rw [hsymbols, append_assoc, cons_append]
      refine .bind (Target.runs_expr htarget (.closing hcloses)) fun e he => .peekBind ?_
      rw [head_sign]
      split
      · exact absurd htoken (by cases op <;> decide)
      · exact absurd htoken (by cases op <;> decide)
      rw [updateOp_assigning htoken]
      refine .nextBind (.bind (Target.runs_ofExpr he _) fun target' htarget' => ?_)
      refine .bind (Expr.runs_parse hvalue (.closing rfl)) fun value' hvalue' => ?_
      exact .lastSpanBind fun stop => .pure (by rw [Stmt.bare, Stmt.bare, htarget', hvalue'])
  case destructure names value span =>
      simp only [Stmt.isPrintable, Bool.and_eq_true, decide_eq_true_eq] at h
      obtain ⟨⟨hlength, hnames⟩, hvalue⟩ := h
      obtain ⟨first, second, names, rfl⟩ : ∃ first second rest, names = first :: second :: rest := by
        match names, hlength with
        | first :: second :: rest, _ => exact ⟨first, second, rest, rfl⟩
      rw [all_cons, Bool.and_eq_true] at hnames
      have hfirst : (Expr.var first.name .zero).isPrintable = true := hnames.1
      rw [Stmt.symbols, map_cons, commas_cons, append_assoc, append_assoc, cons_append]
      refine .bind (Expr.runs_parse hfirst (.closing rfl)) fun e he => .peekBind ?_
      cases e <;> simp only [Expr.bare, reduceCtorEq, Expr.var.injEq, and_true] at he
      rename_i name span'
      refine .getBind fun ls hls => ?_
      have hallowed : (second :: names).length < ls.allowance := by
        simp [hls.allowance, length_flatMap, Function.comp_def]
        omega
      refine .bind (runs_parseNames hallowed (show Token.assign ≠ .comma by decide)) fun names' hnames' => ?_
      refine .expectBind (.bind (Expr.runs_parse hvalue (.closing rfl)) fun value' hvalue' => ?_)
      refine .lastSpanBind fun stop => .pure ?_
      rw [Stmt.bare, Stmt.bare, map_cons, map_cons, hnames', hvalue', Ident.bare, he, Ident.bare]

theorem Param.runs_parseParam (h : param.isPrintable = true) {ident : Ident}
    (hident : ident.name = param.name) (hstops : Stops 0 symbols) (hhead : head symbols ≠ .assign) :
    Runs (parseParam ident) (param.symbols.tail ++ symbols) symbols (·.bare = param.bare) := by
  obtain ⟨name, type, default?, span⟩ := param
  obtain rfl : ident.name = name := hident
  simp only [isPrintable, Bool.and_eq_true] at h
  rw [parseParam]
  refine .expectBind (.identBind fun type' htype' => ?_)
  cases default? with
  | none =>
    refine .passBind hhead (.pureBind (.lastSpanBind fun stop => .pure ?_))
    rw [bare, bare, Ident.bare, htype', Ident.bare]
  | some value =>
    refine .skipBind (.bind (Expr.runs_parse h.2 hstops) fun value' hvalue' => .pureBind ?_)
    refine .lastSpanBind fun stop => .pure ?_
    rw [bare, bare, Ident.bare, htype', Ident.bare, Option.map_some, Option.map_some, hvalue']

theorem runs_noReceiver {β : Type} {Q : β → Prop} {first : Bool} {f : Bool → Parse β} (hhead : head symbols = .colon)
    (h : Runs (f false) symbols rest Q) :
    Runs (if first = true then do let typed ← nextIs .colon; let isReceiver ← pure !typed; f isReceiver
      else do let isReceiver ← pure false; f isReceiver) symbols rest Q := by
  split
  · refine .bind .nextIs fun typed htyped => ?_
    rw [hhead] at htyped
    obtain rfl : typed = true := htyped
    exact h
  · exact h

theorem Param.runs_parseParams_step (h : param.isPrintable = true) (hstops : Stops 0 symbols)
    (hhead : head symbols ≠ .assign) {done : List Param} (hgo : ∀ param', param'.bare = param.bare → Runs (do
      if ← skip .comma then parseParams n receiver (done ++ [param'])
      else do
        Parse.expect .closeParen
        return (receiver, done ++ [param'])) symbols rest Q) :
    Runs (parseParams (n + 1) receiver done) (param.symbols ++ symbols) rest Q := by
  rw [parseParams]
  refine .passBind (show Token.identifier ≠ .closeParen by decide) (.identBind fun ident hident => ?_)
  refine runs_noReceiver rfl (.bind (runs_parseParam h hident hstops hhead) fun param' hparam' => ?_)
  exact .pureBind (hgo param' hparam')

theorem Param.runs_parseParams (h : params.all Param.isPrintable = true) (hn : params.length < n)
    (receiver : Option Span) (done : List Param) (symbols : List Symbol) :
    Runs (parseParams n receiver done) (commas (params.map Param.symbols) ++ .sign .closeParen :: symbols) symbols
      fun found => found.1 = receiver ∧ found.2.map Param.bare = (done ++ params).map Param.bare := by
  obtain _ | n := n
  · omega
  induction params generalizing n done with
  | nil =>
    rw [parseParams]
    exact .skipBind (.pure ⟨rfl, by rw [append_nil]⟩)
  | cons param params ih =>
    rw [all_cons, Bool.and_eq_true] at h
    have hlast : ∀ param' : Param, param'.bare = param.bare →
        ((done ++ [param']) ++ params).map Param.bare = (done ++ param :: params).map Param.bare := by
      intro param' hparam'
      simp [hparam']
    cases params with
    | nil =>
      refine runs_parseParams_step h.1 (.closing rfl) (show Token.closeParen ≠ .assign by decide) ?_
      intro param' hparam'
      refine .passBind (show Token.closeParen ≠ .comma by decide) (.expectBind (.pure ⟨rfl, ?_⟩))
      rw [← hlast param' hparam', append_nil]
    | cons other params =>
      rw [map_cons, map_cons, commas, append_assoc, cons_append]
      refine runs_parseParams_step h.1 (.closing rfl) (show Token.comma ≠ .assign by decide) ?_
      intro param' hparam'
      obtain _ | n := n
      · simp at hn
      rw [← hlast param' hparam']
      exact .skipBind (ih h.2 (done ++ [param']) n (Nat.lt_of_succ_lt_succ hn))

theorem Param.runs_parseParams_receiver (hhead : head symbols ≠ .colon) (hgo : ∀ span, Runs (do
      if ← skip .comma then parseParams n (some span) []
      else do
        Parse.expect .closeParen
        return (some span, [])) symbols rest Q) :
    Runs (parseParams (n + 1) none []) (.word "self" :: symbols) rest Q := by
  rw [parseParams]
  refine .passBind (show Token.identifier ≠ .closeParen by decide) (.identBind fun ident hident => ?_)
  simp only [hident]
  refine .bind .nextIs fun typed htyped => ?_
  obtain rfl : typed = false := htyped.trans (beq_eq_false_iff_ne.mpr hhead)
  exact hgo ident.span

theorem Param.runs_list (h : params.all Param.isPrintable = true) (hn : params.length + 1 < n)
    (receiver : Option Span) (symbols : List Symbol) :
    Runs (parseParams n none []) (commas (Param.list receiver params) ++ .sign .closeParen :: symbols) symbols
      fun found =>
      found.1.map (fun _ => Span.zero) = receiver.map (fun _ => Span.zero) ∧
        found.2.map Param.bare = params.map Param.bare := by
  cases receiver with
  | none =>
    refine .imp (runs_parseParams h (Nat.lt_of_succ_lt hn) none [] symbols) fun found hfound => ?_
    exact ⟨by rw [hfound.1], hfound.2⟩
  | some span =>
    obtain _ | n := n
    · omega
    cases params with
    | nil =>
      refine runs_parseParams_receiver ?_ fun span' => .passBind ?_ (.expectBind (.pure ⟨rfl, rfl⟩))
      · exact show Token.closeParen ≠ .colon by decide
      · exact show Token.closeParen ≠ .comma by decide
    | cons param params =>
      rw [Param.list, map_cons, commas, append_assoc, cons_append]
      refine runs_parseParams_receiver ?_ fun span' => .skipBind ?_
      · exact show Token.comma ≠ .colon by decide
      · refine .imp (runs_parseParams h (Nat.lt_of_succ_lt_succ hn) (some span') [] symbols) fun found hfound => ?_
        exact ⟨by rw [hfound.1]; rfl, hfound.2⟩

structure Stmt.Reads (stmt : Stmt) : Prop where
  whole : ∀ n symbols, 16 * stmt.symbols.length + 16 ≤ n →
    Runs (parseStmt n) (stmt.symbols ++ .sign .semicolon :: symbols) symbols (·.bare = stmt.bare)
  branch : stmt.isBranch = true → ∀ n symbols, 16 * stmt.symbols.length + 8 ≤ n → head symbols ≠ .elseWord →
    Runs (parseBranch n) (stmt.symbols ++ symbols) symbols (·.bare = stmt.bare)

def Block.Reads (block : Block) : Prop :=
  ∀ n symbols, 16 * block.symbols.length + 8 ≤ n →
    Runs (parseBlock n) (block.symbols ++ symbols) symbols (·.bare = block.bare)

def Block.ReadsElse (block : Block) : Prop :=
  ∀ n symbols, 16 * block.elseSymbols.length + 8 ≤ n → head symbols ≠ .elseWord →
    head (block.elseSymbols ++ symbols) = .ifWord ∧
        Runs (parseBranch n) (block.elseSymbols ++ symbols) symbols (fun nested =>
          (⟨[nested], nested.span⟩ : Block).bare = block.bare) ∨
      head (block.elseSymbols ++ symbols) ≠ .ifWord ∧
        Runs (parseBlock n) (block.elseSymbols ++ symbols) symbols (·.bare = block.bare)

def Stmt.ReadsAll (stmts : List Stmt) : Prop :=
  ∀ n symbols, 16 * (allSymbols stmts).length + 8 ≤ n →
    Runs (parseStmts n) (allSymbols stmts ++ .sign .closeBrace :: symbols) symbols fun stmts' =>
      allBare stmts' = allBare stmts

def Function.plain (decl : Function) : List Symbol :=
  .sign .funWord :: .word decl.name :: .sign .openParen ::
    (commas (Param.list decl.receiver decl.params) ++ .sign .closeParen ::
      (resultSymbols decl.result ++ decl.body.symbols))

def Function.Reads (decl : Function) : Prop :=
  ∀ n symbols, 16 * decl.plain.length + 8 ≤ n →
    Runs (parseFunction n decl.isInline) (decl.plain ++ symbols) symbols (·.bare = decl.bare)

def Function.ReadsAll (decls : List Function) : Prop :=
  ∀ n symbols fields methods, 16 * (allSymbols decls).length + 24 ≤ n →
    Runs (parseMembers n fields methods) (allSymbols decls ++ .sign .closeBrace :: symbols) symbols
      fun found => found.1 = fields ∧ allBare found.2 = allBare methods ++ allBare decls

theorem Function.symbols_eq (decl : Function) :
    decl.symbols = (if decl.isInline then [.sign .inlineWord] else []) ++ decl.plain := by
  obtain ⟨name, isInline, receiver, params, result, body, span⟩ := decl
  rw [symbols]
  rfl

theorem Stmt.runs_ended {stmt' : Stmt} (h : stmt'.bare = stmt.bare) (symbols : List Symbol) :
    Runs (do let _ ← skip .semicolon; return stmt') (.sign .semicolon :: symbols) symbols (·.bare = stmt.bare) :=
  .skipBind (.pure h)

theorem Block.head_symbols (block : Block) (symbols : List Symbol) : head (block.symbols ++ symbols) = .openBrace := by
  obtain ⟨stmts, span⟩ := block
  rw [Block.symbols]
  rfl

theorem Block.Reads.of_stmts (h : Stmt.ReadsAll stmts) : (⟨stmts, span⟩ : Block).Reads := by
  intro n symbols hn
  rw [Block.symbols] at hn ⊢
  simp only [length_cons, length_append, length_nil, cons_append, append_assoc,
    nil_append] at hn ⊢
  obtain _ | n := n
  · omega
  rw [parseBlock]
  refine .expectBind (.lastSpanBind fun start => .bind (h n symbols (by omega)) fun stmts' hstmts' => ?_)
  exact .lastSpanBind fun stop => .pure (by rw [Block.bare, Block.bare, hstmts'])

theorem Stmt.head_symbols (h : stmt.isPrintable = true) (symbols : List Symbol) :
    head (stmt.symbols ++ symbols) ≠ .closeBrace ∧ head (stmt.symbols ++ symbols) ≠ .endOfFile := by
  have hstarts : stmt.startsWithExpr = true →
      head (stmt.symbols ++ symbols) ≠ .closeBrace ∧ head (stmt.symbols ++ symbols) ≠ .endOfFile := by
    intro hkind
    have hexpr := head_startsExpr h hkind symbols
    constructor <;> intro heq <;> rw [heq] at hexpr <;> cases hexpr
  cases stmt
  case expr | assign | update | destructure => exact hstarts rfl
  case block body span =>
    rw [Stmt.symbols, Block.head_symbols]
    decide
  case function decl span =>
    rw [Stmt.symbols, Function.symbols_eq]
    cases decl.isInline <;> exact ⟨nofun, nofun⟩
  case branch cond onTrue onFalse span =>
    cases onFalse <;> rw [Stmt.symbols] <;> exact ⟨nofun, nofun⟩
  case «return» value span => cases value <;> rw [Stmt.symbols] <;> exact ⟨nofun, nofun⟩
  all_goals
    rw [Stmt.symbols]
    exact ⟨nofun, nofun⟩

theorem Stmt.ReadsAll.nil : Stmt.ReadsAll [] := by
  intro n symbols hn
  obtain _ | n := n
  · omega
  rw [parseStmts]
  exact .skipBind (.pure rfl)

theorem Stmt.ReadsAll.cons (hprint : stmt.isPrintable = true) (h : stmt.Reads) (hrest : Stmt.ReadsAll stmts) :
    Stmt.ReadsAll (stmt :: stmts) := by
  intro n symbols hn
  rw [allSymbols, length_append, length_cons] at hn
  rw [allSymbols, append_assoc, cons_append]
  obtain _ | n := n
  · omega
  obtain ⟨hclose, hend⟩ :=
    head_symbols hprint (.sign .semicolon :: (allSymbols stmts ++ .sign .closeBrace :: symbols))
  rw [parseStmts]
  refine .passBind hclose (.bind .nextIs fun found hfound => ?_)
  obtain rfl : found = false := hfound.trans (beq_eq_false_iff_ne.mpr hend)
  refine .bind (h.whole n _ (by omega)) fun stmt' hstmt' => .bind (hrest n symbols (by omega)) fun stmts' hstmts' => ?_
  exact .pure (by rw [allBare, hstmt', hstmts', allBare])

theorem Function.Reads.of_body {name : String} {isInline : Bool} {result : Option Ident}
    {body : Block} (hparams : params.all Param.isPrintable = true) (h : body.Reads) :
    (⟨name, isInline, receiver, params, result, body, span⟩ : Function).Reads := by
  intro n symbols hn
  simp only [plain, length_cons, length_append, cons_append, append_assoc] at hn ⊢
  obtain _ | n := n
  · omega
  rw [parseFunction]
  refine .expectBind (.lastSpanBind fun start => .identBind fun ident hident => .expectBind (.getBind fun ls hls => ?_))
  have hallowed : params.length + 1 < ls.allowance := by
    have hlist := Symbol.length_le_commas (Param.list receiver params)
    have hparams : params.length ≤ (Param.list receiver params).length := by
      cases receiver <;> simp [Param.list]
    rw [hls.allowance, length_append]
    omega
  refine .bind (Param.runs_list hparams hallowed receiver _) fun found hfound => ?_
  obtain ⟨receiver', params'⟩ := found
  obtain ⟨hreceiver, hparams⟩ : receiver'.map (fun _ => Span.zero) = receiver.map (fun _ => Span.zero) ∧
    params'.map Param.bare = params.map Param.bare := hfound
  cases result with
  | none =>
    have hhead : head (body.symbols ++ symbols) ≠ .arrow := by
      rw [Block.head_symbols]
      decide
    refine .passBind hhead (.pureBind (.bind (h n symbols (by omega)) fun body' hbody' => .pure ?_))
    rw [bare, bare, hident, hreceiver, hparams, hbody']
  | some type =>
    refine .skipBind (.identBind fun type' htype' => ?_)
    refine .pureBind (.bind (h n symbols (by omega)) fun body' hbody' => .pure ?_)
    rw [bare, bare, hident, hreceiver, hparams, hbody', Option.map_some, Ident.bare, htype']
    rfl

theorem Function.ReadsAll.nil : Function.ReadsAll [] := by
  intro n symbols fields methods hn
  obtain _ | n := n
  · omega
  rw [parseMembers]
  refine .peekBind (.nextBind (.pure ⟨rfl, ?_⟩))
  rw [allBare, append_nil]

theorem Function.allBare_append (decls others : List Function) :
    allBare (decls ++ others) = allBare decls ++ allBare others := by
  induction decls with
  | nil => rfl
  | cons decl decls ih => rw [cons_append, allBare, allBare, ih, cons_append]

theorem Function.ReadsAll.cons {decl : Function} {decls : List Function} (h : decl.Reads)
    (hrest : Function.ReadsAll decls) : Function.ReadsAll (decl :: decls) := by
  intro n symbols fields methods hn
  rw [allSymbols, length_append, symbols_eq, length_append] at hn
  rw [allSymbols, symbols_eq, append_assoc, append_assoc]
  obtain _ | n := n
  · omega
  have hpos : 0 < decl.plain.length := Nat.succ_pos _
  have hread : Runs (do parseMembers n fields (methods ++ [← parseFunction n decl.isInline]))
      (decl.plain ++ (allSymbols decls ++ .sign .closeBrace :: symbols)) symbols fun found =>
        found.1 = fields ∧ allBare found.2 = allBare methods ++ allBare (decl :: decls) := by
    refine .bind (h n _ (by omega)) fun decl' hdecl' => ?_
    refine .imp (hrest n symbols fields (methods ++ [decl']) (by omega)) fun found hfound => ⟨hfound.1, ?_⟩
    rw [hfound.2, allBare_append, append_assoc, allBare, allBare, hdecl',
      allBare]
    rfl
  rw [parseMembers]
  cases hinline : decl.isInline with
  | false =>
    rw [hinline] at hread
    exact .peekBind hread
  | true =>
    rw [hinline] at hread
    exact .peekBind (.nextBind hread)

theorem Function.ReadsAll.runs_members {methods : List Function} (h : Function.ReadsAll methods)
    (fields : List (String × Ident)) (symbols : List Symbol) (done : List (String × Ident))
    (hn : 16 * (fields.flatMap fieldSymbols ++ allSymbols methods).length + 24 ≤ n) :
    Runs (parseMembers n done [])
      (fields.flatMap fieldSymbols ++ (allSymbols methods ++ .sign .closeBrace :: symbols)) symbols
      fun found =>
        found.1.map (fun field => (field.1, field.2.bare)) =
            (done ++ fields).map (fun field => (field.1, field.2.bare)) ∧
          allBare found.2 = allBare methods := by
  induction fields generalizing n done with
  | nil =>
    refine .imp (h n symbols done [] hn) fun found hfound => ⟨by rw [hfound.1, append_nil], ?_⟩
    rw [hfound.2]
    rfl
  | cons field fields ih =>
    rw [flatMap_cons, append_assoc, length_append] at hn
    obtain _ | n := n
    · omega
    rw [parseMembers, flatMap_cons, append_assoc]
    refine .peekBind (.identBind fun name hname => .expectBind (.identBind fun type htype => .skipBind ?_))
    refine .imp (ih (done ++ [(name.name, type)]) ?_) fun found hfound => ⟨?_, hfound.2⟩
    · have hfield : (fieldSymbols field).length = 4 := rfl
      omega
    · rw [hfound.1, hname, append_assoc]
      simp [Ident.bare, htype]

theorem Stmt.runs_parseBranch {cond : Expr} {onTrue : Block} {onFalse : Option Block}
    (hprint : cond.isPrintable = true) (hTrue : onTrue.Reads) (hFalse : ∀ block ∈ onFalse, block.ReadsElse)
    (hn : 16 * (Stmt.branch cond onTrue onFalse span).symbols.length + 8 ≤ n) (hhead : head symbols ≠ .elseWord) :
    Runs (parseBranch n) ((Stmt.branch cond onTrue onFalse span).symbols ++ symbols) symbols
      (·.bare = (Stmt.branch cond onTrue onFalse span).bare) := by
  obtain _ | n := n
  · omega
  rw [parseBranch]
  cases onFalse with
  | none =>
    simp only [Stmt.symbols, length_cons, length_append, cons_append, append_assoc] at hn ⊢
    refine .expectBind (.lastSpanBind fun start => .expectBind (.bind (Expr.runs_parse hprint (.closing rfl)) ?_))
    intro cond' hcond'
    refine .expectBind (.bind (hTrue n _ (by omega)) fun onTrue' hTrue' => .passBind hhead (.pureBind ?_))
    exact .lastSpanBind fun stop => .pure (by rw [Stmt.bare, Stmt.bare, hcond', hTrue'])
  | some block =>
    simp only [Stmt.symbols, length_cons, length_append, cons_append, append_assoc] at hn ⊢
    refine .expectBind (.lastSpanBind fun start => .expectBind (.bind (Expr.runs_parse hprint (.closing rfl)) ?_))
    intro cond' hcond'
    refine .expectBind (.bind (hTrue n _ (by omega)) fun onTrue' hTrue' => .skipBind ?_)
    refine .bind .nextIs fun nested hnested => ?_
    obtain ⟨hif, hread⟩ | ⟨hbrace, hread⟩ := hFalse block rfl n symbols (by omega) hhead
    · obtain rfl : nested = true := hnested.trans (beq_iff_eq.mpr hif)
      refine .bind hread fun inner hinner => .pureBind (.lastSpanBind fun stop => .pure ?_)
      rw [Stmt.bare, Stmt.bare, hcond', hTrue', hinner]
    · obtain rfl : nested = false := hnested.trans (beq_eq_false_iff_ne.mpr hbrace)
      refine .bind hread fun onFalse' hFalse' => .pureBind (.lastSpanBind fun stop => .pure ?_)
      rw [Stmt.bare, Stmt.bare, hcond', hTrue', hFalse']

namespace Stmt

theorem Reads.of_whole (hkind : stmt.isBranch = false) (h : ∀ n symbols, 16 * stmt.symbols.length + 15 ≤ n →
      Runs (parseStmt (n + 1)) (stmt.symbols ++ .sign .semicolon :: symbols) symbols (·.bare = stmt.bare)) :
    stmt.Reads := by
  refine ⟨fun n symbols hn => ?_, fun hbranch => absurd hbranch (hkind ▸ Bool.false_ne_true)⟩
  obtain _ | n := n
  · omega
  exact h n symbols (Nat.le_of_succ_le_succ hn)

theorem Reads.of_expr (hprint : stmt.isPrintable = true) (hkind : stmt.startsWithExpr = true) : stmt.Reads := by
  refine .of_whole ?_ fun n symbols hn => ?_
  · cases stmt <;> first | rfl | cases hkind
  · have hhead := head_startsExpr hprint hkind (.sign .semicolon :: symbols)
    rw [parseStmt]
    refine .bind .peekSpan fun start _ => .peekBind ?_
    dsimp only
    split
    iterate 9
      · rename_i heq
        rw [heq] at hhead
        cases hhead
    · exact .bind (runs_parseExprStmt hprint hkind start symbols) fun stmt' hstmt' => runs_ended hstmt' symbols

variable {name : String} {cond : Expr}

theorem Reads.const {value : Expr} (h : value.isPrintable = true) : (Stmt.const name value span).Reads := by
  refine .of_whole rfl fun n symbols _ => ?_
  rw [parseStmt]
  refine .bind .peekSpan fun start _ => .peekBind (.nextBind (.identBind fun ident hident => .expectBind ?_))
  refine .bind (Expr.runs_parse h (.closing rfl)) fun value' hvalue' => .lastSpanBind fun stop => .pureBind ?_
  exact runs_ended (by rw [Stmt.bare, Stmt.bare, hident, hvalue']) symbols

theorem Reads.return {value : Option Expr} (h : (Stmt.return value span).isPrintable = true) :
    (Stmt.return value span).Reads := by
  refine .of_whole rfl fun n symbols _ => ?_
  rw [parseStmt]
  refine .bind .peekSpan fun start _ => ?_
  cases value with
  | none =>
    refine .peekBind (.nextBind (.peekBind (.pureBind (.lastSpanBind fun stop => .pureBind ?_))))
    exact runs_ended rfl symbols
  | some value =>
    have hhead := Expr.head_symbols h 0 (.sign .semicolon :: symbols)
    rw [Stmt.symbols, cons_append]
    refine .peekBind (.nextBind (.peekBind ?_))
    dsimp only
    split
    iterate 3
      · rename_i heq
        rw [heq] at hhead
        cases hhead
    · refine .bind (Expr.runs_parse h (.closing rfl)) fun value' hvalue' => .pureBind (.lastSpanBind fun stop => ?_)
      exact .pureBind (runs_ended (by rw [Stmt.bare, Stmt.bare, hvalue']) symbols)

variable {body : Block}

theorem Reads.block (h : body.Reads) : (Stmt.block body span).Reads := by
  refine .of_whole rfl fun n symbols hn => ?_
  rw [parseStmt]
  rw [Stmt.symbols] at hn ⊢
  refine .bind .peekSpan fun start _ => .peekBind ?_
  rw [Block.head_symbols]
  refine .bind (h n _ (by omega)) fun body' hbody' => .pureBind ?_
  exact runs_ended (by rw [Stmt.bare, Stmt.bare, hbody']) symbols

theorem Reads.repeatWhile (hcond : cond.isPrintable = true) (h : body.Reads) :
    (Stmt.repeatWhile cond body span).Reads := by
  refine .of_whole rfl fun n symbols hn => ?_
  simp only [Stmt.symbols, length_cons, length_append, cons_append, append_assoc] at hn ⊢
  rw [parseStmt]
  refine .bind .peekSpan fun start _ => .peekBind (.nextBind (.expectBind ?_))
  refine .bind (Expr.runs_parse hcond (.closing rfl)) fun cond' hcond' => .expectBind ?_
  refine .bind (h n _ (by omega)) fun body' hbody' => .lastSpanBind fun stop => .pureBind ?_
  exact runs_ended (by rw [Stmt.bare, Stmt.bare, hcond', hbody']) symbols

theorem Reads.forEach {var : Ident} {items : Expr} (hitems : items.isPrintable = true) (h : body.Reads) :
    (Stmt.forEach var items body span).Reads := by
  refine .of_whole rfl fun n symbols hn => ?_
  simp only [Stmt.symbols, length_cons, length_append, cons_append, append_assoc] at hn ⊢
  rw [parseStmt]
  refine .bind .peekSpan fun start _ => .peekBind (.nextBind (.expectBind ?_))
  refine .identBind fun ident hident => .expectBind ?_
  refine .bind (Expr.runs_parse hitems (.closing rfl)) fun items' hitems' => .expectBind ?_
  refine .bind (h n _ (by omega)) fun body' hbody' => .lastSpanBind fun stop => .pureBind ?_
  exact runs_ended (by rw [Stmt.bare, Stmt.bare, Ident.bare, hident, Ident.bare, hitems', hbody']) symbols

theorem Reads.function {decl : Function} (h : decl.Reads) : (Stmt.function decl span).Reads := by
  refine .of_whole rfl fun n symbols hn => ?_
  rw [Stmt.symbols, Function.symbols_eq, length_append] at hn
  rw [Stmt.symbols, Function.symbols_eq, append_assoc, parseStmt]
  have hread := h n (.sign .semicolon :: symbols) (by omega)
  refine .bind .peekSpan fun start _ => ?_
  cases hinline : decl.isInline with
  | false =>
    rw [hinline] at hread
    refine .peekBind (.bind hread fun decl' hdecl' => .pureBind ?_)
    exact runs_ended (by rw [Stmt.bare, Stmt.bare, hdecl']) symbols
  | true =>
    rw [hinline] at hread
    refine .peekBind (.nextBind (.bind hread fun decl' hdecl' => .pureBind ?_))
    exact runs_ended (by rw [Stmt.bare, Stmt.bare, hdecl']) symbols

theorem Reads.struct {fields : List (String × Ident)} {methods : List Function} {body span : Span}
    (h : Function.ReadsAll methods) : (Stmt.struct name fields methods body span).Reads := by
  refine .of_whole rfl fun n symbols hn => ?_
  simp only [Stmt.symbols, length_cons, length_append, cons_append, append_assoc] at hn ⊢
  rw [parseStmt]
  refine .bind .peekSpan fun start _ => .peekBind (.nextBind (.identBind fun ident hident => .expectBind ?_))
  refine .lastSpanBind fun brace => .bind (h.runs_members fields _ [] ?_) fun found hfound => ?_
  · rw [length_append]
    omega
  · obtain ⟨fields', methods'⟩ := found
    refine .lastSpanBind fun stop => .pureBind (runs_ended ?_ symbols)
    rw [Stmt.bare, Stmt.bare, hident, hfound.1, hfound.2, nil_append]

theorem Reads.of_branch {onTrue : Block} {onFalse : Option Block}
    (hprint : cond.isPrintable = true) (hTrue : onTrue.Reads) (hFalse : ∀ block ∈ onFalse, block.ReadsElse) :
    (Stmt.branch cond onTrue onFalse span).Reads := by
  refine ⟨fun n symbols hn => ?_, fun _ n symbols hn hhead => runs_parseBranch hprint hTrue hFalse hn hhead⟩
  obtain _ | n := n
  · omega
  have hread : Runs (parseBranch n) ((Stmt.branch cond onTrue onFalse span).symbols ++ .sign .semicolon :: symbols)
      (.sign .semicolon :: symbols) (·.bare = (Stmt.branch cond onTrue onFalse span).bare) :=
    runs_parseBranch hprint hTrue hFalse (by omega) nofun
  have hhead : head ((Stmt.branch cond onTrue onFalse span).symbols ++ .sign .semicolon :: symbols) = .ifWord := by
    cases onFalse <;> rw [Stmt.symbols] <;> rfl
  rw [parseStmt]
  refine .bind .peekSpan fun start _ => .peekBind ?_
  rw [hhead]
  exact .bind hread fun stmt' hstmt' => runs_ended hstmt' symbols

end Stmt

theorem Block.Reads.readsElse {block : Block} (h : block.Reads) (hsymbols : block.elseSymbols = block.symbols) :
    block.ReadsElse := by
  intro n symbols hn _
  rw [hsymbols] at hn ⊢
  refine .inr ⟨?_, h n symbols hn⟩
  rw [head_symbols]
  decide

theorem Stmt.Reads.readsElse (hbranch : stmt.isBranch = true) (h : stmt.Reads) :
    (⟨[stmt], span⟩ : Block).ReadsElse := by
  have hsymbols : (⟨[stmt], span⟩ : Block).elseSymbols = stmt.symbols := by rw [Block.elseSymbols, if_pos hbranch]
  intro n symbols hn hhead
  rw [hsymbols] at hn ⊢
  refine .inl ⟨?_, .imp (h.branch hbranch n symbols hn hhead) fun nested hnested => ?_⟩
  · cases stmt <;> try cases hbranch
    rename_i onFalse _
    cases onFalse <;> rw [Stmt.symbols] <;> rfl
  · rw [Block.bare, Block.bare, Stmt.allBare, Stmt.allBare, hnested]
    rfl

mutual

theorem Stmt.reads : ∀ stmt : Stmt, stmt.isPrintable = true → stmt.Reads
  | .expr _ _, h | .assign _ _ _, h | .update _ _ _ _, h | .destructure _ _ _, h => .of_expr h rfl
  | .const _ _ _, h => by
    rw [Stmt.isPrintable, Bool.and_eq_true] at h
    exact .const h.2
  | .branch cond onTrue none _, h => by
    rw [Stmt.isPrintable, Bool.and_eq_true] at h
    exact .of_branch h.1 (onTrue.reads h.2) nofun
  | .branch cond onTrue (some onFalse) _, h => by
    simp only [Stmt.isPrintable, Bool.and_eq_true] at h
    refine .of_branch h.1.1 (onTrue.reads h.1.2) fun block hblock => ?_
    obtain rfl : onFalse = block := Option.some.inj hblock
    exact onFalse.readsElse h.2
  | .repeatWhile _ body _, h => by
    rw [Stmt.isPrintable, Bool.and_eq_true] at h
    exact .repeatWhile h.1 (body.reads h.2)
  | .forEach _ _ body _, h => by
    simp only [Stmt.isPrintable, Bool.and_eq_true] at h
    exact .forEach h.1.2 (body.reads h.2)
  | .block body _, h => .block (body.reads h)
  | .function decl _, h => .function (decl.reads h)
  | .struct _ _ methods _ _, h => by
    simp only [Stmt.isPrintable, Bool.and_eq_true] at h
    exact .struct (Function.readsAll methods h.2)
  | .return none _, h | .return (some _) _, h => .return h

theorem Block.reads : ∀ block : Block, block.isPrintable = true → block.Reads
  | ⟨stmts, _⟩, h => .of_stmts (Stmt.readsAll stmts h)

theorem Block.readsElse : ∀ block : Block, block.isPrintable = true → block.ReadsElse
  | ⟨[], _⟩, _ => (Block.Reads.of_stmts .nil).readsElse (by rw [Block.elseSymbols, Block.symbols]; nofun)
  | ⟨[stmt], span⟩, h => by
    simp only [Block.isPrintable, Stmt.arePrintable, Bool.and_eq_true] at h
    cases hbranch : stmt.isBranch with
    | true => exact (stmt.reads h.1).readsElse hbranch
    | false =>
      refine (Block.Reads.of_stmts (.cons h.1 (stmt.reads h.1) .nil)).readsElse ?_
      rw [Block.elseSymbols, hbranch, Block.symbols, Stmt.allSymbols, Stmt.allSymbols]
      simp
  | ⟨stmt :: other :: rest, span⟩, h => by
    rw [Block.isPrintable] at h
    refine (Block.Reads.of_stmts (Stmt.readsAll (stmt :: other :: rest) h)).readsElse ?_
    rw [Block.elseSymbols, Block.symbols]
    nofun

theorem Function.reads : ∀ decl : Function, decl.isPrintable = true → decl.Reads
  | ⟨_, _, _, _, _, body, _⟩, h => by
    simp only [Function.isPrintable, Bool.and_eq_true] at h
    exact .of_body h.1.1.2 (body.reads h.2)

theorem Stmt.readsAll : ∀ stmts : List Stmt, Stmt.arePrintable stmts = true → Stmt.ReadsAll stmts
  | [], _ => .nil
  | stmt :: rest, h => by
    rw [Stmt.arePrintable, Bool.and_eq_true] at h
    exact .cons h.1 (stmt.reads h.1) (Stmt.readsAll rest h.2)

theorem Function.readsAll : ∀ decls : List Function, Function.arePrintable decls = true → Function.ReadsAll decls
  | [], _ => .nil
  | decl :: rest, h => by
    rw [Function.arePrintable, Bool.and_eq_true] at h
    exact .cons (decl.reads h.1) (Function.readsAll rest h.2)

end

theorem Stmt.runs_parseAll (h : arePrintable stmts = true) (hn : stmts.length < n) :
    Runs (parseAll n) (allSymbols stmts) [] fun stmts' => allBare stmts' = allBare stmts := by
  obtain _ | n := n
  · omega
  induction stmts generalizing n with
  | nil =>
    rw [parseAll]
    refine .bind .nextIs fun found hfound => ?_
    obtain rfl : found = true := hfound
    exact .pure rfl
  | cons stmt stmts ih =>
    rw [arePrintable, Bool.and_eq_true] at h
    obtain _ | n := n
    · simp at hn
    rw [parseAll, allSymbols]
    refine .bind .nextIs fun found hfound => ?_
    obtain rfl : found = false := hfound.trans (beq_eq_false_iff_ne.mpr (head_symbols h.1 _).2)
    refine .getBind fun ls hls => .bind ((stmt.reads h.1).whole ls.allowance _ ?_) fun stmt' hstmt' => ?_
    · rw [hls.allowance, length_append]
      omega
    · refine .bind (ih h.2 n (Nat.lt_of_succ_lt_succ hn)) fun stmts' hstmts' => .pure ?_
      rw [allBare, allBare, hstmt', hstmts']

theorem Stmt.length_le_allSymbols (stmts : List Stmt) : stmts.length ≤ (allSymbols stmts).length := by
  induction stmts with
  | nil => exact Nat.zero_le _
  | cons stmt stmts ih =>
    rw [allSymbols, length_append, length_cons, length_cons]
    omega

namespace Script

/-- A script is read back from every source that has its tokens, however they are laid out. -/
theorem exists_parse_of_spells {script : Script} (h : script.isPrintable = true) {source : Source}
    (hsource : List.Forall₂ Lexeme.Spells (lexemes source) script.symbols) :
    ∃ script', Script.parse source = .ok script' ∧ script'.bare = script.bare := by
  have hls : (Lexemes.of source).Shows script.symbols := hsource
  have hallowed : script.stmts.length < (Lexemes.of source).allowance := by
    have hlength := Stmt.length_le_allSymbols script.stmts
    rw [hls.allowance, Script.symbols]
    omega
  obtain ⟨stmts, ls, hrun, -, hbare⟩ := Stmt.runs_parseAll h hallowed (Lexemes.of source) hls
  refine ⟨⟨stmts, source.span⟩, ?_, hbare⟩
  rw [Script.parse, hrun]

/-- A script that can be written is read back from its text, up to spans. -/
theorem parse_text (script : Script) (h : script.isPrintable = true) (name : String) :
    ∃ script', Script.parse ⟨name, script.text⟩ = .ok script' ∧ script'.bare = script.bare :=
  exists_parse_of_spells h (spells_lexemes (Stmt.readable_allSymbols script.stmts h) name)

def counter : Script where
  stmts := [
    .struct "Counter" [("n", ⟨"Number", .zero⟩)] [{
        name := "add"
        isInline := true
        receiver := some .zero
        params := [⟨"by", ⟨"Number", .zero⟩, some (.int 1 .zero), .zero⟩]
        result := some ⟨"Number", .zero⟩
        body := ⟨[
          .branch (.binary (.var "by" .zero) .less (.int 0 .zero) .zero)
            ⟨[.return (some (.unary .neg (.call (.member (.var "self" .zero) "add" .zero)
              [.unary .neg (.var "by" .zero) .zero] .zero) .zero)) .zero], .zero⟩
            (some ⟨[.branch (.var "by" .zero)
              ⟨[.update (.path "self" ["n"]) .add (.binary (.binary (.var "by" .zero) .sub (.int 2 .zero) .zero) .mul
                (.binary (.var "by" .zero) .sub (.binary (.int 3 .zero) .sub (.int 4 .zero) .zero) .zero) .zero) .zero],
                .zero⟩
              none .zero], .zero⟩) .zero], .zero⟩
        span := .zero }] .zero .zero,
    .destructure [⟨"a", .zero⟩, ⟨"b", .zero⟩]
      (.array [.string "\"\\\n" .zero, .index (.unary .not (.null .zero) .zero) (.bool true .zero) .zero] .zero) .zero]
  span := .zero

theorem parse_text_counter :
    counter.text = "struct Counter \x7b n : Number ; inline fun add ( self , by : Number = 1 ) -> Number \x7b " ++
      "if ( by < 0 ) \x7b return - self . add ( - by ) ; \x7d else if ( by ) \x7b " ++
      "self . n += ( by - 2 ) * ( by - ( 3 - 4 ) ) ; \x7d ; \x7d \x7d ; " ++
      "a , b = [ \"\\\"\\\\\\n\" , ( ! null ) [ true ] ] ; " ∧
    counter.isPrintable = true ∧
      ∃ script', Script.parse ⟨"main", counter.text⟩ = .ok script' ∧ script'.bare = counter.bare :=
  ⟨by decide +kernel, by decide +kernel, parse_text counter (by decide +kernel) "main"⟩

end Script

end Datapack.Syntax
