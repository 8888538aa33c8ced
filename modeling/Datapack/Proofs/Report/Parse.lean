import Mathlib
import Datapack.Proofs.Report.Phrase

/-!
Where a script is read. Reading goes forward, token by token. So the phrases of a script that was read stand inside each
other and one after the other, and if it was not read, the fault is told at a place of the script.
-/

namespace Datapack

open Text List

namespace Syntax

variable {source : Source} {ls ls1 ls' : Lexemes} {p q : Phrase} {ps qs : List Phrase} {span : Span}

namespace Lexemes

def ahead (ls : Lexemes) : Span :=
  match ls.rest with
  | [] => ⟨ls.stop, ls.stop⟩
  | lexeme :: _ => lexeme.span

def token (ls : Lexemes) : Token :=
  match ls.rest with
  | ⟨.ok token, _, _⟩ :: _ => token
  | _ => .endOfFile

structure Sound (source : Source) (ls : Lexemes) : Prop where
  stop : ls.stop = source.size
  last : ls.last.Fits source
  rest : ∀ lexeme ∈ ls.rest, lexeme ∈ lexemes source ∧ ls.pos ≤ lexeme.span.start
  ordered : ls.rest.Pairwise fun a b => a.span.stop ≤ b.span.start

theorem sound_of (source : Source) : (Lexemes.of source).Sound source :=
  ⟨rfl, .zero source, fun _ h => ⟨h, Nat.zero_le _⟩, (segments_lexemes source).ordered⟩

end Lexemes

namespace Phrase

structure Stands (source : Source) (ls ls' : Lexemes) (p : Phrase) : Prop where
  read : p.Read source
  start_eq : p.span.start = ls.ahead.start
  stop_eq : p.span.stop = ls'.pos
  pos_le : ls.pos ≤ p.span.start

/-- Whether phrases stand one after the other between two places, and the last token between these, if there is one, goes
up to the second. -/
structure Takes (source : Source) (ls ls' : Lexemes) (ps : List Phrase) : Prop where
  row : Row source ls.pos ls'.pos ps
  last : ls'.pos = ls.pos ∨ TokenEnds source ls.pos ls'.pos

theorem Takes.nil : Takes source ls ls [] := ⟨.nil .refl, .inl rfl⟩

theorem Takes.append (h : Takes source ls ls1 ps) (h' : Takes source ls1 ls' qs) : Takes source ls ls' (ps ++ qs) := by
  refine ⟨h.row.append h'.row, ?_⟩
  obtain hsame | hends := h'.last
  · exact hsame ▸ h.last
  · exact .inr (hends.mono h.row.le)

theorem Takes.pass (h : Takes source ls ls1 ps) (h' : Takes source ls1 ls' []) : Takes source ls ls' ps := by
  simpa using h.append h'

namespace Stands

section

variable (h : p.Stands source ls ls')

include h

theorem start_lt : p.span.start < ls'.pos := h.stop_eq ▸ h.read.edged.nonempty

theorem within (hrow : Row source p.span.start p.span.stop ps) : Takes source ls ls' ps :=
  ⟨hrow.mono h.pos_le (Nat.le_of_eq h.stop_eq), .inr (h.stop_eq ▸ h.read.edged.last.mono h.pos_le)⟩

theorem takes : Takes source ls ls' [p] := h.within (.single h.read)

theorem passes : Takes source ls ls' [] := h.within (.nil h.read.edged.fits.ordered)

end

theorem join (h : q.Stands source ls ls1) (hrow : Row source q.span.start q.span.stop qs) (h' : Takes source ls1 ls' ps)
    (hmade : p.MadeOf (qs ++ ps)) (hstart : p.span.start = ls.ahead.start) (hstop : p.span.stop = ls'.pos)
    (hopens : p.Opens) : p.Stands source ls ls' := by
  have hsame : p.span.start = q.span.start := hstart.trans h.start_eq.symm
  have hrow := hrow.append (h.stop_eq ▸ h'.row)
  have hfirst := h.read.edged.first.mono (h.stop_eq ▸ h'.row.le)
  have hlast : TokenEnds source q.span.start ls'.pos := by
    obtain hpos | hends := h'.last
    · exact hpos ▸ h.stop_eq ▸ h.read.edged.last
    · exact hends.mono (Nat.le_of_lt h.start_lt)
  rw [← hsame, ← hstop] at hrow hfirst hlast
  exact ⟨hrow.around hmade ⟨hfirst, hlast⟩ hopens, hstart, hstop, hsame ▸ h.pos_le⟩

theorem grow (h : q.Stands source ls ls1) (h' : Takes source ls1 ls' ps) (hgroups : p.groups = [q :: ps])
    (hstart : p.span.start = ls.ahead.start) (hstop : p.span.stop = ls'.pos) (hopens : p.Opens) :
    p.Stands source ls ls' := h.join (.single h.read) h' (.of_groups hgroups) hstart hstop hopens

theorem after (h : (word span).Stands source ls ls1) (h' : Takes source ls1 ls' ps) (hgroups : p.groups = [ps])
    (hstart : p.span.start = ls.ahead.start) (hstop : p.span.stop = ls'.pos) (hopens : p.Behind → p.Opens) :
    p.Stands source ls ls' := by
  have hmade : p.MadeOf ps := .of_groups hgroups
  refine h.join (.nil h.read.edged.fits.ordered) h' hmade hstart hstop (hopens fun child hchild => ?_)
  rw [hstart, ← h.start_eq]
  exact Nat.lt_of_lt_of_le h.start_lt (h'.row.inside child (hmade.perm.subset hchild)).1

end Stands

end Phrase

namespace Parse

open Phrase

variable {α β : Type}

/-- What a step comes to on the lexemes of a script: it gives a result as told, or meets a fault at a place of the
script. -/
def Reads (source : Source) (step : Parse α) (ls : Lexemes) (post : α → Lexemes → Prop) : Prop :=
  ls.Sound source → match step.run ls with
    | .ok (a, ls') => ls'.Sound source ∧ post a ls'
    | .error error => error.span.Fits source

namespace Reads

variable {P : α → Lexemes → Prop} {Q : β → Lexemes → Prop} {token : Token} {a : α} {f : α → Parse β}

theorem pure (h : P a ls) : Reads source (Pure.pure a) ls P := fun hls => ⟨hls, h⟩

theorem bind {step : Parse α} (h : Reads source step ls P) (hf : ∀ a ls', P a ls' → Reads source (f a) ls' Q) :
    Reads source (step >>= f) ls Q := by
  intro hls
  have hstep := h hls
  rw [StateT.run_bind]
  cases hrun : step.run ls with
  | error error => rwa [hrun] at hstep
  | ok result =>
    obtain ⟨a, ls'⟩ := result
    rw [hrun] at hstep
    exact hf a ls' hstep.2 hstep.1

theorem pureBind (h : Reads source (f a) ls Q) : Reads source (Pure.pure a >>= f) ls Q := h

theorem getBind {f : Lexemes → Parse β} (h : Reads source (f ls) ls Q) : Reads source (get >>= f) ls Q := h

theorem lastSpanBind {f : Span → Parse β} (h : Reads source (f ls.last) ls Q) : Reads source (lastSpan >>= f) ls Q := h

theorem faultHere {f : ParseFault} : Reads source (Parse.fault f ls.last) ls P := fun hls => hls.last

theorem peekBind {f : Token → Parse β} (h : Reads source (f ls.token) ls Q) : Reads source (Parse.peek >>= f) ls Q := by
  intro hls
  obtain ⟨last, text, rest, stop⟩ := ls
  cases rest with
  | nil => exact h hls
  | cons lexeme rest =>
    obtain ⟨outcome, span, chars⟩ := lexeme
    cases outcome with
    | error f => exact hls.last
    | ok token => exact h hls

theorem nextIs : Reads source (Parse.nextIs token) ls fun found ls' => (found = true → ls.token = token) ∧ ls' = ls :=
  .peekBind (.pure ⟨eq_of_beq, rfl⟩)

theorem nextIsBind {f : Bool → Parse β} (h : ∀ found, Reads source (f found) ls Q) :
    Reads source (Parse.nextIs token >>= f) ls Q := by
  refine .bind nextIs ?_
  rintro found _ ⟨-, rfl⟩
  exact h found

theorem peekSpanBind {f : Span → Parse β} (h : Reads source (f ls.ahead) ls Q) :
    Reads source (Parse.peekSpan >>= f) ls Q := by
  intro hls
  obtain ⟨last, text, rest, stop⟩ := ls
  cases rest with
  | nil => exact h hls
  | cons lexeme rest =>
    obtain ⟨outcome, span, chars⟩ := lexeme
    cases outcome with
    | error f => exact hls.last
    | ok token => exact h hls

theorem next : Reads source Parse.next ls fun token ls' => token = ls.token ∧
    (token ≠ .endOfFile → (word ls'.last).Stands source ls ls') ∧ (token = .identifier → IsName (.ofList ls'.text)) := by
  intro hls
  obtain ⟨last, text, rest, stop⟩ := ls
  obtain ⟨hstop, hlast, hrest, hordered⟩ := hls
  cases rest with
  | nil => exact ⟨⟨hstop, hstop ▸ .ending source, by simp, .nil⟩, rfl, fun h => absurd rfl h, nofun⟩
  | cons lexeme rest =>
    obtain ⟨⟨hmem, hle⟩, hlater⟩ := forall_mem_cons.mp hrest
    obtain ⟨hbefore, hsorted⟩ := pairwise_cons.mp hordered
    obtain ⟨outcome, span, chars⟩ := lexeme
    cases outcome with
    | error f => exact (Lexeme.cut_of_mem hmem).1
    | ok token =>
      have hword : span.Edged source := .of_mem hmem ⟨token, rfl⟩
      refine ⟨⟨hstop, hword.fits, fun l hl => ⟨(hlater l hl).1, hbefore l hl⟩, hsorted⟩, rfl, ?_, ?_⟩
      · exact fun _ => ⟨.word hword, rfl, rfl, hle⟩
      · rintro rfl
        exact isName_of_mem_lexemes hmem rfl

theorem nextToken (h : ls.token ≠ .endOfFile) :
    Reads source Parse.next ls fun _ ls' => (word ls'.last).Stands source ls ls' := by
  intro hls
  have hnext := next hls
  split
  next hrun =>
    rw [hrun] at hnext
    exact ⟨hnext.1, hnext.2.2.1 (hnext.2.1 ▸ h)⟩
  next hrun => rwa [hrun] at hnext

theorem skip (htoken : token ≠ .endOfFile) : Reads source (Parse.skip token) ls fun _ ls' => Takes source ls ls' [] := by
  refine .bind nextIs ?_
  rintro found _ ⟨hfound, rfl⟩
  split
  next hyes => exact .bind (nextToken (hfound hyes ▸ htoken)) fun _ _ hword => .pure hword.passes
  next => exact .pure .nil

theorem expect (htoken : token ≠ .endOfFile) : Reads source (Parse.expect token) ls fun _ ls' =>
    (word ls'.last).Stands source ls ls' ∧ (token = .identifier → IsName (.ofList ls'.text)) := by
  refine .bind next fun found ls' hnext => ?_
  obtain ⟨-, hword, hname⟩ := hnext
  split
  · exact .lastSpanBind .faultHere
  next hfound =>
    obtain rfl : found = token := by simpa using hfound
    exact .pure ⟨hword htoken, hname⟩

theorem ident : Reads source Parse.ident ls fun name ls' => (word name.span).Stands source ls ls' ∧ IsName name.name :=
  .bind (expect nofun) fun _ ls' hword => by exact .getBind (.getBind (.pure ⟨hword.1, hword.2 rfl⟩))

end Reads

end Parse

open Parse Phrase

structure ReadsExprs (source : Source) (n : Nat) : Prop where
  level : ∀ level ls, Reads source (parseLevel n level) ls fun e ls' => (expr e).Stands source ls ls'
  tail : ∀ level left ls0 ls, (expr left).Stands source ls0 ls →
    Reads source (parseInfix n level left) ls fun e ls' => (expr e).Stands source ls0 ls'
  value : ∀ ls, Reads source (parseValue n) ls fun e ls' => (expr e).Stands source ls ls'
  following : ∀ base ls0 ls, (expr base).Stands source ls0 ls →
    Reads source (parsePostfix n base) ls fun e ls' => (expr e).Stands source ls0 ls'
  unit : ∀ ls, Reads source (parseUnit n) ls fun e ls' => (expr e).Stands source ls ls'
  args : ∀ close ls, close ≠ .endOfFile →
    Reads source (parseArgs n close) ls fun args ls' => Takes source ls ls' (args.map expr)

theorem readsExprs (source : Source) (n : Nat) : ReadsExprs source n := by
  induction n with
  | zero => constructor <;> intros <;> exact .lastSpanBind .faultHere
  | succ n ih =>
    -- an operand of a level, which the rest of a step goes on with
    have operand : ∀ level ls (f : Expr → Parse Expr) (P : Expr → Lexemes → Prop),
        (∀ e ls', (expr e).Stands source ls ls' → Reads source (f e) ls' P) → Reads source
          (if level < tightestLevel then parseLevel n (level + 1) >>= f else parseValue n >>= f) ls P := by
      intro level ls f P hf
      split
      · exact .bind (ih.level _ ls) hf
      · exact .bind (ih.value ls) hf
    constructor
    case level =>
      intro level ls
      rw [parseLevel]
      exact operand level ls _ _ fun left ls' hleft => ih.tail level left _ ls' hleft
    case tail =>
      intro level left ls0 ls hleft
      rw [parseInfix]
      refine .peekBind ?_
      split
      · exact .pure hleft
      next op hop =>
        refine .bind (.nextToken fun hend => by rw [hend] at hop; cases hop) fun _ ls1 hword => ?_
        refine operand level ls1 _ _ fun right ls2 hright => ih.tail level _ ls0 ls2 ?_
        exact hleft.grow (hword.passes.append hright.takes) rfl hleft.start_eq hright.stop_eq (Expr.rooted_of_none rfl)
    case value =>
      intro ls
      rw [parseValue]
      refine .peekBind ?_
      split
      next op hop =>
        refine .bind (.nextToken fun hend => by rw [hend] at hop; cases hop) fun _ ls1 hword => .lastSpanBind ?_
        refine .bind (ih.value ls1) fun operand ls2 hoperand => .pure ?_
        exact hword.after hoperand.takes rfl hword.start_eq hoperand.stop_eq fun _ => Expr.rooted_of_none rfl
      · exact .bind (ih.unit ls) fun unit ls1 hunit => ih.following unit _ ls1 hunit
    case following =>
      intro base ls0 ls hbase
      rw [parsePostfix]
      refine .peekBind ?_
      split
      next htoken =>
        refine .bind (.nextToken (htoken ▸ nofun)) fun _ ls1 hword => .bind (ih.args _ ls1 nofun) fun args ls2 hargs => ?_
        refine .lastSpanBind (ih.following _ ls0 ls2 ?_)
        exact hbase.grow (hword.passes.append hargs) rfl hbase.start_eq rfl (Expr.rooted_of_none rfl)
      next htoken =>
        refine .bind (.nextToken (htoken ▸ nofun)) fun _ ls1 hword => .bind .ident fun member ls2 hmember => ?_
        refine .lastSpanBind (ih.following _ ls0 ls2 ?_)
        exact hbase.grow (hword.passes.append hmember.1.passes) rfl hbase.start_eq rfl hbase.read.opens
      next htoken =>
        refine .bind (.nextToken (htoken ▸ nofun)) fun _ ls1 hword => .bind (ih.level 0 ls1) fun index ls2 hindex => ?_
        refine .bind (.expect nofun) fun _ ls3 hclose => .lastSpanBind (ih.following _ ls0 ls3 ?_)
        have hinside := hword.passes.append (hindex.takes.pass hclose.1.passes)
        exact hbase.grow hinside rfl hbase.start_eq rfl hbase.read.opens
      · exact .pure hbase
    case unit =>
      intro ls
      rw [parseUnit]
      refine .bind .next fun token ls' hnext => .lastSpanBind (.getBind ?_)
      obtain ⟨-, hword, hname⟩ := hnext
      have leaf : token ≠ .endOfFile → ∀ e : Expr, e.operands = [] → e.span = ls'.last → e.Rooted →
          Reads source (Pure.pure e) ls' fun e ls'' => (expr e).Stands source ls ls'' := by
        intro htoken e hoperands hspan hroot
        refine .pure ((hword htoken).after .nil (by simp [hoperands]) ?_ ?_ fun _ => hroot)
        · exact (congrArg Span.start hspan).trans (hword htoken).start_eq
        · exact congrArg Span.stop hspan
      dsimp only
      split
      · unfold intLiteral
        dsimp only
        split
        · exact leaf nofun _ rfl rfl (Expr.rooted_of_none rfl)
        · exact .faultHere
      · unfold decimalLiteral
        split
        · exact leaf nofun _ rfl rfl (Expr.rooted_of_none rfl)
        · exact .faultHere
      · exact leaf nofun _ rfl rfl (Expr.rooted_of_none rfl)
      · exact leaf nofun _ rfl rfl (Expr.rooted_of_none rfl)
      · exact leaf nofun _ rfl rfl (Expr.rooted_of_none rfl)
      · unfold stringLiteral
        split
        · exact leaf nofun _ rfl rfl (Expr.rooted_of_none rfl)
        · exact .faultHere
      · exact leaf nofun _ rfl rfl fun name h => Option.some.inj h ▸ hname rfl
      · refine .bind (ih.level 0 ls') fun inner ls1 hinner => .bind (.expect nofun) fun _ ls2 hclose => ?_
        have hword := hword nofun
        have hinside := (hinner.within (hinner.read.row (.head _))).pass hclose.1.passes
        have hroot : inner.Rooted := hinner.read.opens
        refine .lastSpanBind (.pure ?_)
        cases inner <;> exact hword.after hinside rfl hword.start_eq rfl fun _ => hroot
      · refine .bind (ih.args _ ls' nofun) fun items ls1 hitems => .lastSpanBind (.pure ?_)
        exact (hword nofun).after hitems rfl (hword nofun).start_eq rfl fun _ => Expr.rooted_of_none rfl
      · exact .faultHere
    case args =>
      intro close ls hclose
      rw [parseArgs]
      refine .bind (.skip hclose) fun closed ls1 hskip => ?_
      split
      · exact .pure hskip
      · refine .bind (ih.level 0 ls1) fun arg ls2 harg => .bind (.skip nofun) fun more ls3 hcomma => ?_
        have harg := hskip.append (harg.takes.pass hcomma)
        split
        · exact .bind (ih.args close ls3 hclose) fun args _ hargs => .pure (harg.append hargs)
        · exact .bind (.expect hclose) fun _ _ hend => .pure (harg.pass hend.1.passes)

theorem Expr.reads_parse (source : Source) (ls : Lexemes) :
    Reads source parse ls fun e ls' => (expr e).Stands source ls ls' :=
  .getBind ((readsExprs source ls.allowance).level 0 ls)

theorem Target.reads_ofExpr {e : Expr} (he : (expr e).Read source) (ls : Lexemes) :
    Reads source (liftM (ofExpr e)) ls fun target ls' =>
      ls' = ls ∧ Row source e.span.start e.span.stop (target.subscripts.map expr) ∧ IsName target.var := by
  have hread : match ofExpr e with
      | .ok target => Row source e.span.start e.span.stop (target.subscripts.map expr)
      | .error error => error.span.Fits source := by
    fun_induction ofExpr e with
    | case1 | case2 => exact .nil he.edged.fits.ordered
    | case3 | case6 => exact he.edged.fits
    | case4 base name span error hbase ih =>
      rw [hbase] at ih
      exact ih (he.row (.head _)).uncons.1
    | case5 =>
      obtain ⟨hbase, hle, hindex⟩ := (he.row (.head _)).uncons
      exact hindex.mono (hle.trans hbase.edged.fits.ordered) .refl
  intro hls
  cases htarget : ofExpr e with
  | error error => rwa [htarget] at hread
  | ok target =>
    rw [htarget] at hread
    exact ⟨hls, rfl, hread, isName_of_ofExpr he.opens htarget⟩

theorem reads_parseNames (source : Source) (n : Nat) (ls : Lexemes) :
    Reads source (parseNames n) ls fun names ls' =>
      Takes source ls ls' (names.map (word ·.span)) ∧ ∀ name ∈ names, IsName name.name := by
  induction n generalizing ls with
  | zero => exact .lastSpanBind .faultHere
  | succ n ih =>
    rw [parseNames]
    refine .bind (.skip nofun) fun more ls1 hcomma => ?_
    split
    · refine .bind .ident fun name ls2 hname => .bind (ih ls2) fun names _ hnames => .pure ⟨?_, ?_⟩
      · exact hcomma.append (hname.1.takes.append hnames.1)
      · exact forall_mem_cons.mpr ⟨hname.2, hnames.2⟩
    · exact .pure ⟨hcomma, by simp⟩

theorem reads_parseExprStmt (source : Source) (ls : Lexemes) :
    Reads source (parseExprStmt ls.ahead) ls fun s ls' => (stmt s).Stands source ls ls' := by
  refine .bind (Expr.reads_parse source ls) fun e ls1 he => .peekBind ?_
  -- what the expression is assigned stands behind it
  have assigned {target : Target} {value : Expr} {s : Stmt} {ls2 ls3 : Lexemes}
      (hword : (word ls2.last).Stands source ls1 ls2)
      (htarget : Row source e.span.start e.span.stop (target.subscripts.map expr))
      (hvalue : (expr value).Stands source ls2 ls3) (hs : ofStmt s = target.subscripts.map expr ++ [expr value])
      (hspan : (stmt s).span = ls.ahead.through ls3.last) (hopens : (stmt s).Opens) : (stmt s).Stands source ls ls3 := by
    have hmade : (stmt s).MadeOf (target.subscripts.map expr ++ [expr value]) := .of_groups (congrArg ([·]) hs)
    exact he.join htarget (hword.passes.append hvalue.takes) hmade (hspan ▸ rfl) (hspan ▸ rfl) hopens
  split
  next htoken =>
    refine .bind (.nextToken (htoken ▸ nofun)) fun _ ls2 hword => ?_
    refine .bind (Target.reads_ofExpr he.read ls2) fun target _ htarget => ?_
    obtain ⟨rfl, htarget, hname⟩ := htarget
    refine .bind (Expr.reads_parse source _) fun value ls3 hvalue => .lastSpanBind (.pure ?_)
    exact assigned hword htarget hvalue rfl rfl hname
  next name span _ =>
    refine .getBind (.bind (reads_parseNames source _ ls1) fun names ls2 hnames => .bind (.expect nofun) ?_)
    refine fun _ ls3 hsign => .bind (Expr.reads_parse source ls3) fun value ls4 hvalue => .lastSpanBind (.pure ?_)
    have hfirst : (word span).Stands source ls ls1 := ⟨.word he.read.edged, he.start_eq, he.stop_eq, he.pos_le⟩
    refine hfirst.grow (hnames.1.append (hsign.1.passes.append hvalue.takes)) rfl rfl rfl ?_
    exact forall_mem_cons.mpr ⟨he.read.opens name rfl, hnames.2⟩
  · split
    next op hop =>
      refine .bind (.nextToken fun hend => by rw [hend] at hop; cases hop) fun _ ls2 hword => ?_
      refine .bind (Target.reads_ofExpr he.read ls2) fun target _ htarget => ?_
      obtain ⟨rfl, htarget, -⟩ := htarget
      refine .bind (Expr.reads_parse source _) fun value ls3 hvalue => .lastSpanBind (.pure ?_)
      exact assigned hword htarget hvalue rfl rfl trivial
    · exact .lastSpanBind (.pure (he.grow .nil rfl rfl rfl trivial))

theorem reads_parseParam {name : Ident} (hname : (word name.span).Stands source ls ls1) (hisName : IsName name.name) :
    Reads source (parseParam name) ls1 fun q ls' => (param q).Stands source ls ls' := by
  refine .bind (.expect nofun) fun _ ls2 hcolon => .bind .ident fun type ls3 htype => ?_
  refine .bind (.skip nofun) fun given ls4 hsign => ?_
  have hinside := hcolon.1.passes.append (htype.1.takes.pass hsign)
  dsimp only
  split
  · refine .bind (Expr.reads_parse source ls4) fun value ls5 hvalue => .pureBind (.lastSpanBind (.pure ?_))
    exact hname.after (hinside.append hvalue.takes) rfl hname.start_eq rfl fun _ => hisName
  · exact .pureBind (.lastSpanBind (.pure (hname.after hinside rfl hname.start_eq rfl fun _ => hisName)))

theorem reads_parseParams (source : Source) (n : Nat) (receiver : Option Span) (params : List Param) (ls0 ls : Lexemes)
    (h : Takes source ls0 ls (ofParams receiver params)) :
    Reads source (parseParams n receiver params) ls fun result ls' =>
      Takes source ls0 ls' (ofParams result.1 result.2) := by
  induction n generalizing receiver params ls with
  | zero => exact .lastSpanBind .faultHere
  | succ n ih =>
    -- what follows a parameter or the receiver
    have more : ∀ (receiver : Option Span) (params : List Param) (ls : Lexemes),
        Takes source ls0 ls (ofParams receiver params) → Reads source (do
          if ← skip .comma then parseParams n receiver params
          else
            expect .closeParen
            return (receiver, params)) ls fun result ls' => Takes source ls0 ls' (ofParams result.1 result.2) := by
      intro receiver params ls h
      refine .bind (.skip nofun) fun another ls1 hcomma => ?_
      split
      · exact ih receiver params ls1 (h.pass hcomma)
      · exact .bind (.expect nofun) fun _ ls2 hclose => .pure ((h.pass hcomma).pass hclose.1.passes)
    rw [parseParams]
    refine .bind (.skip nofun) fun closed ls1 hclose => ?_
    split
    · exact .pure (h.pass hclose)
    refine .bind .ident fun name ls2 hname => ?_
    obtain ⟨hword, hname⟩ := hname
    have last : Reads source (do
        let param ← parseParam name
        if ← skip .comma then parseParams n receiver (params ++ [param])
        else
          expect .closeParen
          return (receiver, params ++ [param])) ls2 fun result ls' => Takes source ls0 ls' (ofParams result.1 result.2) := by
      refine .bind (reads_parseParam hword hname) fun param ls3 hparam => more receiver _ ls3 ?_
      simpa using (h.pass hclose).append hparam.takes
    dsimp only
    split
    next hfirst =>
      obtain ⟨⟨rfl, rfl⟩, -⟩ : (params = [] ∧ receiver = none) ∧ name.name = "self" := by simpa using hfirst
      refine .nextIsBind fun _ => .pureBind ?_
      split
      · exact .pureBind (more _ [] ls2 ((h.pass hclose).append hword.takes))
      · exact last
    · exact .pureBind last

/-- Whether what has been read of the members of a struct since a given place stands in a script and is called by
names. -/
def MembersRead (source : Source) (ls ls' : Lexemes) (fields : List (String × Ident)) (methods : List Function) : Prop :=
  ∃ ps, Takes source ls ls' ps ∧ (fields.map (word ·.2.span) ++ methods.map function).Perm ps ∧
    (fields.map (word ·.2.span)).Sublist ps ∧ (methods.map function).Sublist ps ∧ ∀ field ∈ fields, IsName field.1

namespace MembersRead

variable {fields : List (String × Ident)} {methods : List Function}

section

variable (h : MembersRead source ls ls1 fields methods)

include h

theorem pass (h' : Takes source ls1 ls' []) : MembersRead source ls ls' fields methods := by
  obtain ⟨ps, htakes, h⟩ := h
  exact ⟨ps, htakes.pass h', h⟩

theorem method {decl : Function}
    (hdecl : (function decl).Stands source ls1 ls') : MembersRead source ls ls' fields (methods ++ [decl]) := by
  obtain ⟨ps, htakes, hperm, hfields, hmethods, hnamed⟩ := h
  refine ⟨ps ++ [function decl], htakes.append hdecl.takes, ?_, hfields.trans (sublist_append_left _ _), ?_, hnamed⟩
  · simpa using hperm.append_right [function decl]
  · simpa using hmethods.append (.refl [function decl])

theorem field {name : String} {type : Ident} (htype : (word type.span).Stands source ls1 ls') (hname : IsName name) :
    MembersRead source ls ls' (fields ++ [(name, type)]) methods := by
  obtain ⟨ps, htakes, hperm, hfields, hmethods, hnamed⟩ := h
  refine ⟨ps ++ [word type.span], htakes.append htype.takes, ?_, ?_, hmethods.trans (sublist_append_left _ _), ?_⟩
  · rw [map_append, append_assoc]
    exact (perm_append_comm.append_left _).trans (by simpa using hperm.append_right [word type.span])
  · simpa using hfields.append (.refl [word type.span])
  · exact forall_mem_append.mpr ⟨hnamed, by simpa using hname⟩

end

end MembersRead

structure ReadsStmts (source : Source) (n : Nat) : Prop where
  block : ∀ ls, Reads source (parseBlock n) ls fun b ls' => (block b).Stands source ls ls'
  stmts : ∀ ls, Reads source (parseStmts n) ls fun stmts ls' => Takes source ls ls' (stmts.map stmt)
  function : ∀ isInline ls, Reads source (parseFunction n isInline) ls fun decl ls' =>
    (function decl).Stands source ls ls'
  members : ∀ fields methods ls0 ls, MembersRead source ls0 ls fields methods →
    Reads source (parseMembers n fields methods) ls fun result ls' => MembersRead source ls0 ls' result.1 result.2
  branch : ∀ ls, Reads source (parseBranch n) ls fun s ls' =>
    (stmt s).Stands source ls ls' ∧ ∃ cond onTrue onFalse, s = .branch cond onTrue onFalse s.span
  stmt : ∀ ls, Reads source (parseStmt n) ls fun s ls' => Takes source ls ls' [stmt s]

theorem readsStmts (source : Source) (n : Nat) : ReadsStmts source n := by
  induction n with
  | zero => constructor <;> intros <;> exact .lastSpanBind .faultHere
  | succ n ih =>
    constructor
    case block =>
      intro ls
      rw [parseBlock]
      refine .bind (.expect nofun) fun _ ls1 hbrace => .lastSpanBind (.bind (ih.stmts ls1) fun stmts ls2 hstmts => ?_)
      exact .lastSpanBind (.pure (hbrace.1.after hstmts rfl hbrace.1.start_eq rfl .inl))
    case stmts =>
      intro ls
      have more : ∀ ls', Takes source ls ls' [] → Reads source (do return (← parseStmt n) :: (← parseStmts n)) ls'
          fun stmts ls'' => Takes source ls ls'' (stmts.map stmt) := by
        intro ls' h
        refine .bind (ih.stmt ls') fun s ls1 hs => .bind (ih.stmts ls1) fun stmts ls2 hstmts => .pure ?_
        exact h.append (hs.append hstmts)
      rw [parseStmts]
      refine .bind (.skip nofun) fun closed ls1 hclose => ?_
      split
      · exact .pure hclose
      · refine .nextIsBind fun ended => ?_
        dsimp only
        split
        · exact .bind (.expect nofun) fun _ ls2 hword => more ls2 (hclose.pass hword.1.passes)
        · exact more ls1 hclose
    case function =>
      intro isInline ls
      rw [parseFunction]
      refine .bind (.expect nofun) fun _ ls1 hword => .lastSpanBind (.bind .ident fun name ls2 hname => ?_)
      have body : ∀ (receiver : Option Span) (params : List Param) (result : Option Ident) (ls3 : Lexemes),
          Takes source ls1 ls3 (ofParams receiver params ++ result.toList.map (word ·.span)) → Reads source (do
              let body ← parseBlock n
              return (⟨name.name, isInline, receiver, params, result, body, ls1.last.through body.span⟩ : Function))
              ls3 fun decl ls' => (function decl).Stands source ls ls' := by
        intro receiver params result ls3 htakes
        refine .bind (ih.block ls3) fun body ls4 hbody => .pure ?_
        have hinside := htakes.append hbody.takes
        refine hword.1.after (by simpa using hinside) rfl hword.1.start_eq hbody.stop_eq fun _ => ⟨hname.2, ?_⟩
        exact fun param hparam => (htakes.row.read (.param param) (by simp [hparam])).opens
      refine .bind (.expect nofun) fun _ ls3 hparen => .getBind ?_
      refine .bind (reads_parseParams source _ none [] ls1 ls3 (hname.1.passes.pass hparen.1.passes)) ?_
      refine fun read ls4 hparams => .bind (.skip nofun) fun arrow ls5 harrow => ?_
      dsimp only
      split
      · refine .bind .ident fun type ls6 htype => .pureBind (body read.1 read.2 (some type) ls6 ?_)
        exact (hparams.pass harrow).append htype.1.takes
      · exact .pureBind (body read.1 read.2 none ls5 (hparams.append harrow))
    case members =>
      intro fields methods ls0 ls hread
      have method : ∀ isInline ls', Takes source ls ls' [] → Reads source (do
          parseMembers n fields (methods ++ [← parseFunction n isInline])) ls' fun result ls'' =>
            MembersRead source ls0 ls'' result.1 result.2 := by
        intro isInline ls' h
        refine .bind (ih.function isInline ls') fun decl ls1 hdecl => ?_
        exact ih.members fields _ ls0 ls1 ((hread.pass h).method hdecl)
      rw [parseMembers]
      refine .peekBind ?_
      split
      next htoken => exact .bind (.nextToken (htoken ▸ nofun)) fun _ ls1 hclose => .pure (hread.pass hclose.passes)
      · exact method false ls .nil
      next htoken => exact .bind (.nextToken (htoken ▸ nofun)) fun _ ls1 hword => method true ls1 hword.passes
      · refine .bind .ident fun field ls1 hfield => .bind (.expect nofun) fun _ ls2 hcolon => ?_
        refine .bind .ident fun type ls3 htype => .bind (.skip nofun) fun ended ls4 hended => ?_
        have hread := ((hread.pass (hfield.1.passes.pass hcolon.1.passes)).field htype.1 hfield.2).pass hended
        dsimp only
        split
        · exact .bind (.skip nofun) fun _ ls5 hcomma => ih.members _ methods ls0 ls5 (hread.pass hcomma)
        · exact ih.members _ methods ls0 ls4 hread
    case branch =>
      intro ls
      rw [parseBranch]
      refine .bind (.expect nofun) fun _ ls1 hword => .lastSpanBind (.bind (.expect nofun) fun _ ls2 hparen => ?_)
      refine .bind (Expr.reads_parse source ls2) fun cond ls3 hcond => .bind (.expect nofun) fun _ ls4 hclose => ?_
      refine .bind (ih.block ls4) fun onTrue ls5 hTrue => .bind (.skip nofun) fun hasElse ls6 helse => ?_
      have hinside := hparen.1.passes.append ((hcond.takes.pass hclose.1.passes).append (hTrue.takes.pass helse))
      have closing : ∀ (onFalse : Block) (ls7 : Lexemes), (block onFalse).Stands source ls6 ls7 →
          Reads source (do return Stmt.branch cond onTrue (some onFalse) (ls1.last.through (← lastSpan))) ls7
            fun s ls' => (stmt s).Stands source ls ls' ∧
              ∃ cond onTrue onFalse, s = .branch cond onTrue onFalse s.span := by
        intro onFalse ls7 hFalse
        refine .lastSpanBind (.pure ⟨?_, cond, onTrue, some onFalse, rfl⟩)
        exact hword.1.after (hinside.append hFalse.takes) rfl hword.1.start_eq rfl id
      dsimp only
      split
      · refine .nextIsBind fun nested => ?_
        split
        · refine .bind (ih.branch ls6) fun inner ls7 hinner => .pureBind ?_
          obtain ⟨hinner, cond', onTrue', onFalse', heq⟩ := hinner
          refine closing ⟨[inner], inner.span⟩ ls7 (hinner.grow .nil rfl hinner.start_eq hinner.stop_eq (.inr ?_))
          exact ⟨cond', onTrue', onFalse', congrArg (fun s => [s]) heq⟩
        · exact .bind (ih.block ls6) fun onFalse ls7 hFalse => .pureBind (closing onFalse ls7 hFalse)
      · refine .pureBind (.lastSpanBind (.pure ⟨?_, cond, onTrue, none, rfl⟩))
        exact hword.1.after hinside rfl hword.1.start_eq rfl id
    case stmt =>
      intro ls
      rw [parseStmt]
      refine .peekSpanBind (.peekBind ?_)
      -- a statement may be followed by a semicolon
      have ended : ∀ (s : Stmt) (ls' : Lexemes), (stmt s).Stands source ls ls' → Reads source (do
            let _ ← skip .semicolon
            return s) ls' fun s ls' => Takes source ls ls' [stmt s] :=
        fun s ls' hs => .bind (.skip nofun) fun _ _ hsemicolon => .pure (hs.takes.pass hsemicolon)
      split
      · refine .bind (ih.function false ls) fun decl ls1 hdecl => .pureBind (ended _ ls1 ?_)
        exact hdecl.grow .nil rfl hdecl.start_eq hdecl.stop_eq hdecl.read.opens
      next htoken =>
        refine .bind (.nextToken (htoken ▸ nofun)) fun _ ls1 hword => ?_
        refine .bind (ih.function true ls1) fun decl ls2 hdecl => .pureBind (ended _ ls2 ?_)
        exact hword.after hdecl.takes rfl rfl hdecl.stop_eq fun _ => hdecl.read.opens
      next htoken =>
        refine .bind (.nextToken (htoken ▸ nofun)) fun _ ls1 hword => .bind .ident fun name ls2 hname => ?_
        refine .bind (.expect nofun) fun _ ls3 hbrace => .lastSpanBind ?_
        refine .bind (ih.members [] [] ls3 ls3 ⟨[], .nil, by simp⟩) fun read ls4 hread => .lastSpanBind ?_
        obtain ⟨ps, htakes, hperm, hfields, hmethods, hnamed⟩ := hread
        have hbody : (body read.1 read.2 (ls3.last.through ls4.last)).Stands source ls2 ls4 := by
          have hmade : (body read.1 read.2 (ls3.last.through ls4.last)).MadeOf ps := ⟨by simpa using hperm, by simp [*]⟩
          refine hbrace.1.join (.nil hbrace.1.read.edged.fits.ordered) htakes hmade hbrace.1.start_eq rfl fun q hq => ?_
          exact Nat.lt_of_lt_of_le hbrace.1.start_lt (htakes.row.inside q (hmade.perm.subset hq)).1
        refine .pureBind (ended _ ls4 (hword.after (hname.1.passes.append hbody.takes) rfl rfl rfl fun _ => ?_))
        refine ⟨hname.2, hnamed, fun decl hdecl => ?_⟩
        exact (htakes.row.read _ (hmethods.subset (mem_map_of_mem hdecl))).opens
      · exact .bind (ih.branch ls) fun s ls1 hs => ended s ls1 hs.1
      next htoken =>
        refine .bind (.nextToken (htoken ▸ nofun)) fun _ ls1 hword => .bind (.expect nofun) fun _ ls2 hparen => ?_
        refine .bind (Expr.reads_parse source ls2) fun cond ls3 hcond => .bind (.expect nofun) fun _ ls4 hclose => ?_
        refine .bind (ih.block ls4) fun body ls5 hbody => .lastSpanBind (.pureBind (ended _ ls5 ?_))
        have hinside := (hcond.takes.pass hclose.1.passes).append hbody.takes
        exact hword.after (hparen.1.passes.append hinside) rfl rfl rfl fun _ => trivial
      next htoken =>
        refine .bind (.nextToken (htoken ▸ nofun)) fun _ ls1 hword => .bind (.expect nofun) fun _ ls2 hparen => ?_
        refine .bind .ident fun var ls3 hvar => .bind (.expect nofun) fun _ ls4 hin => ?_
        refine .bind (Expr.reads_parse source ls4) fun items ls5 hitems => .bind (.expect nofun) fun _ ls6 hclose => ?_
        refine .bind (ih.block ls6) fun body ls7 hbody => .lastSpanBind (.pureBind (ended _ ls7 ?_))
        have hinside := (hitems.takes.pass hclose.1.passes).append hbody.takes
        have hinside := hparen.1.passes.append ((hvar.1.takes.pass hin.1.passes).append hinside)
        exact hword.after hinside rfl rfl rfl fun _ => hvar.2
      next htoken =>
        refine .bind (.nextToken (htoken ▸ nofun)) fun _ ls1 hword => .peekBind ?_
        split
        case h_4 =>
          refine .bind (Expr.reads_parse source ls1) fun value ls2 hvalue => .pureBind (.lastSpanBind ?_)
          exact .pureBind (ended _ ls2 (hword.after hvalue.takes rfl rfl rfl fun _ => trivial))
        all_goals
          exact .pureBind (.lastSpanBind (.pureBind (ended _ ls1 (hword.after .nil rfl rfl rfl fun _ => trivial))))
      next htoken =>
        refine .bind (.nextToken (htoken ▸ nofun)) fun _ ls1 hword => .bind .ident fun name ls2 hname => ?_
        refine .bind (.expect nofun) fun _ ls3 hsign => .bind (Expr.reads_parse source ls3) fun value ls4 hvalue => ?_
        refine .lastSpanBind (.pureBind (ended _ ls4 ?_))
        have hinside := hname.1.passes.append (hsign.1.passes.append hvalue.takes)
        exact hword.after hinside rfl rfl rfl fun _ => hname.2
      · refine .bind (ih.block ls) fun body ls1 hbody => .pureBind (ended _ ls1 ?_)
        exact hbody.grow .nil rfl hbody.start_eq hbody.stop_eq trivial
      · exact .bind (reads_parseExprStmt source ls) ended

theorem reads_parseAll (source : Source) (n : Nat) (ls : Lexemes) :
    Reads source (parseAll n) ls fun stmts ls' => Takes source ls ls' (stmts.map stmt) := by
  induction n generalizing ls with
  | zero => exact .lastSpanBind .faultHere
  | succ n ih =>
    rw [parseAll]
    refine .nextIsBind fun ended => ?_
    split
    · exact .pure .nil
    · refine .getBind (.bind ((readsStmts source _).stmt ls) fun s ls1 hs => ?_)
      exact .bind (ih ls1) fun stmts ls2 hstmts => .pure (hs.append hstmts)

theorem Script.reads_parse (source : Source) :
    match parse source with
    | .ok script => script.span = source.span ∧ ∃ stop, Row source 0 stop (script.stmts.map stmt)
    | .error error => error.span.Fits source := by
  have hread := reads_parseAll source (Lexemes.of source).allowance (Lexemes.of source) (Lexemes.sound_of source)
  unfold parse
  dsimp only
  split at hread
  next stmts ls hrun =>
    rw [hrun]
    exact ⟨rfl, ls.pos, hread.2.row⟩
  next error hrun =>
    rw [hrun]
    exact hread

variable {script : Script}

theorem Script.row (h : parse source = .ok script) : ∃ stop, Row source 0 stop (script.stmts.map stmt) := by
  have hread := reads_parse source
  rw [h] at hread
  exact hread.2

theorem Script.fits_parse (source : Source) :
    match parse source with
    | .ok script => ∀ site ∈ script.sites, site.Fits source
    | .error error => error.span.Fits source := by
  have hread := reads_parse source
  split
  next script hscript =>
    rw [hscript] at hread
    obtain ⟨hspan, stop, hrow⟩ := hread
    rw [sites, forall_mem_cons, allSites_stmts]
    refine ⟨hspan ▸ .whole source, fun site hsite => ?_⟩
    obtain ⟨p, hp, hsite⟩ := mem_flatMap.mp hsite
    exact (hrow.read p hp).fits site hsite
  next error herror => rwa [herror] at hread

theorem Script.laid (h : parse source = .ok script) :
    ∃ stop, Laid 0 stop (Stmt.allNests script.stmts) (Stmt.allParts script.stmts) := by
  obtain ⟨stop, hrow⟩ := row h
  exact ⟨stop, laid_stmts hrow fun p hp => (hrow.read p hp).laid⟩

inductive Script.Holds (script : Script) : Phrase → Prop
  | stmt {s : Stmt} : s ∈ script.stmts → script.Holds (.stmt s)
  | child {p child : Phrase} : script.Holds p → child ∈ p.children → script.Holds child

end Syntax

open Syntax

def Source.forked : Source := ⟨"forked", "if (a) {} else if (b) {}"⟩

def Syntax.forked : Script where
  stmts := [.branch (.var "a" ⟨4, 5⟩) ⟨[], ⟨7, 9⟩⟩
    (some ⟨[.branch (.var "b" ⟨19, 20⟩) ⟨[], ⟨22, 24⟩⟩ none ⟨15, 24⟩], ⟨15, 24⟩⟩) ⟨0, 24⟩]
  span := ⟨0, 24⟩

theorem Syntax.parse_forked : Script.parse Source.forked = .ok forked := by
  cbv

end Datapack
