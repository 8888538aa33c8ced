import Datapack.Proofs.Regime.Terms
import Datapack.Proofs.Segmentation

/-!
The phrases of a script: all that has a span of its own. A phrase that was read goes from one token to another, and the
phrases that it is made of stand inside it, one after the other. So do the scopes that it opens.
-/

namespace Datapack

open Text List

variable {source : Source} {start mid stop : Nat}

namespace Syntax

def Lexeme.IsToken (lexeme : Lexeme) : Prop := ∃ token, lexeme.outcome = .ok token

def TokenBegins (source : Source) (start stop : Nat) : Prop :=
  ∃ lexeme ∈ lexemes source, lexeme.IsToken ∧ lexeme.span.start = start ∧ lexeme.span.stop ≤ stop

def TokenEnds (source : Source) (start stop : Nat) : Prop :=
  ∃ lexeme ∈ lexemes source, lexeme.IsToken ∧ start ≤ lexeme.span.start ∧ lexeme.span.stop = stop

theorem TokenBegins.mono {stop' : Nat} (h : TokenBegins source start stop) (hle : stop ≤ stop') :
    TokenBegins source start stop' := by
  obtain ⟨lexeme, hmem, htoken, hstart, hstop⟩ := h
  exact ⟨lexeme, hmem, htoken, hstart, hstop.trans hle⟩

theorem TokenEnds.mono {start' : Nat} (h : TokenEnds source start stop) (hle : start' ≤ start) :
    TokenEnds source start' stop := by
  obtain ⟨lexeme, hmem, htoken, hstart, hstop⟩ := h
  exact ⟨lexeme, hmem, htoken, hle.trans hstart, hstop⟩

end Syntax

open Syntax

/-- Whether a span goes from the first character of a token to the last one of another, where both stand inside it. -/
structure Span.Edged (source : Source) (span : Span) : Prop where
  first : TokenBegins source span.start span.stop
  last : TokenEnds source span.start span.stop

namespace Span.Edged

variable {span : Span}

theorem of_mem {lexeme : Lexeme} (h : lexeme ∈ lexemes source) (htoken : lexeme.IsToken) : lexeme.span.Edged source :=
  ⟨⟨lexeme, h, htoken, rfl, .refl⟩, lexeme, h, htoken, .refl, rfl⟩

theorem nonempty (h : span.Edged source) : span.start < span.stop := by
  obtain ⟨lexeme, hmem, -, hstart, hstop⟩ := h.first
  have := ((segments_lexemes source).start_le hmem).2
  omega

theorem fits (h : span.Edged source) : span.Fits source := by
  obtain ⟨first, hfirst, -, hstart, -⟩ := h.first
  obtain ⟨last, hlast, -, -, hstop⟩ := h.last
  exact .of_boundaries (Nat.le_of_lt h.nonempty) (hstart ▸ (Lexeme.cut_of_mem hfirst).1.start)
    (hstop ▸ (Lexeme.cut_of_mem hlast).1.stop)

end Span.Edged

namespace Syntax

/-- What has a span of its own in a script. A word is a type, a name that is bound or the receiver of a method; a body is
that of a struct. -/
inductive Phrase
  | expr (e : Expr)
  | stmt (s : Stmt)
  | block (b : Block)
  | function (decl : Function)
  | param (q : Param)
  | body (fields : List (String × Ident)) (methods : List Function) (span : Span)
  | word (span : Span)

namespace Phrase

@[simp] def span : Phrase → Span
  | .expr e => e.span
  | .stmt s => s.span
  | .block b => b.span
  | .function decl => decl.span
  | .param q => q.span
  | .body _ _ span | .word span => span

@[simp] def ofStmt : Stmt → List Phrase
  | .expr value _ | .const _ value _ => [.expr value]
  | .assign target value _ | .update target _ value _ => target.subscripts.map .expr ++ [.expr value]
  | .destructure names value _ => names.map (.word ·.span) ++ [.expr value]
  | .branch cond onTrue onFalse _ => [.expr cond, .block onTrue] ++ onFalse.toList.map .block
  | .repeatWhile cond inner _ => [.expr cond, .block inner]
  | .forEach var items inner _ => [.word var.span, .expr items, .block inner]
  | .block inner _ => [.block inner]
  | .function decl _ => [.function decl]
  | .struct _ fields methods scope _ => [.body fields methods scope]
  | .return value _ => value.toList.map .expr

@[simp] def ofParams (receiver : Option Span) (params : List Param) : List Phrase :=
  receiver.toList.map .word ++ params.map .param

/-- What a phrase is made of, in lists that each go from left to right. Only the fields and the methods of a struct, which
can be mixed, are two lists. -/
@[simp] def groups : Phrase → List (List Phrase)
  | .expr e => [e.operands.map .expr]
  | .stmt s => [ofStmt s]
  | .block b => [b.stmts.map .stmt]
  | .function decl =>
    [ofParams decl.receiver decl.params ++ (decl.result.toList.map (.word ·.span) ++ [.block decl.body])]
  | .param q => [.word q.type.span :: q.default?.toList.map .expr]
  | .body fields methods _ => [fields.map (.word ·.2.span), methods.map .function]
  | .word _ => []

@[simp] def children (p : Phrase) : List Phrase := p.groups.flatten

structure MadeOf (p : Phrase) (ps : List Phrase) : Prop where
  perm : p.children.Perm ps
  groups : ∀ group ∈ p.groups, group.Sublist ps

def Before (p q : Phrase) : Prop := p.span.stop ≤ q.span.start

def Apart (p q : Phrase) : Prop := p.Before q ∨ q.Before p

def Behind (p : Phrase) : Prop := ∀ child ∈ p.children, p.span.start < child.span.start

/-- Whether what a phrase binds is called by names, and what opens a scope stands before what is inside: a brace, or for a
conditional in place of a block the word that begins it. -/
def Opens : Phrase → Prop
  | .expr e => e.Rooted
  | .stmt (.branch cond onTrue onFalse span) => (stmt (.branch cond onTrue onFalse span)).Behind
  | .stmt s => s.Named
  | .block b => (block b).Behind ∨ ∃ cond onTrue onFalse, b.stmts = [.branch cond onTrue onFalse b.span]
  | .function decl => decl.Named
  | .param q => IsName q.name
  | .body fields methods span => (body fields methods span).Behind
  | .word _ => True

/-- Whether a phrase and all phrases inside it stand in a script as they should. -/
inductive Read (source : Source) : Phrase → Prop
  | intro {p : Phrase} : p.span.Edged source → p.Opens → (∀ child ∈ p.children, child.Read source) →
    (∀ child ∈ p.children, p.span.start ≤ child.span.start ∧ child.span.stop ≤ p.span.stop) →
    (∀ group ∈ p.groups, group.Pairwise Before) → p.children.Pairwise Apart → p.Read source

variable {p : Phrase} {ps qs : List Phrase}

theorem MadeOf.of_groups (h : p.groups = [ps]) : p.MadeOf ps := by
  refine ⟨.of_eq (by rw [children, h, flatten_singleton]), ?_⟩
  rw [h]
  exact forall_mem_singleton.mpr (.refl ps)

theorem Read.edged (h : p.Read source) : p.span.Edged source := by
  obtain ⟨hspan, -⟩ := h
  exact hspan

theorem Read.opens (h : p.Read source) : p.Opens := by
  obtain ⟨-, hopens, -⟩ := h
  exact hopens

theorem Read.word {span : Span} (h : span.Edged source) : (Phrase.word span).Read source :=
  ⟨h, trivial, by simp, by simp, by simp, .nil⟩

structure Row (source : Source) (start stop : Nat) (ps : List Phrase) : Prop where
  le : start ≤ stop
  sorted : ps.Pairwise Before
  inside : ∀ p ∈ ps, start ≤ p.span.start ∧ p.span.stop ≤ stop
  read : ∀ p ∈ ps, p.Read source

theorem Read.row (h : p.Read source) (hps : ps ∈ p.groups) : Row source p.span.start p.span.stop ps := by
  obtain ⟨hspan, -, hread, hinside, hsorted, -⟩ := h
  have hmem : ps ⊆ p.children := fun q hq => mem_flatten_of_mem hps hq
  exact ⟨Nat.le_of_lt hspan.nonempty, hsorted ps hps, fun q hq => hinside q (hmem hq), fun q hq => hread q (hmem hq)⟩

namespace Row

theorem nil (h : start ≤ stop) : Row source start stop [] := ⟨h, .nil, by simp, by simp⟩

theorem single (h : p.Read source) : Row source p.span.start p.span.stop [p] :=
  ⟨Nat.le_of_lt h.edged.nonempty, by simp, by simp, by simpa using h⟩

theorem append (h : Row source start mid ps) (h' : Row source mid stop qs) : Row source start stop (ps ++ qs) where
  le := h.le.trans h'.le
  sorted := pairwise_append.mpr ⟨h.sorted, h'.sorted, fun p hp q hq => (h.inside p hp).2.trans (h'.inside q hq).1⟩
  inside := forall_mem_append.mpr ⟨fun p hp => ⟨(h.inside p hp).1, (h.inside p hp).2.trans h'.le⟩,
    fun q hq => ⟨h.le.trans (h'.inside q hq).1, (h'.inside q hq).2⟩⟩
  read := forall_mem_append.mpr ⟨h.read, h'.read⟩

theorem mono {start' stop' : Nat} (h : Row source start stop ps) (hstart : start' ≤ start) (hstop : stop ≤ stop') :
    Row source start' stop' ps := by
  simpa using (nil hstart).append (h.append (nil hstop))

theorem uncons (h : Row source start stop (p :: ps)) :
    p.Read source ∧ start ≤ p.span.start ∧ Row source p.span.stop stop ps := by
  obtain ⟨hp, hps⟩ := pairwise_cons.mp h.sorted
  obtain ⟨hinside, hrest⟩ := forall_mem_cons.mp h.inside
  obtain ⟨hread, hreads⟩ := forall_mem_cons.mp h.read
  exact ⟨hread, hinside.1, hinside.2, hps, fun q hq => ⟨hp q hq, (hrest q hq).2⟩, hreads⟩

/-- What stands behind a place begins later. -/
theorem behind (h : Row source start stop ps) (hlt : start < stop) (hps : ∀ p ∈ ps, start < p.span.start) :
    Row source (start + 1) stop ps :=
  { h with le := hlt, inside := fun p hp => ⟨hps p hp, (h.inside p hp).2⟩ }

theorem around (h : Row source p.span.start p.span.stop ps) (hmade : p.MadeOf ps) (hspan : p.span.Edged source)
    (hopens : p.Opens) : p.Read source := by
  have hmem := hmade.perm.subset
  refine ⟨hspan, hopens, fun q hq => h.read q (hmem hq), fun q hq => h.inside q (hmem hq),
    fun group hgroup => h.sorted.sublist (hmade.groups group hgroup), ?_⟩
  exact (hmade.perm.pairwise_iff .symm).mpr (h.sorted.imp .inl)

end Row

@[simp] def sites : Phrase → List Span
  | .expr e => e.sites
  | .stmt s => s.sites
  | .block b => b.sites
  | .function decl => decl.sites
  | .param q => q.sites
  | .body fields methods span => span :: (fields.map (·.2.span) ++ Function.allSites methods)
  | .word span => [span]

@[simp] def nests (kind : ScopeKind) : Phrase → List Nest
  | .stmt s => s.nests
  | .block b => b.nests kind
  | .function decl => decl.nests kind
  | .body _ methods span =>
    ⟨span, .struct, (Function.allNests methods).map Nest.key⟩ :: Function.allNests methods
  | .expr _ | .param _ | .word _ => []

@[simp] def parts : Phrase → List Stmt
  | .stmt s => s.parts
  | .block b => b.parts
  | .function decl => decl.parts
  | .body _ methods _ => Function.allParts methods
  | .expr _ | .param _ | .word _ => []

theorem eq_flatMap {α β : Type} {all : List α → List β} {f : α → Phrase} {g : Phrase → List β} (hnil : all [] = [])
    (hcons : ∀ a rest, all (a :: rest) = g (f a) ++ all rest) (as : List α) : all as = (as.map f).flatMap g := by
  induction as with
  | nil => exact hnil
  | cons a rest ih => rw [hcons, ih, map_cons, flatMap_cons]

theorem allSites_stmts : ∀ ss : List Stmt, Stmt.allSites ss = (ss.map Phrase.stmt).flatMap sites :=
  eq_flatMap rfl fun _ _ => rfl

theorem sites_eq (p : Phrase) : p.sites = p.span :: p.children.flatMap sites := by
  have exprs : ∀ es : List Expr, Expr.allSites es = (es.map Phrase.expr).flatMap sites :=
    eq_flatMap rfl fun _ _ => rfl
  have methods : ∀ decls : List Function, Function.allSites decls = (decls.map Phrase.function).flatMap sites :=
    eq_flatMap rfl fun _ _ => rfl
  have words {α : Type} (f : α → Span) : ∀ items : List α, items.map f = (items.map (.word <| f ·)).flatMap sites :=
    eq_flatMap rfl fun _ _ => rfl
  cases p with
  | expr e => cases e <;> simp [Expr.sites, Expr.operands, exprs, Expr.span]
  | stmt s =>
    cases s with
    | assign target | update target =>
      cases target <;> simp [Stmt.sites, Target.sites, Target.subscripts, Stmt.span]
    | branch cond onTrue onFalse =>
      cases onFalse <;> simp [Stmt.sites, Stmt.span]
    | «return» value => cases value <;> simp [Stmt.sites, Stmt.span]
    | _ => simp [Stmt.sites, Stmt.span, words]
  | block b =>
    obtain ⟨ss, scope⟩ := b
    simp [Block.sites, allSites_stmts]
  | function decl =>
    obtain ⟨name, isInline, receiver, params, result, b, scope⟩ := decl
    have hparams : params.flatMap Param.sites = (params.map Phrase.param).flatMap sites := by
      rw [flatMap_map]
      rfl
    cases receiver <;> cases result <;> simp [Function.sites, hparams]
  | param q =>
    obtain ⟨name, type, default?, site⟩ := q
    cases default? <;> simp [Param.sites]
  | body fields decls scope => simp [words, methods]
  | word scope => simp

theorem Read.fits (h : p.Read source) : ∀ site ∈ p.sites, site.Fits source := by
  induction h with
  | @intro p hspan _ _ _ _ _ ih =>
    rw [sites_eq, forall_mem_cons]
    refine ⟨hspan.fits, fun site hsite => ?_⟩
    obtain ⟨child, hchild, hsite⟩ := mem_flatMap.mp hsite
    exact ih child hchild site hsite

def opening : Phrase → Nat
  | .stmt (.branch _ _ _ span) => span.start + 1
  | p => p.span.start

theorem start_le_opening (p : Phrase) : p.span.start ≤ p.opening := by
  unfold opening
  split
  · exact Nat.le_succ _
  · exact .refl

def IsLaid (p : Phrase) : Prop := ∀ kind, Laid p.opening p.span.stop (p.nests kind) p.parts

theorem Row.laid (h : Row source start stop ps) (hlaid : ∀ p ∈ ps, p.IsLaid) (kind : ScopeKind) :
    Laid start stop (ps.flatMap (nests kind)) (ps.flatMap parts) := by
  induction ps generalizing start with
  | nil => exact .nil _ _
  | cons p rest ih =>
    obtain ⟨hread, hle, hrest⟩ := h.uncons
    obtain ⟨hp, hlaid⟩ := forall_mem_cons.mp hlaid
    exact ((hp kind).mono (hle.trans p.start_le_opening) .refl).append (ih hrest hlaid)
      (hle.trans hread.edged.fits.ordered) hrest.le

theorem laid_stmts {ss : List Stmt} (h : Row source start stop (ss.map .stmt)) (hlaid : ∀ p ∈ ss.map stmt, p.IsLaid) :
    Laid start stop (Stmt.allNests ss) (Stmt.allParts ss) := by
  have hnests : ∀ ss : List Stmt, Stmt.allNests ss = (ss.map stmt).flatMap (nests .block) :=
    eq_flatMap rfl fun _ _ => rfl
  have hparts : ∀ ss : List Stmt, Stmt.allParts ss = (ss.map stmt).flatMap parts :=
    eq_flatMap rfl fun _ _ => rfl
  rw [hnests, hparts]
  exact h.laid hlaid _

theorem laid_methods {methods : List Function} (h : Row source start stop (methods.map .function))
    (hlaid : ∀ p ∈ methods.map function, p.IsLaid) :
    Laid start stop (Function.allNests methods) (Function.allParts methods) := by
  have hnests : ∀ decls : List Function, Function.allNests decls = (decls.map function).flatMap (nests .inlineFunction) :=
    eq_flatMap rfl fun _ _ => rfl
  have hparts : ∀ decls : List Function, Function.allParts decls = (decls.map function).flatMap parts :=
    eq_flatMap rfl fun _ _ => rfl
  rw [hnests, hparts]
  exact h.laid hlaid _

/-- The scopes of a statement are those of what it is made of. -/
theorem exists_nests (s : Stmt) : ∃ kind, s.nests = (ofStmt s).flatMap (nests kind) ∧
    s.parts = s :: (ofStmt s).flatMap parts := by
  cases s with
  | branch cond onTrue onFalse =>
    cases onFalse <;> exact ⟨.conditional, by simp [Stmt.nests], by simp [Stmt.parts]⟩
  | repeatWhile | forEach => exact ⟨.loop, by simp [Stmt.nests], by simp [Stmt.parts]⟩
  | function decl =>
    exact ⟨if decl.isInline then .inlineFunction else .function, by simp [Stmt.nests], by simp [Stmt.parts]⟩
  | assign | update | destructure | «return» =>
    refine ⟨.block, ?_, ?_⟩ <;> simp [Stmt.nests, Stmt.parts, flatMap_map]
  | _ => exact ⟨.block, by simp [Stmt.nests], by simp [Stmt.parts]⟩

theorem Read.laid (h : p.Read source) : p.IsLaid := by
  induction h with
  | @intro p hspan hopens hread hinside hsorted hapart ih =>
    have hrow {ps : List Phrase} : ps ∈ p.groups → Row source p.span.start p.span.stop ps :=
      (Read.intro hspan hopens hread hinside hsorted hapart).row
    have inner {ps : List Phrase} (hps : ps ∈ p.groups) : ∀ q ∈ ps, q.IsLaid := fun q hq =>
      ih q (mem_flatten_of_mem hps hq)
    intro kind
    cases p with
    | stmt s =>
      have hrow : Row source (stmt s).opening s.span.stop (ofStmt s) ∧ s.Named := by
        cases s with
        | branch =>
          exact ⟨(hrow (.head _)).behind hspan.nonempty fun q hq => hopens q (mem_flatten_of_mem (.head _) hq), trivial⟩
        | _ => exact ⟨hrow (.head _), hopens⟩
      obtain ⟨kind', hnests, hparts⟩ := exists_nests s
      rw [nests, hnests, parts, hparts]
      exact (hrow.1.laid (inner (.head _)) kind').stmt hrow.2
    | block b =>
      obtain ⟨ss, scope⟩ := b
      -- all scopes inside begin behind the beginning of the block
      suffices hinner : Laid (scope.start + 1) scope.stop (Stmt.allNests ss) (Stmt.allParts ss) from
        hinner.around kind .refl (Nat.lt_succ_self _) hspan.nonempty rfl
      obtain hbehind | ⟨cond, onTrue, onFalse, hstmts⟩ := hopens
      · refine laid_stmts ((hrow (.head _)).behind hspan.nonempty fun q hq => ?_) (inner (.head _))
        exact hbehind q (mem_flatten_of_mem (.head _) hq)
      · obtain rfl : ss = [.branch cond onTrue onFalse scope] := hstmts
        have hbranch : Laid (scope.start + 1) scope.stop _ _ := inner (.head _) _ (.head _) .block
        simpa [Stmt.allNests, Stmt.allParts] using hbranch
    | function decl =>
      have hbody : block decl.body ∈ (function decl).children := by simp
      obtain ⟨_, _, _, _, _, b, _⟩ := decl
      exact (ih _ hbody kind).mono (hinside _ hbody).1 (hinside _ hbody).2
    | body fields methods scope =>
      have hmethods : methods.map function ∈ (body fields methods scope).groups := .tail _ (.head _)
      refine (laid_methods ((hrow hmethods).behind hspan.nonempty fun q hq => ?_) (inner hmethods)).around
        .struct .refl (Nat.lt_succ_self _) hspan.nonempty rfl
      exact hopens q (mem_flatten_of_mem hmethods hq)
    | expr | param | word => exact .nil _ _

end Phrase

end Syntax

end Datapack
