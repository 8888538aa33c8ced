import Datapack.Pack
import Datapack.Proofs.Balance
import Datapack.Proofs.Ledger
import Datapack.Proofs.Report.Parse
import Datapack.Proofs.Report.Snippet

/-!
Reports of a script. What is wrong with a script is told at a span that cuts it between characters, whether it is found
while the script is read, while its names are analysed or while it is compiled. So it can be shown with the lines that
it is about.
-/

namespace Datapack

open Text Syntax NameWalk List

variable {P : Span → Prop} {script : Script} {error : CompileError}

theorem Environment.span_of_compile {env : Environment} (h : ∀ site ∈ script.sites, P site)
    (herror : env.compile script = .error error) : P error.span := by
  rw [Script.sites, forall_mem_cons] at h
  obtain ⟨s, hrun⟩ := run_of_compile_error herror
  have hstmts := Stmt.runs_compileAll ((StepRules.balance P env).expands_expandWithin Compile.expansionDepth)
    script.stmts ⟨h.2, False.elim, False.elim⟩ .start trivial
  exact (hstmts.of_error ⟨Nat.le_refl 1, by simp [CompilerState.Declares, CompilerState.start]⟩ hrun).2

namespace NameLedger

variable {l : NameLedger} {ev : NameEvent} {events : List NameEvent} {error : ScopeError}

theorem of_mem_errors_step (h : error ∈ (l.step ev).errors) : error ∈ l.errors ∨ ev.blamed? = some error.span := by
  have hreport : ∀ {fault site}, error ∈ (l.report fault site).errors → error ∈ l.errors ∨ some site = some error.span := by
    intro fault site h
    refine (mem_append.mp h).imp_right fun h => ?_
    rw [mem_singleton.mp h]
  cases ev with
  | enter | leave | declare => exact .inl h
  | assign | define =>
    rw [step, write] at h
    split at h <;> exact .inl h
  | part =>
    rw [step, writeExisting] at h
    split at h
    · exact .inl h
    · exact hreport h
  | read =>
    rw [step, read] at h
    split at h
    · exact .inl h
    · split at h
      · exact .inl h
      · exact hreport h

theorem of_mem_errors_run (h : error ∈ (l.run events).errors) :
    error ∈ l.errors ∨ ∃ ev ∈ events, ev.blamed? = some error.span := by
  induction events generalizing l with
  | nil => exact .inl h
  | cons ev rest ih =>
    obtain hstep | ⟨later, hlater, hblamed⟩ := ih h
    · exact (of_mem_errors_step hstep).imp_right fun hblamed => ⟨ev, .head _, hblamed⟩
    · exact .inr ⟨later, .tail _ hlater, hblamed⟩

end NameLedger

theorem Analysis.span_of_mem_errors (h : ∀ site ∈ script.sites, P site) {error : ScopeError}
    (herror : error ∈ (Analysis.of script).errors) : P error.span := by
  rw [run_events] at herror
  obtain hstart | ⟨ev, hev, hblamed⟩ := NameLedger.of_mem_errors_run herror
  · cases hstart
  · exact h _ (.tail _ ((Stmt.allWoven script.stmts).allStand ev hev _ hblamed))

theorem Program.span_of_optimize {settings : Settings} {span : Span} {p : Program}
    (h : p.optimize settings span = .error error) : error.span = span := by
  unfold optimize at h
  split at h
  · split at h
    · cases h
    · exact (Except.error.inj h) ▸ rfl
  · cases h

/-- Whether something wrong with a script can be shown: its span cuts the script between characters, both ends of it
have a line and a column, and there is a report, with and without colours. -/
structure Diagnostic.Shows (source : Source) (d : Diagnostic) : Prop where
  fits : d.span.Fits source
  start : (source.position? d.span.start).isSome = true
  stop : (source.position? d.span.stop).isSome = true
  report : ∀ colours, (d.render? colours source).isSome = true

variable {source : Source}

theorem Diagnostic.shows_of_fits {d : Diagnostic} (h : d.span.Fits source) : d.Shows source :=
  ⟨h, Source.isSome_position? h.start, Source.isSome_position? h.stop, isSome_render? h⟩

/-- Whether all that is wrong with a script can be shown: the fault for which there is no pack of it, and the faults
that are told along with the pack. -/
structure Pack.Reported (source : Source) (outcome : Except PackError Pack) : Prop where
  fault : ∀ error, outcome = .error error → error.diagnostic.Shows source
  warnings : ∀ pack, outcome = .ok pack → ∀ warning ∈ pack.warnings, warning.diagnostic.Shows source

theorem Pack.Reported.of_error {error : PackError} (h : error.diagnostic.span.Fits source) :
    Pack.Reported source (.error error) :=
  ⟨fun _ herror => Except.error.inj herror ▸ Diagnostic.shows_of_fits h, fun _ hpack => by cases hpack⟩

/-- Everything that is wrong with a script can be shown, whatever the script and the settings are. And every lexeme is
what its span cuts out of the script between characters; if it is a string, there is a text between its quotes. -/
theorem Pack.shows_diagnostics (source : Source) (settings : Settings) (catalogue : Catalogue) :
    Pack.Reported source (Pack.make source settings catalogue).2 ∧
      ∀ lexeme ∈ lexemes source, lexeme.span.Fits source ∧ lexeme.Cut source ∧
        (lexeme.outcome = .ok .string → ∃ inside, lexeme.text = '"' :: (inside ++ ['"']) ∧
          unescape? lexeme.text = some (unescapeInside inside)) := by
  constructor
  · have hread := Script.fits_parse source
    unfold Pack.make Analyzed.of
    cases hscript : Script.parse source with
    | error error =>
      rw [hscript] at hread
      exact .of_error hread
    | ok script =>
      rw [hscript] at hread
      cases hcompile : Analyzed.program source settings catalogue ⟨script, .of script⟩ with
      | error error =>
        simp only [hcompile]
        exact .of_error (Environment.span_of_compile hread hcompile)
      | ok program =>
        cases hoptimize : program.optimize settings script.span with
        | error error =>
          simp only [hcompile, hoptimize]
          have hfits : error.span.Fits source :=
            (Program.span_of_optimize hoptimize).symm ▸ hread _ List.mem_cons_self
          exact .of_error hfits
        | ok program =>
          simp only [hcompile, hoptimize]
          refine ⟨fun _ herror => (by cases herror), fun pack hpack warning hwarning => ?_⟩
          obtain rfl := Except.ok.inj hpack
          exact Diagnostic.shows_of_fits (Analysis.span_of_mem_errors hread hwarning)
  · intro lexeme hlexeme
    refine ⟨(Lexeme.cut_of_mem hlexeme).1, (Lexeme.cut_of_mem hlexeme).2, fun hstring => ?_⟩
    obtain ⟨inside, -, -, htext⟩ := exists_of_mem_lexemes hlexeme hstring
    exact ⟨inside, htext, by rw [htext, unescape?_quoted]⟩

def Source.accented : Source := ⟨"accented", "s = \"é€\" + x"⟩

theorem Pack.shows_diagnostics_accented : ∃ error, (Pack.make Source.accented {} {}).2 = .error error ∧
    error.diagnostic.span = ⟨14, 15⟩ ∧ error.diagnostic.Shows Source.accented := by
  have hspan : Except.casesOn (motive := fun _ => Option Span) (Pack.make Source.accented {} {}).2
      (fun error => some error.diagnostic.span) (fun _ => none) = some ⟨14, 15⟩ := by decide +kernel
  have hreported := (Pack.shows_diagnostics Source.accented {} {}).1
  generalize (Pack.make Source.accented {} {}).2 = outcome at hspan hreported ⊢
  cases outcome with
  | ok pack => cases hspan
  | error error => exact ⟨error, rfl, Option.some.inj hspan, hreported.fault error rfl⟩

end Datapack
