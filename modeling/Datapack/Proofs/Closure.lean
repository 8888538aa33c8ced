import Mathlib
import Datapack.Pack
import Datapack.Proofs.Course.Stmt
import Datapack.Proofs.Linking

/-!
Compiled programs are closed. A routine takes a name that no other has before anything calls it, and it is finished
before the compilation of the statement it belongs to is over; so in the end every call leads to a finished routine.
-/

namespace Datapack

open List

variable {nodes : List Node} {name : String} {s : CompilerState} {p : Program}

namespace Draft

structure Every (P : Node → Prop) (d : Draft) : Prop where
  finished : ∀ r ∈ d.routines.toList, ∀ node ∈ r.body, P node
  buffered : ∀ buffer ∈ d.buffers ++ d.hidden, ∀ node ∈ buffer.toList, P node

namespace Every

variable {P Q : Node → Prop} {d : Draft}

section

variable (h : d.Every P)

include h

theorem mono (hPQ : ∀ node, P node → Q node) : d.Every Q :=
  ⟨fun r hr node hnode => hPQ node (h.finished r hr node hnode),
    fun buffer hbuffer node hnode => hPQ node (h.buffered buffer hbuffer node hnode)⟩

theorem append {node : Node} (hnode : P node) : (d.append node).Every P := by
  obtain ⟨routines, buffers, hidden, nextIndex⟩ := d
  refine ⟨by simpa using h.finished, ?_⟩
  have hopen := h.buffered
  cases buffers with
  | nil =>
    simp only [Draft.append, cons_append, nil_append, forall_mem_cons] at hopen ⊢
    exact ⟨by simpa using hnode, hopen⟩
  | cons top below =>
    simp only [Draft.append, cons_append, forall_mem_cons, Array.toList_push,
      forall_mem_append] at hopen ⊢
    exact ⟨⟨hopen.1, hnode, by simp⟩, hopen.2⟩

theorem appendAll (hnodes : ∀ node ∈ nodes, P node) : (d.appendAll nodes).Every P := by
  induction nodes generalizing d with
  | nil => exact h
  | cons node rest ih =>
    obtain ⟨hnode, hrest⟩ := forall_mem_cons.mp hnodes
    exact ih (h.append hnode) hrest

theorem push : d.push.Every P :=
  ⟨h.finished, forall_mem_cons.mpr ⟨by simp, h.buffered⟩⟩

theorem pop : d.pop.2.Every P ∧ ∀ node ∈ d.pop.1.toList, P node := by
  obtain ⟨routines, buffers, hidden, nextIndex⟩ := d
  cases buffers with
  | nil => exact ⟨h, by simp [Draft.pop]⟩
  | cons top below =>
    obtain ⟨htop, hrest⟩ := forall_mem_cons.mp h.buffered
    exact ⟨⟨h.finished, hrest⟩, htop⟩

theorem hide : d.hide.Every P := by
  refine ⟨h.pop.1.finished, ?_⟩
  have hopen := h.pop.1.buffered
  simp only [Draft.hide, forall_mem_append, forall_mem_cons] at hopen ⊢
  exact ⟨hopen.1, h.pop.2, hopen.2⟩

theorem unhide : d.unhide.Every P := by
  obtain ⟨routines, buffers, hidden, nextIndex⟩ := d
  cases hidden with
  | nil => exact h
  | cons top rest =>
    refine ⟨h.finished, ?_⟩
    have hopen := h.buffered
    simp only [Draft.unhide, cons_append, forall_mem_append, forall_mem_cons] at hopen ⊢
    exact ⟨hopen.2.1, hopen.1, hopen.2.2⟩

theorem appendAt (depth : Nat) (hnodes : ∀ node ∈ nodes, P node) : (d.appendAt depth nodes).Every P := by
  rw [Draft.appendAt]
  split
  · refine ⟨h.finished, fun buffer hbuffer => ?_⟩
    cases mem_append.mp hbuffer with
    | inl hbuffer =>
      obtain ⟨i, hi⟩ := mem_iff_getElem?.mp hbuffer
      simp only [getElem?_modify] at hi
      obtain ⟨old, hold, rfl⟩ := Option.map_eq_some_iff.mp hi
      have hbefore := h.buffered old (mem_append_left _ (mem_of_getElem? hold))
      split
      · have hlonger : (old.appendList nodes).toList = old.toList ++ nodes := by simp
        rw [hlonger]
        exact forall_mem_append.mpr ⟨hbefore, hnodes⟩
      · exact hbefore
    | inr hbuffer => exact h.buffered buffer (mem_append_right _ hbuffer)
  · exact h.appendAll hnodes

theorem finish (hnumber : ∀ next node, P node → P (node.number next).2) (hnodes : ∀ node ∈ nodes, P node)
    (location : Option Span) : (d.finish name nodes location).Every P := by
  have hnumberAll : ∀ (nodes : List Node) next, (∀ node ∈ nodes, P node) →
      ∀ node ∈ (Node.numberAll next nodes).2, P node := by
    intro nodes
    induction nodes with
    | nil => exact fun _ h => h
    | cons node rest ih =>
      intro next hnodes
      obtain ⟨hnode, hrest⟩ := forall_mem_cons.mp hnodes
      exact forall_mem_cons.mpr ⟨hnumber _ node hnode, ih _ hrest⟩
  refine ⟨?_, h.buffered⟩
  simp only [Draft.finish, Array.toList_push, forall_mem_append, forall_mem_singleton]
  exact ⟨h.finished, hnumberAll nodes _ hnodes⟩

end

end Every

end Draft

/-- Whether the calls that were written lead to routines whose names have been taken: those of finished routines
and those of routines that are still open. -/
structure CompilerState.Closed (pending : List String) (s : CompilerState) : Prop where
  distinct : s.routineNames.Nodup
  names : s.routineNames.Perm (pending ++ s.draft.routines.toList.map (·.name))
  kept : ∀ r ∈ s.draft.routines.toList, r.dropped = false
  calls : s.draft.Every fun node => node.calls ⊆ s.routineNames
  init : ∀ routine, s.userInit = some routine → routine ∈ s.routineNames

theorem Node.callsAll_subset_iff {names : List String} :
    callsAll nodes ⊆ names ↔ ∀ node ∈ nodes, node.calls ⊆ names := by
  induction nodes with
  | nil => simp [callsAll]
  | cons node rest ih => simp [callsAll, append_subset, ih]

theorem Instr.IsPlain.calls_eq_nil {i : Instr} (h : i.IsPlain) (location : Option Span) :
    Node.calls { Node.leaf i with location } = [] := by
  cases i with
  | call _ => exact h.elim
  | _ => rfl

namespace CompilerState

variable {s' : CompilerState} {pending : List String}

section

variable (h : s.Closed pending)

include h

theorem Closed.congr (hroutines : s'.draft.routines = s.draft.routines) (hnames : s'.routineNames = s.routineNames)
    (hinit : s'.userInit = s.userInit)
    (hcalls : s'.draft.Every fun node => node.calls ⊆ s.routineNames) : s'.Closed pending where
  distinct := hnames ▸ h.distinct
  names := by
    rw [hnames, hroutines]
    exact h.names
  kept := hroutines ▸ h.kept
  calls := hnames ▸ hcalls
  init := by
    rw [hnames, hinit]
    exact h.init

theorem Closed.absorb {P : Cell → Prop} {e : Emission}
    (hext : Emission.Extends P { nextTemporary := s.nextTemporary } e) : (Compile.absorb e s).Closed pending := by
  obtain ⟨new, hnew, hwritten⟩ := hext.written
  obtain rfl : e.instrs.toList = new := by simpa using hnew
  refine h.congr (Draft.routines_appendAll _ _) rfl rfl (h.calls.appendAll fun node hnode => ?_)
  obtain ⟨i, hi, rfl⟩ := mem_map.mp hnode
  rw [(hwritten i hi).1.calls_eq_nil]
  exact nil_subset _

theorem Closed.take (hname : name ∉ s.routineNames) :
    Closed (name :: pending) { s with routineNames := name :: s.routineNames } where
  distinct := nodup_cons.mpr ⟨hname, h.distinct⟩
  names := h.names.cons name
  kept := h.kept
  calls := h.calls.mono fun _ hcalls => List.Subset.trans hcalls (subset_cons_self _ _)
  init routine hroutine := mem_cons_of_mem _ (h.init routine hroutine)

end

theorem Closed.finish (h : s.Closed (name :: pending)) (hnodes : ∀ node ∈ nodes, node.calls ⊆ s.routineNames)
    (location : Option Span) : Closed pending { s with draft := s.draft.finish name nodes location } where
  distinct := h.distinct
  names := by
    have hnames := h.names
    simp only [Draft.finish, Array.toList_push, map_append, map_cons, map_nil] at hnames ⊢
    refine (hnames.trans perm_middle.symm).trans (List.Perm.append_left pending ?_)
    exact (perm_append_singleton name _).symm
  kept := by
    simpa [Draft.finish, or_imp, forall_and] using h.kept
  calls := h.calls.finish (fun next node hcalls => Node.calls_number next node ▸ hcalls) hnodes location
  init := h.init

theorem Closed.pop (h : s.Closed pending) : Closed pending { s with draft := s.draft.pop.2 } ∧
      ∀ node ∈ s.draft.pop.1.toList, node.calls ⊆ s.routineNames :=
  ⟨h.congr (by simp) rfl rfl h.calls.pop.1, h.calls.pop.2⟩

theorem Moves.closed (h : s.Moves s') : ∀ pending, s.Closed pending → s'.Closed pending := by
  induction h with
  | refl | locate | label | structs | function | number | head | result | bind | rebind =>
    exact fun _ hs => hs.congr rfl rfl rfl hs.calls
  | trans _ _ ih ih' => exact fun pending hs => ih' pending (ih pending hs)
  | compute hext | store _ hext => exact fun _ hs => hs.absorb hext
  | write hcalls =>
    exact fun _ hs => hs.congr (Draft.routines_append _ _) rfl rfl (hs.calls.append hcalls)
  | guarded conditions location _ ih =>
    intro pending hs
    obtain ⟨hinner, hnodes⟩ := (ih pending (hs.congr rfl rfl rfl hs.calls.push)).pop
    refine hinner.congr (Draft.routines_append _ _) rfl rfl (hinner.calls.append ?_)
    exact Node.callsAll_subset_iff.mpr hnodes
  | earlier depth _ ih =>
    intro pending hs
    obtain ⟨hinner, hnodes⟩ := (ih pending (hs.congr rfl rfl rfl hs.calls.push)).pop
    exact hinner.congr (Draft.routines_appendAt _ _ _) rfl rfl (hinner.calls.appendAt depth hnodes)
  | previous _ ih =>
    intro pending hs
    have hinner := ih pending (hs.congr (by simp) rfl rfl hs.calls.hide)
    exact hinner.congr (by simp) rfl rfl hinner.calls.unhide
  | routine location hname _ _ ih ih' =>
    intro pending hs
    have hopen := ih _ (hs.take hname)
    obtain ⟨hinner, hnodes⟩ := (ih' _ (hopen.congr rfl rfl rfl hopen.calls.push)).pop
    exact hinner.finish hnodes location
  | init hroutine =>
    intro pending hs
    exact ⟨hs.distinct, hs.names, hs.kept, hs.calls, fun _ heq => Option.some.inj heq ▸ hroutine⟩
  | frame _ ih =>
    intro pending hs
    have hinner := ih pending (hs.congr rfl rfl rfl hs.calls)
    exact hinner.congr rfl rfl rfl hinner.calls

theorem Closed.mem_names (h : s.Closed []) : name ∈ s.draft.program.names ↔ name ∈ s.routineNames :=
  h.names.mem_iff.symm

theorem Closed.ready (h : s.Closed []) (hmain : "main" ∈ s.routineNames) : s.draft.program.Ready where
  distinct := h.names.nodup_iff.mp h.distinct
  kept := h.kept
  entry := mem_map.mp (h.mem_names.mpr hmain)
  closed r hr callee hcallee := by
    obtain ⟨node, hnode, hcallee⟩ := Node.mem_callsAll.mp hcallee
    exact mem_map.mp (h.mem_names.mpr (h.calls.finished r hr node hnode hcallee))

theorem closed_start : CompilerState.start.Closed ["main", "init"] where
  distinct := by decide
  names := by exact .refl _
  kept := by simp [start, Draft.push]
  calls := ⟨by simp [start, Draft.push], by simp [start, Draft.push]⟩
  init := by simp [start]

end CompilerState

theorem Compile.calls_initNodes (settings : Settings) (s : CompilerState) :
    ∀ node ∈ initNodes settings s, node.calls ⊆ s.userInit.toList := by
  intro node hnode
  simp only [initNodes, mem_append, mem_singleton, mem_map] at hnode
  obtain (rfl | ⟨c, -, rfl⟩) | ⟨routine, hroutine, rfl⟩ := hnode
  · exact nil_subset _
  · exact nil_subset _
  · exact cons_subset.mpr ⟨hroutine, nil_subset _⟩

namespace Environment

variable {env : Environment} {script : Syntax.Script}

theorem moves_of_yields
    (h : (Syntax.Stmt.compileAll (Compile.expandWithin Compile.expansionDepth) script.stmts).Yields env .start () s) :
    CompilerState.start.Moves s :=
  ((Syntax.Stmt.meets_compileAll env _ .start script.stmts).moves CompilerState.seated_start h).1

theorem ready_of_compile (hp : env.compile script = .ok p) : p.Ready ∧ "init" ∈ p.names := by
  obtain ⟨s, hrun, rfl⟩ := compile_eq_ok.mp hp
  have hmoves := moves_of_yields hrun
  have hs := hmoves.closed _ CompilerState.closed_start
  have huserInit : s.userInit.toList ⊆ s.routineNames := fun routine h => hs.init routine (Option.mem_toList.mp h)
  have hinit : ∀ node ∈ Compile.initNodes env.settings s, node.calls ⊆ s.routineNames := fun node hnode =>
    List.Subset.trans (Compile.calls_initNodes env.settings s node hnode) huserInit
  obtain ⟨hpopped, hnodes⟩ := hs.pop
  have hend := (hpopped.finish hnodes (some script.span)).finish hinit none
  exact ⟨hend.ready (hmoves.routineNames_subset (by decide)),
    hend.mem_names.mpr (hmoves.routineNames_subset (by decide))⟩

theorem isLink_of_compile {error : CompileError} (h : env.compile script = .error error) :
    error.fault.isLink = false := by
  obtain ⟨s, hrun⟩ := run_of_compile_error h
  exact (Syntax.Stmt.meets_compileAll env _ .start script.stmts).of_error CompilerState.seated_start hrun

end Environment

theorem Program.Ready.condense_isOk (hp : p.Ready) (settings : Settings) : (p.condense settings).1 = .ok () := by
  obtain ⟨q, -, hcondense, -⟩ := condense_eq settings hp
  rw [hcondense]

theorem Program.Ready.optimize_isOk (hp : p.Ready) (settings : Settings) (span : Span) :
    ∃ q, p.optimize settings span = .ok q := by
  obtain ⟨q, -, hcondense, -⟩ := condense_eq settings hp.simplify
  rw [optimize, hcondense]
  split
  · exact ⟨_, rfl⟩
  · exact ⟨_, rfl⟩

/-- The program of every script is closed: no two routines have the same name, one of them is the entry and one
runs first, and every call leads to one of them. So no simplification across routines refuses it, and a pack is
never refused for a call that leads nowhere or an entry that is missing. -/
theorem Pack.make_closed (source : Source) (settings : Settings) (catalogue : Catalogue) :
    (∀ analyzed p, Analyzed.of source = .ok analyzed → analyzed.program source settings catalogue = .ok p →
      p.names.Nodup ∧ p.names.count "main" = 1 ∧ p.names.count "init" = 1 ∧
        (∀ r ∈ p.routines, ∀ callee ∈ r.calls, callee ∈ p.names) ∧
        ∀ other : Settings, (p.condense other).1 = .ok () ∧ (p.simplify.condense other).1 = .ok ()) ∧
      ∀ error span, (Pack.make source settings catalogue).2 ≠ .error (.compile ⟨.link error, span⟩) := by
  constructor
  · intro analyzed p _ hp
    obtain ⟨hready, hinit⟩ := Environment.ready_of_compile hp
    refine ⟨hready.distinct, ?_, ?_, fun r hr callee hcallee => ?_, fun other => ?_⟩
    · exact List.count_eq_one_of_mem hready.distinct (List.mem_map.mpr hready.entry)
    · exact List.count_eq_one_of_mem hready.distinct hinit
    · exact List.mem_map.mpr (hready.closed r hr callee hcallee)
    · exact ⟨hready.condense_isOk other, hready.simplify.condense_isOk other⟩
  · intro error span h
    rw [Pack.make] at h
    split at h
    · cases h
    split at h
    next hcompile =>
      have hlink := Environment.isLink_of_compile hcompile
      cases h
      cases hlink
    next hcompile =>
      obtain ⟨q, hq⟩ := (Environment.ready_of_compile hcompile).1.optimize_isOk settings _
      rw [hq] at h
      cases h

def Source.crowded : Source where
  name := "crowded"
  code := "fun main() { } while (isRaining()) { main() }"

def Syntax.crowded : Script where
  stmts := [.function ⟨"main", false, none, [], none, ⟨[], ⟨11, 14⟩⟩, ⟨0, 14⟩⟩ ⟨0, 14⟩,
    .repeatWhile (.call (.var "isRaining" ⟨22, 31⟩) [] ⟨22, 33⟩)
      ⟨[.expr (.call (.var "main" ⟨37, 41⟩) [] ⟨37, 43⟩) ⟨37, 43⟩], ⟨35, 45⟩⟩ ⟨15, 45⟩]
  span := ⟨0, 45⟩

theorem Syntax.parse_crowded : Script.parse Source.crowded = .ok crowded := by
  cbv

theorem Pack.make_closed_crowded :
    ∃ analyzed p, Analyzed.of Source.crowded = .ok analyzed ∧
      analyzed.program Source.crowded {} {} = .ok p ∧ p.names = ["main_1", "while_0", "main", "init"] ∧
      (∀ r ∈ p.routines, ∀ callee ∈ r.calls, callee ∈ p.names) ∧
      (p.condense { optimize := true }).1 = .ok () := by
  have hanalyzed : Analyzed.of Source.crowded = .ok ⟨Syntax.crowded, .of Syntax.crowded⟩ := by
    rw [Analyzed.of, Syntax.parse_crowded]
  have hnames : (Analyzed.program Source.crowded {} {} ⟨Syntax.crowded, .of Syntax.crowded⟩).map
      Program.names = .ok ["main_1", "while_0", "main", "init"] := by decide +kernel
  cases hp : Analyzed.program Source.crowded {} {} ⟨Syntax.crowded, .of Syntax.crowded⟩ with
  | error error =>
    rw [hp] at hnames
    cases hnames
  | ok p =>
    rw [hp] at hnames
    obtain ⟨-, -, -, hcalls, hcondense⟩ := (make_closed Source.crowded {} {}).1 _ p hanalyzed hp
    refine ⟨_, p, hanalyzed, hp, Except.ok.inj hnames, hcalls, ?_⟩
    exact (hcondense { optimize := true }).1

end Datapack
