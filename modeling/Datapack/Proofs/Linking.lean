import Datapack.Proofs.Condensation
import Datapack.Proofs.Flattening
import Mathlib.Data.List.Perm.Subperm

/-!
What is left of a program that is simplified across its routines, and which programs are refused. Unfolding a routine
changes what calls lead to only in that the routine itself is left out; so what the roots reach stays the same, calls
that lead nowhere included. Only guarded nodes may have others below them for this.
-/

namespace Datapack

open List

variable {name other : String} {p q : Program} {settings : Settings} {callee r : Routine}

namespace Node

mutual

def isProper : Node → Bool
  | ⟨.guarded _, children, _, _⟩ => areProper children
  | ⟨_, children, _, _⟩ => children.isEmpty

def areProper : List Node → Bool
  | [] => true
  | node :: rest => isProper node && areProper rest

end

variable {instr : Instr}

theorem isProper_leaf (h : ∀ conditions, instr ≠ .guarded conditions) (children : List Node) (location : Option Span)
    (index : Option Nat) : isProper ⟨instr, children, location, index⟩ = children.isEmpty := by
  cases instr with
  | guarded conditions => exact absurd rfl (h conditions)
  | _ => rfl

theorem areProper_of_isProper {children : List Node} {location : Option Span} {index : Option Nat}
    (h : isProper ⟨instr, children, location, index⟩ = true) : areProper children = true := by
  cases instr with
  | guarded conditions => exact h
  | _ =>
    rw [List.isEmpty_iff.mp h]
    rfl

theorem areProper_append (nodes others : List Node) :
    areProper (nodes ++ others) = (areProper nodes && areProper others) := by
  induction nodes with
  | nil => rfl
  | cons node rest ih => simp [areProper, ih, Bool.and_assoc]

variable {name? : Option String} {nodes body unfolded : List Node}

theorem mem_callsAll_iff (h : areProper nodes = true) : name ∈ callsAll nodes ↔ .call name ∈ instrsAll nodes := by
  refine ⟨fun hname => ?_, mem_callsAll_of_instrsAll⟩
  induction nodes using guard_induction with
  | nil => cases hname
  | guarded conditions children location index rest ih ihRest =>
    rw [areProper, isProper, Bool.and_eq_true] at h
    rw [callsAll, mem_append] at hname
    rw [instrsAll_cons, instrs_guarded, mem_append]
    exact hname.imp (ih h.1) (ihRest h.2)
  | leaf instr children location index rest hleaf ihRest =>
    rw [areProper, isProper_leaf hleaf, Bool.and_eq_true, List.isEmpty_iff] at h
    simp only [callsAll, mem_append, mem_calls, h.1] at hname
    rw [instrsAll_cons, instrs_leaf hleaf, mem_append, mem_singleton]
    exact hname.imp (fun hname => (hname.resolve_right not_mem_nil).symm) (ihRest h.2)

theorem Unfolded.areProper (h : Unfolded name? body nodes unfolded) (hbody : areProper body = true)
    (hnodes : Node.areProper nodes = true) : Node.areProper unfolded = true := by
  induction h with
  | nil => rfl
  | call _ _ ihBody ihRest =>
    rw [Node.areProper, Bool.and_eq_true] at hnodes
    rw [areProper_append, ihBody rfl hbody, ihRest hbody hnodes.2]
    rfl
  | @keep _ _ _ _ _ _ instr _ _ _ _ hchildren _ ih ihRest =>
    rw [Node.areProper, Bool.and_eq_true] at hnodes ⊢
    refine ⟨?_, ihRest hbody hnodes.2⟩
    by_cases hleaf : ∀ conditions, instr ≠ .guarded conditions
    · rw [isProper_leaf hleaf, List.isEmpty_iff] at hnodes ⊢
      rw [hnodes.1] at hchildren
      cases hchildren
      rfl
    · obtain ⟨conditions, rfl⟩ := not_forall_not.mp hleaf
      exact ih hbody hnodes.1

theorem Unfolded.mem_calls_iff (h : Unfolded name? body nodes unfolded) (hnodes : Node.areProper nodes = true) :
    other ∈ callsAll unfolded ↔ other ∈ callsAll nodes ∧ name? ≠ some other ∨
      (∃ name, name? = some name ∧ name ∈ callsAll nodes) ∧ other ∈ callsAll body := by
  refine ⟨h.of_mem_calls, fun hother => ?_⟩
  induction h with
  | nil => simp [callsAll] at hother
  | call hbody _ _ ihRest =>
    rw [Node.areProper, isProper_leaf (by simp), Bool.and_eq_true, List.isEmpty_iff] at hnodes
    simp only [callsAll, mem_append, mem_calls, hnodes.1, not_mem_nil, or_false] at hother
    rw [callsAll_append, mem_append, hbody.callsAll_eq rfl]
    obtain ⟨hcall | hother, hne⟩ | ⟨-, hother⟩ := hother
    · cases hcall
      exact absurd rfl hne
    · exact .inr (ihRest hnodes.2 (.inl ⟨hother, hne⟩))
    · exact .inl hother
  | keep hkeep _ _ ih ihRest =>
    rw [Node.areProper, Bool.and_eq_true] at hnodes
    have hinner := ih (areProper_of_isProper hnodes.1)
    have hrest := ihRest hnodes.2
    simp only [callsAll, mem_append, mem_calls] at hother ⊢
    obtain ⟨(hcall | hother) | hother, hne⟩ | ⟨⟨name, hname, (hcall | hcall) | hcall⟩, hother⟩ := hother
    · exact .inl (.inl hcall)
    · exact .inl (.inr (hinner (.inl ⟨hother, hne⟩)))
    · exact .inr (hrest (.inl ⟨hother, hne⟩))
    · exact absurd hcall (hkeep name hname)
    · exact .inl (.inr (hinner (.inr ⟨⟨name, hname, hcall⟩, hother⟩)))
    · exact .inr (hrest (.inr ⟨⟨name, hname, hcall⟩, hother⟩))

theorem call_notMem_of_isRedundant {node : Node} {next : Option Node} (h : node.isRedundant next = true) :
    .call name ∉ instrs node := by
  obtain ⟨instr, children, location, index⟩ := node
  cases instr with
  | guarded conditions =>
    obtain rfl : children = [] := by simpa [isRedundant] using h
    simp
  | call routine => simp [isRedundant, Instr.overwrites?] at h
  | _ => simp [instrs_leaf]

theorem call_mem_simplifyAll (h : .call name ∈ instrsAll nodes) : .call name ∈ instrsAll (simplifyAll nodes) := by
  have hprepend : ∀ {node rest}, .call name ∈ instrs node ∨ .call name ∈ instrsAll rest →
      .call name ∈ instrsAll (prepend node rest) := by
    intro node rest h
    rw [prepend]
    split
    next hredundant => exact h.resolve_left (call_notMem_of_isRedundant hredundant)
    next => rwa [instrsAll_cons, mem_append]
  induction nodes using guard_induction with
  | nil => exact h
  | guarded conditions children location index rest ih ihRest =>
    rw [instrsAll_cons, instrs_guarded, mem_append] at h
    refine hprepend (h.imp (fun h => ?_) ihRest)
    rw [simplify, instrs_merge, instrs_guarded]
    exact ih h
  | leaf instr children location index rest hleaf ihRest =>
    rw [instrsAll_cons, mem_append] at h
    refine hprepend (h.imp (fun h => ?_) ihRest)
    rwa [simplify, instrs_merge, instrs_leaf hleaf, ← instrs_leaf hleaf children location index]

end Node

namespace Program

def Reaches (settings : Settings) (p : Program) (name : String) : Prop :=
  ∃ root, settings.isRoot root = true ∧ p.IsLive root ∧ p.Leads root name

variable {bound : Nat}

theorem leads_of_mem_reach {pending reached : List String} (h : name ∈ p.reach bound pending reached) :
    name ∈ reached ∨ ∃ start ∈ pending, p.Leads start name := by
  induction bound generalizing pending reached with
  | zero => exact .inl h
  | succ bound ih =>
    cases pending with
    | nil => exact .inl h
    | cons first pending =>
      rw [reach] at h
      split at h
      · obtain hreached | ⟨start, hstart, hleads⟩ := ih h
        · exact .inl hreached
        · exact .inr ⟨start, .tail _ hstart, hleads⟩
      · obtain hreached | ⟨start, hstart, hleads⟩ := ih h
        · cases mem_cons.mp hreached with
          | inl heq => exact .inr ⟨first, .head _, heq ▸ .refl⟩
          | inr hreached => exact .inl hreached
        · cases mem_append.mp hstart with
          | inl hcallee =>
            split at hcallee
            next r hr => exact .inr ⟨first, .head _, .head ⟨r, hr, hcallee⟩ hleads⟩
            next => cases hcallee
          | inr hstart => exact .inr ⟨start, .tail _ hstart, hleads⟩

theorem mem_reachable_iff : name ∈ p.reachable settings ↔
      ∃ root ∈ p.routines, settings.isRoot root.name = true ∧ p.Leads root.name name := by
  constructor
  · intro h
    obtain hnil | ⟨start, hstart, hleads⟩ := leads_of_mem_reach h
    · cases hnil
    · obtain ⟨hmem, hroot⟩ := mem_filter.mp hstart
      obtain ⟨root, hrootMem, rfl⟩ := mem_map.mp hmem
      exact ⟨root, hrootMem, hroot, hleads⟩
  · rintro ⟨root, hmem, hroot, hleads⟩
    obtain ⟨hroots, hclosed⟩ := reachable_closed settings p
    induction hleads with
    | refl => exact hroots root hmem hroot
    | tail _ hlast ih =>
      obtain ⟨r, hr, hcallee⟩ := hlast
      exact hclosed _ ih _ (by simpa [callees, hr] using hcallee)

theorem Unfolds.length_live_lt (h : p.Unfolds q callee) (hnames : (p.routines.map (·.name)).Nodup)
    (hcallee : p.routine? callee.name = some callee)
    (hlive : callee.dropped = false) : q.live.length < p.live.length := by
  have hnames' : (q.routines.map (·.name)).Nodup := h.names ▸ hnames
  have hdistinct : (q.live.map (·.name)).Nodup := hnames'.sublist (filter_sublist.map _)
  have hmem : ∀ {p : Program}, (p.routines.map (·.name)).Nodup → ∀ {name},
      name ∈ p.live.map (·.name) ↔ p.IsLive name := by
    intro p hp name
    rw [isLive_iff_mem hp, mem_map]
  have hcons : (callee.name :: q.live.map (·.name)).Nodup :=
    nodup_cons.mpr ⟨fun hgone => h.gone ((hmem hnames').mp hgone), hdistinct⟩
  have hsub : callee.name :: q.live.map (·.name) ⊆ p.live.map (·.name) := by
    intro name hname
    refine (hmem hnames).mpr ?_
    cases mem_cons.mp hname with
    | inl heq => exact heq ▸ ⟨callee, hcallee, hlive⟩
    | inr hname => exact h.live name ((hmem hnames').mp hname)
  have hlength := (subperm_of_subset hcons hsub).length_le
  simp only [length_cons, length_map] at hlength
  omega

theorem nextStep?_runSteps (hnames : (p.routines.map (·.name)).Nodup) (hbound : p.live.length ≤ bound) :
    (p.runSteps settings bound).nextStep? settings = none := by
  induction bound generalizing p with
  | zero =>
    have hlive : p.live = [] := length_eq_zero_iff.mp (by omega)
    simp [runSteps, nextStep?, hlive]
  | succ bound ih =>
    rw [runSteps]
    split
    next step hnext =>
      obtain ⟨callee, hcallee, hlive, -, -, hstep⟩ := stepOf_of_nextStep? hnames hnext
      have hunfolds := hstep.unfolds hnames hcallee
      have hlt := hunfolds.length_live_lt hnames hcallee hlive
      exact ih (hunfolds.names ▸ hnames) (by omega)
    next hnext => exact hnext

theorem runSteps_of_le {more : Nat} (hle : bound ≤ more) (h : (p.runSteps settings bound).nextStep? settings = none) :
    p.runSteps settings more = p.runSteps settings bound := by
  induction bound generalizing p more with
  | zero =>
    cases more with
    | zero => rfl
    | succ more =>
      rw [runSteps] at h
      rw [runSteps, runSteps, h]
  | succ bound ih =>
    obtain ⟨more, rfl⟩ : ∃ n, more = n + 1 := ⟨more - 1, by omega⟩
    rw [runSteps] at h ⊢
    rw [runSteps]
    split
    next step hnext =>
      rw [hnext] at h
      exact ih (by omega) h
    next => rfl

theorem reaches_closed_iff :
    (∀ name r, p.Reaches settings name → p.routine? name = some r →
        ∀ callee ∈ r.calls, callee ∈ p.routines.map (·.name)) ↔
      ∀ name, p.Reaches settings name → name ∈ p.routines.map (·.name) := by
  constructor
  · rintro hclosed name ⟨root, hroot, hlive, hleads⟩
    cases hleads with
    | refl =>
      obtain ⟨r, hr, -⟩ := hlive
      exact name_of_routine? hr ▸ mem_map_of_mem (mem_of_find?_eq_some hr)
    | @tail caller _ hfirst hlast =>
      obtain ⟨r, hr, hcallee⟩ := hlast
      exact hclosed caller r ⟨root, hroot, hlive, hfirst⟩ hr name hcallee
  · rintro hreached name r ⟨root, hroot, hlive, hleads⟩ hr callee hcallee
    exact hreached callee ⟨root, hroot, hlive, hleads.tail ⟨r, hr, hcallee⟩⟩

/-- Whether every routine that is part of a program is reached from a root, every call leads to such a routine
or to none at all, and only guarded nodes have others below them. -/
structure Connected (settings : Settings) (p : Program) : Prop where
  distinct : (p.routines.map (·.name)).Nodup
  proper : ∀ r ∈ p.live, Node.areProper r.body = true
  calls : ∀ r ∈ p.live, ∀ callee ∈ r.calls, p.IsLive callee ∨ callee ∉ p.routines.map (·.name)
  reached : ∀ name, p.IsLive name → p.Reaches settings name

namespace Connected

variable {start : String}

theorem live_of_routine? (h : p.IsLive name ∨ name ∉ p.routines.map (·.name))
    (hr : p.routine? name = some r) : r.dropped = false := by
  obtain ⟨r', hr', hlive⟩ | hnot := h
  · exact Option.some.inj (hr'.symm.trans hr) ▸ hlive
  · have hmem := mem_map_of_mem (f := (·.name)) (mem_of_find?_eq_some hr)
    exact absurd (name_of_routine? hr ▸ hmem) hnot

section

variable (hp : p.Connected settings)

include hp

theorem live_or_absent (hstart : p.IsLive start) (hleads : p.Leads start name) :
    p.IsLive name ∨ name ∉ p.routines.map (·.name) := by
  induction hleads with
  | refl => exact .inl hstart
  | tail _ hlast ih =>
    obtain ⟨r, hr, hcallee⟩ := hlast
    have hlive := live_of_routine? ih hr
    exact hp.calls r ((mem_live hp.distinct).mpr ⟨(name_of_routine? hr).symm ▸ hr, hlive⟩) _ hcallee

theorem mem_calls_iff (h : p.Unfolds q callee) {r' : Routine} (hne : name ≠ callee.name) (hr : p.routine? name = some r)
    (hlive : r.dropped = false) (hr' : q.routine? name = some r') :
    other ∈ r'.calls ↔
      (other ∈ r.calls ∧ other ≠ callee.name) ∨ (callee.name ∈ r.calls ∧ other ∈ callee.calls) := by
  obtain ⟨r'', hr'', -, hunfolded⟩ := h.kept name r hne hr hlive
  obtain rfl : r'' = r' := Option.some.inj (hr''.symm.trans hr')
  have hproper := hp.proper r ((mem_live hp.distinct).mpr ⟨(name_of_routine? hr).symm ▸ hr, hlive⟩)
  simpa [Routine.calls, eq_comm] using hunfolded.mem_calls_iff hproper

section

variable (h : p.Unfolds q callee) (hcallee : p.routine? callee.name = some callee) (hself : callee.name ∉ callee.calls)

include h hcallee hself

/-- What calls led to before an unfolding, they lead to afterwards. Where they led to the unfolded routine,
they lead to what it calls. -/
theorem leads_after (hstart : p.IsLive start) (hne : start ≠ callee.name) (hleads : p.Leads start name) :
    (name ≠ callee.name → q.Leads start name) ∧
      (name = callee.name → ∀ other ∈ callee.calls, q.Leads start other) := by
  induction hleads with
  | refl => exact ⟨fun _ => .refl, fun heq => absurd heq hne⟩
  | @tail caller name hfirst hlast ih =>
    obtain ⟨r, hr, hname⟩ := hlast
    have hlive := live_of_routine? (hp.live_or_absent hstart hfirst) hr
    by_cases hcaller : caller = callee.name
    · subst hcaller
      obtain rfl : callee = r := Option.some.inj (hcallee.symm.trans hr)
      refine ⟨fun _ => ih.2 rfl name hname, fun heq => ?_⟩
      exact absurd (heq ▸ hname) hself
    · obtain ⟨r', hr', -, -⟩ := h.kept caller r hcaller hr hlive
      have hcalls : ∀ other, ((other ∈ r.calls ∧ other ≠ callee.name) ∨
          (callee.name ∈ r.calls ∧ other ∈ callee.calls)) → q.Leads start other := fun other hother =>
        .tail (ih.1 hcaller) ⟨r', hr', (hp.mem_calls_iff h hcaller hr hlive hr').mpr hother⟩
      refine ⟨fun hother => hcalls name (.inl ⟨hname, hother⟩), ?_⟩
      rintro rfl other hother
      exact hcalls other (.inr ⟨hname, hother⟩)

theorem leads_before (hstart : q.IsLive start) (hleads : q.Leads start name) : p.Leads start name := by
  -- the routines on the way are part of the program, also after the unfolding
  suffices hsuff : p.Leads start name ∧ (q.IsLive name ∨ name ∉ p.routines.map (·.name)) from hsuff.1
  induction hleads with
  | refl => exact ⟨.refl, .inl hstart⟩
  | @tail caller name _ hlast ih =>
    obtain ⟨r', hr', hname⟩ := hlast
    have hlive' : r'.dropped = false := live_of_routine? (h.names.symm ▸ ih.2) hr'
    obtain ⟨⟨r, hr, hlive⟩, hne⟩ := h.isLive_iff.mp ⟨r', hr', hlive'⟩
    have hrLive : r ∈ p.live := (mem_live hp.distinct).mpr ⟨(name_of_routine? hr).symm ▸ hr, hlive⟩
    obtain ⟨hmem, hne'⟩ | ⟨hmem, hother⟩ := (hp.mem_calls_iff h hne hr hlive hr').mp hname
    · refine ⟨ih.1.tail ⟨r, hr, hmem⟩, (hp.calls r hrLive name hmem).imp_left fun hname => ?_⟩
      exact h.isLive_iff.mpr ⟨hname, hne'⟩
    · have hcalleeLive : callee ∈ p.live := by
        obtain hlive | hnot := hp.calls r hrLive _ hmem
        · exact (mem_live hp.distinct).mpr ⟨hcallee, live_of_routine? (.inl hlive) hcallee⟩
        · exact absurd (mem_map_of_mem (mem_of_find?_eq_some hcallee)) hnot
      refine ⟨(ih.1.tail ⟨r, hr, hmem⟩).tail ⟨callee, hcallee, hother⟩, ?_⟩
      refine (hp.calls callee hcalleeLive name hother).imp_left fun hname => ?_
      exact h.isLive_iff.mpr ⟨hname, fun heq => hself (heq ▸ hother)⟩

theorem reaches_iff (hroot : settings.isRoot callee.name = false) (hne : name ≠ callee.name) :
    q.Reaches settings name ↔ p.Reaches settings name := by
  constructor
  · rintro ⟨root, hisRoot, hlive, hleads⟩
    exact ⟨root, hisRoot, h.live root hlive, hp.leads_before h hcallee hself hlive hleads⟩
  · rintro ⟨root, hisRoot, hlive, hleads⟩
    have hrootNe : root ≠ callee.name := by
      rintro rfl
      simp [hisRoot] at hroot
    exact ⟨root, hisRoot, h.isLive_iff.mpr ⟨hlive, hrootNe⟩,
      (hp.leads_after h hcallee hself hlive hrootNe hleads).1 hne⟩

theorem unfolds (hlive : callee.dropped = false) (hroot : settings.isRoot callee.name = false) :
    q.Connected settings := by
  have hdistinct : (q.routines.map (·.name)).Nodup := h.names ▸ hp.distinct
  have hcalleeLive : callee ∈ p.live := (mem_live hp.distinct).mpr ⟨hcallee, hlive⟩
  -- what a routine that is part of the program was before
  have hbefore : ∀ r' ∈ q.live, ∃ r ∈ p.live, r'.name ≠ callee.name ∧ p.routine? r'.name = some r ∧
      r.dropped = false ∧ Node.Unfolded (some callee.name) callee.body r.body r'.body := by
    intro r' hr'
    obtain ⟨hfind', hlive'⟩ := (mem_live hdistinct).mp hr'
    obtain ⟨⟨r, hr, hrlive⟩, hne⟩ := h.isLive_iff.mp ⟨r', hfind', hlive'⟩
    obtain ⟨r'', hr'', -, hunfolded⟩ := h.kept _ r hne hr hrlive
    obtain rfl : r'' = r' := Option.some.inj (hr''.symm.trans hfind')
    exact ⟨r, (mem_live hp.distinct).mpr ⟨(name_of_routine? hr).symm ▸ hr, hrlive⟩, hne, hr, hrlive, hunfolded⟩
  refine ⟨hdistinct, fun r' hr' => ?_, fun r' hr' other hother => ?_, fun name hname => ?_⟩
  · obtain ⟨r, hr, -, -, -, hunfolded⟩ := hbefore r' hr'
    exact hunfolded.areProper (hp.proper callee hcalleeLive) (hp.proper r hr)
  · obtain ⟨r, hr, -, -, -, hunfolded⟩ := hbefore r' hr'
    rw [h.names]
    obtain ⟨hmem, hne⟩ | ⟨-, hmem⟩ := hunfolded.of_mem_calls hother
    · exact (hp.calls r hr other hmem).imp_left fun hother => h.isLive_iff.mpr ⟨hother, fun heq => hne (heq ▸ rfl)⟩
    · refine (hp.calls callee hcalleeLive other hmem).imp_left fun hother => h.isLive_iff.mpr ⟨hother, ?_⟩
      rintro rfl
      exact hself hmem
  · obtain ⟨hname, hne⟩ := h.isLive_iff.mp hname
    exact (hp.reaches_iff h hcallee hself hroot hne).mpr (hp.reached name hname)

end

/-- Steps keep a program connected, and what its roots reach of what is left and of what was never there. -/
theorem runSteps (bound : Nat) :
    (p.runSteps settings bound).Connected settings ∧ ∀ name, name ∉ p.routines.map (·.name) →
      ((p.runSteps settings bound).Reaches settings name ↔ p.Reaches settings name) := by
  suffices h : (p.runSteps settings bound).Connected settings ∧
      (p.runSteps settings bound).routines.map (·.name) = p.routines.map (·.name) ∧
      ∀ name, name ∉ p.routines.map (·.name) →
        ((p.runSteps settings bound).Reaches settings name ↔ p.Reaches settings name) from ⟨h.1, h.2.2⟩
  refine runSteps_induction (P := fun q => q.Connected settings ∧
    q.routines.map (·.name) = p.routines.map (·.name) ∧ ∀ name, name ∉ p.routines.map (·.name) →
      (q.Reaches settings name ↔ p.Reaches settings name)) ?_ bound hp.distinct ⟨hp, rfl, fun _ _ => Iff.rfl⟩
  intro q callee step ⟨hq, hnames, hreaches⟩ _ hcallee hlive hself hroot _ hunfolds
  refine ⟨hq.unfolds hunfolds hcallee hself hlive hroot, hunfolds.names.trans hnames, fun name hname => ?_⟩
  refine (hq.reaches_iff hunfolds hcallee hself hroot ?_).trans (hreaches name hname)
  rintro rfl
  exact hname (hnames ▸ mem_map_of_mem (mem_of_find?_eq_some hcallee))

theorem closed_iff : (∀ r ∈ p.live, ∀ callee ∈ r.calls, p.IsLive callee) ↔
      ∀ name, p.Reaches settings name → name ∈ p.routines.map (·.name) := by
  rw [← reaches_closed_iff]
  constructor
  · rintro hclosed name r ⟨root, -, hlive, hleads⟩ hr callee hcallee
    have hkept := live_of_routine? (hp.live_or_absent hlive hleads) hr
    have hmem : r ∈ p.live := (mem_live hp.distinct).mpr ⟨(name_of_routine? hr).symm ▸ hr, hkept⟩
    obtain ⟨s, hs, hname⟩ := (isLive_iff_mem hp.distinct).mp (hclosed r hmem callee hcallee)
    exact hname ▸ mem_map_of_mem (mem_filter.mp hs).1
  · intro hclosed r hr callee hcallee
    obtain ⟨hfind, hkept⟩ := (mem_live hp.distinct).mp hr
    have hnames := hclosed r.name r (hp.reached r.name ⟨r, hfind, hkept⟩) hfind callee hcallee
    exact (hp.calls r hr callee hcallee).resolve_right (not_not_intro hnames)

end

end Connected

section

variable (settings : Settings)

theorem leads_dropUnreachable (p : Program) : (p.dropUnreachable settings).Leads = p.Leads := by
  have hcalls : (p.dropUnreachable settings).Calls = p.Calls := by
    funext caller callee
    rw [Calls, Calls, routine?_dropUnreachable]
    refine propext ⟨?_, ?_⟩
    · rintro ⟨r, hr, hcallee⟩
      obtain ⟨old, hold, rfl⟩ := Option.map_eq_some_iff.mp hr
      refine ⟨old, hold, ?_⟩
      split at hcallee <;> exact hcallee
    · rintro ⟨r, hr, hcallee⟩
      rw [hr]
      refine ⟨_, rfl, ?_⟩
      dsimp only
      split <;> exact hcallee
  rw [Leads, Leads, hcalls]

theorem reaches_dropUnreachable (hnames : (p.routines.map (·.name)).Nodup) :
    (p.dropUnreachable settings).Reaches settings name ↔ p.Reaches settings name := by
  refine exists_congr fun root => and_congr_right fun hroot => ?_
  rw [leads_dropUnreachable, isLive_dropUnreachable, and_assoc]
  refine and_congr_right fun hlive => and_iff_right ?_
  obtain ⟨r, hr, rfl⟩ := (isLive_iff_mem hnames).mp hlive
  exact (reachable_closed settings p).1 r (mem_filter.mp hr).1 hroot

theorem connected_dropUnreachable (hnames : (p.routines.map (·.name)).Nodup)
    (hkept : ∀ r ∈ p.routines, r.dropped = false) (hproper : ∀ r ∈ p.routines, Node.areProper r.body = true) :
    (p.dropUnreachable settings).Connected settings := by
  have hdistinct := (names_dropUnreachable settings p).symm ▸ hnames
  -- a routine that is left is one of the program, and reached
  have hleft : ∀ r ∈ (p.dropUnreachable settings).live,
      r ∈ p.routines ∧ r.name ∈ p.reachable settings := by
    intro r hr
    obtain ⟨hfind, hlive⟩ := (mem_live hdistinct).mp hr
    obtain ⟨⟨old, hold, -⟩, hmem⟩ := isLive_dropUnreachable.mp ⟨r, hfind, hlive⟩
    rw [routine?_dropUnreachable, hold, Option.map_some, name_of_routine? hold,
      if_pos (by simpa using hmem)] at hfind
    exact ⟨Option.some.inj hfind ▸ mem_of_find?_eq_some hold, hmem⟩
  refine ⟨hdistinct, fun r hr => hproper r (hleft r hr).1, fun r hr callee hcallee => ?_, fun name hname => ?_⟩
  · rw [names_dropUnreachable, or_iff_not_imp_right, not_not]
    intro hmem
    obtain ⟨s, hs, rfl⟩ := mem_map.mp hmem
    obtain ⟨hr, hreached⟩ := hleft r hr
    refine isLive_dropUnreachable.mpr ⟨⟨s, routine?_eq_some hnames hs, hkept s hs⟩, ?_⟩
    refine (reachable_closed settings p).2 r.name hreached s.name ?_
    simpa [callees, routine?_eq_some hnames hr] using hcallee
  · obtain ⟨-, hmem⟩ := isLive_dropUnreachable.mp hname
    obtain ⟨root, hroot, hisRoot, hleads⟩ := mem_reachable_iff.mp hmem
    rw [reaches_dropUnreachable settings hnames]
    exact ⟨root.name, hisRoot, ⟨root, routine?_eq_some hnames hroot, hkept root hroot⟩, hleads⟩

theorem Connected.reaches_simplify_live {settings : Settings} (hp : p.Connected settings)
    (hclosed : ∀ r ∈ p.live, ∀ callee ∈ r.calls, p.IsLive callee) (hname : p.IsLive name) :
    (simplify { p with routines := p.live }).Reaches settings name := by
  have hlive : ∀ {name}, p.IsLive name → (simplify { p with routines := p.live }).IsLive name := by
    rintro name ⟨r, hr, hlive⟩
    refine ⟨r.simplify, ?_, hlive⟩
    rw [routine?_simplify, routine?_live hp.distinct hr hlive]
    rfl
  obtain ⟨root, hroot, hrootLive, hleads⟩ := hp.reached name hname
  refine ⟨root, hroot, hlive hrootLive, ?_⟩
  clear hname
  -- all routines on the way are part of the program, and no call is simplified away
  suffices hsuff : p.IsLive name ∧ (simplify { p with routines := p.live }).Leads root name from hsuff.2
  induction hleads with
  | refl => exact ⟨hrootLive, .refl⟩
  | @tail caller callee _ hlast ih =>
    obtain ⟨⟨r, hr, hkept⟩, hleads⟩ := ih
    obtain ⟨r', hr', hcallee⟩ := hlast
    obtain rfl : r = r' := Option.some.inj (hr.symm.trans hr')
    have hmem : r ∈ p.live := (mem_live hp.distinct).mpr ⟨(name_of_routine? hr).symm ▸ hr, hkept⟩
    refine ⟨hclosed r hmem callee hcallee, hleads.tail ⟨r.simplify, ?_, ?_⟩⟩
    · rw [routine?_simplify, routine?_live hp.distinct hr hkept]
      rfl
    · have hcommand := (Node.mem_callsAll_iff (hp.proper r hmem)).mp hcallee
      exact Node.mem_callsAll_of_instrsAll (r.body_simplify ▸ Node.call_mem_simplifyAll hcommand)

theorem runSteps_keeps_roots (bound : Nat) (hnames : (p.routines.map (·.name)).Nodup) :
    (p.runSteps settings bound).routines.map (·.name) = p.routines.map (·.name) ∧
      ∀ name, settings.isRoot name = true → p.IsLive name → (p.runSteps settings bound).IsLive name := by
  refine runSteps_induction (P := fun q => q.routines.map (·.name) = p.routines.map (·.name) ∧
    ∀ name, settings.isRoot name = true → p.IsLive name → q.IsLive name) ?_ bound hnames
    ⟨rfl, fun _ _ => id⟩
  intro q callee step ⟨hlisted, hroots⟩ _ _ _ _ hroot _ hunfolds
  refine ⟨hunfolds.names.trans hlisted, fun name hname hlive => ?_⟩
  refine hunfolds.isLive_iff.mpr ⟨hroots name hname hlive, ?_⟩
  rintro rfl
  simp [hname] at hroot

end

def reduced (settings : Settings) (p : Program) : Program :=
  (p.dropUnreachable settings).runSteps settings (p.dropUnreachable settings).stepBound

theorem condense_eq_reduced (settings : Settings) (hmain : ∃ r ∈ p.routines, r.name = "main") :
    p.condense settings = match (p.reduced settings).verify with
      | .error e => (.error e, p.reduced settings)
      | .ok () => (.ok (), simplify { p.reduced settings with routines := (p.reduced settings).live }) := by
  have hfound : (p.routine? "main").isNone = false := by
    obtain ⟨r, hr, hname⟩ := hmain
    rw [Option.isNone_eq_false_iff, routine?, find?_isSome]
    exact ⟨r, hr, by simpa using hname⟩
  rw [condense, if_neg (by simp [hfound])]
  rfl

section

variable (settings : Settings) (hnames : (p.routines.map (·.name)).Nodup)
include hnames

theorem distinct_dropUnreachable : ((p.dropUnreachable settings).routines.map (·.name)).Nodup :=
  (names_dropUnreachable settings p).symm ▸ hnames

theorem names_reduced : (p.reduced settings).routines.map (·.name) = p.routines.map (·.name) :=
  (runSteps_keeps_roots settings _ (distinct_dropUnreachable settings hnames)).1.trans
    (names_dropUnreachable settings p)

theorem isLive_reduced_of_isRoot (hkept : ∀ r ∈ p.routines, r.dropped = false) (hr : r ∈ p.routines)
    (hroot : settings.isRoot r.name = true) : (p.reduced settings).IsLive r.name := by
  apply (runSteps_keeps_roots settings _ (distinct_dropUnreachable settings hnames)).2 r.name hroot
  rw [isLive_dropUnreachable]
  constructor
  · exact ⟨r, routine?_eq_some hnames hr, hkept r hr⟩
  · exact (reachable_closed settings p).1 r hr hroot

theorem runSteps_ends (hbound : p.routines.length ≤ bound) :
    ((p.dropUnreachable settings).runSteps settings bound).nextStep? settings = none ∧
      (p.dropUnreachable settings).runSteps settings bound = p.reduced settings := by
  have hdistinct := distinct_dropUnreachable settings hnames
  have hlength : (p.dropUnreachable settings).routines.length = p.routines.length := by
    simp [dropUnreachable]
  have hlive : (p.dropUnreachable settings).live.length ≤ p.routines.length := by
    rw [← hlength]
    exact length_filter_le _ _
  have hend : ((p.dropUnreachable settings).runSteps settings p.routines.length).nextStep? settings = none :=
    nextStep?_runSteps hdistinct hlive
  have hstepBound : p.routines.length ≤ (p.dropUnreachable settings).stepBound := by
    rw [stepBound, hlength]
    exact Nat.le_trans (Nat.le_succ _) (Nat.le_mul_of_pos_right _ (Nat.succ_pos _))
  constructor
  · rw [runSteps_of_le hbound hend]
    exact hend
  · rw [reduced, runSteps_of_le hbound hend, runSteps_of_le hstepBound hend]

theorem closed_reduced_iff (hkept : ∀ r ∈ p.routines, r.dropped = false)
    (hproper : ∀ r ∈ p.routines, Node.areProper r.body = true) :
    (p.reduced settings).Connected settings ∧
      ((∀ r ∈ (p.reduced settings).live, ∀ callee ∈ r.calls, (p.reduced settings).IsLive callee) ↔
        ∀ r ∈ p.routines, p.Reaches settings r.name →
          ∀ callee ∈ r.calls, callee ∈ p.routines.map (·.name)) := by
  have hconnected := connected_dropUnreachable settings hnames hkept hproper
  obtain ⟨hreduced, hreaches⟩ : (p.reduced settings).Connected settings ∧ ∀ name, name ∉ _ →
      ((p.reduced settings).Reaches settings name ↔ (p.dropUnreachable settings).Reaches settings name) :=
    hconnected.runSteps _
  refine ⟨hreduced, hreduced.closed_iff.trans ?_⟩
  rw [names_dropUnreachable] at hreaches
  constructor
  · intro h r hr hreached callee hcallee
    have hfind := routine?_eq_some hnames hr
    refine reaches_closed_iff.mpr (fun name hname => ?_) r.name r hreached hfind callee hcallee
    by_contra hmissing
    apply hmissing
    rw [← names_reduced settings hnames]
    apply h name
    rw [hreaches name hmissing, reaches_dropUnreachable settings hnames]
    exact hname
  · intro h name hname
    rw [names_reduced settings hnames]
    by_contra hmissing
    rw [hreaches name hmissing, reaches_dropUnreachable settings hnames] at hname
    refine hmissing (reaches_closed_iff.mp (fun caller r hcaller hr callee hcallee => ?_) name hname)
    exact h r (mem_of_find?_eq_some hr) (name_of_routine? hr ▸ hcaller) callee hcallee

end

theorem Ready.simplify (hp : p.Ready) : p.simplify.Ready where
  distinct := by simpa [Program.simplify, Function.comp_def, Routine.simplify] using hp.distinct
  kept r hr := by
    obtain ⟨old, hold, rfl⟩ := mem_map.mp hr
    exact hp.kept old hold
  entry := by
    obtain ⟨r, hr, hname⟩ := hp.entry
    exact ⟨r.simplify, mem_map_of_mem hr, hname⟩
  closed r hr callee hcallee := by
    obtain ⟨old, hold, rfl⟩ := mem_map.mp hr
    obtain ⟨s, hs, hname⟩ := hp.closed old hold callee (Node.mem_callsAll_simplifyAll (old.body_simplify ▸ hcallee))
    exact ⟨s.simplify, mem_map_of_mem hs, hname⟩

/-- Simplification across routines, on a program with an entry in which no two routines have the same name and
none is dropped. The steps come to an end by themselves. A program is refused only for a call that leads
nowhere; if only guarded nodes have others below them, exactly then when a routine that is reached from a root
makes such a call. What is left of a program that is accepted are some of its routines in their order, among
them all roots, and their calls lead to one another; if only guarded nodes have others below them, each is
reached from a root. -/
theorem condense_outcome (settings : Settings) {p : Program} (hnames : (p.routines.map (·.name)).Nodup)
    (hkept : ∀ r ∈ p.routines, r.dropped = false) (hmain : ∃ r ∈ p.routines, r.name = "main") :
    (∀ bound, p.routines.length ≤ bound →
      ((p.dropUnreachable settings).runSteps settings bound).nextStep? settings = none ∧
        (p.dropUnreachable settings).runSteps settings bound =
          p.reduced settings) ∧
    ((p.condense settings).1 = .ok () ∨
      ∃ caller callee, (p.condense settings).1 = .error (.danglingCall caller callee)) ∧
    ((∀ r ∈ p.routines, Node.areProper r.body = true) →
      ((p.condense settings).1 = .ok () ↔ ∀ r ∈ p.routines, p.Reaches settings r.name →
        ∀ callee ∈ r.calls, callee ∈ p.routines.map (·.name))) ∧
    ((p.condense settings).1 = .ok () →
      ((p.condense settings).2.routines.map (·.name)).Sublist (p.routines.map (·.name)) ∧
      (∀ r ∈ p.routines, settings.isRoot r.name = true →
        r.name ∈ (p.condense settings).2.routines.map (·.name)) ∧
      (∀ r ∈ (p.condense settings).2.routines, ∀ callee ∈ r.calls,
        callee ∈ (p.condense settings).2.routines.map (·.name)) ∧
      ((∀ r ∈ p.routines, Node.areProper r.body = true) →
        ∀ r ∈ (p.condense settings).2.routines, (p.condense settings).2.Reaches settings r.name)) := by
  have hmainLive : (p.reduced settings).IsLive "main" := by
    obtain ⟨r, hr, hname⟩ := hmain
    exact hname ▸ isLive_reduced_of_isRoot settings hnames hkept hr (by simp [hname, Settings.isRoot])
  have hdistinct : ((p.reduced settings).routines.map (·.name)).Nodup :=
    (names_reduced settings hnames).symm ▸ hnames
  have hleft : (simplify { p.reduced settings with routines := (p.reduced settings).live }).routines.map (·.name) =
      (p.reduced settings).live.map (·.name) := by
    simp [simplify, Function.comp_def, Routine.simplify]
  refine ⟨fun bound => runSteps_ends settings hnames, ?_⟩
  rw [condense_eq_reduced settings hmain]
  obtain ⟨hok, hclosed⟩ | ⟨caller, hcaller, callee, hcallee, hnot, herror⟩ := verify_cases hdistinct hmainLive
  · rw [hok]
    refine ⟨Or.inl rfl, fun hproper => ?_, fun _ => ⟨?_, fun r hr hroot => ?_, ?_, fun hproper => ?_⟩⟩
    · exact iff_of_true rfl ((closed_reduced_iff settings hnames hkept hproper).2.mp hclosed)
    · rw [hleft, ← names_reduced settings hnames]
      exact List.filter_sublist.map _
    · rw [hleft, List.mem_map]
      exact (isLive_iff_mem hdistinct).mp (isLive_reduced_of_isRoot settings hnames hkept hr hroot)
    · intro r hr callee hcallee
      obtain ⟨old, hold, rfl⟩ := List.mem_map.mp hr
      rw [hleft, List.mem_map]
      exact (isLive_iff_mem hdistinct).mp (hclosed old hold callee (Node.mem_callsAll_simplifyAll (old.body_simplify ▸ hcallee)))
    · intro r hr
      obtain ⟨old, hold, rfl⟩ := List.mem_map.mp hr
      obtain ⟨hconnected, -⟩ := closed_reduced_iff settings hnames hkept hproper
      exact hconnected.reaches_simplify_live hclosed ⟨old, (mem_live hdistinct).mp hold⟩
  · rw [herror]
    refine ⟨Or.inr ⟨caller.name, callee, rfl⟩, fun hproper => ?_, fun h => by cases h⟩
    refine iff_of_false (by simp) fun h => hnot ?_
    exact (closed_reduced_iff settings hnames hkept hproper).2.mpr h caller hcaller callee hcallee

/-- Every routine of a tangled program that is left after simplification is reached, and its calls lead to one
another. -/
theorem condense_outcome_tangled :
    (tangled.condense {}).1 = .ok () ∧
      (∀ r ∈ (tangled.condense {}).2.routines, ∀ callee ∈ r.calls,
        callee ∈ (tangled.condense {}).2.routines.map (·.name)) ∧
      ∀ r ∈ (tangled.condense {}).2.routines, (tangled.condense {}).2.Reaches {} r.name := by
  obtain ⟨-, -, hiff, hleft⟩ := condense_outcome {} tangled_ready.distinct tangled_ready.kept tangled_ready.entry
  have hproper : ∀ r ∈ tangled.routines, Node.areProper r.body = true := by decide
  have hok : (tangled.condense {}).1 = .ok () := by
    refine (hiff hproper).mpr fun r hr _ callee hcallee => ?_
    obtain ⟨s, hs, rfl⟩ := tangled_ready.closed r hr callee hcallee
    exact List.mem_map_of_mem hs
  obtain ⟨-, -, hcalls, hreached⟩ := hleft hok
  exact ⟨hok, hcalls, hreached hproper⟩

def hidden : Program where
  routines :=
    [{ name := "main", body := [⟨.call "empty", [.leaf (.call "missing")], none, none⟩] },
      { name := "empty", body := [] }]
  nextIndex := 0

/-- What stands below a call goes with the call: the entry, which is a root, calls a routine that does not exist,
and the program is accepted nevertheless. -/
theorem condense_hidden :
    (hidden.condense {}).1 = .ok () ∧
      ¬ ∀ r ∈ hidden.routines, hidden.Reaches {} r.name → ∀ callee ∈ r.calls,
        callee ∈ hidden.routines.map (·.name) := by
  refine ⟨by decide, fun h => ?_⟩
  have hreached : hidden.Reaches {} "main" := ⟨"main", rfl, ⟨_, rfl, rfl⟩, .refl⟩
  have hcallee := h _ List.mem_cons_self hreached "missing" (by decide)
  exact absurd hcallee (by decide)

end Program

end Datapack
