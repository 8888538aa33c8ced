import Datapack.Program.Condense
import Datapack.Proofs.Simplification

/-!
Unfolding a routine: wherever it was called, what it does is done in place. A program and the same program with a routine
unfolded end alike, by induction on the depth of calls.
-/

namespace Datapack

open List

variable {World : Type} {name? : Option String}

namespace Node

variable {name other : String} {nodes : List Node} {instr : Instr}

theorem mem_callsAll : name ∈ callsAll nodes ↔ ∃ node ∈ nodes, name ∈ calls node := by
  induction nodes with
  | nil => simp [callsAll]
  | cons node rest ih => simp [callsAll, ih]

theorem callsAll_append (nodes others : List Node) :
    callsAll (nodes ++ others) = callsAll nodes ++ callsAll others := by
  induction nodes with
  | nil => rfl
  | cons node rest ih => simp [callsAll, ih]

theorem mem_calls {children : List Node} {location : Option Span} {index : Option Nat} :
    name ∈ calls ⟨instr, children, location, index⟩ ↔ instr = .call name ∨ name ∈ callsAll children := by
  cases instr <;> simp [calls, eq_comm]

theorem exists_call_of_isCallOf {node : Node} (h : node.isCallOf name = true) :
    ∃ children location index, node = ⟨.call name, children, location, index⟩ := by
  obtain ⟨instr, children, location, index⟩ := node
  cases instr with
  | call routine =>
    obtain rfl : routine = name := by simpa [isCallOf] using h
    exact ⟨children, location, index, rfl⟩
  | _ => simp [isCallOf] at h

theorem mem_callsAll_of_any (h : nodes.any (·.isCallOf name) = true) : name ∈ callsAll nodes := by
  obtain ⟨node, hmem, hnode⟩ := any_eq_true.mp h
  obtain ⟨children, location, index, rfl⟩ := exists_call_of_isCallOf hnode
  exact mem_callsAll.mpr ⟨_, hmem, mem_calls.mpr (.inl rfl)⟩

theorem inlineCalls_of_ne (h : instr ≠ .call name) (body : Node) (next : Nat) (children : List Node)
    (location : Option Span) (index : Option Nat) :
    inlineCalls name body next ⟨instr, children, location, index⟩ =
      ((inlineCallsAll name body next children).1,
        ⟨instr, (inlineCallsAll name body next children).2, location, index⟩) := by
  cases instr with
  | call routine => rw [inlineCalls, if_neg fun heq : routine = name => h (heq ▸ rfl)]
  | _ => rfl

/-- Whether nodes are others with all calls of a routine, if one is given, replaced by copies of a body. Nothing else
but the numbers of nodes is changed. -/
inductive Unfolded : Option String → (body nodes unfolded : List Node) → Prop
  | nil {name? : Option String} {body : List Node} : Unfolded name? body [] []
  | call {name : String} {body copies children rest rest' : List Node} {location : Option Span} {index : Option Nat} :
      Unfolded none [] body copies → Unfolded (some name) body rest rest' →
        Unfolded (some name) body (⟨.call name, children, location, index⟩ :: rest) (copies ++ rest')
  | keep {name? : Option String} {body children children' rest rest' : List Node} {instr : Instr}
      {location : Option Span} {index index' : Option Nat} : (∀ name, name? = some name → instr ≠ .call name) →
      Unfolded name? body children children' → Unfolded name? body rest rest' →
        Unfolded name? body (⟨instr, children, location, index⟩ :: rest) (⟨instr, children', location, index'⟩ :: rest')

namespace Unfolded

variable {body unfolded : List Node}

theorem untouched (h : ∀ name, name? = some name → name ∉ callsAll nodes) : Unfolded name? body nodes nodes := by
  induction nodes using forest_induction with
  | nil => exact .nil
  | cons instr children location index rest ih ihRest =>
    simp only [callsAll, mem_append, mem_calls, not_or] at h
    exact .keep (fun name hname => (h name hname).1.1) (ih fun name hname => (h name hname).1.2)
      (ihRest fun name hname => (h name hname).2)

theorem numbered (next : Nat) (nodes : List Node) : Unfolded none [] nodes (numberAll next nodes).2 := by
  induction nodes using forest_induction generalizing next with
  | nil => exact .nil
  | cons instr children location index rest ih ihRest => exact .keep nofun (ih _) (ihRest _)

theorem removed (name : String) (nodes : List Node) : Unfolded (some name) [] nodes (withoutCallsAll name nodes) := by
  induction nodes using forest_induction with
  | nil => exact .nil
  | cons instr children location index rest ih ihRest =>
    rw [withoutCallsAll]
    split
    next hcall =>
      obtain ⟨_, _, _, heq⟩ := exists_call_of_isCallOf hcall
      cases heq
      exact .call .nil ihRest
    next hcall =>
      refine .keep ?_ ih ihRest
      rintro _ ⟨⟩ rfl
      simp [isCallOf] at hcall

theorem inlined (name : String) (body : Node) (nodes : List Node) (next : Nat) :
    Unfolded (some name) [body] nodes (inlineCallsAll name body next nodes).2 := by
  induction nodes using forest_induction generalizing next with
  | nil => exact .nil
  | cons instr children location index rest ih ihRest =>
    by_cases hcall : instr = .call name
    · subst hcall
      simp only [inlineCallsAll, inlineCalls, if_true]
      exact .call (numbered next [body]) (ihRest _)
    · simp only [inlineCallsAll, inlineCalls_of_ne hcall]
      exact .keep (fun _ heq => Option.some.inj heq ▸ hcall) (ih _) (ihRest _)

theorem spliced (hcount : (callsAll nodes).count name = 1) (hdirect : nodes.any (·.isCallOf name) = true) :
    Unfolded (some name) body nodes (spliceCall name body nodes) := by
  induction nodes with
  | nil => simp at hdirect
  | cons node rest ih =>
    rw [callsAll, count_append] at hcount
    rw [spliceCall]
    split
    next hcall =>
      obtain ⟨children, location, index, rfl⟩ := exists_call_of_isCallOf hcall
      rw [calls, count_cons_self] at hcount
      refine .call (.untouched (by rintro _ ⟨⟩)) (.untouched ?_)
      rintro _ ⟨⟩
      exact count_eq_zero.mp (by omega)
    next hcall =>
      have hdirect' : rest.any (·.isCallOf name) = true := by simpa [hcall] using hdirect
      have hrest := count_pos_iff.mpr (mem_callsAll_of_any hdirect')
      have hnode : name ∉ calls node := count_eq_zero.mp (by omega)
      obtain ⟨instr, children, location, index⟩ := node
      rw [mem_calls, not_or] at hnode
      refine .keep ?_ (.untouched ?_) (ih (by omega) hdirect')
      · rintro _ ⟨⟩
        exact hnode.1
      · rintro _ ⟨⟩
        exact hnode.2

theorem callsAll_eq (h : Unfolded name? body nodes unfolded) (hnone : name? = none) :
    callsAll unfolded = callsAll nodes := by
  induction h with
  | nil => rfl
  | call => cases hnone
  | @keep _ _ _ _ _ _ instr _ _ _ _ _ _ ih ihRest =>
    cases instr <;> simp only [callsAll, calls, ih hnone, ihRest hnone]

theorem of_mem_calls (h : Unfolded name? body nodes unfolded) (hother : other ∈ callsAll unfolded) :
    other ∈ callsAll nodes ∧ name? ≠ some other ∨
      (∃ name, name? = some name ∧ name ∈ callsAll nodes) ∧ other ∈ callsAll body := by
  induction h with
  | nil => cases hother
  | call hbody _ _ ihRest =>
    simp only [callsAll, callsAll_append, hbody.callsAll_eq rfl, mem_append, mem_calls] at hother ihRest ⊢
    obtain hother | hother := hother
    · exact .inr ⟨⟨_, rfl, .inl (.inl rfl)⟩, hother⟩
    · exact (ihRest hother).imp (.imp_left .inr) (.imp_left (.imp fun _ => .imp_right .inr))
  | keep hkeep _ _ ih ihRest =>
    simp only [callsAll, mem_append, mem_calls] at hother ⊢
    obtain (rfl | hother) | hother := hother
    · exact .inl ⟨.inl (.inl rfl), fun heq => hkeep _ heq rfl⟩
    · exact (ih hother).imp (.imp_left (.inl <| .inr ·)) (.imp_left (.imp fun _ => .imp_right (.inl <| .inr ·)))
    · exact (ihRest hother).imp (.imp_left .inr) (.imp_left (.imp fun _ => .imp_right .inr))

end Unfolded

theorem callsAll_numberAll (next : Nat) (nodes : List Node) : callsAll (numberAll next nodes).2 = callsAll nodes :=
  (Unfolded.numbered next nodes).callsAll_eq rfl

theorem calls_number (next : Nat) (node : Node) : calls (node.number next).2 = calls node := by
  simpa [numberAll, callsAll] using callsAll_numberAll next [node]

end Node

namespace Engine

variable (engine : Engine World) (call : String → Machine World → Option (Machine World))

theorem execAll_congr {other : String → Machine World → Option (Machine World)} {nodes : List Node}
    (h : ∀ routine ∈ Node.callsAll nodes, ∀ m, call routine m = other routine m) (m : Machine World) :
    engine.execAll call nodes m = engine.execAll other nodes m := by
  refine Option.ext fun m' => ⟨fun hm => ?_, fun hm => ?_⟩
  · exact execAll_mono nodes (fun r hr n n' hn => h r hr n ▸ hn) hm
  · exact execAll_mono nodes (fun r hr n n' hn => (h r hr n).symm ▸ hn) hm

/-- Calls made in a given way, except that a routine, if one is given, is not called but a body run in place. -/
def unfolding (name? : Option String) (body : List Node) (routine : String) (m : Machine World) :
    Option (Machine World) :=
  if name? = some routine then engine.execAll call body m else call routine m

theorem execAll_unfolded {body nodes unfolded : List Node} (h : Node.Unfolded name? body nodes unfolded)
    (m : Machine World) :
    engine.execAll call unfolded m = engine.execAll (engine.unfolding call name? body) nodes m := by
  induction h generalizing m with
  | nil => rfl
  | call _ _ ihBody ihRest =>
    rw [execAll_append, execAll, exec_leaf _ _ (by simp), funext ihRest, ihBody]
    simp only [command, unfolding, if_true]
    rfl
  | @keep name? _ _ _ _ _ instr _ _ _ hkeep _ _ ih ihRest =>
    rw [execAll, execAll, funext ihRest]
    congr 1
    cases instr with
    | guarded conditions => rw [exec_guarded, exec_guarded, ih]
    | call routine =>
      rw [exec_leaf _ _ (by simp), exec_leaf _ _ (by simp), command, command, unfolding]
      exact (if_neg fun heq => hkeep routine heq rfl).symm
    | _ => rfl

theorem execAll_numberAll (next : Nat) (nodes : List Node) (m : Machine World) :
    engine.execAll call (Node.numberAll next nodes).2 m = engine.execAll call nodes m :=
  engine.execAll_unfolded call (.numbered next nodes) m

end Engine

namespace Program

def IsLive (p : Program) (name : String) : Prop := ∃ r, p.routine? name = some r ∧ r.dropped = false

/-- No two routines have the same name, and what is part of the program calls only what is part of it. -/
structure Linked (p : Program) : Prop where
  distinct : (p.routines.map (·.name)).Nodup
  closed : ∀ name r, p.routine? name = some r → r.dropped = false → ∀ callee ∈ r.calls, p.IsLive callee

structure Unfolds (p q : Program) (callee : Routine) : Prop where
  names : q.routines.map (·.name) = p.routines.map (·.name)
  gone : ¬ q.IsLive callee.name
  live : ∀ name, q.IsLive name → p.IsLive name
  kept : ∀ name r, name ≠ callee.name → p.routine? name = some r → r.dropped = false →
    ∃ r', q.routine? name = some r' ∧ r'.dropped = false ∧
      Node.Unfolded (some callee.name) callee.body r.body r'.body

namespace Unfolds

variable {p q : Program} {callee : Routine} (h : p.Unfolds q callee)
include h

theorem isLive_iff {name : String} : q.IsLive name ↔ p.IsLive name ∧ name ≠ callee.name := by
  constructor
  · intro hq
    refine ⟨h.live name hq, ?_⟩
    rintro rfl
    exact h.gone hq
  · rintro ⟨⟨r, hr, hlive⟩, hne⟩
    obtain ⟨r', hr', hlive', -⟩ := h.kept name r hne hr hlive
    exact ⟨r', hr', hlive'⟩

section

variable (hp : p.Linked) (hcallee : p.routine? callee.name = some callee) (hlive : callee.dropped = false)
  (hself : callee.name ∉ callee.calls)

include hp hcallee hlive hself

theorem isLive_of_mem_calls {other : String} (hother : other ∈ callee.calls) : q.IsLive other :=
  h.isLive_iff.mpr ⟨hp.closed _ callee hcallee hlive other hother, fun heq => hself (heq ▸ hother)⟩

theorem linked : q.Linked := by
  refine ⟨h.names ▸ hp.distinct, ?_⟩
  intro name r' hr' hlive' other hother
  obtain ⟨⟨r, hr, hrlive⟩, hne⟩ := h.isLive_iff.mp ⟨r', hr', hlive'⟩
  obtain ⟨r'', hr'', -, hunfolded⟩ := h.kept name r hne hr hrlive
  obtain rfl : r'' = r' := Option.some.inj (hr''.symm.trans hr')
  rcases hunfolded.of_mem_calls hother with ⟨hmem, hne'⟩ | ⟨-, hmem⟩
  · exact h.isLive_iff.mpr ⟨hp.closed name r hr hrlive other hmem, fun heq => hne' (heq ▸ rfl)⟩
  · exact h.isLive_of_mem_calls hp hcallee hlive hself hmem

variable {engine : Engine World}

theorem run_of_run (depth : Nat) : ∀ name, q.IsLive name → ∀ m m', p.run engine depth name m = some m' →
      q.run engine depth name m = some m' := by
  induction depth using Nat.strongRecOn with
  | _ depth ih =>
    intro name hname m m' hrun
    obtain _ | depth := depth
    · simp [run] at hrun
    obtain ⟨⟨r, hr, hrlive⟩, hne⟩ := h.isLive_iff.mp hname
    obtain ⟨r', hr', -, hunfolded⟩ := h.kept name r hne hr hrlive
    rw [run_succ engine p hr] at hrun
    rw [run_succ engine q hr', engine.execAll_unfolded _ hunfolded]
    refine Engine.execAll_mono _ ?_ hrun
    intro other hother n n' hn
    rw [Engine.unfolding]
    split
    · rename_i heq
      cases heq
      -- the call of the unfolded routine spent one level of depth, so its own calls had less
      obtain _ | less := depth
      · simp [run] at hn
      rw [run_succ engine p hcallee] at hn
      refine Engine.execAll_mono _ ?_ hn
      intro inner hinner k k' hk
      have hinnerLive := h.isLive_of_mem_calls hp hcallee hlive hself hinner
      exact run_mono (by omega) (ih less (by omega) inner hinnerLive k k' hk)
    · rename_i hother'
      exact ih depth (by omega) other
        (h.isLive_iff.mpr ⟨hp.closed name r hr hrlive other hother, fun heq => hother' (heq ▸ rfl)⟩) n n' hn

theorem run_double_of_run (depth : Nat) : ∀ name, q.IsLive name → ∀ m m', q.run engine depth name m = some m' →
      p.run engine (2 * depth) name m = some m' := by
  induction depth with
  | zero =>
    intro name _ m m' hrun
    simp [run] at hrun
  | succ depth ih =>
    intro name hname m m' hrun
    obtain ⟨⟨r, hr, hrlive⟩, hne⟩ := h.isLive_iff.mp hname
    obtain ⟨r', hr', -, hunfolded⟩ := h.kept name r hne hr hrlive
    rw [run_succ engine q hr', engine.execAll_unfolded _ hunfolded] at hrun
    rw [show 2 * (depth + 1) = 2 * depth + 1 + 1 by omega, run_succ engine p hr]
    refine Engine.execAll_mono _ ?_ hrun
    intro other hother n n' hn
    rw [Engine.unfolding] at hn
    split at hn
    · rename_i heq
      cases heq
      rw [run_succ engine p hcallee]
      refine Engine.execAll_mono _ ?_ hn
      exact fun inner hinner => ih inner (h.isLive_of_mem_calls hp hcallee hlive hself hinner)
    · rename_i hother'
      refine run_mono (Nat.le_succ _) (ih other (h.isLive_iff.mpr ⟨?_, fun heq => hother' (heq ▸ rfl)⟩) n n' hn)
      exact hp.closed name r hr hrlive other hother

theorem ends_iff {name : String} (hname : q.IsLive name) (m m' : Machine World) :
    q.Ends engine name m m' ↔ p.Ends engine name m m' := by
  constructor
  · rintro ⟨depth, hrun⟩
    exact ⟨2 * depth, h.run_double_of_run hp hcallee hlive hself depth name hname m m' hrun⟩
  · rintro ⟨depth, hrun⟩
    exact ⟨depth, h.run_of_run hp hcallee hlive hself depth name hname m m' hrun⟩

end

end Unfolds

end Program

end Datapack
