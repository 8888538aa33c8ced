import Datapack.Proofs.FrameStack
import Datapack.Proofs.Tidiness

/-!
What steps of a compilation write. Every step works for one routine, the one whose buffer is open, and takes temporaries
for it; the instructions that it writes there change no other temporaries. Variables offer nothing for change.
-/

namespace Datapack

open List

variable {own more : Nat → Prop} {s s' s'' : CompilerState} {buffers below : List (Array Node)} {top : Array Node}
  {returns : Bool} {e : Emission}

namespace Syntax

def Expr.isPlace : Expr → Bool
  | .var _ _ => true
  | .member base _ _ | .index base _ _ => base.isPlace
  | _ => false

mutual

def Expr.callsOnPlaces : Expr → Bool
  | .unary _ operand _ => operand.callsOnPlaces
  | .binary left _ right _ => left.callsOnPlaces && right.callsOnPlaces
  | .index base subscript _ => base.callsOnPlaces && subscript.callsOnPlaces
  | .member base _ _ => base.callsOnPlaces
  | .call (.member object _ _) args _ =>
    object.isPlace && object.callsOnPlaces && Expr.allCallOnPlaces args
  | .call callee args _ => callee.callsOnPlaces && Expr.allCallOnPlaces args
  | .array items _ => Expr.allCallOnPlaces items
  | .int _ _ | .decimal _ _ | .string _ _ | .bool _ _ | .null _ | .var _ _ => true

def Expr.allCallOnPlaces : List Expr → Bool
  | [] => true
  | e :: rest => e.callsOnPlaces && Expr.allCallOnPlaces rest

end

def Target.callsOnPlaces : Target → Bool
  | .path _ _ => true
  | .element _ index => index.callsOnPlaces

def Param.callsOnPlaces (param : Param) : Bool := param.default?.all Expr.callsOnPlaces

mutual

def Stmt.callsOnPlaces : Stmt → Bool
  | .expr value _ => value.callsOnPlaces
  | .assign target value _ => target.callsOnPlaces && value.callsOnPlaces
  | .update target _ value _ => target.callsOnPlaces && value.callsOnPlaces
  | .destructure _ value _ => value.callsOnPlaces
  | .const _ value _ => value.callsOnPlaces
  | .branch cond onTrue none _ => cond.callsOnPlaces && onTrue.callsOnPlaces
  | .branch cond onTrue (some onFalse) _ =>
    cond.callsOnPlaces && onTrue.callsOnPlaces && onFalse.callsOnPlaces
  | .repeatWhile cond body _ => cond.callsOnPlaces && body.callsOnPlaces
  | .forEach _ items body _ => items.callsOnPlaces && body.callsOnPlaces
  | .block body _ => body.callsOnPlaces
  | .function decl _ => decl.callsOnPlaces
  | .struct _ _ methods _ _ => Function.allCallOnPlaces methods
  | .return none _ => true
  | .return (some value) _ => value.callsOnPlaces

def Block.callsOnPlaces : Block → Bool
  | ⟨stmts, _⟩ => Stmt.allCallOnPlaces stmts

def Stmt.allCallOnPlaces : List Stmt → Bool
  | [] => true
  | stmt :: rest => stmt.callsOnPlaces && Stmt.allCallOnPlaces rest

def Function.callsOnPlaces : Function → Bool
  | ⟨_, _, _, params, _, body, _⟩ => params.all Param.callsOnPlaces && body.callsOnPlaces

def Function.allCallOnPlaces : List Function → Bool
  | [] => true
  | decl :: rest => decl.callsOnPlaces && Function.allCallOnPlaces rest

end

end Syntax

def OwnCell (own : Nat → Prop) (c : Cell) : Prop := ∃ k, own k ∧ c = .temporary k

theorem OwnCell.mono (h : ∀ k, own k → more k) (c : Cell) (hc : OwnCell own c) : OwnCell more c := by
  obtain ⟨k, hk, rfl⟩ := hc
  exact ⟨k, h k hk, rfl⟩

def Slot.IsVariable (slot : Slot) : Prop := slot.cell.IsVariable ∧ slot.temporary = false

structure Variable.Settled (var : Variable) : Prop where
  value : var.value.Within fun _ => False
  slot : ∀ slot, var.slot = some slot → slot.IsVariable ∧ var.value.Lies Cell.IsVariable

structure Frame.Settled (f : Frame) : Prop where
  vars : ∀ x ∈ f.vars, x.2.Settled
  returnSlot : ∀ slot, f.returnSlot = some slot → slot.IsVariable

structure FunctionDef.Settled (f : FunctionDef) : Prop where
  body : Syntax.Stmt.allCallOnPlaces f.decl.body.stmts = true
  slots : ∀ routine params result, f.form = .plain routine params result →
    (∀ slot ∈ params, slot.IsVariable) ∧ result.IsVariable

structure CompilerState.Settled (s : CompilerState) : Prop where
  frames : ∃ stack, s.frames.Stack stack ∧ ∀ e ∈ stack, e.2.Settled
  functions : ∀ (id : Nat) (f : FunctionDef), s.functions[id]? = some f → f.Settled

/-- Whether a return in a frame is one from a function further out, and runs as often as the code there. -/
def ScopeKind.passesResults (kind : ScopeKind) : Bool := kind.isStatic && kind != .inlineFunction

theorem CompilerState.Settled.congr (h : s.Settled) (hframes : s'.frames = s.frames)
    (hfunctions : s'.functions = s.functions) : s'.Settled :=
  ⟨hframes ▸ h.frames, hfunctions ▸ h.functions⟩

namespace Frames

/-- Whether frames stay the same but for their variables and results, where a new result may be changed only
in given temporaries, and not at all if it comes from code that may run any number of times. -/
def Kept (own : Nat → Prop) : List (Nat × Frame) → List (Nat × Frame) → Prop
  | [], [] => True
  | (key, f) :: rest, (key', f') :: rest' =>
    key' = key ∧ f'.kind = f.kind ∧
      (∀ v, f'.returned = some v → f.returned = some v ∨ v.Within (OwnCell own)) ∧
        Kept (fun k => own k ∧ f.kind.passesResults = true) rest rest'
  | _, _ => False

theorem Kept.refl (own : Nat → Prop) (stack : List (Nat × Frame)) : Kept own stack stack := by
  induction stack generalizing own with
  | nil => trivial
  | cons e rest ih => exact ⟨rfl, rfl, fun _ h => .inl h, ih _⟩

theorem Kept.mono (h : ∀ k, own k → more k) {stack stack' : List (Nat × Frame)}
    (hkept : Kept own stack stack') : Kept more stack stack' := by
  fun_induction Kept own stack stack' generalizing more with
  | case1 => trivial
  | case2 own key f rest key' f' rest' ih =>
    obtain ⟨hkey, hkind, hreturned, hrest⟩ := hkept
    refine ⟨hkey, hkind, fun v hv => ?_, ih (fun k hk => ⟨h k hk.1, hk.2⟩) hrest⟩
    exact (hreturned v hv).imp_right (Value.Within.mono (OwnCell.mono h))
  | case3 => exact hkept.elim

theorem Kept.trans {a b c : List (Nat × Frame)} (hab : Kept own a b)
    (hbc : Kept more b c) : Kept (fun k => own k ∨ more k) a c := by
  fun_induction Kept own a b generalizing more c with
  | case1 => exact hbc.mono fun _ => .inr
  | case2 own key f rest key' f' rest' ih =>
    cases c with
    | nil => exact hbc.elim
    | cons e rest'' =>
      obtain ⟨hkey, hkind, hreturned, hrest⟩ := hab
      obtain ⟨hkey', hkind', hreturned', hrest'⟩ := hbc
      refine ⟨hkey'.trans hkey, hkind'.trans hkind, fun v hv => ?_, ?_⟩
      · obtain hv | hv := hreturned' v hv
        · exact (hreturned v hv).imp_right (Value.Within.mono (OwnCell.mono fun _ => .inl))
        · exact .inr (hv.mono (OwnCell.mono fun _ => .inr))
      · refine (ih hrest hrest').mono ?_
        rintro k (hk | hk)
        · exact ⟨.inl hk.1, hk.2⟩
        · exact ⟨.inr hk.1, hkind ▸ hk.2⟩
  | case3 => exact hab.elim

end Frames

def Draft.Patched (buffers buffers' : List (Array Node)) : Prop :=
  List.Forall₂ (fun b b' => ∃ more, b'.toList = b.toList ++ more ∧ ∀ node ∈ more, node.IsHarmless)
    buffers buffers'

theorem Draft.Patched.refl (buffers : List (Array Node)) : Patched buffers buffers :=
  forall₂_same.mpr fun _ _ => ⟨[], by simp, by simp⟩

theorem Draft.Patched.trans {a b c : List (Array Node)} (hab : Patched a b) (hbc : Patched b c) : Patched a c := by
  induction hab generalizing c with
  | nil => exact hbc
  | cons hfirst _ ih =>
    cases hbc with
    | cons hfirst' hrest' =>
      obtain ⟨more, hmore, hharmless⟩ := hfirst
      obtain ⟨more', hmore', hharmless'⟩ := hfirst'
      refine .cons ⟨more ++ more', by rw [hmore', hmore, append_assoc], ?_⟩ (ih hrest')
      intro node hnode
      exact (mem_append.mp hnode).elim (hharmless node) (hharmless' node)

theorem Draft.Patched.modify {nodes : List Node} (h : ∀ node ∈ nodes, node.IsHarmless) (position : Nat) :
    Patched buffers (buffers.modify position fun buffer => buffer.appendList nodes) := by
  induction buffers generalizing position with
  | nil => cases position <;> exact List.Forall₂.nil
  | cons buffer rest ih =>
    cases position with
    | zero => exact .cons ⟨nodes, by simp, h⟩ (Patched.refl rest)
    | succ position => exact .cons ⟨[], by simp, by simp⟩ (ih position)

theorem Draft.Patched.areTidy (h : Patched (top :: below) buffers) :
    ∃ top' below' new, buffers = top' :: below' ∧ top'.toList = top.toList ++ new ∧
      Patched below below' ∧ Node.AreTidy own new := by
  cases h with
  | cons hfirst hrest =>
    obtain ⟨new, hnew, hharmless⟩ := hfirst
    refine ⟨_, _, new, rfl, hnew, hrest, Node.areTidy_iff.mpr fun node hnode => ?_⟩
    exact (hharmless node hnode).isTidy

/-- Whether a step takes given temporaries and writes only those: to the innermost buffer tidy nodes, to the
others only harmless ones, and besides routines that have other temporaries each. -/
structure Grows (own : Nat → Prop) (s s' : CompilerState) : Prop where
  next_le : s.nextTemporary ≤ s'.nextTemporary
  taken : ∀ k, own k → s.nextTemporary ≤ k ∧ k < s'.nextTemporary
  hidden : s'.draft.hidden = s.draft.hidden
  buffers : ∀ top below, s.draft.buffers = top :: below → ∃ top' below' new,
    s'.draft.buffers = top' :: below' ∧ top'.toList = top.toList ++ new ∧
      Draft.Patched below below' ∧ Node.AreTidy own new
  routines : ∃ made : List (Routine × (Nat → Prop)),
    s'.draft.routines.toList = s.draft.routines.toList ++ made.map (·.1) ∧
      (∀ e ∈ made, Node.AreTidy e.2 e.1.body ∧
        ∀ k, e.2 k → s.nextTemporary ≤ k ∧ k < s'.nextTemporary ∧ ¬ own k) ∧
      made.Pairwise fun a b => ∀ k, a.2 k → ¬ b.2 k

theorem Grows.refl (s : CompilerState) : Grows (fun _ => False) s s where
  next_le := Nat.le_refl _
  taken _ h := absurd h id
  hidden := rfl
  buffers top below h := ⟨top, below, [], h, by simp, .refl below, trivial⟩
  routines := ⟨[], by simp, by simp, .nil⟩

theorem Grows.trans (h : Grows own s s') (h' : Grows more s' s'') :
    Grows (fun k => own k ∨ more k) s s'' where
  next_le := h.next_le.trans h'.next_le
  taken k hk := by
    have hle := h.next_le
    have hle' := h'.next_le
    obtain hk | hk := hk
    · have := h.taken k hk
      omega
    · have := h'.taken k hk
      omega
  hidden := h'.hidden.trans h.hidden
  buffers top below hbuffers := by
    obtain ⟨top1, below1, new, hbuffers1, htop, hpatched, htidy⟩ := h.buffers top below hbuffers
    obtain ⟨top2, below2, new', hbuffers2, htop', hpatched', htidy'⟩ := h'.buffers top1 below1 hbuffers1
    refine ⟨top2, below2, new ++ new', hbuffers2, by rw [htop', htop, append_assoc],
      hpatched.trans hpatched', Node.areTidy_append.mpr ⟨?_, ?_⟩⟩
    · exact htidy.mono fun _ => .inl
    · exact htidy'.mono fun _ => .inr
  routines := by
    obtain ⟨made, hmade, hown, hpairwise⟩ := h.routines
    obtain ⟨made', hmade', hown', hpairwise'⟩ := h'.routines
    refine ⟨made ++ made', by rw [hmade', hmade, map_append, append_assoc], ?_, ?_⟩
    · intro e he
      have hle := h.next_le
      have hle' := h'.next_le
      cases mem_append.mp he with
      | inl he =>
        refine ⟨(hown e he).1, fun k hk => ?_⟩
        obtain ⟨hlow, hhigh, hnot⟩ := (hown e he).2 k hk
        refine ⟨hlow, by omega, fun hor => hor.elim hnot fun hmore => ?_⟩
        have := h'.taken k hmore
        omega
      | inr he =>
        refine ⟨(hown' e he).1, fun k hk => ?_⟩
        obtain ⟨hlow, hhigh, hnot⟩ := (hown' e he).2 k hk
        refine ⟨by omega, hhigh, fun hor => hor.elim (fun hown => ?_) hnot⟩
        have := h.taken k hown
        omega
    · refine pairwise_append.mpr ⟨hpairwise, hpairwise', fun a ha b hb k hk hk' => ?_⟩
      have := ((hown a ha).2 k hk).2.1
      have := ((hown' b hb).2 k hk').1
      omega

/-- Whether a step that takes given temporaries writes only those, keeps what is known settled, and keeps the
open frames. Only if it may return from their functions, results that can be changed get to them. -/
structure Advances (returns : Bool) (own : Nat → Prop) (s s' : CompilerState) : Prop where
  grows : Grows own s s'
  settled : s.Settled → s'.Settled
  kept : ∀ stack, s.frames.Stack stack → ∃ stack', s'.frames.Stack stack' ∧
    Frames.Kept (fun k => returns = true ∧ own k) stack stack'

namespace Advances

theorem refl (returns : Bool) (s : CompilerState) : Advances returns (fun _ => False) s s :=
  ⟨.refl s, id, fun stack h => ⟨stack, h, .refl _ stack⟩⟩

section

variable (h : Advances returns own s s')

include h

theorem trans (h' : Advances returns more s' s'') :
    Advances returns (fun k => own k ∨ more k) s s'' where
  grows := h.grows.trans h'.grows
  settled := h'.settled ∘ h.settled
  kept stack hstack := by
    obtain ⟨stack1, hstack1, hkept⟩ := h.kept stack hstack
    obtain ⟨stack2, hstack2, hkept'⟩ := h'.kept stack1 hstack1
    exact ⟨stack2, hstack2, (hkept.trans hkept').mono fun k hk => by
      rwa [← and_or_left] at hk⟩

theorem congr (hsame : ∀ k, own k ↔ more k) : Advances returns more s s' := by
  obtain rfl : own = more := funext fun k => propext (hsame k)
  exact h

theorem trans_same (h' : Advances returns (fun _ => False) s' s'') : Advances returns own s s'' :=
  (h.trans h').congr fun _ => or_iff_left id

end

theorem of_frames (hsettled : s.Settled → s'.Settled)
    (hkept : ∀ stack, s.frames.Stack stack → ∃ stack', s'.frames.Stack stack' ∧
      Frames.Kept (fun _ => False) stack stack')
    (hdraft : s'.draft = s.draft) (hnext : s'.nextTemporary = s.nextTemporary) :
    Advances returns (fun _ => False) s s' where
  grows := by
    have hrefl := Grows.refl s
    exact ⟨Nat.le_of_eq hnext.symm, fun _ h => h.elim, by rw [hdraft], by
      rw [hdraft]
      exact hrefl.buffers, ⟨[], by simp [hdraft], by simp, .nil⟩⟩
  settled := hsettled
  kept stack hstack := by
    obtain ⟨stack', hstack', h⟩ := hkept stack hstack
    exact ⟨stack', hstack', h.mono fun _ => False.elim⟩

theorem of_same (hframes : s'.frames = s.frames) (hdraft : s'.draft = s.draft) (hfunctions : s'.functions = s.functions)
    (hnext : s'.nextTemporary = s.nextTemporary) : Advances returns (fun _ => False) s s' :=
  of_frames (fun h => h.congr hframes hfunctions)
    (fun stack h => ⟨stack, hframes ▸ h, .refl _ stack⟩) hdraft hnext

end Advances

namespace Draft

variable {d : Draft}

theorem append_of_buffers (h : d.buffers = top :: below) (node : Node) :
    (d.append node).buffers = top.push node :: below := by
  rw [append, h]

@[simp] theorem hidden_append (d : Draft) (node : Node) : (d.append node).hidden = d.hidden := by
  rw [append]
  split <;> rfl

@[simp] theorem routines_append (d : Draft) (node : Node) : (d.append node).routines = d.routines := by
  rw [append]
  split <;> rfl

@[simp] theorem hidden_appendAll (nodes : List Node) (d : Draft) : (d.appendAll nodes).hidden = d.hidden := by
  induction nodes generalizing d with
  | nil => rfl
  | cons node rest ih => exact (ih (d.append node)).trans (hidden_append d node)

@[simp] theorem routines_appendAll (nodes : List Node) (d : Draft) : (d.appendAll nodes).routines = d.routines := by
  induction nodes generalizing d with
  | nil => rfl
  | cons node rest ih => exact (ih (d.append node)).trans (routines_append d node)

theorem appendAll_of_buffers (h : d.buffers = top :: below) (nodes : List Node) :
    ∃ top', (d.appendAll nodes).buffers = top' :: below ∧ top'.toList = top.toList ++ nodes := by
  induction nodes generalizing d top with
  | nil => exact ⟨top, h, by simp⟩
  | cons node rest ih =>
    obtain ⟨top', hbuffers, htop⟩ := ih (append_of_buffers h node)
    exact ⟨top', hbuffers, by simp [htop]⟩

end Draft

namespace Advances

theorem write (h : Advances returns own s s') (nodes : List Node) (htidy : Node.AreTidy more nodes)
    (hdraft : s''.draft = s'.draft.appendAll nodes) (hnext : s'.nextTemporary ≤ s''.nextTemporary)
    (hown : ∀ k, own k → more k) (hmore : ∀ k, more k → own k ∨ (s'.nextTemporary ≤ k ∧ k < s''.nextTemporary))
    (hframes : s''.frames = s'.frames) (hfunctions : s''.functions = s'.functions) :
    Advances returns more s s'' where
  grows := by
    have hgrows := h.grows
    have hle := hgrows.next_le
    refine ⟨by omega, fun k hk => ?_, ?_, fun top below hbuffers => ?_, ?_⟩
    · obtain hk | hk := hmore k hk
      · have := hgrows.taken k hk
        omega
      · omega
    · rw [hdraft, Draft.hidden_appendAll]
      exact hgrows.hidden
    · obtain ⟨top1, below1, new, hbuffers1, htop, hpatched, hnew⟩ := hgrows.buffers top below hbuffers
      obtain ⟨top2, hbuffers2, htop2⟩ := Draft.appendAll_of_buffers hbuffers1 nodes
      refine ⟨top2, below1, new ++ nodes, hdraft ▸ hbuffers2, by rw [htop2, htop, append_assoc],
        hpatched, Node.areTidy_append.mpr ⟨hnew.mono hown, htidy⟩⟩
    · obtain ⟨made, hmade, hmadeOwn, hpairwise⟩ := hgrows.routines
      refine ⟨made, by rw [hdraft, Draft.routines_appendAll, hmade], fun e he => ?_, hpairwise⟩
      refine ⟨(hmadeOwn e he).1, fun k hk => ?_⟩
      obtain ⟨hlow, hhigh, hnot⟩ := (hmadeOwn e he).2 k hk
      refine ⟨hlow, by omega, fun hmoreK => ?_⟩
      obtain hk | hk := hmore k hmoreK
      · exact hnot hk
      · omega
  settled hs := (h.settled hs).congr hframes hfunctions
  kept stack hstack := by
    obtain ⟨stack', hstack', hkept⟩ := h.kept stack hstack
    exact ⟨stack', hframes ▸ hstack', hkept.mono fun k hk => ⟨hk.1, hown k hk.2⟩⟩

theorem append (h : Advances returns own s s') {node : Node} (htidy : Node.IsTidy own node) :
    Advances returns own s { s' with draft := s'.draft.append node } :=
  h.write [node] ⟨htidy, trivial⟩ rfl .refl (fun _ => id) (fun _ => .inl) rfl rfl

def alsoTo (own : Nat → Prop) (low high k : Nat) : Prop := own k ∨ (low ≤ k ∧ k < high)

theorem absorb (h : Advances returns own s s') {P : Cell → Prop}
    (hext : Emission.Extends P { nextTemporary := s'.nextTemporary } e) (hP : ∀ c, P c → OwnCell own c ∨ c.IsVariable) :
    Advances returns (alsoTo own s'.nextTemporary e.nextTemporary) s (Compile.absorb e s') := by
  obtain ⟨new, hnew, hwritten⟩ := hext.written
  have hinstrs : e.instrs.toList = new := by simpa using hnew
  refine h.write (e.instrs.toList.map fun i => { Node.leaf i with location := some s'.location })
    ?_ rfl hext.next_le (fun _ => .inl) (fun _ => id) rfl rfl
  refine Node.areTidy_iff.mpr fun node hnode => ?_
  obtain ⟨i, hi, rfl⟩ := mem_map.mp hnode
  obtain ⟨hplain, htarget⟩ := hwritten i (hinstrs ▸ hi)
  refine Node.isTidy_leaf ?_ (fun k hk => ?_) _ _ _
  · rintro conditions rfl
    exact hplain
  · obtain ⟨base, hpart, hbase | ⟨j, hlow, hhigh, rfl⟩⟩ := htarget _ hk
    · obtain ⟨j, hj, rfl⟩ | hvariable := hP base hbase
      · exact .inl (Cell.eq_of_temporary_partOf hpart ▸ hj)
      · exact absurd rfl ((Cell.IsVariable.of_partOf hpart hvariable).ne_temporary k)
    · cases Cell.eq_of_temporary_partOf hpart
      exact .inr ⟨hlow, hhigh⟩

end Advances

def Offered (own : Nat → Prop) (c : Cell) : Prop := OwnCell own c ∨ c.IsVariable

namespace Advances

variable {c : Cell} {next : Nat}

theorem ownCell_of_fresh (h : Emission.Fresh { nextTemporary := next } e c) :
    OwnCell (alsoTo own next e.nextTemporary) c := by
  obtain ⟨k, hlow, hhigh, rfl⟩ := h
  exact ⟨k, .inr ⟨hlow, hhigh⟩, rfl⟩

theorem ownCell_of_available (h : Emission.Available (OwnCell own) { nextTemporary := next } e c) :
    OwnCell (alsoTo own next e.nextTemporary) c :=
  h.elim (OwnCell.mono (fun _ => .inl) c) ownCell_of_fresh

end Advances

end Datapack
