import Datapack.Program.Simplify
import Datapack.Proofs.Machine
import Mathlib.Logic.Relation

/-!
Simplification as rewriting. In whatever order rewrites are made, they come to an end, and always at the same nodes.
A sweep makes rewrites until none is left. So it gives the same nodes as one pass from the last node to the first, in
which each node is compared with a neighbour that will stay.
-/

open Relation (ReflTransGen TransGen)

namespace Datapack

namespace Node

def prepend (node : Node) (rest : List Node) : List Node :=
  if node.isRedundant rest.head? then rest else node :: rest

mutual

def simplify : Node → Node
  | ⟨instr, children, location, index⟩ => merge ⟨instr, simplifyAll children, location, index⟩

def simplifyAll : List Node → List Node
  | [] => []
  | node :: rest => prepend (simplify node) (simplifyAll rest)

end

inductive Rewrites : List Node → List Node → Prop
  | idle (conditions : List Condition) (location : Option Span) (index : Option Nat) (rest : List Node) :
      Rewrites (⟨.guarded conditions, [], location, index⟩ :: rest) rest
  | merge (outer inner : List Condition) (children : List Node) (location location' : Option Span)
      (index index' : Option Nat) (rest : List Node) :
      Rewrites (⟨.guarded outer, [⟨.guarded inner, children, location', index'⟩], location, index⟩ :: rest)
        (⟨.guarded (outer ++ inner), children, location, index⟩ :: rest)
  | selfCopy (cell : Cell) (children : List Node) (location : Option Span) (index : Option Nat) (rest : List Node) :
      Rewrites (⟨.copyScore cell cell, children, location, index⟩ :: rest) rest
  | overwritten {node next : Node} {cell : Cell} (rest : List Node) (hnode : node.instr.overwrites? = some cell)
      (hnext : next.instr.overwrites? = some cell) (hreads : next.instr.reads cell = false) :
      Rewrites (node :: next :: rest) (next :: rest)
  | within {children children' : List Node} (instr : Instr) (location : Option Span) (index : Option Nat)
      (rest : List Node) (h : Rewrites children children') :
      Rewrites (⟨instr, children, location, index⟩ :: rest) (⟨instr, children', location, index⟩ :: rest)
  | behind {rest rest' : List Node} (node : Node) (h : Rewrites rest rest') : Rewrites (node :: rest) (node :: rest')

def IsNormal (nodes : List Node) : Prop := ∀ nodes', ¬ Rewrites nodes nodes'

def IsMergeable : Node → Prop
  | ⟨.guarded _, [⟨.guarded _, _, _, _⟩], _, _⟩ => True
  | _ => False

variable {node next : Node} {nodes nodes' rest children : List Node} {instr : Instr} {cell : Cell}
  {location : Option Span} {index : Option Nat}

theorem isRedundant_of_overwrites (h : instr.overwrites? = some cell) (next : Option Node) :
    isRedundant ⟨instr, children, location, index⟩ next =
      (instr.reads cell && instr matches .copyScore _ _ || isRedundant.overwrittenBy cell next) := by
  cases instr with
  | copyScore target source =>
    obtain rfl : target = cell := Option.some.inj h
    simp [isRedundant, Instr.reads, Bool.beq_comm (a := target)]
  | setScore _ _ | storeCondition _ _ | dataToScore _ _ _ =>
    cases h
    simp [isRedundant, Instr.overwrites?]
  | _ => cases h

theorem overwrittenBy_iff {next : Option Node} : isRedundant.overwrittenBy cell next = true ↔
    ∃ node, next = some node ∧ node.instr.overwrites? = some cell ∧ node.instr.reads cell = false := by
  cases next <;> simp [isRedundant.overwrittenBy]

theorem rewrites_of_isRedundant (h : node.isRedundant rest.head? = true) : Rewrites (node :: rest) rest := by
  have hnext : ∀ cell, node.instr.overwrites? = some cell → isRedundant.overwrittenBy cell rest.head? = true →
      Rewrites (node :: rest) rest := by
    intro cell hnode hnext
    obtain ⟨next, hhead, hwrites, hreads⟩ := overwrittenBy_iff.mp hnext
    obtain ⟨rest, rfl⟩ := List.head?_eq_some_iff.mp hhead
    exact .overwritten rest hnode hwrites hreads
  obtain ⟨instr, children, location, index⟩ := node
  cases instr with
  | guarded conditions =>
    obtain rfl : children = [] := by simpa [isRedundant] using h
    exact .idle conditions location index rest
  | copyScore target source =>
    simp only [isRedundant, Bool.or_eq_true, beq_iff_eq] at h
    rcases h with rfl | h
    · exact .selfCopy target children location index rest
    · exact hnext target rfl h
  | setScore cell _ | storeCondition cell _ | dataToScore cell _ _ => exact hnext cell rfl h
  | _ => simp [isRedundant, Instr.overwrites?] at h

theorem isRedundant_of_overwritten {next? : Option Node} (hnode : node.instr.overwrites? = some cell)
    (hnext : isRedundant.overwrittenBy cell next? = true) : node.isRedundant next? = true := by
  obtain ⟨instr, children, location, index⟩ := node
  rw [isRedundant_of_overwrites hnode, hnext, Bool.or_true]

theorem merge_eq_self (h : ¬ node.IsMergeable) : node.merge = node := by
  unfold merge
  split
  · exact absurd trivial h
  · rfl

theorem exists_of_isMergeable (h : node.IsMergeable) : ∃ outer inner children location location' index index',
    node = ⟨.guarded outer, [⟨.guarded inner, children, location', index'⟩], location, index⟩ := by
  unfold IsMergeable at h
  split at h
  · exact ⟨_, _, _, _, _, _, _, rfl⟩
  · exact h.elim

theorem rewrites_merge (h : node.IsMergeable) (rest : List Node) : Rewrites (node :: rest) (node.merge :: rest) := by
  obtain ⟨outer, inner, children, location, location', index, index', rfl⟩ := exists_of_isMergeable h
  exact .merge ..

theorem isNormal_cons : IsNormal (node :: rest) ↔
    IsNormal node.children ∧ IsNormal rest ∧ node.isRedundant rest.head? = false ∧ ¬ node.IsMergeable := by
  constructor
  · intro h
    refine ⟨fun children hchildren => ?_, fun rest' hrest => h _ (.behind node hrest), ?_,
      fun hmerge => h _ (rewrites_merge hmerge rest)⟩
    · obtain ⟨instr, _, location, index⟩ := node
      exact h _ (.within instr location index rest hchildren)
    exact Bool.eq_false_iff.mpr fun hredundant => h _ (rewrites_of_isRedundant hredundant)
  · rintro ⟨hchildren, hrest, hredundant, hmerge⟩ nodes' h
    cases h with
    | idle => cases hredundant
    | merge => exact hmerge trivial
    | selfCopy cell => simp [isRedundant] at hredundant
    | overwritten rest hnode hnext hreads =>
      have hby : isRedundant.overwrittenBy _ (some _) = true := overwrittenBy_iff.mpr ⟨_, rfl, hnext, hreads⟩
      cases (isRedundant_of_overwritten hnode hby).symm.trans hredundant
    | within _ _ _ _ h => exact hchildren _ h
    | behind _ h => exact hrest _ h

theorem isNormal_nil : IsNormal [] := nofun

theorem isNormal_prepend (hchildren : IsNormal node.children) (hmerge : ¬ node.IsMergeable) (hrest : IsNormal rest) :
    IsNormal (node.prepend rest) := by
  rw [prepend]
  split
  · exact hrest
  next hredundant => exact isNormal_cons.mpr ⟨hchildren, hrest, by simpa using hredundant, hmerge⟩

theorem isNormal_merge (h : IsNormal node.children) : IsNormal node.merge.children ∧ ¬ node.merge.IsMergeable := by
  by_cases hmerge : node.IsMergeable
  · obtain ⟨outer, inner, children, location, location', index, index', rfl⟩ := exists_of_isMergeable hmerge
    obtain ⟨hchildren, -, -, hinner⟩ := isNormal_cons.mp h
    refine ⟨hchildren, fun hagain => hinner ?_⟩
    obtain ⟨_, _, _, _, _, _, _, heq⟩ := exists_of_isMergeable hagain
    cases (Node.mk.inj heq).2.1
    trivial
  · rw [merge_eq_self hmerge]
    exact ⟨h, hmerge⟩

theorem isNormal_simplifyAll (nodes : List Node) : IsNormal (simplifyAll nodes) := by
  induction nodes using forest_induction with
  | nil => exact isNormal_nil
  | cons instr children location index rest ih ihRest =>
    have hnode := @isNormal_merge ⟨instr, simplifyAll children, location, index⟩ ih
    exact isNormal_prepend hnode.1 hnode.2 ihRest

theorem simplifyAll_of_isNormal (h : IsNormal nodes) : simplifyAll nodes = nodes := by
  induction nodes using forest_induction with
  | nil => rfl
  | cons instr children location index rest ih ihRest =>
    obtain ⟨hchildren, hrest, hredundant, hmerge⟩ := isNormal_cons.mp h
    rw [simplifyAll, simplify, ih hchildren, merge_eq_self hmerge, ihRest hrest, prepend, hredundant]
    rfl

theorem instr_simplify (hwrites : node.instr.overwrites? = some cell) : node.simplify.instr = node.instr := by
  obtain ⟨instr, children, location, index⟩ := node
  rw [simplify, merge_eq_self]
  intro hmerge
  obtain ⟨_, _, _, _, _, _, _, heq⟩ := exists_of_isMergeable hmerge
  cases (Node.mk.inj heq).1
  cases hwrites

theorem prepend_of_overwritten (hnode : node.instr.overwrites? = some cell) (hnext : next.instr.overwrites? = some cell)
    (hreads : next.instr.reads cell = false) (rest : List Node) :
    node.prepend (next.prepend rest) = next.prepend rest := by
  have hredundant : node.isRedundant (next.prepend rest).head? = true := by
    refine isRedundant_of_overwritten hnode ?_
    rw [prepend]
    split
    next hgone =>
      obtain ⟨instr, children, location, index⟩ := next
      rw [isRedundant_of_overwrites hnext, show instr.reads cell = false from hreads] at hgone
      exact hgone
    next => exact overwrittenBy_iff.mpr ⟨next, rfl, hnext, hreads⟩
  rw [prepend, if_pos hredundant]

theorem simplify_merged (outer inner : List Condition) (children : List Node) (location location' : Option Span)
    (index index' : Option Nat) (rest : List Node) :
    (simplify ⟨.guarded outer, [⟨.guarded inner, children, location', index'⟩], location, index⟩).prepend rest =
      (simplify ⟨.guarded (outer ++ inner), children, location, index⟩).prepend rest := by
  have hnormal := isNormal_simplifyAll children
  have hinner : simplify ⟨.guarded inner, children, location', index'⟩ =
      merge ⟨.guarded inner, simplifyAll children, location', index'⟩ := by rw [simplify]
  rw [simplify, simplify, simplifyAll, simplifyAll, hinner]
  generalize simplifyAll children = below at hnormal
  by_cases hempty : below = []
  · subst hempty
    rfl
  by_cases hmerge : IsMergeable ⟨.guarded inner, below, location', index'⟩
  · -- the child is merged with its own child first, which has nodes below it
    obtain ⟨_, conditions, nodes, _, _, _, _, heq⟩ := exists_of_isMergeable hmerge
    obtain ⟨-, rfl, -⟩ := Node.mk.inj heq
    obtain ⟨-, -, hsome, -⟩ := isNormal_cons.mp hnormal
    have hkept : nodes.isEmpty = false := hsome
    simp [merge, prepend, isRedundant, hkept]
  · have hkept : below.isEmpty = false := by simpa using hempty
    have hstays : ¬ IsMergeable ⟨.guarded (outer ++ inner), below, location, index⟩ := by
      intro hagain
      obtain ⟨_, _, _, _, _, _, _, heq⟩ := exists_of_isMergeable hagain
      cases (Node.mk.inj heq).2.1
      exact hmerge trivial
    rw [merge_eq_self hmerge, merge_eq_self hstays]
    simp [merge, prepend, isRedundant, hkept]

theorem Rewrites.simplifyAll_eq (h : Rewrites nodes nodes') : simplifyAll nodes = simplifyAll nodes' := by
  induction h with
  | idle => rfl
  | merge => exact simplify_merged ..
  | selfCopy cell children location index rest =>
    rw [simplifyAll, simplify, merge_eq_self id, prepend, if_pos]
    simp [isRedundant]
  | overwritten rest hnode hnext hreads =>
    rw [simplifyAll, simplifyAll]
    refine prepend_of_overwritten (by rwa [instr_simplify hnode]) (by rwa [instr_simplify hnext]) ?_ _
    rwa [instr_simplify hnext]
  | within instr location index rest _ ih => rw [simplifyAll, simplifyAll, simplify, simplify, ih]
  | behind node _ ih => rw [simplifyAll, simplifyAll, ih]

theorem size_eq (node : Node) : node.size = 1 + sizeAll node.children := by
  obtain ⟨instr, children, location, index⟩ := node
  rw [size]

theorem Rewrites.sizeAll_lt (h : Rewrites nodes nodes') : sizeAll nodes' < sizeAll nodes := by
  induction h with
  | idle | merge | selfCopy => simp only [sizeAll, size]; omega
  | @overwritten node next _ _ _ _ _ =>
    have := size_eq node
    simp only [sizeAll]
    omega
  | within _ _ _ _ _ ih => simp only [sizeAll, size]; omega
  | behind _ _ ih => simp only [sizeAll]; omega

theorem Rewrites.after (h : Rewrites nodes nodes') (before : List Node) :
    Rewrites (before ++ nodes) (before ++ nodes') := by
  induction before with
  | nil => exact h
  | cons node before ih => exact .behind node ih

theorem simplifyAll_eq_of_rewrites (h : ReflTransGen Rewrites nodes nodes') :
    simplifyAll nodes = simplifyAll nodes' := by
  induction h with
  | refl => rfl
  | tail _ hstep ih => exact ih.trans hstep.simplifyAll_eq

theorem sizeAll_le_of_rewrites (h : ReflTransGen Rewrites nodes nodes') : sizeAll nodes' ≤ sizeAll nodes := by
  induction h with
  | refl => exact .refl
  | tail _ hstep ih => exact Nat.le_of_lt (Nat.lt_of_lt_of_le hstep.sizeAll_lt ih)

def Becomes (nodes nodes' : List Node) (changed : Bool) : Prop :=
  if changed then TransGen Rewrites nodes nodes' else nodes' = nodes

namespace Becomes

variable {nodes'' : List Node} {changed changed' : Bool}

theorem refl (nodes : List Node) : Becomes nodes nodes false := rfl

theorem single (h : Rewrites nodes nodes') : Becomes nodes nodes' true := TransGen.single h

section

variable (h : Becomes nodes nodes' changed)

include h

theorem trans (h' : Becomes nodes' nodes'' changed') : Becomes nodes nodes'' (changed || changed') := by
  cases changed with
  | false =>
    obtain rfl : nodes' = nodes := h
    exact h'
  | true =>
    cases changed' with
    | false =>
      obtain rfl : nodes'' = nodes' := h'
      exact h
    | true => exact TransGen.trans h h'

theorem reaches : ReflTransGen Rewrites nodes nodes' := by
  cases changed with
  | false =>
    obtain rfl : nodes' = nodes := h
    exact .refl
  | true => exact TransGen.to_reflTransGen h

theorem changed_iff : changed = true ↔ nodes' ≠ nodes := by
  cases changed with
  | false =>
    obtain rfl : nodes' = nodes := h
    simp
  | true =>
    obtain ⟨middle, hreached, hlast⟩ := TransGen.tail'_iff.mp h
    have hlt := Nat.lt_of_lt_of_le hlast.sizeAll_lt (sizeAll_le_of_rewrites hreached)
    exact ⟨fun _ heq => absurd hlt (heq ▸ Nat.lt_irrefl _), fun _ => rfl⟩

end

theorem within (h : Becomes children nodes' changed) (before : List Node) (instr : Instr) (location : Option Span)
    (index : Option Nat) (rest : List Node) : Becomes (before ++ ⟨instr, children, location, index⟩ :: rest)
      (before ++ ⟨instr, nodes', location, index⟩ :: rest) changed := by
  cases changed with
  | false =>
    obtain rfl : nodes' = children := h
    exact refl _
  | true =>
    have hlift : ∀ a b, Rewrites a b → Rewrites (before ++ ⟨instr, a, location, index⟩ :: rest)
        (before ++ ⟨instr, b, location, index⟩ :: rest) := fun _ _ h =>
      (Rewrites.within instr location index rest h).after before
    exact TransGen.lift (before ++ ⟨instr, ·, location, index⟩ :: rest) hlift _ _ h

end Becomes

theorem rewrite_cases (node : Node) (next : Option Node) : match node.rewrite next with
    | .keep => node.isRedundant next = false ∧ ¬ node.IsMergeable
    | .replace node' => node' = node.merge ∧ node.IsMergeable
    | .delete => node.isRedundant next = true := by
  by_cases hredundant : node.isRedundant next = true
  · have hdelete : node.rewrite next = .delete := if_pos hredundant
    rw [hdelete]
    exact hredundant
  by_cases hmerge : node.IsMergeable
  · obtain ⟨_, _, _, _, _, _, _, rfl⟩ := exists_of_isMergeable hmerge
    have hreplace : rewrite _ next = .replace _ := if_neg hredundant
    rw [hreplace]
    exact ⟨rfl, trivial⟩
  · have hkeep : node.rewrite next = .keep := by
      refine (if_neg hredundant).trans ?_
      split
      · exact absurd trivial hmerge
      · rfl
    rw [hkeep]
    exact ⟨by simpa using hredundant, hmerge⟩

theorem becomes_sweepFrom (bound : Nat) (seen rest : List Node) :
    Becomes (seen.reverse ++ rest) (sweepFrom bound seen rest).1 (sweepFrom bound seen rest).2 := by
  induction bound generalizing seen rest with
  | zero => exact .refl _
  | succ bound ih =>
    cases rest with
    | nil =>
      rw [List.append_nil]
      exact .refl _
    | cons node rest =>
      obtain ⟨instr, children, location, index⟩ := node
      have hbelow := (ih [] children).within seen.reverse instr location index rest
      have hrewrite := rewrite_cases ⟨instr, (sweepFrom bound [] children).1, location, index⟩ rest.head?
      rw [sweepFrom]
      dsimp only
      split
      next hkeep =>
        have hrest := ih (⟨instr, (sweepFrom bound [] children).1, location, index⟩ :: seen) rest
        rw [List.reverse_cons, List.append_assoc] at hrest
        exact hbelow.trans hrest
      next node hreplace =>
        rw [hreplace] at hrewrite
        obtain ⟨rfl, hmerge⟩ := hrewrite
        have hstep := (rewrites_merge hmerge rest).after seen.reverse
        simpa using hbelow.trans ((Becomes.single hstep).trans (ih seen (_ :: rest)))
      next hdelete =>
        rw [hdelete] at hrewrite
        have hstep := (rewrites_of_isRedundant hrewrite).after seen.reverse
        have hback : seen.tail.reverse ++ (seen.take 1 ++ rest) = seen.reverse ++ rest := by
          cases seen <;> simp
        have hrest := ih seen.tail (seen.take 1 ++ rest)
        rw [hback] at hrest
        simpa using hbelow.trans ((Becomes.single hstep).trans hrest)

/-- Whether nodes that were seen, the last of them first, have nothing to rewrite in front of a node. -/
def Passed : List Node → Option Node → Prop
  | [], _ => True
  | node :: seen, next =>
    IsNormal node.children ∧ ¬ node.IsMergeable ∧ node.isRedundant next = false ∧ Passed seen (some node)

theorem Passed.isNormal {seen : List Node} (h : Passed seen rest.head?) (hrest : IsNormal rest) :
    IsNormal (seen.reverse ++ rest) := by
  induction seen generalizing rest with
  | nil => exact hrest
  | cons node seen ih =>
    obtain ⟨hchildren, hmerge, hredundant, hseen⟩ := h
    rw [List.reverse_cons, List.append_assoc]
    exact ih hseen (isNormal_cons.mpr ⟨hchildren, hrest, hredundant, hmerge⟩)

theorem length_le_sizeAll (nodes : List Node) : nodes.length ≤ sizeAll nodes := by
  induction nodes with
  | nil => exact .refl
  | cons node rest ih =>
    have := size_eq node
    rw [List.length_cons, sizeAll]
    omega

theorem Passed.congr {seen : List Node} {node node' : Node} (h : Passed seen (some node))
    (hinstr : ∀ cell, isRedundant.overwrittenBy cell (some node') = isRedundant.overwrittenBy cell (some node)) :
    Passed seen (some node') := by
  cases seen with
  | nil => trivial
  | cons last seen =>
    obtain ⟨hchildren, hmerge, hredundant, hseen⟩ := h
    refine ⟨hchildren, hmerge, ?_, hseen⟩
    obtain ⟨instr, _, _, _⟩ := last
    cases instr <;> simpa [isRedundant, hinstr] using hredundant

/-- A sweep that is not cut short leaves nothing to rewrite. Each call passes a node, or there is one node less. -/
theorem isNormal_sweepFrom {bound : Nat} {seen rest : List Node} (hseen : Passed seen rest.head?)
    (hbound : 4 * (sizeAll seen + sizeAll rest) + rest.length ≤ bound + 2 * (seen.length + rest.length)) :
    IsNormal (sweepFrom bound seen rest).1 := by
  induction bound generalizing seen rest with
  | zero =>
    have := length_le_sizeAll seen
    have := length_le_sizeAll rest
    obtain rfl : seen = [] := List.eq_nil_of_length_eq_zero (by omega)
    obtain rfl : rest = [] := List.eq_nil_of_length_eq_zero (by omega)
    exact isNormal_nil
  | succ bound ih =>
    cases rest with
    | nil =>
      have hnormal := hseen.isNormal isNormal_nil
      rwa [List.append_nil] at hnormal
    | cons node rest =>
      obtain ⟨instr, children, location, index⟩ := node
      have hlength := length_le_sizeAll seen
      have hlength' := length_le_sizeAll rest
      simp only [sizeAll, size, List.length_cons] at hbound
      have hbelow : IsNormal (sweepFrom bound [] children).1 := by
        refine ih trivial ?_
        simp only [sizeAll, List.length_nil]
        omega
      have hsize := sizeAll_le_of_rewrites (becomes_sweepFrom bound [] children).reaches
      have hrewrite := rewrite_cases ⟨instr, (sweepFrom bound [] children).1, location, index⟩ rest.head?
      rw [List.reverse_nil, List.nil_append] at hsize
      rw [sweepFrom]
      dsimp only
      generalize (sweepFrom bound [] children).1 = below at hbelow hsize hrewrite
      have hhere : Passed seen (some ⟨instr, below, location, index⟩) := hseen.congr fun _ => rfl
      split
      next hkeep =>
        rw [hkeep] at hrewrite
        refine ih ⟨hbelow, hrewrite.2, hrewrite.1, hhere⟩ ?_
        simp only [sizeAll, size, List.length_cons]
        omega
      next node hreplace =>
        rw [hreplace] at hrewrite
        obtain ⟨rfl, hmerge⟩ := hrewrite
        obtain ⟨outer, inner, nodes, _, _, _, _, heq⟩ := exists_of_isMergeable hmerge
        obtain ⟨rfl, rfl, rfl, rfl⟩ := Node.mk.inj heq
        refine ih (hhere.congr fun _ => rfl) ?_
        simp only [merge, sizeAll, size, List.length_cons] at hsize ⊢
        omega
      next hdelete =>
        cases seen with
        | nil =>
          refine ih trivial ?_
          simp only [List.tail_nil, List.take_nil, List.nil_append, sizeAll, List.length_nil] at hbound ⊢
          omega
        | cons last seen =>
          refine ih hseen.2.2.2 ?_
          simp only [List.tail_cons, List.take_succ_cons, List.take_zero, List.cons_append, List.nil_append, sizeAll,
            List.length_cons] at hbound ⊢
          omega

theorem becomes_sweep (nodes : List Node) : Becomes nodes (sweep nodes).1 (sweep nodes).2 :=
  becomes_sweepFrom (4 * sizeAll nodes) [] nodes

theorem sweep_eq (nodes : List Node) : (sweep nodes).1 = simplifyAll nodes := by
  have hnormal : IsNormal (sweep nodes).1 := by
    refine isNormal_sweepFrom trivial ?_
    simp only [sizeAll, List.length_nil]
    omega
  rw [simplifyAll_eq_of_rewrites (becomes_sweep nodes).reaches, simplifyAll_of_isNormal hnormal]

theorem sweep_of_isNormal (h : IsNormal nodes) : sweep nodes = (nodes, false) := by
  have hsame : (sweep nodes).1 = nodes := (sweep_eq nodes).trans (simplifyAll_of_isNormal h)
  have hchanged := mt (becomes_sweep nodes).changed_iff.mp (absurd hsame)
  exact Prod.ext hsame (Bool.eq_false_iff.mpr hchanged)

/-- The second sweep is the last one. -/
theorem optimize_eq (nodes : List Node) : optimize nodes = sweep nodes := by
  have hnormal : IsNormal (sweep nodes).1 := sweep_eq nodes ▸ isNormal_simplifyAll nodes
  rw [optimize, sweeps]
  dsimp only
  split
  next hchanged =>
    have hsize : sizeAll nodes ≠ 0 := by
      intro hnone
      have hnil := List.eq_nil_of_length_eq_zero (Nat.le_zero.mp (hnone ▸ length_le_sizeAll nodes))
      subst hnil
      cases hchanged
    obtain ⟨bound, hbound⟩ := Nat.exists_eq_succ_of_ne_zero hsize
    have hlast : (sweeps (sizeAll nodes) (sweep nodes).1).1 = (sweep nodes).1 := by
      rw [hbound, sweeps, sweep_of_isNormal hnormal]
      rfl
    exact Prod.ext hlast hchanged.symm
  next hchanged => exact Prod.ext rfl (Bool.eq_false_iff.mpr hchanged).symm

end Node

theorem Routine.body_simplify (r : Routine) : r.simplify.body = Node.simplifyAll r.body := by
  rw [simplify, Node.optimize_eq, Node.sweep_eq]

/-- Rewrites of a routine end, in whatever order they are made, and all that go on as long as possible end at the same
nodes. These are the nodes that simplification gives. The first sweep comes to them and another one changes nothing, and
a change is told exactly if there is one. -/
theorem Routine.simplify_normalizes (r : Routine) :
    (∀ course : Nat → List Node, course 0 = r.body → ∃ n, ¬ Node.Rewrites (course n) (course (n + 1))) ∧
      (∀ nodes, ReflTransGen Node.Rewrites r.body nodes → Node.IsNormal nodes → nodes = r.simplify.body) ∧
      ReflTransGen Node.Rewrites r.body r.simplify.body ∧ Node.IsNormal r.simplify.body ∧
      (Node.sweep r.body).1 = r.simplify.body ∧ Node.sweep r.simplify.body = (r.simplify.body, false) ∧
      r.simplify.simplify = r.simplify ∧ (r.isSimplifiable = true ↔ r.simplify ≠ r) := by
  have hsweep : Node.optimize r.body = Node.sweep r.body := Node.optimize_eq r.body
  have hbecomes := Node.becomes_sweep r.body
  have hnormal : Node.IsNormal r.simplify.body := r.body_simplify ▸ Node.isNormal_simplifyAll r.body
  have hsame : ∀ r : Routine, r.simplify.body = r.body → r.simplify = r := by
    intro r heq
    obtain ⟨name, body, dropped, location, index⟩ := r
    exact congrArg (Routine.mk name · dropped location index) heq
  rw [← hsweep] at hbecomes
  refine ⟨fun course _ => ?_, fun nodes hnodes hend => ?_, hbecomes.reaches, hnormal, ?_,
    Node.sweep_of_isNormal hnormal, ?_, ?_⟩
  · by_contra hendless
    have hsteps : ∀ n, Node.Rewrites (course n) (course (n + 1)) := by simpa using hendless
    have hbound : ∀ n, Node.sizeAll (course n) + n ≤ Node.sizeAll (course 0) := by
      intro n
      induction n with
      | zero => exact Nat.le_refl _
      | succ n ih =>
        have := (hsteps n).sizeAll_lt
        omega
    have := hbound (Node.sizeAll (course 0) + 1)
    omega
  · rw [r.body_simplify, Node.simplifyAll_eq_of_rewrites hnodes, Node.simplifyAll_of_isNormal hend]
  · rw [simplify, hsweep]
  · exact hsame _ (r.simplify.body_simplify.trans (Node.simplifyAll_of_isNormal hnormal))
  · exact hbecomes.changed_iff.trans (not_congr ⟨hsame r, fun heq => congrArg body heq⟩)

end Datapack
