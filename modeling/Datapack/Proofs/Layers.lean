import Datapack.Proofs.FrameStack

/-!
Frames behave as a list of layers. Requests to open and close scopes, to bind names and to look for them are answered
by frames as they are by a plain list of layers that is searched from its head.
-/

namespace Datapack

open List

structure Layer where
  id : Nat
  kind : ScopeKind
  scope : Span
  vars : List (String × Variable) := []

structure Layers where
  layers : List Layer
  nextId : Nat

namespace Frames

inductive Request
  | push (kind : ScopeKind) (scope : Span)
  | pop
  | takeId
  | bind (name : String) (var : Variable)
  | rebind (name : String) (value : Value)
  | find (name : String)
  | enclosingFunction
  | firstDynamic (boundary : Nat)

inductive Answer
  | opened (key id : Nat)
  | closed (frame : Option Frame)
  | taken (id : Nat)
  | done
  | refused (error : BindingError)
  | found (binding : Option (Nat × Variable))
  | enclosing (key : Option Nat)
  | dynamic (frame : Option Frame)

def answer (fs : Frames) : Request → Answer × Frames
  | .push kind scope => (.opened (fs.push kind scope).current (fs.push kind scope).top.id, fs.push kind scope)
  | .pop => (.closed fs.pop.1, fs.pop.2)
  | .takeId => (.taken fs.takeId.1, fs.takeId.2)
  | .bind name var =>
    match fs.bind name var with
    | .ok fs' => (.done, fs')
    | .error error => (.refused error, fs)
  | .rebind name value =>
    match fs.rebind name value with
    | .ok fs' => (.done, fs')
    | .error error => (.refused error, fs)
  | .find name => (.found (fs.find? name), fs)
  | .enclosingFunction => (.enclosing fs.enclosingFunction?, fs)
  | .firstDynamic boundary => (.dynamic (fs.firstDynamic? boundary), fs)

def serve {σ : Type} (answer : σ → Request → Answer × σ) (s : σ) : List Request → List Answer × σ
  | [] => ([], s)
  | request :: rest =>
    let (first, s) := answer s request
    let (others, s) := serve answer s rest
    (first :: others, s)

end Frames

open Frames (Request Answer serve)

def Layer.frame (below : Nat) (layer : Layer) : Frame where
  id := layer.id
  kind := layer.kind
  parent := if below = 0 then none else some (below - 1)
  scope := layer.scope
  vars := layer.vars

def Layer.shape (layer : Layer) : Nat × ScopeKind × Span := (layer.id, layer.kind, layer.scope)

namespace Layers

def frames : List Layer → List (Nat × Frame)
  | [] => []
  | top :: below => (below.length, top.frame below.length) :: frames below

def lookup? (name : String) : List Layer → Option (Nat × Variable)
  | [] => none
  | top :: below =>
    match Ordered.get? name top.vars with
    | some var => some (below.length, var)
    | none => lookup? name below

def replace? (name : String) (value : Value) : List Layer → Option (List Layer)
  | [] => none
  | top :: below =>
    match Ordered.get? name top.vars with
    | some _ => some ({ top with vars := Ordered.modify name (fun v => { v with value }) top.vars } :: below)
    | none => (replace? name value below).map (top :: ·)

def enclosing? : List Layer → Option Nat
  | [] => none
  | top :: below => if top.kind == .function || top.kind == .inlineFunction then some below.length else enclosing? below

def dynamic? (boundary : Nat) : List Layer → Option Frame
  | [] => none
  | top :: below =>
    if below.length = boundary then none
    else if top.kind.isStatic then dynamic? boundary below
    else some (top.frame below.length)

def start : Layers := ⟨[⟨0, .global, .zero, []⟩], 1⟩

def answer (s : Layers) : Request → Answer × Layers
  | .push kind scope => (.opened s.layers.length s.nextId, ⟨⟨s.nextId, kind, scope, []⟩ :: s.layers, s.nextId + 1⟩)
  | .pop =>
    match s.layers with
    | top :: next :: below => (.closed (some (top.frame (below.length + 1))), { s with layers := next :: below })
    | _ => (.closed none, s)
  | .takeId => (.taken s.nextId, { s with nextId := s.nextId + 1 })
  | .bind name var =>
    match s.layers with
    | top :: below =>
      match Ordered.get? name top.vars with
      | some _ => (.refused .alreadyBound, s)
      | none => (.done, { s with layers := { top with vars := top.vars ++ [(name, var)] } :: below })
    | [] => (.refused .notBound, s)
  | .rebind name value =>
    match replace? name value s.layers with
    | some layers => (.done, { s with layers })
    | none => (.refused .notBound, s)
  | .find name => (.found (lookup? name s.layers), s)
  | .enclosingFunction => (.enclosing (enclosing? s.layers), s)
  | .firstDynamic boundary => (.dynamic (dynamic? boundary s.layers), s)

def Grounded (layers : List Layer) : Prop := (layers.map Layer.shape).getLast? = some (0, .global, .zero)

section Views

variable {layers : List Layer} {key : Nat} {name : String} {var : Variable}

@[simp] theorem length_frames : (frames layers).length = layers.length := by
  induction layers with
  | nil => rfl
  | cons top below ih => simp [frames, ih]

theorem key_lt {e : Nat × Frame} (h : e ∈ frames layers) : e.1 < layers.length := by
  induction layers with
  | nil => cases h
  | cons top below ih =>
    cases mem_cons.mp h with
    | inl heq =>
      subst heq
      exact Nat.lt_succ_self _
    | inr hmem => exact Nat.lt_succ_of_lt (ih hmem)

@[simp] theorem vars_frame (layer : Layer) (below : Nat) : (layer.frame below).vars = layer.vars := rfl

@[simp] theorem kind_frame (layer : Layer) (below : Nat) : (layer.frame below).kind = layer.kind := rfl

theorem findSome?_frames (name : String) :
    (frames layers).findSome? (fun (key, frame) =>
      match Ordered.get? name frame.vars with
      | some var => some (key, var)
      | none => none) = lookup? name layers := by
  induction layers with
  | nil => rfl
  | cons top below ih =>
    simp only [frames, findSome?_cons, lookup?, vars_frame]
    cases Ordered.get? name top.vars with
    | some var => rfl
    | none => exact ih

theorem find?_frames :
    ((frames layers).find? fun (_, f) => f.kind == .function || f.kind == .inlineFunction).map (·.1) =
      enclosing? layers := by
  induction layers with
  | nil => rfl
  | cons top below ih =>
    simp only [frames, find?_cons, enclosing?, kind_frame]
    cases top.kind == .function || top.kind == .inlineFunction with
    | true => rfl
    | false => exact ih

theorem takeWhile_frames (boundary : Nat) :
    (((frames layers).takeWhile (·.1 != boundary)).map (·.2)).find? (!·.kind.isStatic) =
      dynamic? boundary layers := by
  induction layers with
  | nil => rfl
  | cons top below ih =>
    simp only [frames, takeWhile_cons, dynamic?, bne_iff_ne, ne_eq, ite_not]
    split
    · rfl
    · simp only [map_cons, find?_cons, kind_frame, ih]
      cases top.kind.isStatic <;> rfl

theorem changeAt_frames (h : layers.length ≤ key) (change : Frame → Frame) :
    (frames layers).map (Frames.changeAt key change) = frames layers := by
  refine (map_congr_left fun e he => ?_).trans (map_id _)
  rw [Frames.changeAt, if_neg (Nat.ne_of_lt (Nat.lt_of_lt_of_le (key_lt he) h))]
  rfl

theorem lookup?_lt (h : lookup? name layers = some (key, var)) : key < layers.length := by
  induction layers with
  | nil => cases h
  | cons top below ih =>
    rw [lookup?] at h
    split at h
    · cases h
      exact Nat.lt_succ_self _
    · exact Nat.lt_succ_of_lt (ih h)

theorem replace?_of_lookup? (value : Value) (h : lookup? name layers = some (key, var)) :
    ∃ layers', replace? name value layers = some layers' ∧ layers'.map Layer.shape = layers.map Layer.shape ∧
      frames layers' = (frames layers).map (Frames.changeAt key fun f =>
        { f with vars := Ordered.modify name (fun v => { v with value }) f.vars }) := by
  induction layers with
  | nil => cases h
  | cons top below ih =>
    simp only [replace?, frames, map_cons]
    rw [lookup?] at h
    split at h
    next =>
      cases h
      refine ⟨_, rfl, rfl, ?_⟩
      rw [frames, changeAt_frames .refl, Frames.changeAt, if_pos rfl]
      rfl
    next =>
      obtain ⟨below', hreplace, hshape, hframes⟩ := ih h
      have hlength : below'.length = below.length := by simpa using congrArg List.length hshape
      refine ⟨top :: below', by rw [hreplace]; rfl, congrArg (top.shape :: ·) hshape, ?_⟩
      rw [frames, hlength, hframes, Frames.changeAt, if_neg (Nat.ne_of_gt (lookup?_lt h))]

theorem replace?_of_lookup?_none (value : Value) (h : lookup? name layers = none) :
    replace? name value layers = none := by
  induction layers with
  | nil => rfl
  | cons top below ih =>
    rw [lookup?] at h
    rw [replace?]
    split at h
    · cases h
    · rw [ih h]
      rfl

end Views

end Layers

theorem Arena.insert_range {α : Type} {a : Arena α} {n : Nat} (hfree : a.free = List.range' n (a.entries.size - n))
    (hle : n ≤ a.entries.size) (value : α) :
    (a.insert value).1 = n ∧
      (a.insert value).2.free = List.range' (n + 1) ((a.insert value).2.entries.size - (n + 1)) := by
  obtain ⟨k, hk⟩ := Nat.exists_eq_add_of_le hle
  cases k with
  | zero =>
    have hnil : a.free = [] := by simpa [hk] using hfree
    simp [insert, hnil, hk]
  | succ k =>
    have hcons : a.free = n :: List.range' (n + 1) k := by
      rw [hfree, hk, Nat.add_sub_cancel_left, range'_succ]
    simp only [insert, hcons, Array.size_setIfInBounds, hk, true_and]
    congr 1
    omega

/-- Whether frames are those of given layers. The keys that are free are used from the least one on. -/
structure Frames.Lists (fs : Frames) (s : Layers) : Prop where
  stack : fs.Stack (Layers.frames s.layers)
  grounded : Layers.Grounded s.layers
  free : fs.arena.free = List.range' s.layers.length (fs.arena.entries.size - s.layers.length)
  next : fs.nextId = s.nextId

namespace Frames.Lists

variable {fs : Frames} {s : Layers}

theorem start : Frames.start.Lists Layers.start :=
  ⟨start_stack, rfl, rfl, rfl⟩

section

variable (h : fs.Lists s) {top : Layer} {below : List Layer}

include h

theorem length_le : s.layers.length ≤ fs.arena.entries.size := by
  simpa using h.stack.length_le

theorem exists_cons : ∃ top below, s.layers = top :: below := by
  have hgrounded := h.grounded
  cases hlayers : s.layers with
  | nil => simp [Layers.Grounded, hlayers] at hgrounded
  | cons top below => exact ⟨top, below, rfl⟩

theorem push (kind : ScopeKind) (scope : Span) :
    (fs.push kind scope).current = s.layers.length ∧ (fs.push kind scope).top.id = s.nextId ∧
      (fs.push kind scope).Lists ⟨⟨s.nextId, kind, scope, []⟩ :: s.layers, s.nextId + 1⟩ := by
  obtain ⟨top, below, hlayers⟩ := h.exists_cons
  have hstack := h.stack
  rw [hlayers, Layers.frames] at hstack
  obtain ⟨new, hnew⟩ := hstack.push kind scope
  obtain ⟨hkey, hfree⟩ := Arena.insert_range h.free h.length_le
    { id := fs.nextId, kind, parent := some fs.current, scope : Frame }
  obtain rfl : new = s.layers.length := hnew.current_eq.symm.trans hkey
  refine ⟨hkey, (congrArg Frame.id hnew.top_eq).trans h.next, ⟨?_, ?_, hfree, congrArg (· + 1) h.next⟩⟩
  · simpa [Layers.frames, Layer.frame, hlayers, h.next] using hnew
  · have hgrounded := h.grounded
    rw [hlayers] at hgrounded ⊢
    exact hgrounded

theorem pop_last (hlayers : s.layers = [top]) : fs.pop = (none, fs) := by
  have hstack := h.stack
  rw [hlayers, Layers.frames] at hstack
  rw [Frames.pop, hstack.top_eq]
  rfl

theorem pop {top next : Layer} (hlayers : s.layers = top :: next :: below) :
    fs.pop.1 = some (top.frame (below.length + 1)) ∧ fs.pop.2.Lists { s with layers := next :: below } := by
  obtain ⟨hstack, hgrounded, hfree, hnext⟩ := h
  have hsize := hstack.length_le
  simp only [hlayers, Layers.frames, length_cons, Layers.length_frames] at hstack hsize hfree
  have hpop : fs.pop = ((fs.arena.erase fs.current).1,
      { fs with arena := (fs.arena.erase fs.current).2, current := below.length }) := by
    rw [Frames.pop, hstack.top_eq]
    rfl
  have hget : fs.arena.get? (below.length + 1) = some (top.frame (below.length + 1)) :=
    hstack.get _ _ (.head _)
  rw [hstack.current_eq, Arena.erase, hget] at hpop
  refine ⟨by rw [hpop], hstack.pop, ?_, ?_, by rw [hpop]; exact hnext⟩
  · rw [hlayers] at hgrounded
    exact hgrounded
  · obtain ⟨k, hk⟩ := Nat.exists_eq_add_of_le hsize
    have hcount : below.length + 1 + 1 + k - (below.length + 1) = k + 1 := by omega
    rw [hpop]
    simp only [hfree, Array.size_setIfInBounds, hk, Nat.add_sub_cancel_left, length_cons, hcount,
      range'_succ]

theorem modify {key : Nat} {vars : Frame → List (String × Variable)} {layers : List Layer}
    (hshape : layers.map Layer.shape = s.layers.map Layer.shape)
    (hframes : Layers.frames layers = (Layers.frames s.layers).map (changeAt key fun f => { f with vars := vars f })) :
    (fs.modify key fun f => { f with vars := vars f }).Lists { s with layers } := by
  have hlength : layers.length = s.layers.length := by simpa using congrArg List.length hshape
  refine ⟨?_, ?_, ?_, h.next⟩
  · rw [hframes]
    exact h.stack.modify key (fun _ => rfl) fun _ => rfl
  · exact (congrArg List.getLast? hshape).trans h.grounded
  · simp only [Frames.modify, Arena.modify, Array.size_modify, hlength]
    exact h.free

theorem find?_eq (name : String) : fs.find? name = Layers.lookup? name s.layers := by
  rw [Frames.find?, h.stack.ancestors_eq]
  exact Layers.findSome?_frames name

theorem bind (hlayers : s.layers = top :: below) (name : String) (var : Variable) :
    (fs.modifyTop fun f => { f with vars := f.vars ++ [(name, var)] }).Lists
      { s with layers := { top with vars := top.vars ++ [(name, var)] } :: below } := by
  have hstack := h.stack
  rw [hlayers, Layers.frames] at hstack
  rw [Frames.modifyTop, hstack.current_eq]
  refine h.modify (by rw [hlayers]; rfl) ?_
  rw [hlayers, Layers.frames, Layers.frames, map_cons, Layers.changeAt_frames .refl, changeAt,
    if_pos rfl]
  rfl

theorem answer (request : Request) :
    (fs.answer request).1 = (s.answer request).1 ∧ (fs.answer request).2.Lists (s.answer request).2 := by
  cases request with
  | push kind scope =>
    obtain ⟨hkey, hid, hlists⟩ := h.push kind scope
    exact ⟨congrArg₂ Answer.opened hkey hid, hlists⟩
  | pop =>
    obtain ⟨top, below, hlayers⟩ := h.exists_cons
    cases below with
    | nil =>
      simp only [Frames.answer, Layers.answer, h.pop_last hlayers, hlayers, true_and]
      exact h
    | cons next below =>
      obtain ⟨hframe, hlists⟩ := h.pop hlayers
      simp only [Frames.answer, Layers.answer, hlayers, hframe, true_and]
      exact hlists
  | takeId => exact ⟨congrArg Answer.taken h.next, h.stack.takeId, h.grounded, h.free, congrArg (· + 1) h.next⟩
  | bind name var =>
    obtain ⟨top, below, hlayers⟩ := h.exists_cons
    have htop : fs.top.vars = top.vars := by
      have hstack := h.stack
      rw [hlayers, Layers.frames] at hstack
      rw [hstack.top_eq, Layers.vars_frame]
    simp only [Frames.answer, Layers.answer, Frames.bind, htop, hlayers]
    cases Ordered.get? name top.vars with
    | some _ => exact ⟨rfl, h⟩
    | none => exact ⟨rfl, h.bind hlayers name var⟩
  | rebind name value =>
    simp only [Frames.answer, Layers.answer, Frames.rebind, h.find?_eq]
    cases hlookup : Layers.lookup? name s.layers with
    | none =>
      rw [Layers.replace?_of_lookup?_none value hlookup]
      exact ⟨rfl, h⟩
    | some binding =>
      obtain ⟨layers, hreplace, hshape, hframes⟩ := Layers.replace?_of_lookup? value hlookup
      rw [hreplace]
      exact ⟨rfl, h.modify hshape hframes⟩
  | find name => exact ⟨congrArg Answer.found (h.find?_eq name), h⟩
  | enclosingFunction =>
    refine ⟨congrArg Answer.enclosing ?_, h⟩
    rw [Frames.enclosingFunction?, h.stack.ancestors_eq, Layers.find?_frames]
  | firstDynamic boundary =>
    refine ⟨congrArg Answer.dynamic ?_, h⟩
    rw [Frames.firstDynamic?, h.stack.ancestors_eq, Layers.takeWhile_frames]

theorem serve (requests : List Request) :
    (Frames.serve Frames.answer fs requests).1 = (Frames.serve Layers.answer s requests).1 ∧
      (Frames.serve Frames.answer fs requests).2.Lists (Frames.serve Layers.answer s requests).2 := by
  induction requests generalizing fs s with
  | nil => exact ⟨rfl, h⟩
  | cons request rest ih =>
    obtain ⟨hanswer, hafter⟩ := h.answer request
    obtain ⟨hanswers, hend⟩ := ih hafter
    exact ⟨congrArg₂ List.cons hanswer hanswers, hend⟩

end

end Frames.Lists

namespace Frames

def Answer.id? : Answer → Option Nat
  | .opened _ id | .taken id => some id
  | _ => none

def outlineVars (vars : List (String × Variable)) : List (String × Variable) :=
  vars.map fun (name, var) => (name, { var with value := .null })

def outline (e : Nat × Frame) : Nat × Frame := (e.1, { e.2 with vars := outlineVars e.2.vars })

end Frames

namespace Layers

def outline (layer : Layer) : Layer := { layer with vars := Frames.outlineVars layer.vars }

variable {s : Layers} {below : List Layer} {layers : List Layer} {top : Layer}

end Layers

end Datapack
