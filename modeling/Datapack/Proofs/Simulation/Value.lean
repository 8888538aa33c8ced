import Datapack.Proofs.Meaning
import Datapack.Proofs.Operators
import Datapack.Proofs.Ownership

/-!
Operators on values that are known by their places. The instructions that an operator writes leave its result
where the compiler says it is, and change nothing but temporaries that are taken for it and places that were
offered for change.
-/

namespace Datapack

open List

variable {i : Instr} {e e' : Emission} {c : Cell} {x : Scalar} {World : Type} {engine : Engine World}

def Instr.IsQuiet : Instr → Prop
  | .setScore _ _ | .addScore _ _ | .copyScore _ _ | .operate _ _ _ | .operateConstant _ _ _
  | .storeCondition _ _ => True
  | _ => False

theorem Instr.IsQuiet.isPlain (h : i.IsQuiet) : i.IsPlain := by
  cases i with
  | guarded _ | call _ | raw _ => exact h.elim
  | _ => trivial

namespace Engine

theorem step_of_isQuiet (h : i.IsQuiet) (m : Machine World) :
    ∃ target value, i.target? = some target ∧ engine.step m i = m.put target value := by
  cases i with
  | setScore target | addScore target | copyScore target | operate target | operateConstant target
  | storeCondition target => exact ⟨target, _, rfl, rfl⟩
  | _ => exact h.elim

variable {instrs : List Instr}

theorem steps_of_isQuiet (h : ∀ i ∈ instrs, i.IsQuiet) (m : Machine World) :
    (∀ c, (∀ i ∈ instrs, i.target? ≠ some c) → (engine.steps m instrs).cells c = m.cells c) ∧
      (engine.steps m instrs).world = m.world ∧ (engine.steps m instrs).events = m.events := by
  induction instrs generalizing m with
  | nil => exact ⟨fun _ _ => rfl, rfl, rfl⟩
  | cons i rest ih =>
    obtain ⟨target, value, htarget, hstep⟩ := step_of_isQuiet (h i (.head _)) m
    obtain ⟨hcells, hworld, hevents⟩ := ih (fun j hj => h j (.tail _ hj)) (m.put target value)
    rw [steps, foldl_cons, hstep]
    refine ⟨fun c hc => ?_, hworld, hevents⟩
    have hne : c ≠ target := fun heq => hc i (.head _) (heq ▸ htarget)
    rw [← m.put_cells_of_ne value hne]
    exact hcells c fun j hj => hc j (.tail _ hj)

theorem execAll_leaves (h : ∀ i ∈ instrs, i.IsPlain)
    (call : String → Machine World → Option (Machine World)) (location : Option Span) (m : Machine World) :
    engine.execAll call (instrs.map fun i => { Node.leaf i with location }) m =
      some (engine.steps m instrs) := by
  induction instrs generalizing m with
  | nil => rfl
  | cons i rest ih =>
    have hplain := h i (.head _)
    have hguarded : ∀ conditions, i ≠ .guarded conditions := by
      rintro conditions rfl
      exact hplain
    have hcommand : engine.command call m i = some (engine.step m i) := by
      cases i with
      | call _ => exact hplain.elim
      | _ => rfl
    rw [map_cons, execAll, Node.leaf, exec_leaf engine call hguarded, hcommand, Option.bind_some]
    exact ih (fun j hj => h j (.tail _ hj)) _

end Engine

namespace Emission

/-- Whether the instructions written between two states of an emission are given ones that compute scores, and
write only given cells and cells taken since. -/
structure Writes (P : Cell → Prop) (e e' : Emission) (new : List Instr) : Prop where
  next_le : e.nextTemporary ≤ e'.nextTemporary
  instrs : e'.instrs.toList = e.instrs.toList ++ new
  quiet : ∀ i ∈ new, i.IsQuiet
  target : ∀ i ∈ new, ∀ c, i.target? = some c → e.Available P e' c

def Takes (e e' : Emission) (c : Cell) (temporary : Bool) : Prop := temporary = true ∧ e.Fresh e' c

def Offers (R : Cell → Bool → Prop) (e e' : Emission) (c : Cell) (temporary : Bool) : Prop :=
  R c temporary ∨ e.Takes e' c temporary

variable {P : Cell → Prop} {new : List Instr}

theorem Writes.refl (P : Cell → Prop) (e : Emission) : e.Writes P e [] :=
  ⟨.refl, by simp, by simp, by simp⟩

theorem Writes.cells_eq (h : e.Writes P e' new) (m : Machine World) (hP : ¬ P c)
    (hfresh : ¬ e.Fresh e' c) : (engine.steps m new).cells c = m.cells c := by
  refine (Engine.steps_of_isQuiet h.quiet m).1 c fun i hi hc => ?_
  exact (h.target i hi c hc).elim hP hfresh

end Emission

def Value.Means (cells : Cell → Int32) : Value → Scalar → Prop
  | .number d, .number n => d.Is id cells n
  | .bool d, .truth b => d.Is Word.ofBool cells b
  | _, _ => False

section Operators

variable (engine : Engine World) {R : Cell → Bool → Prop} {v a b : Value} {op : Syntax.BinaryOp} {next : Nat}
  {m : Machine World}

def Value.IsScalar : Value → Prop
  | .number _ | .bool _ => True
  | _ => False

/-- Whether a cell, if it is that of a constant, is offered or the constant is among given ones. -/
def Cell.Asked (R : Cell → Bool → Prop) (known : List Int32) (c : Cell) : Prop :=
  ∀ value, c = .constant value → value ∈ known ∨ ∃ t, R c t

theorem Cell.Asked.mono {known more : List Int32} (hle : known ⊆ more) (h : c.Asked R known) : c.Asked R more :=
  fun value hc => (h value hc).imp_left fun hmem => hle hmem

theorem Cell.asked_of_offered {t : Bool} {low n : Nat}
    (h : R c t ∨ t = true ∧ ∃ k, low ≤ k ∧ k < n ∧ c = .temporary k) : c.Asked R [] := by
  rintro value rfl
  obtain h | ⟨-, k, -, -, hk⟩ := h
  · exact .inr ⟨t, h⟩
  · exact absurd hk (constant_ne_temporary value k)

/-- The rules by which scores are computed in cells that are offered for change and in temporaries from a number on, with
constants that are asked for. -/
def Discipline.offering (R : Cell → Bool → Prop) (low : Nat) : Discipline where
  base := low
  place n c t := R c t ∨ t = true ∧ ∃ k, low ≤ k ∧ k < n ∧ c = .temporary k
  read _ c := c.Asked R []
  test _ x := ∀ c ∈ x.test.cells, c.Asked R []
  write n known i := i.IsQuiet ∧
    (∀ c, i.target? = some c → R c true ∨ ∃ k, low ≤ k ∧ k < n ∧ c = .temporary k) ∧
      ∀ c ∈ i.operands, c.Asked R known
  place_mono hle h := h.imp_right fun ⟨ht, k, hlow, hk, hc⟩ => ⟨ht, k, hlow, hk.trans_le hle, hc⟩
  read_mono _ := id
  test_mono _ := id
  write_mono hle hknown h :=
    ⟨h.1, fun c hc => (h.2.1 c hc).imp_right fun ⟨k, hlow, hk, hc⟩ => ⟨k, hlow, hk.trans_le hle, hc⟩,
      fun c hc => (h.2.2 c hc).mono hknown⟩
  fresh h := .inr ⟨rfl, _, h, .refl, rfl⟩
  reads h := Cell.asked_of_offered h
  range h := forall_mem_singleton.mpr h
  compare ha hb := by simpa [Test.cells] using ⟨ha, hb⟩
  set h := ⟨trivial, fun _ hc => Option.some.inj hc ▸ h.imp_right And.right, nofun⟩
  add h := ⟨trivial, fun _ hc => Option.some.inj hc ▸ h.imp_right And.right,
    forall_mem_singleton.mpr (Cell.asked_of_offered h)⟩
  copy h hsource := ⟨trivial, fun _ hc => Option.some.inj hc ▸ h.imp_right And.right,
    forall_mem_singleton.mpr hsource⟩
  operate h hsource := ⟨trivial, fun _ hc => Option.some.inj hc ▸ h.imp_right And.right,
    by simpa [Instr.operands] using ⟨Cell.asked_of_offered h, hsource⟩⟩
  constant h hknown := by
    refine ⟨trivial, fun _ hc => Option.some.inj hc ▸ h.imp_right And.right, fun c hc => ?_⟩
    rcases mem_pair.mp hc with rfl | rfl
    · exact (Cell.asked_of_offered h).mono (nil_subset _)
    · exact fun _ heq => .inl (Cell.constant_injective heq ▸ hknown)
  store h hconditions := ⟨trivial, fun _ hc => Option.some.inj hc ▸ h.imp_right And.right, fun c hc =>
    let ⟨x, hx, hcells⟩ := mem_flatMap.mp hc
    hconditions x hx c hcells⟩

theorem Emission.Follows.writes (h : e.Follows (.offering R e.nextTemporary) e') :
    ∃ new, e.Writes (R · true) e' new := by
  obtain ⟨new, hnew, hwritten⟩ := h.written
  exact ⟨new, h.next_le, hnew, fun i hi => (hwritten i hi).1, fun i hi => (hwritten i hi).2.1⟩

theorem Value.IsScalar.headPlaces (h : v.IsScalar) (hplaces : v.Places R) (low n : Nat) :
    v.HeadPlaces ((Discipline.offering R low).place n) := by
  cases v with
  | number | bool => exact Datum.Places.mono (fun _ _ => .inl) hplaces
  | _ => exact h.elim

theorem TryEmit.eq_of_yields {α : Type} {op : TryEmit α} {wrap : α → Value}
    (h : TryEmit.Yields (do return wrap (← op)) e v e') : ∃ a, v = wrap a := by
  simp only [yields_bind, yields_pure] at h
  obtain ⟨a, _, _, rfl, _⟩ := h
  exact ⟨a, rfl⟩

theorem Value.binary_isScalar (hop : op.isCore = true) (ha : a.IsScalar) (hb : b.IsScalar)
    (h : (a.binary op b).Yields e v e') :
    v.IsScalar ∧ ∀ cells x y, a.Means cells x → b.Means cells y → ∃ r, op.apply? x y = some r := by
  match a, b, ha, hb with
  | .number _, .number _, _, _ =>
    cases op with
    | add | sub | mul | equal | notEqual | lessEqual | greaterEqual =>
      obtain ⟨_, rfl⟩ := TryEmit.eq_of_yields h
      refine ⟨trivial, fun cells x y hx hy => ?_⟩
      match x, y, hx, hy with
      | .number _, .number _, _, _ => exact ⟨_, rfl⟩
    | and | or => exact absurd h TryEmit.not_yields_throw
    | div | mod | less | greater => cases hop
  | .bool _, .bool _, _, _ =>
    cases op with
    | equal | notEqual | and | or =>
      obtain ⟨_, rfl⟩ := TryEmit.eq_of_yields h
      refine ⟨trivial, fun cells x y hx hy => ?_⟩
      match x, y, hx, hy with
      | .truth _, .truth _, _, _ => exact ⟨_, rfl⟩
    | _ => exact absurd h TryEmit.not_yields_throw
  | .number _, .bool _, _, _ | .bool _, .number _, _, _ =>
    cases op <;> exact absurd h TryEmit.not_yields_throw

theorem runs_number {op : TryEmit (Datum Int32 Cell)} {n : Int32}
    (h : Emit.TryRuns engine next m op fun _ d m' => d.Is id m'.cells n) :
    Emit.TryRuns engine next m (do return Value.number (← op)) fun _ v m' => v.Means m'.cells (.number n) := by
  refine h.wrap.mono ?_
  rintro _ _ _ ⟨d, rfl, hd⟩
  exact hd

theorem runs_truth {op : Emit (Datum Bool Cell)} {b : Bool} (h : Emit.Runs engine next m op (Emit.Tells next m b)) :
    Emit.TryRuns engine next m (do return Value.bool (← op)) fun _ v m' => v.Means m'.cells (.truth b) := by
  refine (Emit.TryRuns.lift h).wrap.mono ?_
  rintro _ _ _ ⟨d, rfl, hd⟩
  exact hd.is

theorem runs_compareLoose {a b : Datum Int32 Cell} {relation : Relation} {x y : Int32}
    (hloose : ∀ bound, relation.isVoid bound = false ∧ relation.swapped.isVoid bound = false) (hx : a.Is id m.cells x)
    (hy : b.Is id m.cells y) :
    Emit.Runs engine next m (compareWords a relation b) (Emit.Tells next m (relation.holds x y)) := by
  have hslips : relation.slips a.isStatic b.isStatic x y = false := by
    unfold Relation.slips
    split <;> simp [hloose]
  have hruns : Emit.Runs engine next m (compareWords a relation b) _ := runs_compareWords relation hx hy
  simpa [hslips] using hruns

theorem Value.runs_binary {y r : Scalar} (hop : op.isCore = true) (hm : m.HasConstants)
    (ha : a.Places fun c _ => c.Before next) (hb : b.Places fun c _ => c.Before next) (hx : a.Means m.cells x)
    (hy : b.Means m.cells y) (hr : op.apply? x y = some r) :
    Emit.TryRuns engine next m (a.binary op b) fun _ v m' => v.Means m'.cells r := by
  match a, b, x, y, hx, hy with
  | .number a, .number b, .number x, .number y, hx, hy =>
    cases op with
    | add | sub | mul =>
      cases hr
      exact runs_number engine (runs_numberOp hm hb hx hy nofun)
    | equal | notEqual | lessEqual | greaterEqual =>
      cases hr
      exact runs_truth engine (runs_compareLoose engine (fun _ => ⟨rfl, rfl⟩) hx hy)
    | and | or => cases hr
    | div | mod | less | greater => cases hop
  | .bool a, .bool b, .truth x, .truth y, hx, hy =>
    cases op with
    | equal =>
      obtain rfl : .truth ((x == y) == (Relation.equal == .equal)) = r := by
        cases x <;> cases y <;> exact Option.some.inj hr
      exact runs_truth engine (runs_compareBools rfl ha hb hx hy)
    | notEqual =>
      obtain rfl : .truth ((x == y) == (Relation.notEqual == .equal)) = r := by
        cases x <;> cases y <;> exact Option.some.inj hr
      exact runs_truth engine (runs_compareBools rfl ha hb hx hy)
    | and | or =>
      cases hr
      exact runs_truth engine (runs_logic ha hb hx hy)
    | _ => cases hr
  | .number _, .bool _, .number _, .truth _, _, _ | .bool _, .number _, .truth _, .number _, _, _ =>
    cases op <;> cases hr

theorem Value.binary_means (hop : op.isCore = true) (hR : ∀ c t, R c t → c.Before e.nextTemporary) (ha : a.IsScalar)
    (hb : b.IsScalar) (haplaces : a.Places R) (hbplaces : b.Places R) (h : (a.binary op b).Yields e v e') :
    ∃ new, e.Writes (R · true) e' new ∧ v.IsScalar ∧ v.Places (e.Offers R e') ∧
      ∀ m : Machine World, m.HasConstants → ∀ x y, a.Means m.cells x → b.Means m.cells y →
        ∃ r, op.apply? x y = some r ∧ v.Means (engine.steps m new).cells r := by
  have hobeys : Emit.TryObeys _ _ (a.binary op b) _ := obeys_binary
    (ha.headPlaces haplaces e.nextTemporary e.nextTemporary) (hb.headPlaces hbplaces e.nextTemporary e.nextTemporary)
  obtain ⟨hfollows, hresults⟩ := hobeys.of_yields .refl h
  obtain ⟨new, hnew⟩ := hfollows.writes
  obtain ⟨hscalar, hdefined⟩ := binary_isScalar hop ha hb h
  refine ⟨new, hnew, hscalar, hresults.places, fun m hm x y hx hy => ?_⟩
  obtain ⟨r, hr⟩ := hdefined m.cells x y hx hy
  exact ⟨r, hr, (runs_binary engine hop hm (haplaces.mono hR) (hbplaces.mono hR) hx hy hr).of_yields h hnew.instrs⟩

theorem Value.unary_means {op : Syntax.UnaryOp} (ha : a.IsScalar) (haplaces : a.Places R)
    (h : (a.unary op).Yields e v e') :
    ∃ new, e.Writes (R · true) e' new ∧ v.IsScalar ∧ v.Places (e.Offers R e') ∧
      ∀ m : Machine World, m.HasConstants → ∀ x, a.Means m.cells x →
        ∃ r, op.apply? x = some r ∧ v.Means (engine.steps m new).cells r := by
  have hobeys : Emit.TryObeys _ _ (a.unary op) _ :=
    obeys_unary (ha.headPlaces haplaces e.nextTemporary e.nextTemporary)
  obtain ⟨hfollows, hresults⟩ := hobeys.of_yields .refl h
  obtain ⟨new, hnew⟩ := hfollows.writes
  have hdone : ∀ {r : Scalar} {m : Machine World},
      Emit.TryRuns engine e.nextTemporary m (a.unary op) (fun _ v m' => v.Means m'.cells r) →
        v.Means (engine.steps m new).cells r :=
    fun hruns => hruns.of_yields h hnew.instrs
  match op, a, ha with
  | .neg, .number d, _ =>
    obtain ⟨_, rfl⟩ := TryEmit.eq_of_yields h
    refine ⟨new, hnew, trivial, hresults.places, fun m hm x hx => ?_⟩
    match x, hx with
    | .number _, hx => exact ⟨_, rfl, hdone (runs_number engine (.lift (runs_maps maps_negate hm hx)))⟩
  | .not, .bool (.static b), _ =>
    obtain ⟨rfl, -⟩ := TryEmit.yields_pure.mp h
    refine ⟨new, hnew, trivial, hresults.places, fun m hm x hx => ?_⟩
    match x, hx with
    | .truth _, hx => exact ⟨_, rfl, hdone (.pure (congrArg (!·) hx))⟩
  | .not, .bool (.dynamic cell _), _ =>
    obtain ⟨_, rfl⟩ := TryEmit.eq_of_yields h
    refine ⟨new, hnew, trivial, hresults.places, fun m hm x hx => ?_⟩
    match x, hx with
    | .truth _, hx => exact ⟨_, rfl, hdone (runs_truth engine (runs_not hx))⟩
  | .neg, .bool _, _ | .not, .number _, _ => exact absurd h TryEmit.not_yields_throw

def Value.LivesAt (cell : Cell) (temporary : Bool) : Value → Prop
  | .number d => d = .dynamic cell temporary
  | .bool d => d = .dynamic cell temporary
  | _ => False

theorem Value.LivesAt.places {cell : Cell} {temporary : Bool} (h : v.LivesAt cell temporary)
    (hcell : R cell temporary) : v.Places R := by
  cases v with
  | number d | bool d =>
    obtain rfl : d = _ := h
    exact hcell
  | _ => exact h.elim

theorem Value.means_mark {cells : Cell → Int32} (temporary : Bool) :
    (v.mark temporary).Means cells x ↔ v.Means cells x := by
  have hdatum : ∀ {α : Type} (code : α → Int32) (d : Datum α Cell) (y : α),
      (d.mark temporary).Is code cells y ↔ d.Is code cells y := by
    intro α code d y
    cases d <;> exact Iff.rfl
  match v, x with
  | .number d, .number n => exact hdatum id d n
  | .bool d, .truth b => exact hdatum Word.ofBool d b
  | .number _, .truth _ | .bool _, .number _ => exact Iff.rfl
  | .fixed _, _ | .string _, _ | .null, _ | .structType _ _, _ | .struct _ _ _, _ | .array _, _
  | .builtin _, _ | .function _, _ => simp [mark, Value.Means]

theorem Value.movesTo_means (hv : v.IsScalar) (slot : Slot) :
    (∀ i ∈ v.movesTo slot, i.IsQuiet ∧ i.target? = some slot.cell) ∧
      (v.placed slot).LivesAt slot.cell slot.temporary ∧ ∀ m : Machine World, ∀ x, v.Means m.cells x →
        (v.placed slot).Means (engine.steps m (v.movesTo slot)).cells x := by
  cases v with
  | number d | bool d =>
    refine ⟨?_, rfl, fun m x hx => ?_⟩
    · cases d with
      | static => simp [movesTo, Instr.IsQuiet, Instr.target?]
      | dynamic => simp [movesTo, Instr.IsQuiet, Instr.target?]
    · cases d with
      | static => cases x <;> simp_all [movesTo, Value.Means, placed, Datum.Is, Engine.steps, Engine.step]
      | dynamic =>
        rw [movesTo]
        split <;> cases x <;> simp_all [Value.Means, placed, Datum.Is, Engine.steps, Engine.step]
  | _ => exact hv.elim

theorem Value.store_means {stored : Value} {slot : Slot} (hv : v.IsScalar) (h : (v.store slot).Yields e stored e') :
    ∃ new, e.Writes (· = slot.cell) e' new ∧ e'.nextTemporary = e.nextTemporary ∧
      stored.LivesAt slot.cell slot.temporary ∧ stored.kind = v.kind ∧
      ∀ m : Machine World, ∀ x, v.Means m.cells x → stored.Means (engine.steps m new).cells x := by
  have hflat : v.IsFlat := by cases v <;> trivial
  obtain ⟨-, rfl, rfl⟩ := (adds_store_of_isFlat hflat).yields.mp h
  obtain ⟨hinstrs, hlives, hmeans⟩ := movesTo_means engine hv slot
  refine ⟨_, ⟨.refl, by simp [Emission.adding], fun i hi => (hinstrs i hi).1, ?_⟩, rfl, hlives,
    kind_placed v slot, hmeans⟩
  exact fun i hi c hc => .inl (Option.some.inj (hc.symm.trans (hinstrs i hi).2))

theorem Value.detach_means {held : Value} (hv : v.IsScalar) (hplaces : v.Places R) (h : v.detach.Yields e held e') :
    ∃ new, e.Writes (fun _ => False) e' new ∧ held.IsScalar ∧
      held.Places (fun c _ => e.Available (R · true) e' c) ∧
      ∀ m : Machine World, ∀ x, v.Means m.cells x → held.Means (engine.steps m new).cells x := by
  rw [detach] at h
  split at h
  next =>
    simp only [TryEmit.yields_bind, TryEmit.yields_lift, Emit.freshSlot, Emit.yields_bind,
      Emit.yields_freshCell, Emit.yields_freshPath, Emit.yields_pure] at h
    obtain ⟨slot, _, ⟨_, _, ⟨rfl, rfl⟩, _, _, ⟨rfl, rfl⟩, rfl, rfl⟩, hstore⟩ := h
    obtain ⟨new, hnew, hnext, hlives, -, hresult⟩ := store_means engine hv hstore
    replace hnext : e'.nextTemporary = e.nextTemporary + 2 := hnext
    have hfresh : e.Fresh e' (.temporary e.nextTemporary) :=
      ⟨e.nextTemporary, .refl, by omega, rfl⟩
    refine ⟨new, ⟨?_, hnew.instrs, hnew.quiet, ?_⟩, ?_, hlives.places (.inr hfresh), hresult⟩
    · omega
    · intro i hi c hc
      obtain rfl | ⟨k, hlow, hhigh, rfl⟩ := hnew.target i hi c hc
      · exact .inr hfresh
      · exact .inr ⟨k, (Nat.le_add_right _ 2).trans hlow, hhigh, rfl⟩
    · cases held with
      | number _ | bool _ => trivial
      | _ => exact hlives.elim
  next hborrows =>
    obtain ⟨rfl, rfl⟩ := TryEmit.yields_pure.mp h
    refine ⟨[], .refl _ _, hv, ?_, fun m x hx => hx⟩
    cases v with
    | number d | bool d =>
      cases d with
      | static _ => trivial
      | dynamic c temporary =>
        cases temporary with
        | true => exact .inl hplaces
        | false => exact absurd rfl hborrows
    | _ => exact hv.elim

end Operators

end Datapack
