import Datapack.Proofs.Simulation.Builtin
import Datapack.Proofs.Simulation.Control

/-!
Statements carry out what they do in a run. Loops over ranges are unrolled; everything else has a rule of its own,
and statements are taken apart by induction.
-/

namespace Datapack

open Syntax Frames

variable {World : Type} {env : Environment} {engine : Engine World} {shown : List (Option String)} {expand : Expansion}

namespace Compile

variable {name : String} {act : Int32 → LoopRun → Store → Except Stop Store} {body : Value → Compile Unit}

theorem Realizes.declare {span : Span} (n : Int32) (hname : isPlainName name = true) :
    Realizes env engine shown Evolve (Compile.declare name (Builtin.known n) span false)
      fun _ σ => .ok { σ with scopes := Scope.declare name (.number n) σ.scopes } := by
  intro s u s' hs h
  have hscalar : (Builtin.known n).IsScalar := trivial
  have hplaces : (Builtin.known n).Places (Cell.Fits s.nextTemporary 0 s.nextTemporary) := trivial
  obtain ⟨new, hnew⟩ := declare_rebinds engine hname hs .refl hscalar hplaces h
  refine carries_of_rebinds (e := .int n span) (.refl _ s) rfl hnew (fun _ _ _ => rfl) fun scopes m _ _ => ?_
  exact ⟨.number n, rfl, rfl⟩

theorem Realizes.unrolled
    (hbody : ∀ n, Realizes env engine shown Evolve (body (Builtin.known n)) (act n)) (words : List Int32) :
    Realizes env engine shown Evolve ((words.map Builtin.known).forM body)
      fun loop σ => words.foldlM (fun σ n => act n loop σ) σ := by
  induction words with
  | nil => exact .pure .refl
  | cons n rest ih => exact (hbody n).bind .trans ih

theorem eq_numbers_of_means {cells : Cell → Int32} {ns : List Int32} {xs : List Scalar}
    (h : List.Forall₂ (fun v x => v.Means cells x) (ns.map Builtin.known) xs) : xs = ns.map .number := by
  induction ns generalizing xs with
  | nil =>
    cases h
    rfl
  | cons n rest ih =>
    obtain ⟨x, later, hx, hlater, rfl⟩ := List.forall₂_cons_left_iff.mp h
    match x, hx with
    | .number _, rfl => rw [ih hlater, List.map_cons]

theorem Realizes.forEach {args : List Expr} {varSpan callSpan itemsSpan : Span}
    (hname : Builtin.ofName? name = some .range) (hargs : args.all Expr.isCore = true)
    (hbody : ∀ n, Realizes env engine shown Evolve (body (Builtin.known n)) (act n)) :
    Realizes env engine shown Evolve
      (do
        let values ← itemsOf itemsSpan (← (Expr.call (.var name varSpan) args callSpan).compile expand)
        values.forM body)
      (fun loop σ => do
        match rangeWords? (← args.mapM (Expr.value σ.scopes)) with
        | some words => words.foldlM (fun σ n => act n loop σ) σ
        | none => .error .wrong) := by
  intro s u s' hs h
  obtain ⟨v, s1, hcall, h⟩ := yields_bind.mp h
  obtain ⟨items, s2, hitems, h⟩ := yields_bind.mp h
  obtain ⟨values, s3, matched, hvalues, hmatched, hrun⟩ := yields_callBuiltin hname hs hcall
  obtain ⟨new, hnew, hvaluesShown, hstands⟩ :=
    Expr.standsFor_compileAll engine (Expr.allShown_of_isCore hargs) hs hvalues
  obtain ⟨hrange, rfl⟩ := yields_orFail.mp hrun
  obtain ⟨ns, words, rfl, hwords, rfl⟩ := of_range hvaluesShown hmatched hrange
  obtain ⟨rfl, rfl⟩ := yields_pure.mp hitems
  obtain ⟨hchange, made, nodes, hcarries⟩ := unrolled hbody words s3 u s' (hnew.plain hs) h
  refine ⟨hnew.frames ▸ hchange, made, _, .after hnew hs hcarries.adds hcarries.calls hcarries.plain
    fun p hp depth σ m hm hm3 => ?_⟩
  obtain ⟨xs, hxs, hmeans⟩ := Expr.value_of_standsFor hargs (hstands σ.scopes m hm.scopes hm.constants)
  rw [hxs, eq_numbers_of_means hmeans]
  change Machine.Follows _ _ _ _ _ (match rangeWords? (ns.map .number) with
    | some words => words.foldlM (fun σ n => act n (loopWithin depth) σ) σ
    | none => .error .wrong) _
  rw [hwords]
  exact hcarries.follows p hp depth σ _ hm3

end Compile

namespace Syntax

open Compile

end Syntax

end Datapack
