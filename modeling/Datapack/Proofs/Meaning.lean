import Datapack.Value.Operator

/-!
What scripts mean that neither declare functions and structs nor divide. They run on nested scopes of variables with
words and truth values, and show messages. Loops are run to a given depth, so that the meaning can be computed.
-/

namespace Datapack

inductive Scalar
  | number (n : Int32)
  | truth (b : Bool)
deriving Repr, DecidableEq

def Scalar.holds : Scalar → Bool
  | .number n => n != 0
  | .truth b => b

abbrev Scope := List (String × Scalar)

namespace Scope

def lookup? (name : String) : List Scope → Option Scalar
  | [] => none
  | scope :: rest =>
    match Ordered.get? name scope with
    | some x => some x
    | none => lookup? name rest

def replace? (name : String) (x : Scalar) : List Scope → Option (List Scope)
  | [] => none
  | scope :: rest =>
    match Ordered.get? name scope with
    | some _ => some (Ordered.modify name (fun _ => x) scope :: rest)
    | none => (replace? name x rest).map (scope :: ·)

def declare (name : String) (x : Scalar) : List Scope → List Scope
  | [] => []
  | scope :: rest => (scope ++ [(name, x)]) :: rest

def assign (name : String) (x : Scalar) (scopes : List Scope) : List Scope :=
  (replace? name x scopes).getD (declare name x scopes)

end Scope

structure Store where
  scopes : List Scope
  output : List String
deriving Repr, DecidableEq

inductive Stop
  /-- Loops run for longer than was allowed. -/
  | exhausted
  /-- A name is not visible, or values are not of the kind that is needed. -/
  | wrong
  /-- A truth value is to be shown in a message. -/
  | truthShown
deriving Repr, DecidableEq

def progression (start stop step : Int) : List Int32 :=
  let count := if 0 < step then (stop - start + step - 1) / step else (start - stop - step - 1) / (-step)
  (List.range count.toNat).map fun (k : Nat) => .ofInt (start + step * k)

/-- The numbers of a range that is given by its stop, by start and stop, or by these and a step. -/
def rangeWords? : List Scalar → Option (List Int32)
  | [.number stop] => some (progression 0 stop.toInt 1)
  | [.number start, .number stop] => some (progression start.toInt stop.toInt 1)
  | [.number start, .number stop, .number step] =>
    if step = 0 then none else some (progression start.toInt stop.toInt step.toInt)
  | _ => none

namespace Syntax

def UnaryOp.apply? : UnaryOp → Scalar → Option Scalar
  | .neg, .number n => some (.number (-n))
  | .not, .truth b => some (.truth !b)
  | _, _ => none

def BinaryOp.apply? : BinaryOp → Scalar → Scalar → Option Scalar
  | .add, .number a, .number b => some (.number (a + b))
  | .sub, .number a, .number b => some (.number (a - b))
  | .mul, .number a, .number b => some (.number (a * b))
  | .equal, .number a, .number b => some (.truth (a == b))
  | .notEqual, .number a, .number b => some (.truth (a != b))
  | .lessEqual, .number a, .number b => some (.truth (decide (a ≤ b)))
  | .greaterEqual, .number a, .number b => some (.truth (decide (b ≤ a)))
  | .equal, .truth a, .truth b => some (.truth (a == b))
  | .notEqual, .truth a, .truth b => some (.truth (a != b))
  | .and, .truth a, .truth b => some (.truth (a && b))
  | .or, .truth a, .truth b => some (.truth (a || b))
  | _, _, _ => none

def Expr.eval? (scopes : List Scope) : Expr → Option Scalar
  | .int n _ => some (.number n)
  | .bool b _ => some (.truth b)
  | .var name _ => Scope.lookup? name scopes
  | .unary op operand _ => (operand.eval? scopes).bind op.apply?
  | .binary left op right _ => do op.apply? (← left.eval? scopes) (← right.eval? scopes)
  | _ => none

def Expr.value (scopes : List Scope) (e : Expr) : Except Stop Scalar :=
  match e.eval? scopes with
  | some x => .ok x
  | none => .error .wrong

def Expr.text (scopes : List Scope) : Expr → Except Stop String
  | .string text _ => .ok text
  | e => do
      match ← e.value scopes with
      | .number n => .ok (Word.text n)
      | .truth _ => .error .truthShown

abbrev LoopRun := Expr → Block → Store → Except Stop Store

end Syntax

def Store.inScope (run : Store → Except Stop Store) (σ : Store) : Except Stop Store := do
  let σ ← run { σ with scopes := [] :: σ.scopes }
  return { σ with scopes := σ.scopes.tail }

def Store.tell (texts : List String) (σ : Store) : Store :=
  { σ with output := σ.output ++ [String.join texts] }

namespace Syntax

mutual

def Stmt.exec (loop : LoopRun) : Stmt → Store → Except Stop Store
  | .expr (.call (.var name _) args _) _, σ => do
      if Builtin.ofName? name = some .print then return σ.tell (← args.mapM (Expr.text σ.scopes))
      else .error .wrong
  | .assign (.path name []) value _, σ => do
      return { σ with scopes := Scope.assign name (← value.value σ.scopes) σ.scopes }
  | .update (.path name []) op value span, σ => do
      let result ← Expr.value σ.scopes (.binary (.var name span) op value span)
      return { σ with scopes := Scope.assign name result σ.scopes }
  | .branch cond onTrue none _, σ => do
      if (← cond.value σ.scopes).holds then Block.exec loop onTrue σ else return σ
  | .branch cond onTrue (some onFalse) _, σ => do
      if (← cond.value σ.scopes).holds then Block.exec loop onTrue σ else Block.exec loop onFalse σ
  | .repeatWhile cond body _, σ => do
      if (← cond.value σ.scopes).holds then loop cond body σ else return σ
  | .forEach var (.call (.var name _) args _) ⟨stmts, _⟩ _, σ => do
      if Builtin.ofName? name = some .range then
        match rangeWords? (← args.mapM (Expr.value σ.scopes)) with
        | some words =>
          words.foldlM (fun σ n => σ.inScope fun σ =>
            Stmt.execAll loop stmts
              { σ with scopes := Scope.declare var.name (.number n) σ.scopes }) σ
        | none => .error .wrong
      else .error .wrong
  | .block body _, σ => Block.exec loop body σ
  | _, _ => .error .wrong

def Block.exec (loop : LoopRun) : Block → Store → Except Stop Store
  | ⟨stmts, _⟩, σ => σ.inScope (Stmt.execAll loop stmts)

def Stmt.execAll (loop : LoopRun) : List Stmt → Store → Except Stop Store
  | [], σ => .ok σ
  | s :: rest, σ => do Stmt.execAll loop rest (← Stmt.exec loop s σ)

end

/-- Runs a loop whose condition holds, within a given depth: each further round and each loop inside the body
takes one from it. -/
def loopWithin : (depth : Nat) → LoopRun
  | 0, _, _, _ => .error .exhausted
  | depth + 1, cond, body, σ => do
      let σ ← Block.exec (loopWithin depth) body σ
      if (← cond.value σ.scopes).holds then loopWithin depth cond body σ else return σ

def Script.run (depth : Nat) (script : Script) : Except Stop Store :=
  Stmt.execAll (loopWithin depth) script.stmts ⟨[[]], []⟩

/-- Whether an operator works on 32-bit numbers and truth values as it does in any range: it neither divides
nor moves a bound by one. -/
def BinaryOp.isCore : BinaryOp → Bool
  | .div | .mod | .less | .greater => false
  | _ => true

def isPlainName (name : String) : Bool := (Builtin.ofName? name).isNone

def Expr.isCore : Expr → Bool
  | .int _ _ | .bool _ _ => true
  | .var name _ => isPlainName name
  | .unary _ operand _ => operand.isCore
  | .binary left op right _ => left.isCore && op.isCore && right.isCore
  | _ => false

def Expr.isShown : Expr → Bool
  | .string _ _ => true
  | e => e.isCore

mutual

/-- Whether a statement assigns to variables, branches, loops, opens a scope or shows a message. -/
def Stmt.isCore : Stmt → Bool
  | .expr (.call (.var name _) args _) _ =>
    Builtin.ofName? name == some .print && args.all Expr.isShown
  | .assign (.path name []) value _ => isPlainName name && value.isCore
  | .update (.path name []) op value _ =>
    isPlainName name && (scoreOp? op).isSome && op.isCore && value.isCore
  | .branch cond onTrue none _ => cond.isCore && Block.isCore onTrue
  | .branch cond onTrue (some onFalse) _ => cond.isCore && Block.isCore onTrue && Block.isCore onFalse
  | .repeatWhile cond body _ => cond.isCore && Block.isCore body
  | .forEach var (.call (.var name _) args _) ⟨stmts, _⟩ _ =>
    isPlainName var.name && Builtin.ofName? name == some .range && args.all Expr.isCore &&
      Stmt.areCore stmts
  | .block body _ => Block.isCore body
  | _ => false

def Block.isCore : Block → Bool
  | ⟨stmts, _⟩ => Stmt.areCore stmts

def Stmt.areCore : List Stmt → Bool
  | [] => true
  | s :: rest => s.isCore && Stmt.areCore rest

end

theorem Expr.allShown_of_isCore {es : List Expr} (hes : es.all isCore = true) : es.all isShown = true := by
  refine List.all_eq_true.mpr fun e he => ?_
  have hcore := List.all_eq_true.mp hes e he
  cases e with
  | string _ _ => cases hcore
  | _ => exact hcore

theorem Stmt.core_induction (one : Stmt → Prop) (many : List Stmt → Prop) (inner : Block → Prop)
    (print : ∀ name varSpan args callSpan span, Builtin.ofName? name = some .print →
      args.all Expr.isShown = true → one (.expr (.call (.var name varSpan) args callSpan) span))
    (assign : ∀ name value span, isPlainName name = true → value.isCore = true →
      one (.assign (.path name []) value span))
    (update : ∀ name op value span, op.isCore = true → value.isCore = true →
      one (.update (.path name []) op value span))
    (branch : ∀ cond onTrue span, cond.isCore = true → inner onTrue → one (.branch cond onTrue none span))
    (choice : ∀ cond onTrue onFalse span, cond.isCore = true → inner onTrue → inner onFalse →
      one (.branch cond onTrue (some onFalse) span))
    (loop : ∀ cond body span, cond.isCore = true → inner body → one (.repeatWhile cond body span))
    (forEach : ∀ var name varSpan args callSpan stmts bodySpan span, isPlainName var.name = true →
      Builtin.ofName? name = some .range → args.all Expr.isCore = true → many stmts →
        one (.forEach var (.call (.var name varSpan) args callSpan) ⟨stmts, bodySpan⟩ span))
    (block : ∀ body span, inner body → one (.block body span)) (braces : ∀ stmts span, many stmts → inner ⟨stmts, span⟩)
    (nil : many []) (cons : ∀ stmt rest, one stmt → many rest → many (stmt :: rest)) :
    (∀ stmt : Stmt, stmt.isCore = true → one stmt) ∧ (∀ stmts, areCore stmts = true → many stmts) ∧
      ∀ body : Block, body.isCore = true → inner body := by
  refine isCore.mutual_induct (fun stmt => stmt.isCore = true → one stmt)
    (fun stmts => areCore stmts = true → many stmts) (fun body => body.isCore = true → inner body)
    ?_ ?_ ?_ ?_ ?_ ?_ ?_ ?_ ?_ ?_ ?_ ?_
  · intro name varSpan args callSpan span h
    simp only [isCore, Bool.and_eq_true, beq_iff_eq] at h
    exact print name varSpan args callSpan span h.1 h.2
  · intro name value span h
    simp only [isCore, Bool.and_eq_true] at h
    exact assign name value span h.1 h.2
  · intro name op value span h
    simp only [isCore, Bool.and_eq_true] at h
    exact update name op value span h.1.2 h.2
  · intro cond onTrue span ih h
    simp only [isCore, Bool.and_eq_true] at h
    exact branch cond onTrue span h.1 (ih h.2)
  · intro cond onTrue onFalse span ihTrue ihFalse h
    simp only [isCore, Bool.and_eq_true] at h
    exact choice cond onTrue onFalse span h.1.1 (ihTrue h.1.2) (ihFalse h.2)
  · intro cond body span ih h
    simp only [isCore, Bool.and_eq_true] at h
    exact loop cond body span h.1 (ih h.2)
  · intro var name varSpan args callSpan stmts bodySpan span ih h
    simp only [isCore, Bool.and_eq_true, beq_iff_eq] at h
    exact forEach var name varSpan args callSpan stmts bodySpan span h.1.1.1 h.1.1.2 h.1.2 (ih h.2)
  · intro body span ih h
    rw [isCore] at h
    exact block body span (ih h)
  · intro stmt h1 h2 h3 h4 h5 h6 h7 h8 h
    simp [isCore] at h
  · intro stmts span ih h
    rw [Block.isCore] at h
    exact braces stmts span (ih h)
  · exact fun _ => nil
  · intro stmt rest ih ihRest h
    simp only [areCore, Bool.and_eq_true] at h
    exact cons stmt rest (ih h.1) (ihRest h.2)

end Syntax

/-- Whether the second of two outcomes is the first one, unless the first is that of a run that took too long. -/
def Stop.Extends {α : Type} (less more : Except Stop α) : Prop :=
  less = .error .exhausted ∨ more = less

namespace Stop.Extends

variable {α β : Type}

theorem refl (x : Except Stop α) : Extends x x := .inr rfl

theorem bind {x y : Except Stop α} {f g : α → Except Stop β} (h : Extends x y)
    (hf : ∀ a, Extends (f a) (g a)) : Extends (x >>= f) (y >>= g) := by
  rcases h with rfl | rfl
  · exact .inl rfl
  · cases y with
    | ok a => exact hf a
    | error _ => exact .refl _

theorem foldlM {f g : β → α → Except Stop β} (h : ∀ b a, Extends (f b a) (g b a)) (as : List α) (b : β) :
    Extends (as.foldlM f b) (as.foldlM g b) := by
  induction as generalizing b with
  | nil => exact .refl _
  | cons a rest ih => exact (h b a).bind ih

theorem inScope {run more : Store → Except Stop Store} (h : ∀ σ, Extends (run σ) (more σ)) (σ : Store) :
    Extends (σ.inScope run) (σ.inScope more) :=
  (h _).bind fun _ => .refl _

end Stop.Extends

namespace Syntax

open Stop (Extends)

end Syntax

end Datapack
