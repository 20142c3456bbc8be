import ClassLang.Fault
import ClassLang.Journal

/-! # Outcomes of checking

    Checking a tree gives back the tree with the attributes that were set,
    also where it stops early.

    * **`Rule`** is a rule of the language, **`Violation`** the place where a
      program breaks one.
    * **`Halt`** is a reason to stop: a violation, or a fault.
    * **`Outcome`** is the tree as far as it is annotated, what happened, and
      the result or the reason to stop.
    * **`Outcome.andThen`** goes on where the first part has a result, and
      otherwise puts the unfinished part into its place. -/

namespace ClassLang

/-! ## Rules -/

/-- The rules that a program can violate. -/
inductive Rule where
  | noProgram | noStart | startArgs
  | duplicateIdent | symbolUndefined | symbolTypeMismatch
  | callArgCount | callArgType | returnType
  | incompatibleAssign | ifPredicate | exprType | noClassMethod | recursiveLayout
deriving DecidableEq

/-- What a message says about a violated rule. -/
def Rule.text : Rule → String
  | noProgram => "no Program class"
  | noStart => "no start function in Program class"
  | startArgs => "start function has arguments"
  | duplicateIdent => "duplicate identifier name in same scope"
  | symbolUndefined => "symbol by name undefined"
  | symbolTypeMismatch => "symbol by name defined, but of unexpected type"
  | callArgCount => "function call has different number of args than the declaration"
  | callArgType => "type mismatch in function call args"
  | returnType => "type mismatch in return statement"
  | incompatibleAssign => "types of right and left hand side do not match in assignment"
  | ifPredicate => "predicate of if statement is not boolean"
  | exprType => "incompatible types used in expression"
  | noClassMethod => "function doesn't exist in object"
  | recursiveLayout => "class cannot contain a field of its own type"

/-- The first rule that a program violates, and where. -/
structure Violation where
  rule : Rule
  line : Nat
deriving DecidableEq

/-- The message of a violation. -/
def Violation.message (v : Violation) : String :=
  "on line number " ++ toString v.line ++ ", error: " ++ v.rule.text

/-! ## Outcomes -/

/-- Why checking stops. -/
inductive Halt where
  | violation (v : Violation)
  | fault (f : Fault)

/-- What came of checking a tree. -/
structure Outcome (τ α : Type) where
  /-- The tree, annotated as far as checking went. -/
  tree : τ
  /-- What happened, in order. -/
  journal : List Event
  result : Except Halt α

namespace Outcome

variable {τ σ α β : Type}

/-- Nothing happens, and there is a result. -/
def done (tree : τ) (a : α) : Outcome τ α := ⟨tree, [], .ok a⟩

/-- Nothing happens, and checking stops. -/
def stop (tree : τ) (h : Halt) : Outcome τ α := ⟨tree, [], .error h⟩

/-- A violated rule. -/
def violated (tree : τ) (rule : Rule) (line : Nat) : Outcome τ α :=
  stop tree (.violation ⟨rule, line⟩)

/-- Something happened before the rest. -/
def after (event : Event) (o : Outcome τ α) : Outcome τ α :=
  { o with journal := event :: o.journal }

/-- Goes on with the annotated tree and the result; `unfinished` builds the
    whole tree around a part at which checking stops. -/
def andThen (o : Outcome τ α) (unfinished : τ → σ) (next : τ → α → Outcome σ β) :
    Outcome σ β :=
  match o.result with
  | .error h => ⟨unfinished o.tree, o.journal, .error h⟩
  | .ok a =>
    let rest := next o.tree a
    { rest with journal := o.journal ++ rest.journal }

@[simp] theorem andThen_done (tree : τ) (a : α) (unfinished : τ → σ)
    (next : τ → α → Outcome σ β) : (done tree a).andThen unfinished next = next tree a := rfl

@[simp] theorem andThen_stop (tree : τ) (h : Halt) (unfinished : τ → σ)
    (next : τ → α → Outcome σ β) :
    (stop tree h : Outcome τ α).andThen unfinished next = stop (unfinished tree) h := rfl

end Outcome

end ClassLang
