import ClassLang.Fault

/-! # Scopes

    A tree of nested scopes, each with its own bindings.  Scopes are numbered
    in the order in which they are opened, and they stay readable after they
    are closed.

    * **`ScopeTree.openScope`, `closeScope`** enter and leave a scope.
    * **`insert`, `insertInParent`** bind a name in one scope, unless that
      very scope binds it already.
    * **`lookup`** searches from the current scope outwards, **`lookupIn`**
      in one scope alone.
    * **`dump`** lists everything, from the root inwards. -/

namespace ClassLang

/-! ## One scope -/

/-- One scope: the scopes around it, innermost first, and its bindings, the
    newest first. -/
structure Scope where
  enclosing : List Nat := []
  bindings : List (String × Ty) := []
deriving DecidableEq

namespace Scope

/-- The type of a name bound in this very scope. -/
def find? (s : Scope) (name : String) : Option Ty := s.bindings.lookup name

/-- The scope with one more binding. -/
def bind (s : Scope) (name : String) (ty : Ty) : Scope :=
  { s with bindings := (name, ty) :: s.bindings }

@[simp] theorem enclosing_bind (s : Scope) (name : String) (ty : Ty) :
    (s.bind name ty).enclosing = s.enclosing := rfl

/-- Binding a name changes what is found at that name only. -/
theorem find?_bind (s : Scope) (name other : String) (ty : Ty) :
    (s.bind name ty).find? other = if other = name then some ty else s.find? other := by
  by_cases h : other = name
  · simp [find?, bind, h]
  · have hne : (other == name) = false := by simpa using h
    simp [find?, bind, List.lookup_cons, h, hne]

/-- The bindings in the order of their names. -/
def sorted (s : Scope) : List (String × Ty) :=
  s.bindings.mergeSort fun a b => decide (a.1 ≤ b.1)

end Scope

/-! ## The tree of scopes -/

/-- All scopes opened so far and the path to the current one. -/
structure ScopeTree where
  /-- The scopes by number; the root is number 0. -/
  scopes : Array Scope := #[{}]
  /-- The current scope. -/
  current : Nat := 0
  /-- The scopes around the current one, innermost first. -/
  enclosing : List Nat := []
deriving DecidableEq

namespace ScopeTree

/-- The scope with this number. -/
def scope? (t : ScopeTree) (number : Nat) : Option Scope := t.scopes[number]?

/-- Opens a scope inside the current one. -/
def openScope (t : ScopeTree) : ScopeTree where
  scopes := t.scopes.push { enclosing := t.current :: t.enclosing }
  current := t.scopes.size
  enclosing := t.current :: t.enclosing

/-- Goes back to the scope in which the current one was opened. -/
def closeScope (t : ScopeTree) : Except Fault ScopeTree :=
  match t.enclosing with
  | [] => .error .closeRoot
  | parent :: outer => .ok { t with current := parent, enclosing := outer }

/-! ## Bindings -/

/-- The type of a name bound in the scope with this number. -/
def lookupIn (t : ScopeTree) (number : Nat) (name : String) : Option Ty :=
  (t.scope? number).bind (·.find? name)

/-- Binds a name in the scope with this number; no answer if that scope
    binds it already. -/
def insertIn (t : ScopeTree) (number : Nat) (name : String) (ty : Ty) : Option ScopeTree :=
  match t.lookupIn number name with
  | some _ => none
  | none => some { t with scopes := t.scopes.modify number (·.bind name ty) }

/-- Binds a name in the current scope. -/
def insert (t : ScopeTree) (name : String) (ty : Ty) : Option ScopeTree :=
  t.insertIn t.current name ty

/-- Binds a name in the scope around the current one. -/
def insertInParent (t : ScopeTree) (name : String) (ty : Ty) :
    Except Fault (Option ScopeTree) :=
  match t.enclosing with
  | [] => .error .rootParent
  | parent :: _ => .ok (t.insertIn parent name ty)

/-- The type of a name in the innermost scope that binds it, from the current
    scope outwards. -/
def lookup (t : ScopeTree) (name : String) : Option Ty :=
  (t.current :: t.enclosing).findSome? (t.lookupIn · name)

/-- Opening a scope binds nothing. -/
theorem lookupIn_openScope (t : ScopeTree) (number : Nat) (name : String) :
    t.openScope.lookupIn number name = t.lookupIn number name := by
  simp only [lookupIn, scope?, openScope, Array.getElem?_push]
  split
  · next h => simp [h, Scope.find?]
  · rfl

/-- Closing a scope leaves all bindings alone. -/
theorem lookupIn_closeScope {t u : ScopeTree} (h : t.closeScope = .ok u) (number : Nat)
    (name : String) : u.lookupIn number name = t.lookupIn number name := by
  unfold closeScope at h
  split at h
  · cases h
  · cases h; rfl

/-- A name is bound only where it was not bound. -/
theorem insertIn_eq_none_iff {t : ScopeTree} {number : Nat} {name : String} {ty : Ty} :
    t.insertIn number name ty = none ↔ (t.lookupIn number name).isSome := by
  unfold insertIn
  split <;> simp_all

/-- Binding a name changes what is found in that scope at that name only. -/
theorem lookupIn_insertIn {t u : ScopeTree} {target : Nat} {name : String} {ty : Ty}
    (h : t.insertIn target name ty = some u) (number : Nat) (other : String) :
    u.lookupIn number other =
      if number = target ∧ other = name ∧ target < t.scopes.size then some ty
      else t.lookupIn number other := by
  unfold insertIn at h
  split at h
  · cases h
  · cases h
    simp only [lookupIn, scope?, Array.getElem?_modify]
    by_cases hn : number = target
    · subst hn
      by_cases hs : number < t.scopes.size
      · by_cases ho : other = name <;> simp [hs, ho, Scope.find?_bind]
      · simp [hs]
    · simp [hn, Ne.symm hn]

/-- Binds names in the current scope one after another; no answer as soon as
    one is bound already. -/
def insertAll (t : ScopeTree) : List (String × Ty) → Option ScopeTree
  | [] => some t
  | (name, ty) :: rest => (t.insert name ty).bind (·.insertAll rest)

/-! ## Listing -/

/-- A line of a listing, `depth` steps inside its first line. -/
inductive Line where
  /-- The heading of a scope. -/
  | scope (depth number : Nat)
  /-- A binding of the scope whose heading comes before. -/
  | binding (depth : Nat) (name : String) (ty : Ty)

/-- What stands in front of a line. -/
def indent (depth : Nat) : String := String.join (List.replicate depth "  ")

/-- The text of a line. -/
def Line.text : Line → String
  | scope depth number => indent depth ++ "scope " ++ toString number ++ ":"
  | binding depth name ty => indent depth ++ name ++ ": " ++ ty.render

/-- The lines of one scope. -/
def scopeLines (t : ScopeTree) (depth number : Nat) : List Line :=
  let bindings := (t.scope? number).elim [] Scope.sorted
  .scope depth number :: bindings.map fun (name, ty) => .binding (depth + 1) name ty

/-- The scopes around the one with this number, innermost first. -/
def around (t : ScopeTree) (number : Nat) : List Nat :=
  (t.scope? number).elim [] Scope.enclosing

/-- The scopes that were opened while the one with this number was the current
    one, in that order.  They are numbered later. -/
def inside (t : ScopeTree) (number : Nat) : List Nat :=
  (List.range t.scopes.size).filter fun inner =>
    number < inner ∧ (t.around inner).head? = some number

theorem mem_inside {t : ScopeTree} {number inner : Nat} : inner ∈ t.inside number ↔
    inner < t.scopes.size ∧ number < inner ∧ (t.around inner).head? = some number := by
  simp [inside]

/-- The lines of a scope and of all scopes inside it, each in front of those
    that were opened in it. -/
def linesFrom (t : ScopeTree) (depth number : Nat) : List Line :=
  t.scopeLines depth number ++
    (t.inside number).attach.flatMap fun ⟨inner, _⟩ => t.linesFrom (depth + 1) inner
termination_by t.scopes.size - number
decreasing_by
  next hinner =>
  obtain ⟨hsize, hlater, -⟩ := mem_inside.mp hinner
  exact Nat.sub_lt_sub_left (Nat.lt_trans hlater hsize) hlater

theorem linesFrom_eq (t : ScopeTree) (depth number : Nat) : t.linesFrom depth number =
    t.scopeLines depth number ++ (t.inside number).flatMap (t.linesFrom (depth + 1)) := by
  rw [linesFrom]
  simp

/-- The listing of all scopes: a walk through the tree from the root. -/
def dump (t : ScopeTree) : String :=
  String.join ((t.linesFrom 0 0).map (·.text ++ "\n"))

end ScopeTree

end ClassLang
