import ClassLang.Scope

/-! # The class hierarchy

    The registered classes, each with its parent, and the questions about
    inheritance.

    * **`Hierarchy.ancestors`** walks from a class up to the root of its chain.
    * **`Hierarchy.isSubclass`** asks whether a class lies on the chain of
      another.
    * **`Hierarchy.resolve`** finds the nearest class on a chain that declares
      a member.

    A parent is registered before its children, so a chain visits a class at
    most once and the number of registrations bounds its length. -/

namespace ClassLang

/-- A registered class. -/
structure ClassEntry where
  name : String
  parent : Option String
  /-- The place of its declaration in the program, counted from 0. -/
  index : Nat
  /-- The scope that holds its own fields and methods. -/
  scope : Nat
deriving DecidableEq

/-- The registered classes, the newest first. -/
structure Hierarchy where
  entries : List ClassEntry := []
deriving DecidableEq

namespace Hierarchy

/-- Registers a class; an older class of the same name is not found any more. -/
def insert (h : Hierarchy) (entry : ClassEntry) : Hierarchy := { entries := entry :: h.entries }

/-- The class of this name. -/
def find? (h : Hierarchy) (name : String) : Option ClassEntry :=
  h.entries.find? (·.name == name)

/-- Registering a class changes what is found at its name only. -/
theorem find?_insert (h : Hierarchy) (entry : ClassEntry) (name : String) :
    (h.insert entry).find? name = if entry.name = name then some entry else h.find? name := by
  by_cases hn : entry.name = name <;> simp [insert, find?, hn]

/-- Is there a class of this name? -/
def contains (h : Hierarchy) (name : String) : Bool := (h.find? name).isSome

/-- The class that a class inherits from. -/
def parent? (h : Hierarchy) (entry : ClassEntry) : Option ClassEntry :=
  entry.parent.bind h.find?

/-- The class that the class of this name inherits from. -/
def parentOf? (h : Hierarchy) (name : String) : Option ClassEntry :=
  (h.find? name).bind h.parent?

/-- At most `length` classes of the chain that starts at `start`. -/
def chain (h : Hierarchy) : (length : Nat) → (start : Option ClassEntry) → List ClassEntry
  | 0, _ | _, none => []
  | length + 1, some entry => entry :: h.chain length (h.parent? entry)

/-- The class of this name and then each of its ancestors. -/
def ancestors (h : Hierarchy) (name : String) : List ClassEntry :=
  h.chain h.entries.length (h.find? name)

/-- Is `derived` the class `base`, or does it inherit from it? -/
def isSubclass (h : Hierarchy) (derived base : String) : Bool :=
  (h.ancestors derived).any (·.name == base)

/-- The nearest class, from `start` upwards, whose own scope binds `member`,
    and the type of that member. -/
def resolve (h : Hierarchy) (scopes : ScopeTree) (start member : String) :
    Option (ClassEntry × Ty) :=
  (h.ancestors start).findSome? fun entry =>
    (scopes.lookupIn entry.scope member).map (entry, ·)

end Hierarchy

end ClassLang
