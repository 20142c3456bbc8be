import ClassLang.Proofs.Typing.Bindings
import Mathlib.Data.List.Induction

/-! # The history of a tree of scopes

    What a tree of scopes answers after any calls, told from the calls alone.

    * **`ScopeTree.Call`** is a call on a tree, **`run`** its answer and the tree
      that it leaves, and **`after`** the tree that calls lead to.
    * **`OpenedIn`**: a scope was opened while another one was the current
      scope.  **`Path`** leads from a scope along these to the root.
    * **`path_after`** is the invariant: the scopes that are searched from the
      current one outwards are its path.
    * **`Persistent`** says how the tree behaves, and **`scopes_persist`** that it
      does so after any calls. -/

namespace ClassLang.ScopeTree

/-! ## Calls -/

/-- A call on a tree of scopes. -/
inductive Call where
  | openScope
  | closeScope
  | insert (name : String) (ty : Ty)
  | insertInParent (name : String) (ty : Ty)
  | lookup (name : String)
  | lookupIn (number : Nat) (name : String)

/-- What a call answers. -/
inductive Answer where
  /-- The scope that is the current one from now on. -/
  | current (number : Nat)
  /-- Whether the name is bound by this call. -/
  | inserted (fresh : Bool)
  | found (ty : Option Ty)
  | fault (f : Fault)

/-- The answer to an insertion with this outcome. -/
def inserted (t : ScopeTree) : Option ScopeTree → Answer × ScopeTree
  | some u => (.inserted true, u)
  | none => (.inserted false, t)

/-- The answer to a call and the tree behind it. -/
def run (t : ScopeTree) : Call → Answer × ScopeTree
  | .openScope => (.current t.openScope.current, t.openScope)
  | .closeScope =>
    match t.closeScope with
    | .ok u => (.current u.current, u)
    | .error f => (.fault f, t)
  | .insert name ty => t.inserted (t.insert name ty)
  | .insertInParent name ty =>
    match t.insertInParent name ty with
    | .ok outcome => t.inserted outcome
    | .error f => (.fault f, t)
  | .lookup name => (.found (t.lookup name), t)
  | .lookupIn number name => (.found (t.lookupIn number name), t)

/-- The tree after calls on a new one, faulty calls among them. -/
def after (calls : List Call) : ScopeTree := calls.foldl (fun t call => (t.run call).2) {}

@[simp] theorem after_concat (calls : List Call) (call : Call) :
    after (calls ++ [call]) = ((after calls).run call).2 := by
  simp [after]

/-! ## One call -/

variable {t u : ScopeTree} {number : Nat} {name : String} {ty : Ty}

/-- Inserting changes nothing but the bindings of one scope. -/
theorem eq_of_insertIn (h : t.insertIn number name ty = some u) :
    t.lookupIn number name = none ∧
      u = { t with scopes := t.scopes.modify number (·.bind name ty) } := by
  unfold insertIn at h
  cases hlookup : t.lookupIn number name with
  | some _ =>
    rw [hlookup] at h
    cases h
  | none =>
    rw [hlookup] at h
    cases h
    exact ⟨rfl, rfl⟩

/-- Closing a scope leads to the one around it and leaves the scopes alone. -/
theorem eq_of_closeScope (h : t.closeScope = .ok u) :
    ∃ parent outer, t.enclosing = parent :: outer ∧
      u = { t with current := parent, enclosing := outer } := by
  unfold closeScope at h
  cases henclosing : t.enclosing with
  | nil =>
    rw [henclosing] at h
    cases h
  | cons parent outer =>
    rw [henclosing] at h
    cases h
    exact ⟨parent, outer, rfl, rfl⟩

/-- What a call can do to a tree. -/
inductive Change (t : ScopeTree) : Call → ScopeTree → Prop where
  | none {call} : Change t call t
  | opened : Change t .openScope t.openScope
  | closed {call} {u : ScopeTree} : t.closeScope = .ok u → Change t call u
  /-- A name is bound in an open scope. -/
  | bound {call} {number : Nat} {name : String} {ty : Ty} {u : ScopeTree} :
      number ∈ t.current :: t.enclosing → t.insertIn number name ty = some u → Change t call u

theorem change_inserted (call : Call) (hopen : number ∈ t.current :: t.enclosing) :
    Change t call (t.inserted (t.insertIn number name ty)).2 := by
  cases hinsert : t.insertIn number name ty with
  | none => exact .none
  | some u => exact .bound hopen hinsert

theorem change_run (t : ScopeTree) (call : Call) : Change t call (t.run call).2 := by
  cases call with
  | openScope => exact .opened
  | closeScope =>
    unfold run
    cases hclose : t.closeScope with
    | ok u => exact .closed hclose
    | error f => exact .none
  | insert name ty => exact change_inserted _ List.mem_cons_self
  | insertInParent name ty =>
    unfold run ScopeTree.insertInParent
    cases henclosing : t.enclosing with
    | nil => exact .none
    | cons parent outer => exact change_inserted _ (by simp [henclosing])
  | lookup | lookupIn => exact .none

/-- No change undoes a binding. -/
theorem Change.keeps {call : Call} (h : Change t call u) (hbound : t.lookupIn number name = some ty) :
    u.lookupIn number name = some ty := by
  cases h with
  | none => exact hbound
  | opened => rw [lookupIn_openScope, hbound]
  | closed hclose => rw [lookupIn_closeScope hclose, hbound]
  | bound _ hinsert =>
    have hfree := (eq_of_insertIn hinsert).1
    rw [lookupIn_insertIn hinsert]
    split
    · -- a name is bound only where it is not bound
      next hsame =>
      rw [← hsame.1, ← hsame.2.1, hbound] at hfree
      cases hfree
    · exact hbound

/-- No change takes a scope away. -/
theorem Change.size_le {call : Call} (h : Change t call u) : t.scopes.size ≤ u.scopes.size := by
  cases h with
  | none => exact Nat.le_refl _
  | opened => simp [openScope]
  | closed hclose =>
    obtain ⟨_, _, -, rfl⟩ := eq_of_closeScope hclose
    exact Nat.le_refl _
  | bound _ hinsert => simp [(eq_of_insertIn hinsert).2]

/-! ## The past -/

/-- What holds after calls is kept by more calls if each change keeps it. -/
theorem after_append_of_change {P : ScopeTree → Prop}
    (hstep : ∀ {t call u}, Change t call u → P t → P u)
    (calls more : List Call) (h : P (after calls)) : P (after (calls ++ more)) := by
  induction more generalizing calls with
  | nil => rwa [List.append_nil]
  | cons call rest ih =>
    rw [List.append_cons]
    apply ih
    rw [after_concat]
    exact hstep (change_run _ call) h

theorem size_after_le (calls more : List Call) :
    (after calls).scopes.size ≤ (after (calls ++ more)).scopes.size :=
  after_append_of_change (P := fun t => (after calls).scopes.size ≤ t.scopes.size)
    (fun h hle => Nat.le_trans hle h.size_le) calls more (Nat.le_refl _)

/-- Scope `number` was opened while `parent` was the current scope. -/
def OpenedIn (calls : List Call) (number parent : Nat) : Prop :=
  ∃ before rest, calls = before ++ .openScope :: rest ∧ (after before).scopes.size = number ∧
    (after before).current = parent

/-- The scopes from one outwards to the root: it, the one in which it was
    opened, and so on. -/
inductive Path (calls : List Call) : Nat → List Nat → Prop where
  | root : Path calls 0 [0]
  | inner {number parent path} : OpenedIn calls number parent → Path calls parent path →
      Path calls number (number :: path)

variable {calls : List Call} {parent : Nat} {path : List Nat}

theorem OpenedIn.append (h : OpenedIn calls number parent) (more : List Call) :
    OpenedIn (calls ++ more) number parent := by
  obtain ⟨before, rest, rfl, hsize, hcurrent⟩ := h
  exact ⟨before, rest ++ more, by simp, hsize, hcurrent⟩

theorem Path.append (h : Path calls number path) (more : List Call) :
    Path (calls ++ more) number path := by
  induction h with
  | root => exact .root
  | inner hopened _ ih => exact .inner (hopened.append more) ih

/-- A path starts at its scope. -/
theorem Path.head (h : Path calls number path) : ∃ outer, path = number :: outer := by
  cases h with
  | root => exact ⟨[], rfl⟩
  | inner => exact ⟨_, rfl⟩

/-- A scope is one of those that there are from its opening on, and not one of
    those before. -/
theorem OpenedIn.bounds (h : OpenedIn calls number parent) :
    0 < number ∧ number < (after calls).scopes.size := by
  obtain ⟨before, rest, rfl, rfl, -⟩ := h
  have hnew : (after (before ++ [.openScope])).scopes.size = (after before).scopes.size + 1 := by
    simp [run, openScope]
  have hlater := size_after_le (before ++ [.openScope]) rest
  rw [← List.append_cons, hnew] at hlater
  exact ⟨size_after_le [] before, hlater⟩

/-- Of two openings of one scope, the second is not behind the first. -/
theorem prefix_eq_of_size {before between rest more : List Call}
    (hsize : (after before).scopes.size = (after (before ++ between)).scopes.size)
    (h : .openScope :: rest = between ++ more) : between = [] := by
  cases between with
  | nil => rfl
  | cons call others =>
    obtain ⟨rfl, -⟩ := List.cons.inj h
    have hopened : OpenedIn (before ++ .openScope :: others) _ _ := ⟨before, others, rfl, rfl, rfl⟩
    exact absurd hsize (Nat.ne_of_lt hopened.bounds.2)

/-- A scope is opened once. -/
theorem OpenedIn.unique {parent' : Nat} (h : OpenedIn calls number parent)
    (h' : OpenedIn calls number parent') : parent = parent' := by
  obtain ⟨before, rest, rfl, hsize, rfl⟩ := h
  obtain ⟨before', rest', heq, hsize', rfl⟩ := h'
  rcases List.append_eq_append_iff.mp heq with ⟨between, rfl, hrest⟩ | ⟨between, rfl, hrest⟩
  · rw [prefix_eq_of_size (hsize.trans hsize'.symm) hrest, List.append_nil]
  · rw [prefix_eq_of_size (hsize'.trans hsize.symm) hrest, List.append_nil]

/-- There is one path from a scope. -/
theorem Path.unique {path' : List Nat} (h : Path calls number path)
    (h' : Path calls number path') : path = path' := by
  induction h generalizing path' with
  | root =>
    cases h' with
    | root => rfl
    | inner hopened => exact absurd hopened.bounds.1 (Nat.lt_irrefl 0)
  | inner hopened _ ih =>
    cases h' with
    | root => exact absurd hopened.bounds.1 (Nat.lt_irrefl 0)
    | inner hopened' hpath' =>
      rw [hopened.unique hopened'] at ih
      rw [ih hpath']

/-- The second scope of a path is the one in which the first was opened. -/
theorem Path.opened {outer : List Nat} (h : Path calls number (number :: parent :: outer)) :
    OpenedIn calls number parent ∧ Path calls parent (parent :: outer) := by
  cases h with
  | inner hopened hrest =>
    obtain ⟨_, heq⟩ := hrest.head
    rw [(List.cons.inj heq).1]
    rw [(List.cons.inj heq).1] at hrest
    exact ⟨hopened, hrest⟩

/-- A path of one scope is that of the root. -/
theorem Path.eq_root (h : Path calls number [number]) : number = 0 := by
  cases h with
  | root => rfl
  | inner _ hrest =>
    obtain ⟨_, heq⟩ := hrest.head
    cases heq

/-- The path of a scope goes on with the scope in which it was opened. -/
theorem Path.eq_of_opened {outer : List Nat} (h : Path calls number (number :: outer))
    (hopened : OpenedIn calls number parent) : ∃ others, outer = parent :: others := by
  cases h with
  | root => exact absurd hopened.bounds.1 (Nat.lt_irrefl 0)
  | inner hopened' hrest =>
    rw [hopened.unique hopened']
    exact hrest.head

/-- All scopes on a path are there. -/
theorem Path.lt_size (h : Path calls number path) : ∀ n ∈ path, n < (after calls).scopes.size := by
  induction h with
  | root =>
    intro n hn
    rw [List.mem_singleton.mp hn]
    exact size_after_le [] calls
  | inner hopened _ ih =>
    intro n hn
    rcases List.mem_cons.mp hn with rfl | hn
    · exact hopened.bounds.2
    · exact ih n hn

/-! ## The current scope -/

/-- The scopes around the current one are those on its path: by induction on
    the calls. -/
theorem path_after (calls : List Call) :
    Path calls (after calls).current ((after calls).current :: (after calls).enclosing) := by
  induction calls using List.reverseRecOn with
  | nil => exact .root
  | append_singleton calls call ih =>
    have hpath := ih.append [call]
    have hchange := change_run (after calls) call
    rw [after_concat]
    generalize ((after calls).run call).2 = u at hchange ⊢
    cases hchange with
    | none => exact hpath
    | opened => exact .inner ⟨calls, [], rfl, rfl, rfl⟩ hpath
    | closed hclose =>
      -- what is left of the path is that of the scope around
      obtain ⟨parent, outer, henclosing, rfl⟩ := eq_of_closeScope hclose
      rw [henclosing] at hpath
      exact hpath.opened.2
    | bound _ hinsert =>
      rw [(eq_of_insertIn hinsert).2]
      exact hpath

/-- The current scope lies in the one in which it was opened. -/
theorem enclosing_of_opened (h : OpenedIn calls (after calls).current parent) :
    ∃ outer, (after calls).enclosing = parent :: outer :=
  (path_after calls).eq_of_opened h

/-- The root alone lies in no other scope. -/
theorem enclosing_eq_nil_iff : (after calls).enclosing = [] ↔ (after calls).current = 0 := by
  have hpath := path_after calls
  constructor
  · intro hnil
    rw [hnil] at hpath
    exact hpath.eq_root
  · intro hzero
    rw [hzero] at hpath
    exact (List.cons.inj (hpath.unique .root)).2

/-! ## Persistence -/

/-- The answer to an insertion into scope `number`, and what it changes. -/
structure Inserts (t : ScopeTree) (number : Nat) (name : String) (ty : Ty)
    (result : Answer × ScopeTree) : Prop where
  answer : result.1 = .inserted (t.lookupIn number name).isNone
  /-- A name that the scope binds already leaves everything as it is. -/
  bound : (t.lookupIn number name).isSome → result.2 = t
  /-- Any other name is bound, and nothing else changes. -/
  fresh : t.lookupIn number name = none → ∀ n x, result.2.lookupIn n x =
    if n = number ∧ x = name then some ty else t.lookupIn n x
  current : result.2.current = t.current
  enclosing : result.2.enclosing = t.enclosing
  scopes : result.2.scopes.map Scope.enclosing = t.scopes.map Scope.enclosing

theorem inserts_of_lt (hn : number < t.scopes.size) (name : String) (ty : Ty) :
    Inserts t number name ty (t.inserted (t.insertIn number name ty)) := by
  cases hinsert : t.insertIn number name ty with
  | none =>
    have hbound := insertIn_eq_none_iff.mp hinsert
    refine ⟨?_, fun _ => rfl, ?_, rfl, rfl, rfl⟩
    · simp [inserted, hbound]
    · intro hfree
      rw [hfree] at hbound
      cases hbound
  | some u =>
    obtain ⟨hfree, heq⟩ := eq_of_insertIn hinsert
    refine ⟨?_, ?_, ?_, ?_, ?_, ?_⟩
    · rw [hfree]
      rfl
    · intro hbound
      rw [hfree] at hbound
      cases hbound
    · intro _ n x
      show u.lookupIn n x = _
      rw [lookupIn_insertIn hinsert]
      simp [hn]
    · rw [heq]
      rfl
    · rw [heq]
      rfl
    · rw [heq]
      apply Array.ext_getElem?
      intro n
      simp only [inserted, Array.getElem?_map, Array.getElem?_modify]
      split
      · cases t.scopes[n]? <;> rfl
      · rfl

/-- How tree `t` behaves behind these calls. -/
structure Persistent (calls : List Call) (t : ScopeTree) : Prop where
  /-- There is one path from the current scope to the root, and a name has the
      type that it has in the first scope there that binds it. -/
  lookup : ∃ path, Path calls t.current path ∧ (∀ path', Path calls t.current path' → path' = path) ∧
    ∀ name, t.run (.lookup name) = (.found (path.findSome? (t.lookupIn · name)), t)
  lookupIn : ∀ number name, t.run (.lookupIn number name) = (.found (t.lookupIn number name), t)
  insert : ∀ name ty, Inserts t t.current name ty (t.run (.insert name ty))
  insertInParent : ∀ parent, OpenedIn calls t.current parent →
    ∀ name ty, Inserts t parent name ty (t.run (.insertInParent name ty))
  /-- What a scope binds, it binds ever after. -/
  keeps : ∀ number name ty, t.lookupIn number name = some ty →
    ∀ more, (after (calls ++ more)).lookupIn number name = some ty
  /-- A new scope is the current one, and nothing is bound. -/
  opens : (t.run .openScope).1 = .current t.scopes.size ∧
    (t.run .openScope).2.current = t.scopes.size ∧
    (∀ name, (t.run .openScope).2.lookupIn t.scopes.size name = none) ∧
    ∀ number name, (t.run .openScope).2.lookupIn number name = t.lookupIn number name
  /-- Closing a scope leads back to where it was opened, and nothing is bound. -/
  closes : ∀ parent, OpenedIn calls t.current parent →
    (t.run .closeScope).1 = .current parent ∧ (t.run .closeScope).2.current = parent ∧
    ∀ number name, (t.run .closeScope).2.lookupIn number name = t.lookupIn number name
  /-- The root cannot be closed and has no scope around it. -/
  root : t.current = 0 → (t.run .closeScope).1 = .fault .closeRoot ∧
    ∀ name ty, (t.run (.insertInParent name ty)).1 = .fault .rootParent
  /-- There are no other faults, and a faulty call changes nothing. -/
  faults : ∀ call f, (t.run call).1 = .fault f → t.current = 0 ∧ (t.run call).2 = t

/-- Calls meet a fault only at the root, and change nothing then. -/
theorem run_of_fault {call : Call} {f : Fault} (h : (t.run call).1 = .fault f) :
    t.enclosing = [] ∧ (t.run call).2 = t := by
  have hinserted : ∀ outcome, (t.inserted outcome).1 ≠ .fault f := by
    rintro (_ | u) heq <;> cases heq
  cases call with
  | closeScope =>
    unfold run ScopeTree.closeScope at h ⊢
    cases henclosing : t.enclosing with
    | nil => exact ⟨rfl, rfl⟩
    | cons parent outer =>
      rw [henclosing] at h
      cases h
  | insertInParent name ty =>
    unfold run ScopeTree.insertInParent at h ⊢
    cases henclosing : t.enclosing with
    | nil => exact ⟨rfl, rfl⟩
    | cons parent outer =>
      rw [henclosing] at h
      exact absurd h (hinserted _)
  | insert name ty => exact absurd h (hinserted _)
  | openScope | lookup | lookupIn => cases h

/-- **Scopes persist**: after any calls on a new tree, faulty ones among them,
    a look-up finds the first binding on the path from the current scope to the
    root, an insertion changes one scope at one name or nothing, bindings stay
    for ever, closing a scope leads back to where it was opened, and a faulty
    call changes nothing. -/
theorem scopes_persist (calls : List Call) : Persistent calls (after calls) where
  lookup := ⟨_, path_after calls, fun _ h => h.unique (path_after calls), fun _ => rfl⟩
  lookupIn := fun _ _ => rfl
  insert := fun name ty =>
    inserts_of_lt ((path_after calls).lt_size _ List.mem_cons_self) name ty
  insertInParent := by
    intro parent hopened name ty
    obtain ⟨outer, henclosing⟩ := enclosing_of_opened hopened
    have hn : parent < (after calls).scopes.size :=
      (path_after calls).lt_size parent (by simp [henclosing])
    unfold run ScopeTree.insertInParent
    rw [henclosing]
    exact inserts_of_lt hn name ty
  keeps := fun number name ty h more =>
    after_append_of_change (fun hchange => hchange.keeps) calls more h
  opens := by
    refine ⟨rfl, rfl, ?_, ?_⟩
    · intro name
      show (after calls).openScope.lookupIn _ name = none
      rw [lookupIn_openScope]
      simp [ScopeTree.lookupIn, scope?]
    · exact (after calls).lookupIn_openScope
  closes := by
    intro parent hopened
    obtain ⟨outer, henclosing⟩ := enclosing_of_opened hopened
    unfold run ScopeTree.closeScope
    rw [henclosing]
    exact ⟨rfl, rfl, fun _ _ => rfl⟩
  root := by
    intro hroot
    have henclosing := enclosing_eq_nil_iff.mpr hroot
    unfold run ScopeTree.closeScope ScopeTree.insertInParent
    rw [henclosing]
    exact ⟨rfl, fun _ _ => rfl⟩
  faults := by
    intro call f h
    obtain ⟨hroot, heq⟩ := run_of_fault h
    exact ⟨enclosing_eq_nil_iff.mp hroot, heq⟩

end ClassLang.ScopeTree
