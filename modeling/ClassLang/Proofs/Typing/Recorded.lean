import Mathlib.Data.List.Basic
import ClassLang.Proofs.Lowering.Run

/-! # What the tables of a checked program are

    Checking opens, fills and closes scopes on its way through a program.  What
    it leaves behind can be read off the declarations alone.

    * **`Method.scope`**, **`ClassDecl.scopes`** and **`ClassDecl.allScopes`**
      are the scopes that a method, a class and a list of classes leave behind,
      **`ClassDecl.entries`** the entries of the classes.
    * **`Method.check_tables`**, **`ClassDecl.check_tables`** and
      **`Program.check_tables`**: checking leaves just these, wherever in the
      tree of scopes it starts.
    * **`Tables.Records`** says in terms of lookups what it means that tables
      record a program, and **`Program.tables_record`** that those of an
      accepted program do. -/

namespace ClassLang

/-! ## Filling one scope of many -/

/-- The scope with more bindings, in the order in which they are made. -/
def Scope.bindAll (s : Scope) (bs : List (String × Ty)) : Scope :=
  { s with bindings := bs.reverse ++ s.bindings }

/-- Bindings are made one after another. -/
theorem Scope.bindAll_cons (s : Scope) (name : String) (ty : Ty) (bs : List (String × Ty)) :
    s.bindAll ((name, ty) :: bs) = (s.bind name ty).bindAll bs := by
  simp [bindAll, bind]

namespace ScopeTree

variable {front rest : List Scope} {s : Scope} {current : Nat} {enclosing : List Nat}

theorem openScope_mk (scopes : List Scope) :
    openScope ⟨scopes.toArray, current, enclosing⟩ =
      ⟨(scopes ++ [({ enclosing := current :: enclosing } : Scope)]).toArray, scopes.length,
        current :: enclosing⟩ := by
  simp [openScope]

/-- Inserting a name changes one scope of all. -/
theorem insertIn_mk {name : String} {ty : Ty} {u : ScopeTree}
    (h : insertIn ⟨(front ++ s :: rest).toArray, current, enclosing⟩ front.length name ty = some u) :
    u = ⟨(front ++ s.bind name ty :: rest).toArray, current, enclosing⟩ := by
  have hmodify : (front ++ s :: rest).modify front.length (·.bind name ty) =
      front ++ s.bind name ty :: rest := by
    have hadd := List.modifyTailIdx_add (List.modifyHead (·.bind name ty)) 0 front (s :: rest)
    simpa [List.modify] using hadd
  unfold insertIn at h
  split at h
  · cases h
  · cases h
    simp [hmodify]

/-- Inserting names into the current scope changes this one only. -/
theorem insertAll_mk {bs : List (String × Ty)} {u : ScopeTree}
    (h : insertAll ⟨(front ++ s :: rest).toArray, front.length, enclosing⟩ bs = some u) :
    u = ⟨(front ++ s.bindAll bs :: rest).toArray, front.length, enclosing⟩ := by
  induction bs generalizing s with
  | nil =>
    cases h
    rfl
  | cons b bs ih =>
    obtain ⟨name, ty⟩ := b
    obtain ⟨v, hv, hu⟩ := Option.bind_eq_some_iff.mp h
    cases insertIn_mk hv
    rw [ih hu, Scope.bindAll_cons]

end ScopeTree

/-! ## Declarations -/

namespace Tables

variable {t u : Tables}

/-- A type that is accepted is the one that is written. -/
theorem eq_ofName_of_typeOf {name : TypeName} {line : Nat} {ty : Ty}
    (h : t.typeOf name line = .ok ty) : ty = .ofName name := by
  cases name with
  | cls cls =>
    simp only [typeOf] at h
    split at h
    · exact (Except.ok.inj h).symm
    · cases h
  | int | bool | nothing => exact (Except.ok.inj h).symm

theorem declare_inserts {d : Declaration} (h : t.declare d = .ok u) :
    ∃ s, t.scopes.insertAll (d.names.map (·, .ofName d.ty)) = some s ∧ u = ⟨s, t.classes⟩ := by
  obtain ⟨ty, hty, h⟩ := except_bind_ok_iff.mp h
  cases eq_ofName_of_typeOf hty
  split at h
  · next s hs =>
    cases h
    exact ⟨s, hs, rfl⟩
  · cases h

theorem declareField_inserts {cls : String} {d : Declaration} (h : t.declareField cls d = .ok u) :
    ∃ s, t.scopes.insertAll (d.names.map (·, .ofName d.ty)) = some s ∧ u = ⟨s, t.classes⟩ := by
  obtain ⟨ty, _, h⟩ := except_bind_ok_iff.mp h
  split at h
  · cases h
  · exact declare_inserts h

/-- Declarations insert their variables in order. -/
theorem foldlM_inserts {step : Tables → Declaration → Except Violation Tables}
    (hstep : ∀ {v w : Tables} {d : Declaration}, step v d = .ok w →
      ∃ s, v.scopes.insertAll (d.names.map (·, .ofName d.ty)) = some s ∧ w = ⟨s, v.classes⟩)
    {decls : List Declaration} (h : decls.foldlM step t = .ok u) :
    ∃ s, t.scopes.insertAll (Declaration.variables decls) = some s ∧ u = ⟨s, t.classes⟩ := by
  induction decls generalizing t with
  | nil =>
    cases h
    exact ⟨_, rfl, rfl⟩
  | cons d rest ih =>
    rw [List.foldlM_cons] at h
    obtain ⟨v, hv, h⟩ := except_bind_ok_iff.mp h
    obtain ⟨s, hs, rfl⟩ := hstep hv
    obtain ⟨s', hs', rfl⟩ := ih h
    refine ⟨s', ?_, rfl⟩
    have hvars : Declaration.variables (d :: rest) =
        d.names.map (·, .ofName d.ty) ++ Declaration.variables rest := rfl
    rw [hvars, ScopeTree.insertAll_append, hs]
    exact hs'

end Tables

/-! ## The scopes that a program leaves behind -/

/-- The scope of a method inside these others. -/
def Method.scope (enclosing : List Nat) (m : Method) : Scope where
  enclosing := enclosing
  bindings := m.variables.reverse

/-- The scopes of a class whose own is number `number`: its own one, and then
    one for each of its methods. -/
def ClassDecl.scopes (number : Nat) (c : ClassDecl) : List Scope :=
  ⟨[0], c.interface.members.reverse⟩ :: c.methods.map (Method.scope [number, 0])

/-- The scopes of classes, the first of which is number `number`. -/
def ClassDecl.allScopes (number : Nat) : List ClassDecl → List Scope
  | [] => []
  | c :: rest => c.scopes number ++ allScopes (number + (1 + c.methods.length)) rest

/-- The entries of classes, the first being class number `index` with scope
    number `number`. -/
def ClassDecl.entries (index number : Nat) : List ClassDecl → List ClassEntry
  | [] => []
  | c :: rest => ⟨c.name, c.superclass, index, number⟩ ::
      entries (index + 1) (number + (1 + c.methods.length)) rest

namespace Method

variable {front rest : List Scope} {s : Scope} {enclosing : List Nat} {classes : Hierarchy}
  {u : Tables}

/-- Entering a method opens a scope with its variables. -/
theorem enter_tables {scopes : List Scope} {current : Nat} {m : Method}
    (h : m.enter ⟨⟨scopes.toArray, current, enclosing⟩, classes⟩ = .ok u) :
    u = ⟨⟨(scopes ++ [m.scope (current :: enclosing)]).toArray, scopes.length,
      current :: enclosing⟩, classes⟩ := by
  obtain ⟨_, _, h⟩ := except_bind_ok_iff.mp h
  obtain ⟨s, hs, rfl⟩ := Tables.foldlM_inserts Tables.declare_inserts h
  simp only [Tables.openScope, ScopeTree.openScope_mk, Tables.variables_declarations] at hs
  rw [ScopeTree.insertAll_mk hs]
  simp [Scope.bindAll, scope, Tables.openScope]

/-- Publishing a method binds it in the scope around, and leaves its own. -/
theorem publish_tables {cls : String} {m m' : Method} {current : Nat}
    (h : (m.publish cls ⟨⟨(front ++ s :: rest).toArray, current, front.length :: enclosing⟩,
      classes⟩).Yields m' u) :
    m' = m ∧ u = ⟨⟨(front ++ s.bind m.name m.signature :: rest).toArray, front.length, enclosing⟩,
      classes⟩ := by
  unfold publish at h
  rw [Outcome.after_yields] at h
  cases hs : ScopeTree.insertIn ⟨(front ++ s :: rest).toArray, current, front.length :: enclosing⟩
      front.length m.name m.signature with
  | none =>
    simp only [ScopeTree.insertInParent, hs] at h
    exact absurd h Outcome.violated_yields
  | some scopes =>
    cases ScopeTree.insertIn_mk hs
    simp only [ScopeTree.insertInParent, hs, Tables.closeScope, ScopeTree.closeScope,
      Outcome.yields_mk, Except.ok.injEq] at h
    exact ⟨h.1.symm, h.2.symm⟩

/-- Checking a method binds it in the scope of its class and adds its own
    scope. -/
theorem check_tables {cls : String} {m m' : Method}
    (h : (m.check cls ⟨⟨(front ++ s :: rest).toArray, front.length, enclosing⟩, classes⟩).Yields
      m' u) :
    u = ⟨⟨(front ++ s.bind m.name m.signature :: (rest ++ [m.scope (front.length :: enclosing)])
      ).toArray, front.length, enclosing⟩, classes⟩ := by
  unfold check at h
  split at h
  · exact absurd h Outcome.stop_yields
  · next inside henter =>
    cases enter_tables henter
    obtain ⟨body, _, _, h⟩ := Outcome.andThen_yields.mp h
    obtain ⟨value, ty, _, h⟩ := Outcome.andThen_yields.mp h
    dsimp only at h
    split at h
    · rw [List.append_assoc, List.cons_append] at h
      exact (publish_tables h).2
    · exact absurd h Outcome.violated_yields

/-- Checking methods binds them in order, and adds their scopes in order. -/
theorem checkAll_tables {cls : String} {methods methods' : List Method}
    (h : (checkAll cls ⟨⟨(front ++ s :: rest).toArray, front.length, enclosing⟩, classes⟩
      methods).Yields methods' u) :
    u = ⟨⟨(front ++ s.bindAll (methods.map fun m => (m.name, m.signature)) ::
      (rest ++ methods.map (scope (front.length :: enclosing)))).toArray, front.length, enclosing⟩,
      classes⟩ := by
  induction methods generalizing s rest methods' with
  | nil =>
    obtain ⟨_, rfl⟩ := Outcome.done_yields.mp h
    simp [Scope.bindAll]
  | cons m methods ih =>
    obtain ⟨_, v, hm, h⟩ := Outcome.andThen_yields.mp h
    obtain ⟨_, w, hr, h⟩ := Outcome.andThen_yields.mp h
    obtain ⟨_, rfl⟩ := Outcome.done_yields.mp h
    -- the scope of the class stays at its place, with one binding more
    cases check_tables hm
    rw [ih hr, List.map_cons, List.map_cons, Scope.bindAll_cons, List.append_assoc,
      List.singleton_append]

end Method

namespace ClassDecl

variable {scopes : List Scope} {classes : Hierarchy} {u : Tables}

/-- Checking a class adds its entry and its scopes, and the root is current
    again. -/
theorem check_tables {index : Nat} {c c' : ClassDecl}
    (h : (c.check index ⟨⟨scopes.toArray, 0, []⟩, classes⟩).Yields c' u) :
    u = ⟨⟨(scopes ++ c.scopes scopes.length).toArray, 0, []⟩,
      classes.insert ⟨c.name, c.superclass, index, scopes.length⟩⟩ := by
  unfold check at h
  split at h
  · exact absurd h Outcome.stop_yields
  · next v hreg =>
    -- the scope of the class is open, and the class is registered with it
    have hv : v = ⟨⟨(scopes ++ [({ enclosing := [0] } : Scope)]).toArray, scopes.length, [0]⟩,
        classes.insert ⟨c.name, c.superclass, index, scopes.length⟩⟩ := by
      unfold Tables.register at hreg
      split at hreg
      · cases hreg
      · split at hreg
        · cases hreg
        · cases hreg
          simp [Tables.openScope, ScopeTree.openScope]
    rw [Outcome.after_yields] at h
    unfold checkMembers at h
    split at h
    · exact absurd h Outcome.stop_yields
    · next w hfields =>
      obtain ⟨filled, hfilled, rfl⟩ := Tables.foldlM_inserts Tables.declareField_inserts hfields
      subst hv
      cases ScopeTree.insertAll_mk hfilled
      obtain ⟨methods', x, hm, h⟩ := Outcome.andThen_yields.mp h
      cases Method.checkAll_tables hm
      have hu := (Outcome.yields_mk.mp h).2
      cases hu
      simp [ClassDecl.scopes, Scope.bindAll, Interface.members, interface]

/-- Checking classes adds their entries and their scopes in order. -/
theorem checkAll_tables {index : Nat} {decls decls' : List ClassDecl}
    (h : (checkAll index ⟨⟨scopes.toArray, 0, []⟩, classes⟩ decls).Yields decls' u) :
    u = ⟨⟨(scopes ++ allScopes scopes.length decls).toArray, 0, []⟩,
      ⟨(entries index scopes.length decls).reverse ++ classes.entries⟩⟩ := by
  induction decls generalizing scopes classes index decls' with
  | nil =>
    obtain ⟨_, rfl⟩ := Outcome.done_yields.mp h
    simp [allScopes, entries]
  | cons c rest ih =>
    obtain ⟨_, v, hc, h⟩ := Outcome.andThen_yields.mp h
    obtain ⟨_, w, hr, h⟩ := Outcome.andThen_yields.mp h
    obtain ⟨_, rfl⟩ := Outcome.done_yields.mp h
    -- the root is current once more, so that the rest starts like the first class
    cases check_tables hc
    have hlength : (scopes ++ c.scopes scopes.length).length =
        scopes.length + (1 + c.methods.length) := by
      simp [ClassDecl.scopes, Nat.add_comm]
    rw [ih hr, hlength]
    simp [allScopes, entries, Hierarchy.insert]

end ClassDecl

/-! ## Reading the scopes by their numbers -/

namespace ClassDecl

/-- The number of scopes that classes leave behind. -/
def scopeCount (classes : List ClassDecl) : Nat :=
  classes.length + (classes.map (·.methods.length)).sum

@[simp] theorem scopeCount_nil : scopeCount [] = 0 := rfl

theorem scopeCount_cons (c : ClassDecl) (rest : List ClassDecl) :
    scopeCount (c :: rest) = (1 + c.methods.length) + scopeCount rest := by
  simp [scopeCount]
  omega

@[simp] theorem length_scopes (number : Nat) (c : ClassDecl) :
    (c.scopes number).length = 1 + c.methods.length := by
  simp [scopes, Nat.add_comm]

@[simp] theorem length_allScopes (number : Nat) (classes : List ClassDecl) :
    (allScopes number classes).length = scopeCount classes := by
  induction classes generalizing number with
  | nil => rfl
  | cons c rest ih => simp [allScopes, scopeCount_cons, ih]

theorem allScopes_append (number : Nat) (first second : List ClassDecl) :
    allScopes number (first ++ second) =
      allScopes number first ++ allScopes (number + scopeCount first) second := by
  induction first generalizing number with
  | nil => simp [allScopes, scopeCount]
  | cons c rest ih =>
    simp only [List.cons_append, allScopes, ih, List.append_assoc, scopeCount_cons, Nat.add_assoc]

/-- Every scope of classes is one of those of some class. -/
theorem exists_of_lt_scopeCount {classes : List ClassDecl} {n : Nat} (h : n < scopeCount classes) :
    ∃ i c k, classes[i]? = some c ∧ k < 1 + c.methods.length ∧
      n = scopeCount (classes.take i) + k := by
  induction classes generalizing n with
  | nil => cases h
  | cons c rest ih =>
    rw [scopeCount_cons] at h
    by_cases hn : n < 1 + c.methods.length
    · exact ⟨0, c, n, rfl, hn, by simp⟩
    · obtain ⟨i, d, k, hi, hk, heq⟩ := ih (n := n - (1 + c.methods.length)) (by omega)
      refine ⟨i + 1, d, k, hi, hk, ?_⟩
      rw [List.take_succ_cons, scopeCount_cons]
      omega

/-- The scopes of classes are opened in the root and in scopes of these
    classes. -/
theorem enclosing_of_mem_allScopes {number n : Nat} {classes : List ClassDecl} {s : Scope}
    (hs : s ∈ allScopes number classes) (hn : s.enclosing.head? = some n) :
    n = 0 ∨ number ≤ n ∧ n < number + scopeCount classes := by
  induction classes generalizing number with
  | nil => cases hs
  | cons c rest ih =>
    rw [scopeCount_cons]
    rcases List.mem_append.mp hs with hs | hs
    · rcases List.mem_cons.mp hs with rfl | hs
      · cases hn
        exact Or.inl rfl
      · obtain ⟨m, _, rfl⟩ := List.mem_map.mp hs
        cases hn
        exact Or.inr ⟨Nat.le_refl _, by omega⟩
    · rcases ih hs with h0 | ⟨hle, hlt⟩
      · exact Or.inl h0
      · exact Or.inr ⟨by omega, by omega⟩

theorem entries_eq_mapIdx (index number : Nat) (classes : List ClassDecl) :
    entries index number classes = classes.mapIdx fun i c =>
      ⟨c.name, c.superclass, index + i, number + scopeCount (classes.take i)⟩ := by
  induction classes generalizing index number with
  | nil => rfl
  | cons c rest ih =>
    rw [entries, ih, List.mapIdx_cons]
    simp only [List.take_zero, List.take_succ_cons, scopeCount_cons, scopeCount_nil,
      Nat.add_zero, Nat.add_assoc, Nat.add_comm, Nat.add_left_comm]

theorem map_name_entries (index number : Nat) (classes : List ClassDecl) :
    (entries index number classes).map ClassEntry.name = classes.map name := by
  induction classes generalizing index number with
  | nil => rfl
  | cons c rest ih => simp only [entries, List.map_cons, ih]

/-- Attributes are of no concern to what a class leaves behind. -/
theorem allScopes_erase (number : Nat) (classes : List ClassDecl) :
    allScopes number (classes.map erase) = allScopes number classes := by
  induction classes generalizing number with
  | nil => rfl
  | cons c rest ih =>
    have hmethods : c.erase.methods = c.methods.map Method.erase := rfl
    have hscopes : c.erase.scopes number = c.scopes number := by
      simp only [scopes, erase_interface, hmethods, List.map_map]
      rfl
    simp only [List.map_cons, allScopes, hscopes, hmethods, List.length_map, ih]

theorem entries_erase (index number : Nat) (classes : List ClassDecl) :
    entries index number (classes.map erase) = entries index number classes := by
  induction classes generalizing index number with
  | nil => rfl
  | cons c rest ih =>
    have hmethods : c.erase.methods = c.methods.map Method.erase := rfl
    simp only [List.map_cons, entries, ih, hmethods, List.length_map]
    rfl

/-- Classes that follow the rules have names of their own. -/
theorem AllDerive.names_nodup {mark : Mark} {known : Known} {classes : List ClassDecl}
    (h : AllDerive mark known classes) :
    (classes.map name).Nodup ∧ ∀ c ∈ classes, ¬ known.Declares c.name := by
  induction classes generalizing known with
  | nil => simp
  | cons c rest ih =>
    obtain ⟨hnd, hnew⟩ := ih h.2
    simp only [Known.declares_cons, not_or] at hnew
    refine ⟨List.nodup_cons.mpr ⟨?_, hnd⟩, ?_⟩
    · intro hmem
      obtain ⟨d, hd, hname⟩ := List.mem_map.mp hmem
      exact (hnew d hd).1 hname.symm
    · intro d hd
      rcases List.mem_cons.mp hd with rfl | hd
      · exact h.1.name
      · exact (hnew d hd).2

end ClassDecl

/-- The numbers of the scopes that were opened directly inside a scope, in the
    order in which they were opened. -/
def ScopeTree.children (t : ScopeTree) (number : Nat) : List Nat :=
  t.scopes.toList.findIdxs fun s => s.enclosing.head? == some number

/-- Where names are distinct, what is found are the entries. -/
theorem Hierarchy.find?_eq_some_iff {h : Hierarchy} (hnd : (h.entries.map ClassEntry.name).Nodup)
    {name : String} {e : ClassEntry} : h.find? name = some e ↔ e ∈ h.entries ∧ e.name = name := by
  rw [find?]
  generalize h.entries = entries at hnd
  induction entries with
  | nil => simp
  | cons d rest ih =>
    obtain ⟨hd, hnd⟩ := List.nodup_cons.mp hnd
    by_cases hname : d.name = name
    · have hrest : ∀ e ∈ rest, e.name ≠ name := fun e he heq =>
        hd (List.mem_map.mpr ⟨e, he, heq.trans hname.symm⟩)
      simp only [List.find?_cons, hname, beq_self_eq_true, Option.some.injEq, List.mem_cons]
      constructor
      · rintro rfl
        exact ⟨Or.inl rfl, hname⟩
      · rintro ⟨rfl | he, heq⟩
        · rfl
        · exact absurd heq (hrest e he)
    · have hb : (d.name == name) = false := by simpa using hname
      rw [List.find?_cons, hb, ih hnd, List.mem_cons]
      constructor
      · rintro ⟨he, heq⟩
        exact ⟨Or.inr he, heq⟩
      · rintro ⟨rfl | he, heq⟩
        · exact absurd heq hname
        · exact ⟨he, heq⟩

/-- Scopes that all qualify are found at all their places. -/
theorem findIdxs_of_forall {α : Type} {q : α → Bool} {xs : List α} (h : ∀ x ∈ xs, q x = true)
    (start : Nat) : xs.findIdxs q start = List.range' start xs.length := by
  induction xs generalizing start with
  | nil => rfl
  | cons x rest ih =>
    obtain ⟨hx, hrest⟩ := List.forall_mem_cons.mp h
    rw [List.findIdxs_cons, if_pos hx, ih hrest, List.length_cons, List.range'_succ]

/-! ## Tables that record a program -/

/-- The number of the scope of class number `i`: the root, the classes before
    it and their methods have the smaller ones. -/
def Program.scopeNumber (p : Program) (i : Nat) : Nat :=
  1 + i + ((p.classes.take i).map (·.methods.length)).sum

/-- A scope binds these names with these types, each once, and no other. -/
structure Scope.BindsExactly (s : Scope) (bs : List (String × Ty)) : Prop where
  once : (s.bindings.map (·.1)).Nodup
  found : ∀ x ty, s.find? x = some ty ↔ (x, ty) ∈ bs

/-- The tables record the program, all of it and nothing else. -/
structure Tables.Records (t : Tables) (p : Program) : Prop where
  /-- The entries, the newest first, are those of the classes. -/
  entries : t.classes.entries.reverse =
    p.classes.mapIdx fun i c => ⟨c.name, c.superclass, i, p.scopeNumber i⟩
  /-- What is found under a name is the entry of the one class of this name. -/
  found : ∀ name e, t.classes.find? name = some e ↔
    ∃ i c, p.classes[i]? = some c ∧ c.name = name ∧
      e = ⟨c.name, c.superclass, i, p.scopeNumber i⟩
  /-- There is one scope for the root, one for each class and one for each
      method. -/
  size : t.scopes.scopes.size =
    1 + p.classes.length + (p.classes.map (·.methods.length)).sum
  /-- Each number is that of the root, of a class or of a method. -/
  each : ∀ n < t.scopes.scopes.size, n = 0 ∨ ∃ i c, p.classes[i]? = some c ∧
    (n = p.scopeNumber i ∨ ∃ j < c.methods.length, n = p.scopeNumber i + 1 + j)
  /-- The root binds nothing and is in no other scope. -/
  root : t.scopes.scope? 0 = some {}
  /-- The root is current again. -/
  current : t.scopes.current = 0
  enclosing : t.scopes.enclosing = []
  /-- The scope of a class binds its fields with their types and its methods
      with their signatures. -/
  classScope : ∀ i c, p.classes[i]? = some c →
    ∃ s, t.scopes.scope? (p.scopeNumber i) = some s ∧ s.enclosing = [0] ∧
      s.BindsExactly (Declaration.variables c.fields ++
        c.methods.map fun m => (m.name, m.signature))
  /-- Its children are the scopes of its methods. -/
  children : ∀ i c, p.classes[i]? = some c →
    t.scopes.children (p.scopeNumber i) = List.range' (p.scopeNumber i + 1) c.methods.length
  /-- The scope of a method binds its parameters and its locals. -/
  methodScope : ∀ i c, p.classes[i]? = some c → ∀ j m, c.methods[j]? = some m →
    ∃ s, t.scopes.scope? (p.scopeNumber i + 1 + j) = some s ∧
      s.enclosing = [p.scopeNumber i, 0] ∧
      s.BindsExactly (Param.variables m.params ++ Declaration.variables m.locals)

/-- Bindings with names of their own are what a scope of them binds. -/
theorem Scope.bindsExactly_reverse {enclosing : List Nat} {bs : List (String × Ty)}
    (h : (bs.map (·.1)).Nodup) : (Scope.mk enclosing bs.reverse).BindsExactly bs := by
  have hnd : (bs.reverse.map (·.1)).Nodup := by
    rw [List.map_reverse, List.nodup_reverse]
    exact h
  refine ⟨hnd, ?_⟩
  intro x ty
  constructor
  · intro hfind
    exact List.mem_reverse.mp (mem_of_lookup hfind)
  · intro hmem
    exact lookup_of_mem hnd (List.mem_reverse.mpr hmem)

namespace Program

variable {p : Program}

theorem scopeNumber_eq {i : Nat} (hi : i < p.classes.length) :
    p.scopeNumber i = 1 + ClassDecl.scopeCount (p.classes.take i) := by
  rw [ClassDecl.scopeCount, List.length_take_of_le hi.le, scopeNumber, Nat.add_assoc]

/-- The tables that checking a program leaves behind. -/
def recorded (p : Program) : Tables where
  scopes := ⟨({} :: ClassDecl.allScopes 1 p.classes).toArray, 0, []⟩
  classes := ⟨(ClassDecl.entries 0 1 p.classes).reverse⟩

theorem recorded_erase (p : Program) : p.erase.recorded = p.recorded := by
  have hclasses : p.erase.classes = p.classes.map ClassDecl.erase := rfl
  simp only [recorded, hclasses, ClassDecl.allScopes_erase, ClassDecl.entries_erase]

/-- Checking leaves behind the tables of the program. -/
theorem check_tables {p' : Program} {t : Tables} (h : p.check.Yields p' t) : t = p.recorded := by
  obtain ⟨classes', u, hc, h⟩ := Outcome.andThen_yields.mp h
  have hu := @ClassDecl.checkAll_tables [{}] _ _ _ _ _ hc
  dsimp only at h
  split at h
  · exact absurd h Outcome.stop_yields
  · obtain ⟨_, rfl⟩ := Outcome.done_yields.mp h
    simpa [recorded] using hu

/-- The scopes before those of a class, those of the class, and those after
    them. -/
theorem exists_scopes {i : Nat} {c : ClassDecl} (hi : p.classes[i]? = some c) :
    ∃ front back, {} :: ClassDecl.allScopes 1 p.classes =
        front ++ (c.scopes (p.scopeNumber i) ++ back) ∧
      front.length = p.scopeNumber i ∧
      (∀ s ∈ front, ∀ n, s.enclosing.head? = some n → n < p.scopeNumber i) ∧
      ∀ s ∈ back, ∀ n, s.enclosing.head? = some n → n ≠ p.scopeNumber i := by
  obtain ⟨hlt, rfl⟩ := List.getElem?_eq_some_iff.mp hi
  have hsplit : p.classes = p.classes.take i ++ p.classes[i] :: p.classes.drop (i + 1) := by
    rw [List.getElem_cons_drop, List.take_append_drop]
  have hnumber := (scopeNumber_eq hlt).symm
  refine ⟨{} :: ClassDecl.allScopes 1 (p.classes.take i),
    ClassDecl.allScopes (p.scopeNumber i + (1 + p.classes[i].methods.length))
      (p.classes.drop (i + 1)), ?_, ?_, ?_, ?_⟩
  · conv_lhs => rw [hsplit, ClassDecl.allScopes_append, hnumber, ClassDecl.allScopes]
    rfl
  · rw [List.length_cons, ClassDecl.length_allScopes, Nat.add_comm]
    exact hnumber
  · intro s hs n hn
    rcases List.mem_cons.mp hs with rfl | hs
    · cases hn
    · have := ClassDecl.enclosing_of_mem_allScopes hs hn
      omega
  · intro s hs n hn
    have := ClassDecl.enclosing_of_mem_allScopes hs hn
    omega

/-- The children of the scope of a class are the scopes of its methods. -/
theorem recorded_children {i : Nat} {c : ClassDecl} (hi : p.classes[i]? = some c) :
    p.recorded.scopes.children (p.scopeNumber i) =
      List.range' (p.scopeNumber i + 1) c.methods.length := by
  obtain ⟨front, back, hscopes, hlength, hfront, hback⟩ := exists_scopes hi
  -- no scope before those of the class and none after them was opened in it
  have hbefore : front.findIdxs (fun s => s.enclosing.head? == some (p.scopeNumber i)) 0 = [] := by
    rw [List.findIdxs_eq_nil_iff]
    intro s hs
    simpa using fun h => Nat.lt_irrefl _ (hfront s hs _ h)
  have hafter : ∀ start,
      back.findIdxs (fun s => s.enclosing.head? == some (p.scopeNumber i)) start = [] := by
    intro start
    rw [List.findIdxs_eq_nil_iff]
    intro s hs
    simpa using fun h => hback s hs _ h rfl
  -- neither was its own, which is in the root
  have hpos : 0 ≠ p.scopeNumber i := by
    rw [scopeNumber]
    omega
  have hmethods : ∀ s ∈ c.methods.map (Method.scope [p.scopeNumber i, 0]),
      (s.enclosing.head? == some (p.scopeNumber i)) = true := by
    intro s hs
    obtain ⟨m, _, rfl⟩ := List.mem_map.mp hs
    simp [Method.scope]
  rw [recorded, ScopeTree.children, hscopes]
  simp [List.findIdxs_append, hbefore, hafter, ClassDecl.scopes, hpos, hlength,
    findIdxs_of_forall hmethods]

/-- The scope that stands at a place counted from that of a class. -/
theorem recorded_scope? {i : Nat} {c : ClassDecl} (hi : p.classes[i]? = some c) {k : Nat} {s : Scope}
    (hs : (c.scopes (p.scopeNumber i))[k]? = some s) :
    p.recorded.scopes.scope? (p.scopeNumber i + k) = some s := by
  obtain ⟨front, back, hscopes, hlength, _, _⟩ := exists_scopes hi
  have hk := (List.getElem?_eq_some_iff.mp hs).1
  rw [recorded, ScopeTree.scope?, List.getElem?_toArray, hscopes, ← hlength,
    List.getElem?_append_right (Nat.le_add_right _ _), Nat.add_sub_cancel_left,
    List.getElem?_append_left (hlength ▸ hk), hlength]
  exact hs

/-- The tables of a program that follows the rules record it. -/
theorem Derives.recorded_records {mark : Mark} (h : p.Derives mark) : p.recorded.Records p := by
  have hentries : p.recorded.classes.entries.reverse =
      p.classes.mapIdx fun i c => ⟨c.name, c.superclass, i, p.scopeNumber i⟩ := by
    rw [recorded, List.reverse_reverse, ClassDecl.entries_eq_mapIdx]
    refine List.mapIdx_eq_mapIdx_iff.mpr ?_
    intro i hi
    rw [Nat.zero_add, scopeNumber_eq hi]
  have hnames : (p.recorded.classes.entries.map ClassEntry.name).Nodup := by
    rw [recorded, List.map_reverse, List.nodup_reverse, ClassDecl.map_name_entries]
    exact h.classes.names_nodup.1
  have hsize : p.recorded.scopes.scopes.size = 1 + ClassDecl.scopeCount p.classes := by
    simp [recorded, Nat.add_comm]
  refine {
    entries := hentries
    found := ?_
    size := by rw [hsize, ClassDecl.scopeCount, Nat.add_assoc]
    each := ?_
    root := rfl
    current := rfl
    enclosing := rfl
    classScope := ?_
    children := fun i c hi => recorded_children hi
    methodScope := ?_ }
  · intro name e
    rw [Hierarchy.find?_eq_some_iff hnames, ← List.mem_reverse, hentries, List.mem_mapIdx]
    constructor
    · rintro ⟨⟨i, hi, rfl⟩, rfl⟩
      exact ⟨i, _, List.getElem?_eq_getElem hi, rfl, rfl⟩
    · rintro ⟨i, c, hi, rfl, rfl⟩
      obtain ⟨hlt, rfl⟩ := List.getElem?_eq_some_iff.mp hi
      exact ⟨⟨i, hlt, rfl⟩, rfl⟩
  · intro n hn
    rw [hsize] at hn
    rcases Nat.eq_zero_or_pos n with rfl | hpos
    · exact Or.inl rfl
    · have hlt : n - 1 < ClassDecl.scopeCount p.classes := by omega
      obtain ⟨i, c, k, hi, hk, heq⟩ := ClassDecl.exists_of_lt_scopeCount hlt
      have hnumber := scopeNumber_eq (List.getElem?_eq_some_iff.mp hi).1
      refine Or.inr ⟨i, c, hi, ?_⟩
      cases k with
      | zero => exact Or.inl (by omega)
      | succ j => exact Or.inr ⟨j, by omega, by omega⟩
  · intro i c hi
    obtain ⟨_, hc⟩ := h.classes.of_mem (List.mem_of_getElem? hi)
    exact ⟨_, recorded_scope? (k := 0) hi rfl, rfl, Scope.bindsExactly_reverse hc.distinct⟩
  · -- the scope of a method stands behind that of its class
    intro i c hi j m hj
    obtain ⟨_, hc⟩ := h.classes.of_mem (List.mem_of_getElem? hi)
    obtain ⟨before, after, hmethods⟩ := List.append_of_mem (List.mem_of_getElem? hj)
    have hm := (hmethods ▸ hc.methods :
      c.MethodsDerive mark _ [] (before ++ m :: after)).split
    have hs : (c.scopes (p.scopeNumber i))[j + 1]? = some (m.scope [p.scopeNumber i, 0]) := by
      simp [ClassDecl.scopes, hj]
    refine ⟨_, ?_, rfl, Scope.bindsExactly_reverse hm.distinct⟩
    rw [Nat.add_assoc, Nat.add_comm 1]
    exact recorded_scope? hi hs

/-- The tables of an accepted program record this program, all of it and
    nothing else. -/
theorem tables_record {source : String} {a : Analysis} (h : analyze source = .ok a) :
    a.tables.Records a.program := by
  obtain ⟨p, hp, hy⟩ := exists_of_analyze h
  obtain ⟨herase, hd, _⟩ := check_sound (erase_of_ofSource hp) hy
  rw [check_tables hy, ← herase, recorded_erase]
  exact hd.recorded_records

theorem tables_record_sample : ∃ a, analyze sample = .ok a ∧ a.tables.Records a.program := by
  obtain ⟨a, ha, _⟩ := sample_accepted
  exact ⟨a, ha, tables_record ha⟩

end Program

end ClassLang
