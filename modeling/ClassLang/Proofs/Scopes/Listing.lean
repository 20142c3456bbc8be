import ClassLang.Proofs.Scopes.Lines
import ClassLang.Proofs.Scopes.Nesting

/-! # What a listing of scopes says

    A listing is told here from the calls that led to the tree, and the tree from
    its listing.

    * **`Listed`** says which entries the listing after calls has, in which order,
      how deep, and with which bindings.
    * **`SameScopes`**: two histories led to the same scopes, one inside the other
      and filled in the same way.
    * **`dump_faithful`**: every listing is as described, and legible ones are the
      same exactly for the same scopes. -/

namespace ClassLang.ScopeTree

open Token

variable {t u : ScopeTree} {calls calls' : List Call} {call : Call} {n : Nat} {name : String}
  {ty : Ty}

/-! ## Bindings -/

/-- No scope binds a name twice. -/
def Distinct (t : ScopeTree) : Prop :=
  ∀ n s, t.scope? n = some s → (s.bindings.map Prod.fst).Nodup

theorem Change.distinct (h : Change t call u) (ht : t.Distinct) : u.Distinct := by
  intro n s hs
  cases h with
  | none => exact ht n s hs
  | opened =>
    simp only [scope?, openScope, Array.getElem?_push] at hs
    split at hs
    · cases hs
      exact List.nodup_nil
    · exact ht n s hs
  | closed hclose =>
    obtain ⟨_, _, -, rfl⟩ := eq_of_closeScope hclose
    exact ht n s hs
  | @bound _ target name ty _ _ hinsert =>
    obtain ⟨hfree, rfl⟩ := eq_of_insertIn hinsert
    simp only [scope?, Array.getElem?_modify] at hs
    split at hs
    · next htarget =>
      obtain ⟨s', hs', rfl⟩ := Option.map_eq_some_iff.mp hs
      -- the new name was not bound
      have hnew : s'.find? name = Option.none := by
        simpa [lookupIn, scope?, htarget, hs'] using hfree
      exact List.nodup_cons.mpr ⟨lookup_eq_none_iff_names.mp hnew, ht n s' hs'⟩
    · exact ht n s hs

theorem distinct_after (calls : List Call) : (after calls).Distinct := by
  refine after_append_of_change (P := Distinct) (fun h => h.distinct) [] calls ?_
  intro n s hs
  cases n with
  | zero =>
    cases hs
    exact List.nodup_nil
  | succ n => cases hs

/-- An insertion adds no other binding. -/
theorem lookupIn_inserted {target : Nat} {name' : String} {ty' : Ty}
    (h : (t.inserted (t.insertIn target name' ty')).2.lookupIn n name = some ty) :
    t.lookupIn n name = some ty ∨ name' = name ∧ ty' = ty := by
  cases hinsert : t.insertIn target name' ty' with
  | none =>
    rw [hinsert] at h
    exact .inl h
  | some u =>
    rw [hinsert] at h
    change u.lookupIn n name = some ty at h
    rw [lookupIn_insertIn hinsert] at h
    split at h
    · next hsame => exact .inr ⟨hsame.2.1.symm, Option.some.inj h⟩
    · exact .inl h

theorem lookupIn_run (h : (t.run call).2.lookupIn n name = some ty) :
    t.lookupIn n name = some ty ∨ call = .insert name ty ∨ call = .insertInParent name ty := by
  cases call with
  | openScope => exact .inl ((lookupIn_openScope t n name).symm.trans h)
  | closeScope =>
    unfold run at h
    cases hclose : t.closeScope with
    | error f =>
      rw [hclose] at h
      exact .inl h
    | ok u =>
      rw [hclose] at h
      exact .inl ((lookupIn_closeScope hclose n name).symm.trans h)
  | insert name' ty' =>
    rcases lookupIn_inserted h with hold | ⟨rfl, rfl⟩
    · exact .inl hold
    · exact .inr (.inl rfl)
  | insertInParent name' ty' =>
    unfold run ScopeTree.insertInParent at h
    cases henclosing : t.enclosing with
    | nil =>
      rw [henclosing] at h
      exact .inl h
    | cons parent outer =>
      rw [henclosing] at h
      rcases lookupIn_inserted h with hold | ⟨rfl, rfl⟩
      · exact .inl hold
      · exact .inr (.inr rfl)
  | lookup | lookupIn => exact .inl h

/-- What is bound was inserted by a call. -/
theorem inserted_of_lookupIn (h : (after calls).lookupIn n name = some ty) :
    .insert name ty ∈ calls ∨ .insertInParent name ty ∈ calls := by
  induction calls using List.reverseRecOn with
  | nil =>
    -- the new tree has one scope, and nothing in it
    cases n <;> cases h
  | append_singleton calls call ih =>
    rw [after_concat] at h
    rcases lookupIn_run h with hold | rfl | rfl
    · exact (ih hold).imp (List.mem_append_left _) (List.mem_append_left _)
    · exact .inl (List.mem_append_right _ List.mem_cons_self)
    · exact .inr (List.mem_append_right _ List.mem_cons_self)

/-! ## Entries -/

/-- What a listing says of scope `n`. -/
def entry (t : ScopeTree) (n : Nat) : Entry where
  number := n
  depth := (t.around n).length
  bindings := (t.scope? n).elim [] Scope.sorted

/-- What a listing says of all scopes. -/
def entries (t : ScopeTree) : List Entry := (List.range t.scopes.size).map t.entry

theorem entry_of_size_le (h : t.scopes.size ≤ n) : t.entry n = ⟨n, 0, []⟩ := by
  simp [entry, around, scope?, h]

theorem eq_entry_of_mem {e : Entry} (he : e ∈ t.entries) : e = t.entry e.number := by
  obtain ⟨n, -, rfl⟩ := List.mem_map.mp he
  rfl

theorem map_number_entries (t : ScopeTree) :
    t.entries.map Entry.number = List.range t.scopes.size := by
  rw [entries, List.map_map]
  exact List.map_id _

/-- An entry has the bindings of its scope. -/
theorem mem_bindings_entry (ht : t.Distinct) :
    (name, ty) ∈ (t.entry n).bindings ↔ t.lookupIn n name = some ty := by
  cases hs : t.scope? n with
  | none => simp [entry, lookupIn, hs]
  | some s =>
    simp only [entry, hs, Option.elim_some, Scope.sorted, List.mem_mergeSort, lookupIn,
      Option.bind_some, Scope.find?]
    exact (lookup_eq_some_iff_mem (ht n s hs)).symm

/-- The bindings of an entry are in the order of their names. -/
theorem bindings_entry_pairwise (ht : t.Distinct) (n : Nat) :
    (t.entry n).bindings.Pairwise fun a b => a.1 < b.1 := by
  cases hs : t.scope? n with
  | none => simp [entry, hs]
  | some s =>
    -- the order is strict because no name comes twice
    have hle : s.sorted.Pairwise fun a b => decide (a.1 ≤ b.1) = true :=
      List.pairwise_mergeSort (fun a b c => by simpa using le_trans)
        (fun a b => by simpa using le_total a.1 b.1) _
    have hne : (s.sorted.map Prod.fst).Nodup :=
      ((List.mergeSort_perm _ _).map Prod.fst).nodup_iff.mpr (ht n s hs)
    have hentry : (t.entry n).bindings = s.sorted := by simp [entry, hs]
    rw [hentry]
    refine (hle.and (List.pairwise_map.mp hne)).imp fun h => ?_
    exact lt_of_le_of_ne (of_decide_eq_true h.1) h.2

theorem Nested.dump_eq (h : t.Nested) : t.dump = textOf (t.entries.flatMap Entry.lines) := by
  rw [dump, h.linesFrom_root, entries, List.flatMap_map]
  rfl

/-- What a listing has to say of a tree behind these calls. -/
structure Listed (calls : List Call) (entries : List Entry) : Prop where
  /-- Every scope ever opened has an entry, and nothing else has. -/
  complete : ∀ n, n ∈ entries.map Entry.number ↔ n = 0 ∨ ∃ p, OpenedIn calls n p
  /-- The entries are in the order of the numbers, one for each. -/
  ordered : (entries.map Entry.number).Pairwise (· < ·)
  root : ∀ e ∈ entries, e.number = 0 → e.depth = 0
  /-- A scope is one step deeper than the one in which it was opened. -/
  deeper : ∀ e ∈ entries, ∀ e' ∈ entries, OpenedIn calls e.number e'.number →
    e.depth = e'.depth + 1
  bindings : ∀ e ∈ entries, ∀ name ty,
    (name, ty) ∈ e.bindings ↔ (after calls).lookupIn e.number name = some ty
  sorted : ∀ e ∈ entries, e.bindings.Pairwise fun a b => a.1 < b.1

theorem listed_entries (calls : List Call) : Listed calls (after calls).entries where
  complete n := by rw [map_number_entries, List.mem_range, lt_size_iff]
  ordered := by
    rw [map_number_entries]
    exact List.pairwise_lt_range
  root := by
    intro e he hroot
    rw [eq_entry_of_mem he, hroot, entry, (nested_after calls).root, List.length_nil]
  deeper := by
    intro e he e' he' hopened
    rw [eq_entry_of_mem he, eq_entry_of_mem he']
    exact ((nested_after calls).depth_between (openedIn_iff.mp hopened)).1
  bindings := by
    intro e he name ty
    rw [eq_entry_of_mem he]
    exact mem_bindings_entry (distinct_after calls)
  sorted := by
    intro e he
    rw [eq_entry_of_mem he]
    exact bindings_entry_pairwise (distinct_after calls) _

/-! ## What can be told from a listing -/

/-- The names that a call inserts are names, and the classes no keywords. -/
def Call.Legible : Call → Prop
  | .insert name ty | .insertInParent name ty => TokenKind.IsName name ∧ ty.Legible
  | .openScope | .closeScope | .lookup _ | .lookupIn _ _ => True

theorem legible_entries (h : ∀ call ∈ calls, call.Legible) :
    ∀ l ∈ (after calls).entries.flatMap Entry.lines, l.Legible := by
  intro l hl
  obtain ⟨e, he, hl⟩ := List.mem_flatMap.mp hl
  rcases List.mem_cons.mp hl with rfl | hl
  · trivial
  · obtain ⟨⟨name, ty⟩, hbinding, rfl⟩ := List.mem_map.mp hl
    have hbound := ((listed_entries calls).bindings e he name ty).mp hbinding
    rcases inserted_of_lookupIn hbound with hcall | hcall
    · exact h _ hcall
    · exact h _ hcall

/-- Two histories led to the same scopes: as many, opened in the same ones, and
    with the same bindings. -/
structure SameScopes (calls calls' : List Call) : Prop where
  scopes : (after calls).scopes.size = (after calls').scopes.size
  parents : ∀ n p, OpenedIn calls n p ↔ OpenedIn calls' n p
  bindings : ∀ n name, (after calls).lookupIn n name = (after calls').lookupIn n name

/-- Trees with the same entries have the same scopes. -/
theorem sameScopes_of_entries_eq (h : (after calls).entries = (after calls').entries) :
    SameScopes calls calls' := by
  have hsize : (after calls).scopes.size = (after calls').scopes.size := by
    simpa [entries] using congrArg List.length h
  have hentry : ∀ n, (after calls).entry n = (after calls').entry n := by
    intro n
    rcases Nat.lt_or_ge n (after calls).scopes.size with hn | hn
    · rw [entries, entries, ← hsize] at h
      exact List.map_inj_left.mp h n (List.mem_range.mpr hn)
    · rw [entry_of_size_le hn, entry_of_size_le (hsize ▸ hn)]
  have haround : (after calls).around = (after calls').around :=
    (nested_after calls).around_eq_of_depths (nested_after calls') fun n =>
      congrArg Entry.depth (hentry n)
  refine ⟨hsize, ?_, ?_⟩
  · intro n p
    rw [openedIn_iff, openedIn_iff, haround]
  · intro n name
    apply Option.ext
    intro ty
    rw [← mem_bindings_entry (distinct_after calls), hentry,
      mem_bindings_entry (distinct_after calls')]

/-- Trees with the same scopes have the same entries. -/
theorem SameScopes.entries_eq (h : SameScopes calls calls') :
    (after calls).entries = (after calls').entries := by
  have haround : (after calls).around = (after calls').around := by
    refine (nested_after calls).around_eq_of_heads (nested_after calls') fun n => ?_
    apply Option.ext
    intro p
    rw [← openedIn_iff, ← openedIn_iff, h.parents]
  have hbindings : ∀ n, ((after calls).entry n).bindings = ((after calls').entry n).bindings := by
    intro n
    refine (bindings_entry_pairwise (distinct_after calls) n).eq_of_mem_iff
      (bindings_entry_pairwise (distinct_after calls') n) ?_
    rintro ⟨name, ty⟩
    rw [mem_bindings_entry (distinct_after calls), mem_bindings_entry (distinct_after calls'),
      h.bindings]
  rw [entries, entries, h.scopes]
  refine List.map_congr_left fun n _ => ?_
  show Entry.mk n ((after calls).around n).length ((after calls).entry n).bindings = _
  rw [haround, hbindings]
  rfl

/-- **Listings are faithful**: the listing after any calls has one entry for each
    scope ever opened, in the order of their numbers, each a step deeper than the
    one in which it was opened, with its bindings behind it in the order of their
    names.  And where all names can be told apart, two listings are the same
    exactly if the scopes, their nesting and their bindings are. -/
theorem dump_faithful (calls calls' : List Call) :
    (∃ entries, Listed calls entries ∧
      (after calls).dump = textOf (entries.flatMap Entry.lines)) ∧
    ((∀ call ∈ calls, call.Legible) → (∀ call ∈ calls', call.Legible) →
      ((after calls).dump = (after calls').dump ↔ SameScopes calls calls')) := by
  refine ⟨⟨_, listed_entries calls, (nested_after calls).dump_eq⟩, fun hlegible hlegible' => ?_⟩
  rw [(nested_after calls).dump_eq, (nested_after calls').dump_eq]
  constructor
  · -- from the text to the lines, to the entries, to the trees
    intro h
    have hlines := textOf_inj (legible_entries hlegible) (legible_entries hlegible') h
    exact sameScopes_of_entries_eq (Entry.lines_inj hlines)
  · intro h
    rw [h.entries_eq]

/-- A signature whose result is a signature. -/
def curried : Ty := .func (.func .int []) [.object "Point", .bool]

/-- A class with two fields and such a method, and a call that closes one scope too
    many. -/
def pointCalls : List Call :=
  [.openScope, .insert "b" .bool, .insert "a" (.object "Point"), .openScope,
    .insertInParent "m" curried, .closeScope, .closeScope, .closeScope]

/-- Calls to the same scopes in another order, one of them at fault and one refused. -/
def otherCalls : List Call :=
  [.insertInParent "x" .int, .openScope, .insert "a" (.object "Point"), .insert "a" .int,
    .insert "m" curried, .lookup "z", .insert "b" .bool, .openScope]

/-- The same listing shows that both histories led to the same scopes. -/
theorem dump_faithful_point :
    (∀ call ∈ pointCalls, call.Legible) ∧ (∀ call ∈ otherCalls, call.Legible) ∧
    (after pointCalls).dump = "scope 0:\n  scope 1:\n    a: Point\n    b: bool\n" ++
      "    m: (Point, bool) -> () -> int\n    scope 2:\n" ∧
    (after otherCalls).dump = (after pointCalls).dump ∧
    SameScopes pointCalls otherCalls := by
  have hname : ∀ name ∈ ["a", "b", "m", "x"], TokenKind.IsName name := by
    intro name hmem
    simp only [List.mem_cons, List.not_mem_nil, or_false] at hmem
    rcases hmem with rfl | rfl | rfl | rfl <;> exact ⟨_, [], rfl, .inl (by decide), by simp⟩
  have hpoint : (TokenKind.ident "Point").Writable := by
    refine ⟨⟨'P', ['o', 'i', 'n', 't'], by decide, by decide, by simp⟩, ?_⟩
    intro kind h
    cases kind with
    | num | ident => cases h
    | _ => exact absurd h (by decide)
  have hty : ∀ ty ∈ [Ty.int, .bool, .object "Point", curried], ty.Legible := by
    simpa [Ty.Legible, curried, Ty.identifiers, Ty.identifiersAll] using hpoint
  have hlegible : ∀ call ∈ pointCalls, call.Legible := by
    simp [pointCalls, Call.Legible, hname, hty]
  have hlegible' : ∀ call ∈ otherCalls, call.Legible := by
    simp [otherCalls, Call.Legible, hname, hty]
  have hdump : (after pointCalls).dump = "scope 0:\n  scope 1:\n    a: Point\n    b: bool\n" ++
      "    m: (Point, bool) -> () -> int\n    scope 2:\n" := by cbv
  have hagain : (after otherCalls).dump = (after pointCalls).dump := by
    rw [hdump]
    cbv
  exact ⟨hlegible, hlegible', hdump, hagain,
    ((dump_faithful pointCalls otherCalls).2 hlegible hlegible').mp hagain.symm⟩

end ClassLang.ScopeTree
