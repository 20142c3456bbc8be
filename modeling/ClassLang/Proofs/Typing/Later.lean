import ClassLang.Proofs.Sequence
import ClassLang.Proofs.Typing.Declare
import Mathlib.Logic.Relation

/-! # Later states of the tables

    What the tables say of a class does not change any more once the class is
    left.

    * **`Tables.Step`** is one operation of checking on the tables, and
      **`Later`** are the tables after some of them.
    * **`Tables.Keeps`** is the invariant: the scopes of the classes that were
      left are closed, and they never open again.
    * **`Later.keeps`** carries it along, and **`Later.resolve_eq`** is what
      follows for the search for members. -/

namespace ClassLang

/-! ## Scopes that change in one place -/

namespace ScopeTree

/-- At most the bindings of scope `number` are changed. -/
structure SameBut (t u : ScopeTree) (number : Nat) : Prop where
  current : u.current = t.current
  enclosing : u.enclosing = t.enclosing
  size : u.scopes.size = t.scopes.size
  elsewhere : ∀ n, n ≠ number → ∀ x, u.lookupIn n x = t.lookupIn n x

theorem SameBut.trans {t u v : ScopeTree} {number : Nat} (h : t.SameBut u number)
    (h' : u.SameBut v number) : t.SameBut v number where
  current := h'.current.trans h.current
  enclosing := h'.enclosing.trans h.enclosing
  size := h'.size.trans h.size
  elsewhere := fun n hn x => (h'.elsewhere n hn x).trans (h.elsewhere n hn x)

/-- Inserting a name changes one scope. -/
theorem insertIn_sameBut {t u : ScopeTree} {number : Nat} {name : String} {ty : Ty}
    (h : t.insertIn number name ty = some u) : t.SameBut u number := by
  have hlook := lookupIn_insertIn h
  unfold insertIn at h
  split at h
  · cases h
  · cases h
    refine ⟨rfl, rfl, by simp, ?_⟩
    intro n hn x
    rw [hlook]
    simp [hn]

/-- Inserting names in the current scope changes only that scope. -/
theorem insertAll_sameBut {t u : ScopeTree} {bs : List (String × Ty)}
    (h : t.insertAll bs = some u) : t.SameBut u t.current := by
  induction bs generalizing t with
  | nil =>
    cases h
    exact ⟨rfl, rfl, rfl, fun _ _ _ => rfl⟩
  | cons b rest ih =>
    obtain ⟨v, hv, hu⟩ := Option.bind_eq_some_iff.mp h
    have hfirst := insertIn_sameBut hv
    have hrest := ih hu
    rw [hfirst.current] at hrest
    exact hfirst.trans hrest

end ScopeTree

/-! ## Chains of entries -/

/-- An entry of a chain is what is found under its name. -/
theorem Hierarchy.find?_of_mem_chain {h : Hierarchy} {length : Nat} {name : String}
    {e : ClassEntry} (he : e ∈ h.chain length (h.find? name)) : h.find? e.name = some e := by
  induction length generalizing name with
  | zero => cases he
  | succ length ih =>
    cases hstart : h.find? name with
    | none =>
      rw [hstart] at he
      cases he
    | some first =>
      rw [hstart] at he
      rcases List.mem_cons.mp he with rfl | he
      · have hname : e.name = name := by simpa using List.find?_some hstart
        rw [hname, hstart]
      · cases hparent : first.parent with
        | none =>
          rw [Hierarchy.parent?, hparent] at he
          cases length <;> cases he
        | some parent =>
          rw [Hierarchy.parent?, hparent] at he
          exact ih he

/-- A search depends only on what it finds at the elements of the list. -/
theorem findSome?_eq_of_mem {α β : Type} {f g : α → Option β} {as : List α}
    (h : ∀ a ∈ as, f a = g a) : as.findSome? f = as.findSome? g := by
  induction as with
  | nil => rfl
  | cons a rest ih =>
    rw [List.findSome?_cons, List.findSome?_cons, h a List.mem_cons_self,
      ih fun b hb => h b (List.mem_cons_of_mem _ hb)]

/-- Two chains that show the same interfaces are the same if entries of one
    name are. -/
theorem eq_of_shows {scopes scopes' : ScopeTree} {es es' : List ClassEntry}
    {chain : List Interface} (h : List.Forall₂ (ClassEntry.Shows scopes) es chain)
    (h' : List.Forall₂ (ClassEntry.Shows scopes') es' chain)
    (heq : ∀ e ∈ es, ∀ e' ∈ es', e.name = e'.name → e = e') : es = es' := by
  induction h generalizing es' with
  | nil =>
    cases h'
    rfl
  | @cons e i es chain hei _ ih =>
    obtain ⟨e', rest, hei', hrest, rfl⟩ := List.forall₂_cons_right_iff.mp h'
    have hhead : e = e' :=
      heq e List.mem_cons_self e' List.mem_cons_self (hei.name.trans hei'.name.symm)
    have htail : es = rest := by
      apply ih hrest
      intro d hd d' hd'
      exact heq d (List.mem_cons_of_mem _ hd) d' (List.mem_cons_of_mem _ hd')
    rw [hhead, htail]

namespace Tables

/-! ## Steps -/

/-- One operation of checking on the tables. -/
inductive Step (t : Tables) : Tables → Prop where
  | opened : Step t t.openScope
  | closed {u} : t.closeScope = .ok u → Step t u
  | registered {index c u} : t.register index c = .ok u → Step t u
  | declared {d u} : t.declare d = .ok u → Step t u
  /-- A member is added to the scope around the current one. -/
  | published {name ty scopes} : t.scopes.insertInParent name ty = .ok (some scopes) →
      Step t { t with scopes }

/-- The second tables come from the first ones by some operations. -/
abbrev Later : Tables → Tables → Prop := Relation.ReflTransGen Step

/-- All that `t` says of its classes is kept in `u`, and no scope of these
    classes is open there. -/
structure Keeps (t u : Tables) : Prop where
  classes : ∀ cls, t.classes.contains cls = true → u.classes.find? cls = t.classes.find? cls
  grown : t.classes.entries.length ≤ u.classes.entries.length
  members : ∀ e ∈ t.classes.entries, ∀ x,
    u.scopes.lookupIn e.scope x = t.scopes.lookupIn e.scope x
  closed : ∀ e ∈ t.classes.entries, e.scope ∉ u.scopes.current :: u.scopes.enclosing
  opened : ∀ e ∈ t.classes.entries, e.scope < u.scopes.scopes.size

variable {s t u : Tables} {known : Known}

/-- Between two classes no scope of a class is open. -/
theorem AtRoot.keeps_self (h : t.AtRoot known) : Keeps t t where
  classes := fun _ _ => rfl
  grown := Nat.le_refl _
  members := fun _ _ _ => rfl
  closed := by
    intro e he hmem
    rw [h.current, h.enclosing, List.mem_singleton] at hmem
    have hroot := (List.nodup_cons.mp h.distinct).1
    exact hroot (hmem ▸ List.mem_map_of_mem he)
  opened := fun e he => h.opened _ (List.mem_cons_of_mem _ (List.mem_map_of_mem he))

/-- What is kept stays so if only an open scope changes. -/
theorem Keeps.sameBut (h : Keeps s t) {scopes : ScopeTree} {number : Nat}
    (hopen : number ∈ t.scopes.current :: t.scopes.enclosing)
    (hsame : t.scopes.SameBut scopes number) : Keeps s { t with scopes } where
  classes := h.classes
  grown := h.grown
  members := by
    intro e he x
    have hne : e.scope ≠ number := by
      rintro rfl
      exact h.closed e he hopen
    exact (hsame.elsewhere _ hne x).trans (h.members e he x)
  closed := by
    intro e he
    show e.scope ∉ scopes.current :: scopes.enclosing
    rw [hsame.current, hsame.enclosing]
    exact h.closed e he
  opened := by
    intro e he
    show e.scope < scopes.scopes.size
    rw [hsame.size]
    exact h.opened e he

/-- Every operation keeps what the tables say of the classes that were left. -/
theorem Step.keeps (h : Step t u) (hk : Keeps s t) : Keeps s u := by
  cases h with
  | opened =>
    refine ⟨hk.classes, hk.grown, ?_, ?_, ?_⟩
    · intro e he x
      exact (t.scopes.lookupIn_openScope e.scope x).trans (hk.members e he x)
    · -- the new scope is newer than all others
      intro e he hmem
      have hlt := hk.opened e he
      rcases List.mem_cons.mp hmem with heq | hmem
      · have hnew : e.scope = t.scopes.scopes.size := heq
        omega
      · exact hk.closed e he hmem
    · intro e he
      have hlt := hk.opened e he
      show e.scope < (t.scopes.scopes.push _).size
      rw [Array.size_push]
      omega
  | closed hclose =>
    unfold closeScope ScopeTree.closeScope at hclose
    cases henc : t.scopes.enclosing with
    | nil =>
      rw [henc] at hclose
      cases hclose
    | cons parent outer =>
      rw [henc] at hclose
      cases hclose
      refine ⟨hk.classes, hk.grown, hk.members, ?_, hk.opened⟩
      intro e he hmem
      refine hk.closed e he ?_
      rw [henc]
      exact List.mem_cons_of_mem _ hmem
  | @registered index c _ hreg =>
    unfold register at hreg
    split at hreg
    · cases hreg
    · split at hreg
      · cases hreg
      · next hnew =>
        cases hreg
        refine ⟨?_, Nat.le_succ_of_le hk.grown, hk.members, hk.closed, hk.opened⟩
        intro cls hcls
        have hfind := hk.classes cls hcls
        rw [Hierarchy.find?_insert, if_neg, hfind]
        -- a class that is registered has no name of an older one
        intro hname
        have hname : c.name = cls := hname
        refine hnew ?_
        rw [hname, Hierarchy.contains, hfind]
        exact hcls
  | declared hdecl =>
    obtain ⟨ty, _, hdecl⟩ := except_bind_ok_iff.mp hdecl
    split at hdecl
    · next scopes hins =>
      cases hdecl
      exact hk.sameBut List.mem_cons_self (ScopeTree.insertAll_sameBut hins)
    · cases hdecl
  | @published name ty scopes hpub =>
    unfold ScopeTree.insertInParent at hpub
    cases henc : t.scopes.enclosing with
    | nil =>
      rw [henc] at hpub
      cases hpub
    | cons parent outer =>
      rw [henc] at hpub
      have hins : t.scopes.insertIn parent name ty = some scopes := Except.ok.inj hpub
      refine hk.sameBut ?_ (ScopeTree.insertIn_sameBut hins)
      rw [henc]
      exact List.mem_cons_of_mem _ List.mem_cons_self

/-- All later tables keep what the tables between two classes say. -/
theorem Later.keeps (h : t.Later u) (hroot : t.AtRoot known) : Keeps t u := by
  induction h with
  | refl => exact hroot.keeps_self
  | tail _ hstep ih => exact hstep.keeps ih

/-! ## Members -/

/-- The chain of a class that was left stays what it is. -/
theorem Keeps.ancestors_eq (hk : Keeps t u) (h : t.Reflects known) {cls : String}
    (hc : known.Declares cls) : u.classes.ancestors cls = t.classes.ancestors cls := by
  have hold := h.ancestors cls
  have hfind : ∀ c, known.Declares c →
      u.classes.find? c = t.classes.entries.find? (·.name == c) :=
    fun c hdecl => hk.classes c ((h.contains_iff c).mpr hdecl)
  have hnew := chain_shows h.entries h.wellFormed hfind hk.grown hc
  refine eq_of_shows hnew hold ?_
  intro e he e' he' hname
  -- both are what is found under the name, before and after
  have hfound := Hierarchy.find?_of_mem_chain he
  have hfound' := Hierarchy.find?_of_mem_chain he'
  have hcontains : t.classes.contains e'.name = true := by
    rw [Hierarchy.contains, hfound']
    rfl
  rw [hname, hk.classes _ hcontains, hfound'] at hfound
  exact (Option.some.inj hfound).symm

/-- The members of a class that was left, and those that it inherits, are
    resolved alike ever after. -/
theorem Later.resolve_eq (h : t.Later u) (hroot : t.AtRoot known) {cls : String}
    (hc : known.Declares cls) (x : String) :
    u.classes.resolve u.scopes cls x = t.classes.resolve t.scopes cls x := by
  have hk := h.keeps hroot
  rw [Hierarchy.resolve, Hierarchy.resolve, hk.ancestors_eq hroot.toReflects hc]
  refine findSome?_eq_of_mem ?_
  intro e he
  have hmem : e ∈ t.classes.entries :=
    List.mem_of_find?_eq_some (Hierarchy.find?_of_mem_chain he)
  rw [hk.members e hmem]

end Tables

end ClassLang
