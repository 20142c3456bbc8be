import ClassLang.Proofs.Sequence
import ClassLang.Proofs.Typing.Expr

/-! # Declaring and leaving

    How the tables move from one place of a program to the next.

    * **`Tables.AtRoot`**, **`InClass`** and **`InMethod`** are the tables
      between classes, among the members of a class, and inside a body.
    * **`AtRoot.register_ok_iff`**, **`InClass.declareFields`**,
      **`InClass.enter_ok_iff`** and **`InMethod.exists_publish`** say when a
      step can be made, and the `inClass` and `inMethod` lemmas where it
      leads. -/

namespace ClassLang

/-! ## Declaring lists of names -/

/-- Names are inserted in one go or in two. -/
theorem ScopeTree.insertAll_append (t : ScopeTree) (bs cs : List (String × Ty)) :
    t.insertAll (bs ++ cs) = (t.insertAll bs).bind (·.insertAll cs) := by
  induction bs generalizing t with
  | nil => rfl
  | cons b rest ih =>
    obtain ⟨name, ty⟩ := b
    simp only [List.cons_append, insertAll, Option.bind_assoc, ih]

/-- Declarations are accepted exactly if each of their types is and all names
    together can be inserted. -/
theorem foldlM_declare_ok_iff {step : Tables → Declaration → Except Violation Tables}
    {classes : Hierarchy} {Q : TypeName → Prop}
    (hstep : ∀ (t : Tables) (d : Declaration) (u : Tables), t.classes = classes →
      (step t d = .ok u ↔ Q d.ty ∧
        ∃ s, t.scopes.insertAll (d.names.map (·, .ofName d.ty)) = some s ∧ u = ⟨s, classes⟩))
    (decls : List Declaration) {t u : Tables} (ht : t.classes = classes) :
    decls.foldlM step t = .ok u ↔ (∀ d ∈ decls, Q d.ty) ∧
      ∃ s, t.scopes.insertAll (Declaration.variables decls) = some s ∧ u = ⟨s, classes⟩ := by
  induction decls generalizing t with
  | nil =>
    subst ht
    simp [Declaration.variables, ScopeTree.insertAll, pure, Except.pure, eq_comm]
  | cons d rest ih =>
    have hvars : Declaration.variables (d :: rest) =
        d.names.map (·, .ofName d.ty) ++ Declaration.variables rest := rfl
    rw [List.foldlM_cons, hvars, ScopeTree.insertAll_append]
    constructor
    · intro h
      obtain ⟨v, hv, h⟩ := except_bind_ok_iff.mp h
      obtain ⟨hq, s, hins, rfl⟩ := (hstep t d v ht).mp hv
      obtain ⟨hrest, s', hins', rfl⟩ := (ih rfl).mp h
      exact ⟨by simpa using ⟨hq, hrest⟩, s', by rw [hins]; exact hins', rfl⟩
    · rintro ⟨hq, s', hins, rfl⟩
      obtain ⟨s, hs, hs'⟩ := Option.bind_eq_some_iff.mp hins
      refine except_bind_ok_iff.mpr ⟨⟨s, classes⟩, ?_, ?_⟩
      · exact (hstep t d _ ht).mpr ⟨hq d List.mem_cons_self, s, hs, rfl⟩
      · exact (ih rfl).mpr ⟨fun e he => hq e (List.mem_cons_of_mem _ he), s', hs', rfl⟩

namespace Tables

/-- The type of a declaration depends on the registered classes only. -/
theorem typeOf_congr {t u : Tables} (h : t.classes = u.classes) (name : TypeName) (line : Nat) :
    t.typeOf name line = u.typeOf name line := by
  cases name <;> simp [typeOf, h]

variable {t : Tables} {known : Known}

/-- One declaration is accepted exactly if its type is visible and its names
    can be inserted. -/
theorem declare_ok_iff (h : t.Reflects known) {v u : Tables} (hv : v.classes = t.classes)
    {d : Declaration} :
    v.declare d = .ok u ↔ d.ty.Visible known ∧
      ∃ s, v.scopes.insertAll (d.names.map (·, .ofName d.ty)) = some s ∧
        u = ⟨s, t.classes⟩ := by
  rw [declare, typeOf_congr hv]
  constructor
  · intro hd
    obtain ⟨ty, hty, hd⟩ := except_bind_ok_iff.mp hd
    obtain ⟨hvis, rfl⟩ := h.typeOf_ok_iff.mp hty
    split at hd
    · next s hins =>
      cases hd
      exact ⟨hvis, s, hins, by rw [← hv]⟩
    · cases hd
  · rintro ⟨hvis, s, hins, rfl⟩
    refine except_bind_ok_iff.mpr ⟨_, h.typeOf_ok_iff.mpr ⟨hvis, rfl⟩, ?_⟩
    rw [hins, ← hv]
    rfl

/-- The declarations of a method are accepted exactly if their types are
    visible and their names can be inserted. -/
theorem declareAll_ok_iff (h : t.Reflects known) {v u : Tables} (hv : v.classes = t.classes)
    (decls : List Declaration) :
    v.declareAll decls = .ok u ↔ (∀ d ∈ decls, d.ty.Visible known) ∧
      ∃ s, v.scopes.insertAll (Declaration.variables decls) = some s ∧ u = ⟨s, t.classes⟩ :=
  foldlM_declare_ok_iff (fun _ _ _ hw => declare_ok_iff h hw) decls hv

/-! ## Places in a program -/

/-- The tables between two classes: no scope but the root is open. -/
structure AtRoot (t : Tables) (known : Known) : Prop extends t.Reflects known where
  current : t.scopes.current = 0
  enclosing : t.scopes.enclosing = []

/-- The tables among the members of the newest class. -/
structure InClass (t : Tables) (known : Known) : Prop extends t.Reflects known where
  around : ∃ e older, t.classes.entries = e :: older ∧ t.scopes.current = e.scope ∧
    t.scopes.enclosing = [0]

/-- Entries go on showing their interfaces if their scopes are kept. -/
theorem shows_of_kept {s s' : ScopeTree} {entries : List ClassEntry} {chain : List Interface}
    (h : List.Forall₂ (ClassEntry.Shows s) entries chain)
    (hl : ∀ n ∈ entries.map ClassEntry.scope, ∀ x, s'.lookupIn n x = s.lookupIn n x) :
    List.Forall₂ (ClassEntry.Shows s') entries chain := by
  induction h with
  | nil => exact .nil
  | @cons e i entries chain hei _ ih =>
    refine .cons ⟨hei.name, hei.parent, ?_⟩ (ih ?_)
    · intro x
      rw [hl e.scope (by simp), hei.members]
    · intro n hn
      exact hl n (List.mem_cons_of_mem _ hn)

/-- The known classes stay known if the scopes of the root and of the classes
    are kept. -/
theorem Reflects.of_kept {u : Tables} (h : t.Reflects known) (hc : u.classes = t.classes)
    (hl : ∀ n ∈ 0 :: t.classes.entries.map ClassEntry.scope, ∀ x,
      u.scopes.lookupIn n x = t.scopes.lookupIn n x)
    (hs : t.scopes.scopes.size ≤ u.scopes.scopes.size) : u.Reflects known where
  entries := by
    rw [hc]
    exact shows_of_kept h.entries fun n hn => hl n (List.mem_cons_of_mem _ hn)
  wellFormed := h.wellFormed
  written := h.written
  root := fun x => (hl 0 List.mem_cons_self x).trans (h.root x)
  distinct := by rw [hc]; exact h.distinct
  opened := by
    rw [hc]
    exact fun n hn => Nat.lt_of_lt_of_le (h.opened n hn) hs

/-- If the scope of the newest class gains bindings, the class gains members. -/
theorem Reflects.add_members {u : Tables} {i i' : Interface} {older : Known} {e : ClassEntry}
    {es : List ClassEntry} {bs : List (String × Ty)} (h : t.Reflects (i :: older))
    (he : t.classes.entries = e :: es) (hc : u.classes = t.classes)
    (hb : t.scopes.Binds u.scopes e.scope bs) (hname : i'.name = i.name)
    (hsuper : i'.superclass = i.superclass)
    (hmember : ∀ x, i'.member? x = (i.member? x).or (bs.lookup x))
    (hw : ∀ b ∈ i'.members, b.2.Written) : u.Reflects (i' :: older) := by
  have hent := h.entries
  rw [he] at hent
  obtain ⟨hei, hrest⟩ := List.forall₂_cons.mp hent
  have hd : (0 :: e.scope :: es.map ClassEntry.scope).Nodup := by
    have := h.distinct
    rwa [he] at this
  obtain ⟨h0, hd'⟩ := List.nodup_cons.mp hd
  obtain ⟨hes, _⟩ := List.nodup_cons.mp hd'
  refine ⟨?_, ?_, ?_, ?_, by rw [hc]; exact h.distinct, ?_⟩
  · rw [hc, he]
    refine .cons ⟨hei.name.trans hname.symm, hei.parent.trans hsuper.symm, ?_⟩ ?_
    · intro x
      rw [hb.here, hei.members, hmember]
    · refine shows_of_kept hrest ?_
      intro n hn x
      refine hb.elsewhere n ?_ x
      rintro rfl
      exact hes hn
  · obtain ⟨hnew, hparent, hwf⟩ := h.wellFormed
    exact ⟨hname ▸ hnew, fun p hp => hparent p (hsuper ▸ hp), hwf⟩
  · intro j hj
    rcases List.mem_cons.mp hj with rfl | hj
    · exact hw
    · exact h.written j (List.mem_cons_of_mem _ hj)
  · intro x
    have hne : 0 ≠ e.scope := fun heq => h0 (heq ▸ List.mem_cons_self)
    rw [hb.elsewhere 0 hne, h.root]
  · rw [hc, hb.size]
    exact h.opened

/-! ### Entering and leaving a class -/

/-- A scope that is not open yet binds nothing. -/
theorem lookupIn_size (s : ScopeTree) (x : String) : s.lookupIn s.scopes.size x = none := by
  simp [ScopeTree.lookupIn, ScopeTree.scope?]

/-- The entry of a class that is registered next. -/
def nextEntry (t : Tables) (index : Nat) (c : ClassDecl) : ClassEntry where
  name := c.name
  parent := c.superclass
  index := index
  scope := t.scopes.scopes.size

/-- A class is registered exactly if its superclass is known and its name is
    new. -/
theorem AtRoot.register_ok_iff {u : Tables} (h : t.AtRoot known) {index : Nat} {c : ClassDecl} :
    t.openScope.register index c = .ok u ↔
      (∀ parent, c.superclass = some parent → known.Declares parent) ∧
      ¬ known.Declares c.name ∧
      u = ⟨t.scopes.openScope, t.classes.insert (t.nextEntry index c)⟩ := by
  have hsuper : (c.superclass.any fun parent => !t.classes.contains parent) = false ↔
      ∀ parent, c.superclass = some parent → known.Declares parent := by
    cases c.superclass with
    | none => simp
    | some parent => simp [h.contains_iff]
  unfold register
  by_cases hs : (c.superclass.any fun parent => !t.classes.contains parent) = true
  · have hnot := mt hsuper.mpr (by simpa using hs)
    simp [openScope, hs, hnot]
  · have hp := hsuper.mp (by simpa using hs)
    by_cases hn : t.classes.contains c.name = true
    · simp [openScope, hs, hn, (h.contains_iff c.name).mp hn]
    · have hnew := mt (h.contains_iff c.name).mpr hn
      simp only [openScope, hs, hn, Bool.false_eq_true, if_false, Except.ok.injEq]
      exact ⟨fun hu => ⟨hp, hnew, hu.symm⟩, fun hu => hu.2.2.symm⟩

/-- A registered class is known, so far without members. -/
theorem AtRoot.inClass_register (h : t.AtRoot known) (index : Nat) {c : ClassDecl}
    (hsuper : ∀ parent, c.superclass = some parent → known.Declares parent)
    (hnew : ¬ known.Declares c.name) :
    InClass ⟨t.scopes.openScope, t.classes.insert (t.nextEntry index c)⟩
      (⟨c.name, c.superclass, [], []⟩ :: known) := by
  have hlook : ∀ n x, t.scopes.openScope.lookupIn n x = t.scopes.lookupIn n x :=
    fun n x => t.scopes.lookupIn_openScope n x
  have hsize : t.scopes.openScope.scopes.size = t.scopes.scopes.size + 1 := by
    simp [ScopeTree.openScope]
  have hfresh : t.scopes.scopes.size ∉ 0 :: t.classes.entries.map ClassEntry.scope :=
    fun hmem => Nat.lt_irrefl _ (h.opened _ hmem)
  refine ⟨⟨?_, ⟨hnew, hsuper, h.wellFormed⟩, ?_, ?_, ?_, ?_⟩, ?_⟩
  · refine .cons ⟨rfl, rfl, ?_⟩ (shows_of_kept h.entries fun n _ x => hlook n x)
    intro x
    rw [hlook]
    exact lookupIn_size _ x
  · intro i hi
    rcases List.mem_cons.mp hi with rfl | hi
    · simp [Interface.members]
    · exact h.written i hi
  · intro x
    rw [hlook, h.root]
  · have hd := h.distinct
    simp only [List.nodup_cons, List.mem_cons, not_or] at hd hfresh ⊢
    simp only [Hierarchy.insert, nextEntry, List.map_cons, List.mem_cons, not_or,
      List.nodup_cons]
    exact ⟨⟨Ne.symm hfresh.1, hd.1⟩, hfresh.2, hd.2⟩
  · intro n hn
    simp only [Hierarchy.insert, nextEntry, List.map_cons, List.mem_cons] at hn
    rw [hsize]
    rcases hn with rfl | rfl | hn
    · exact Nat.succ_pos _
    · exact Nat.lt_succ_self _
    · exact Nat.lt_succ_of_lt (h.opened n (List.mem_cons_of_mem _ hn))
  · refine ⟨_, _, rfl, rfl, ?_⟩
    simp [ScopeTree.openScope, h.current, h.enclosing]

/-- After its members the scope of a class can be left. -/
theorem InClass.closeScope_ok (h : t.InClass known) :
    ∃ u, t.closeScope = .ok u ∧ u.AtRoot known := by
  obtain ⟨e, older, he, hcur, henc⟩ := h.around
  refine ⟨⟨{ t.scopes with current := 0, enclosing := [] }, t.classes⟩, ?_, ?_⟩
  · simp [closeScope, ScopeTree.closeScope, henc]
  · exact ⟨h.of_kept rfl (fun _ _ _ => rfl) (Nat.le_refl _), rfl, rfl⟩

/-! ### Fields -/

/-- A field declaration is accepted exactly if its type is older than the
    class and its names can be inserted. -/
theorem declareField_ok_iff {i : Interface} {older : Known} (h : t.Reflects (i :: older))
    {v u : Tables} (hv : v.classes = t.classes) {d : Declaration} :
    declareField i.name v d = .ok u ↔ d.ty.Visible older ∧
      ∃ s, v.scopes.insertAll (d.names.map (·, .ofName d.ty)) = some s ∧
        u = ⟨s, t.classes⟩ := by
  have hnew : ¬ older.Declares i.name := h.wellFormed.1
  -- a type is older than the class exactly if it is visible and not the class
  have hvis : d.ty.Visible older ↔
      d.ty.Visible (i :: older) ∧ (Ty.ofName d.ty).className? ≠ some i.name := by
    cases d.ty with
    | cls name =>
      simp only [TypeName.Visible, Known.declares_cons, Ty.ofName, Ty.className?, ne_eq,
        Option.some.injEq]
      constructor
      · intro hname
        exact ⟨Or.inr hname, by rintro rfl; exact hnew hname⟩
      · rintro ⟨hname | hname, hne⟩
        · exact absurd hname.symm hne
        · exact hname
    | _ => simp [TypeName.Visible, Ty.ofName, Ty.className?]
  rw [declareField, typeOf_congr hv]
  constructor
  · intro hd
    obtain ⟨ty, hty, hd⟩ := except_bind_ok_iff.mp hd
    obtain ⟨hvisible, rfl⟩ := h.typeOf_ok_iff.mp hty
    split at hd
    · cases hd
    · next hne =>
      obtain ⟨_, hins⟩ := (declare_ok_iff h hv).mp hd
      exact ⟨hvis.mpr ⟨hvisible, hne⟩, hins⟩
  · rintro ⟨hvisible, hins⟩
    obtain ⟨hvisible', hne⟩ := hvis.mp hvisible
    refine except_bind_ok_iff.mpr ⟨_, h.typeOf_ok_iff.mpr ⟨hvisible', rfl⟩, ?_⟩
    rw [if_neg hne]
    exact (declare_ok_iff h hv).mpr ⟨hvisible', hins⟩

/-- The fields of a class are accepted exactly if their types are older than
    the class and their names are distinct; then the class has its fields. -/
theorem InClass.declareFields {older : Known} {c : ClassDecl}
    (h : t.InClass (⟨c.name, c.superclass, [], []⟩ :: older)) :
    ((∃ u, c.fields.foldlM (declareField c.name) t = .ok u) ↔
        (∀ d ∈ c.fields, d.ty.Visible older) ∧
        ((Declaration.variables c.fields).map (·.1)).Nodup) ∧
      ∀ u, c.fields.foldlM (declareField c.name) t = .ok u → u.InClass (c.upTo [] :: older) := by
  obtain ⟨e, es, he, hcur, henc⟩ := h.around
  obtain ⟨hei, _⟩ := List.forall₂_cons.mp (he ▸ h.entries)
  have hopen : t.scopes.current < t.scopes.scopes.size := by
    rw [hcur]
    exact h.opened e.scope (by simp [he])
  have hfold : ∀ u, c.fields.foldlM (declareField c.name) t = .ok u ↔
      (∀ d ∈ c.fields, d.ty.Visible older) ∧
      ∃ s, t.scopes.insertAll (Declaration.variables c.fields) = some s ∧ u = ⟨s, t.classes⟩ :=
    fun u => foldlM_declare_ok_iff (fun _ _ _ hv => declareField_ok_iff h.toReflects hv) _ rfl
  have hfree : ∀ x, t.scopes.lookupIn t.scopes.current x = none := by
    intro x
    rw [hcur, hei.members]
    rfl
  refine ⟨?_, ?_⟩
  · have hins := ScopeTree.insertAll_isSome_iff hopen (Declaration.variables c.fields)
    constructor
    · rintro ⟨u, hu⟩
      obtain ⟨hvis, s, hs, _⟩ := (hfold u).mp hu
      exact ⟨hvis, (hins.mp (by rw [hs]; rfl)).1⟩
    · rintro ⟨hvis, hnd⟩
      obtain ⟨s, hs⟩ := Option.isSome_iff_exists.mp (hins.mpr ⟨hnd, fun x _ => hfree x⟩)
      exact ⟨_, (hfold _).mpr ⟨hvis, s, hs, rfl⟩⟩
  · intro u hu
    obtain ⟨_, s, hs, rfl⟩ := (hfold u).mp hu
    have hb := ScopeTree.insertAll_binds hopen hs
    refine ⟨?_, e, es, he, hb.current.trans hcur, hb.enclosing.trans henc⟩
    refine h.toReflects.add_members he rfl (hcur ▸ hb) rfl rfl ?_ ?_
    · intro x
      simp [Interface.member?, Interface.members, ClassDecl.upTo, ClassDecl.interface]
    · intro b hb
      simp only [Interface.members, ClassDecl.upTo, ClassDecl.interface, List.map_nil,
        List.append_nil, Declaration.variables, List.mem_flatMap, List.mem_map] at hb
      obtain ⟨d, _, x, _, rfl⟩ := hb
      exact (Ty.ofName_plain d.ty).written

/-! ### Bodies -/

/-- Parameters and locals are declared as one list of variables. -/
theorem variables_declarations (m : Method) :
    Declaration.variables (m.params.map Param.declaration ++ m.locals) = m.variables := by
  have hparams : (m.params.map Param.declaration).flatMap
        (fun d => d.names.map (·, Ty.ofName d.ty)) = Param.variables m.params := by
    rw [Param.variables]
    induction m.params with
    | nil => rfl
    | cons p rest ih =>
      rw [List.map_cons, List.flatMap_cons, ih]
      rfl
  rw [Method.variables, Declaration.variables, List.flatMap_append, hparams]
  rfl

/-- A body is entered exactly if the types of the result, the parameters and
    the locals are visible and the variables can be inserted. -/
theorem InClass.enter_ok_iff (h : t.InClass known) {m : Method} {u : Tables} :
    m.enter t = .ok u ↔ m.result.Visible known ∧ (∀ p ∈ m.params, p.ty.Visible known) ∧
      (∀ d ∈ m.locals, d.ty.Visible known) ∧
      ∃ s, t.scopes.openScope.insertAll m.variables = some s ∧ u = ⟨s, t.classes⟩ := by
  have hclasses : t.openScope.classes = t.classes := rfl
  have hdecls : (∀ d ∈ m.params.map Param.declaration ++ m.locals, d.ty.Visible known) ↔
      (∀ p ∈ m.params, p.ty.Visible known) ∧ ∀ d ∈ m.locals, d.ty.Visible known := by
    simp only [List.forall_mem_append, List.forall_mem_map, Param.declaration]
  unfold Method.enter
  rw [typeOf_congr hclasses]
  constructor
  · intro hm
    obtain ⟨ty, hty, hm⟩ := except_bind_ok_iff.mp hm
    obtain ⟨hres, _⟩ := h.typeOf_ok_iff.mp hty
    obtain ⟨hvis, s, hs, hu⟩ := (declareAll_ok_iff h.toReflects hclasses _).mp hm
    rw [variables_declarations] at hs
    exact ⟨hres, (hdecls.mp hvis).1, (hdecls.mp hvis).2, s, hs, hu⟩
  · rintro ⟨hres, hparams, hlocals, s, hs, rfl⟩
    refine except_bind_ok_iff.mpr ⟨_, h.typeOf_ok_iff.mpr ⟨hres, rfl⟩, ?_⟩
    refine (declareAll_ok_iff h.toReflects hclasses _).mpr ⟨hdecls.mpr ⟨hparams, hlocals⟩, s, ?_, rfl⟩
    rw [variables_declarations]
    exact hs

/-- A new scope takes any variables with distinct names. -/
theorem insertAll_openScope_isSome_iff (s : ScopeTree) (bs : List (String × Ty)) :
    (s.openScope.insertAll bs).isSome ↔ (bs.map (·.1)).Nodup := by
  have hopen : s.openScope.current < s.openScope.scopes.size := by
    simp [ScopeTree.openScope]
  rw [ScopeTree.insertAll_isSome_iff hopen]
  have hfree : ∀ x, s.openScope.lookupIn s.openScope.current x = none := by
    intro x
    rw [ScopeTree.lookupIn_openScope]
    exact lookupIn_size s x
  exact ⟨fun h => h.1, fun h => ⟨h, fun x _ => hfree x⟩⟩

/-- Inside a body the tables show the variables of the method. -/
theorem InClass.inMethod_enter {i : Interface} {older : Known} (h : t.InClass (i :: older))
    {m : Method} {u : Tables} (hu : m.enter t = .ok u) :
    u.InMethod (m.view (i :: older) i.name) := by
  obtain ⟨e, es, he, hcur, henc⟩ := h.around
  obtain ⟨hei, _⟩ := List.forall₂_cons.mp (he ▸ h.entries)
  obtain ⟨_, _, _, s, hs, rfl⟩ := h.enter_ok_iff.mp hu
  have hopen : t.scopes.openScope.current < t.scopes.openScope.scopes.size := by
    simp [ScopeTree.openScope]
  have hb := ScopeTree.insertAll_binds hopen hs
  have hlook := fun n x => t.scopes.lookupIn_openScope n x
  have hfresh : t.scopes.scopes.size ∉ 0 :: t.classes.entries.map ClassEntry.scope :=
    fun hmem => Nat.lt_irrefl _ (h.opened _ hmem)
  have hcurrent : s.current = t.scopes.scopes.size := hb.current
  refine ⟨h.toReflects.of_kept rfl ?_ ?_, ⟨e, es, he, hei.name, ?_⟩, ?_, ?_, ?_⟩
  · intro n hn x
    have hne : n ≠ t.scopes.openScope.current := by
      rintro rfl
      exact hfresh hn
    rw [hb.elsewhere n hne, hlook]
  · rw [hb.size]
    simp [ScopeTree.openScope]
  · rw [hb.enclosing]
    simp [ScopeTree.openScope, hcur, henc]
  · rw [hcurrent]
    exact hfresh
  · rw [hcurrent, hb.size]
    simp [ScopeTree.openScope]
  · intro x
    have hnone : t.scopes.openScope.lookupIn t.scopes.openScope.current x = none := by
      rw [hlook]
      exact lookupIn_size t.scopes x
    rw [hb.current, hb.here, hnone, Option.none_or]
    rfl

/-- A method can be published if its class has no member of its name. -/
theorem InMethod.exists_publish {V : View} {i : Interface} {older : Known}
    (h : t.InMethod V) (hV : V.known = i :: older) (cls : String) {m : Method}
    (hfree : i.member? m.name = none) : ∃ u, (m.publish cls t).Yields m u := by
  obtain ⟨e, es, he, _, henc⟩ := h.around
  obtain ⟨hei, _⟩ := List.forall₂_cons.mp (hV ▸ he ▸ h.entries)
  have hnone : t.scopes.lookupIn e.scope m.name = none := (hei.members _).trans hfree
  obtain ⟨s, hs⟩ := Option.isSome_iff_exists.mp
    (ScopeTree.insertIn_isSome_iff.mpr hnone : (t.scopes.insertIn e.scope m.name m.signature).isSome)
  have hb := ScopeTree.insertIn_binds (h.opened e.scope (by simp [he])) hs
  refine ⟨⟨{ s with current := e.scope, enclosing := [0] }, t.classes⟩, ?_⟩
  unfold Method.publish
  rw [Outcome.after_yields]
  simp [ScopeTree.insertInParent, henc, hs, closeScope, ScopeTree.closeScope, hb.enclosing]

/-- A published method is a member of its class from then on. -/
theorem InMethod.inClass_publish {V : View} {i : Interface} {older : Known}
    (h : t.InMethod V) (hV : V.known = i :: older) {cls : String} {m m' : Method} {u : Tables}
    (hu : (m.publish cls t).Yields m' u) :
    m' = m ∧ i.member? m.name = none ∧
      u.InClass ({ i with methods := i.methods ++ [(m.name, m.signature)] } :: older) := by
  obtain ⟨e, es, he, _, henc⟩ := h.around
  obtain ⟨hei, _⟩ := List.forall₂_cons.mp (hV ▸ he ▸ h.entries)
  unfold Method.publish at hu
  rw [Outcome.after_yields] at hu
  cases hs : t.scopes.insertIn e.scope m.name m.signature with
  | none =>
    simp only [ScopeTree.insertInParent, henc, hs] at hu
    exact absurd hu Outcome.violated_yields
  | some s =>
    have hb := ScopeTree.insertIn_binds (h.opened e.scope (by simp [he])) hs
    have hnone : t.scopes.lookupIn e.scope m.name = none :=
      ScopeTree.insertIn_isSome_iff.mp (by rw [hs]; rfl)
    simp only [ScopeTree.insertInParent, henc, hs, closeScope, ScopeTree.closeScope, hb.enclosing,
      Outcome.yields_mk, Except.ok.injEq] at hu
    obtain ⟨rfl, rfl⟩ := hu
    have hrefl : t.Reflects (i :: older) := by
      rw [← hV]
      exact h.toReflects
    have hgain : Reflects ⟨s, t.classes⟩
        ({ i with methods := i.methods ++ [(m.name, m.signature)] } :: older) := by
      refine hrefl.add_members he rfl hb rfl rfl ?_ ?_
      · intro x
        simp only [Interface.member?, Interface.members, ← List.append_assoc, List.lookup_append]
      · intro b hb
        simp only [Interface.members, List.mem_append, List.mem_singleton] at hb
        have hold := hrefl.written i List.mem_cons_self
        rcases hb with hb | hb | rfl
        · exact hold b (List.mem_append_left _ hb)
        · exact hold b (List.mem_append_right _ hb)
        · exact m.signature_written
    refine ⟨rfl, (hei.members _).symm.trans hnone, ?_, e, es, he, rfl, rfl⟩
    exact hgain.of_kept rfl (fun _ _ _ => rfl) (Nat.le_refl _)

end Tables

end ClassLang
