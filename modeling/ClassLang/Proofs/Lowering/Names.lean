import ClassLang.Proofs.Lowering.Run

/-! # The two resolutions of names

    A name is resolved twice: by checking, in the scopes that are open and then
    along the chain of classes; and by code generation, in the frame and then
    in the flat list of the fields of an object.

    * **`Program.TablesAt`** are the tables with which checking enters a
      method, **`Generator.SiteAt`** is the site at which its code is made.
    * **`Program.exists_tablesAt`** and **`Generator.exists_siteAt`**: both are
      reached.
    * **`Program.locate_agrees`**: the place of a variable is that of the
      declaration to which checking resolved it. -/

namespace ClassLang

/-! ## Variables of a method -/

/-- The statement assigns to the variable. -/
inductive Stmt.Assigns (x : String) : Stmt → Prop where
  | here {line value} : Stmt.Assigns x (.assign line x value)
  | body {line test body s} : s ∈ body → Stmt.Assigns x s → Stmt.Assigns x (.cond line test body)

/-- The name occurs as a variable: in an expression, as the receiver of a call,
    or where it is assigned to. -/
def Method.Mentions (m : Method) (x : String) : Prop :=
  (∃ n, m.Uses (.var n x)) ∨ ∃ s ∈ m.body, s.Assigns x

/-- A variable that is assigned to can be stored. -/
theorem Stmt.Derives.of_assigns {mark : Mark} {V : View} {x : String} {s : Stmt}
    (ha : s.Assigns x) (h : s.Derives mark V) :
    ∃ ty, V.varTy? x = some ty ∧ ty.Storable := by
  induction ha with
  | here =>
    cases h with
    | assign _ hx hs => exact ⟨_, hx, hs⟩
  | body hs _ ih =>
    cases h with
    | cond _ hbody => exact ih (hbody _ hs)

/-! ## Both stages before one method -/

/-- The tables with which checking enters method `m` of class `c`: after the
    classes `older`, and in its class after the fields and the methods
    `before`. -/
def Program.TablesAt (older : List ClassDecl) (c : ClassDecl) (before : List Method) (m : Method)
    (inside : Tables) : Prop :=
  ∃ older' before' t t₁ t₂ t₃,
    (ClassDecl.checkAll 0 {} older).Yields older' t ∧
    t.openScope.register older.length c = .ok t₁ ∧
    c.fields.foldlM (Tables.declareField c.name) t₁ = .ok t₂ ∧
    (Method.checkAll c.name t₂ before).Yields before' t₃ ∧
    m.enter t₃ = .ok inside

/-- The site at which a new generator makes the code of method `m` of class
    `c`: after the classes `older`, and in its class after the methods
    `before`. -/
def Generator.SiteAt (classes : Hierarchy) (p : Program) (older : List ClassDecl) (c : ClassDecl)
    (before : List Method) (m : Method) (site : Site) : Prop :=
  ∃ codes g object g₁ methods g₂ frame g₃,
    older.mapM (classCode classes p.classes) {} = .ok codes g ∧
    layoutClass p.classes c g = .ok object g₁ ∧
    before.mapM (method classes c.name object) g₁ = .ok methods g₂ ∧
    layoutFrame c.name m g₂ = .ok frame g₃ ∧
    site = { cls := c.name, object, frame, layouts := g₃.layouts, classes }

/-- The first methods of a class follow the rules by themselves. -/
theorem ClassDecl.MethodsDerive.left {mark : Mark} {known : Known} {c : ClassDecl}
    {first before after : List Method} (h : c.MethodsDerive mark known first (before ++ after)) :
    c.MethodsDerive mark known first before := by
  induction before generalizing first with
  | nil => trivial
  | cons m rest ih => exact ⟨h.1, ih h.2⟩

section stages

variable {p : Program} {older : List ClassDecl} {c : ClassDecl} {before : List Method} {m : Method}

/-- Checking the bare form of an elaborated program reaches every method, and
    its tables then show what the method sees. -/
theorem Program.exists_tablesAt (h : p.Elaborated) (hat : p.At older c before m) :
    ∃ inside, TablesAt (older.map ClassDecl.erase) c.erase (before.map Method.erase) m.erase
        inside ∧ inside.InMethod (c.viewAt older before m) := by
  have hbare : (older.map ClassDecl.erase).map ClassDecl.erase = older.map ClassDecl.erase := by
    simp [Function.comp_def, ClassDecl.erase_erase]
  have hbareMethods : (before.map Method.erase).map Method.erase = before.map Method.erase := by
    simp [Function.comp_def, Method.erase_erase]
  have hknown : ClassDecl.knownAfter [] (older.map ClassDecl.erase) =
      ClassDecl.knownAfter [] older := by
    simp [ClassDecl.knownAfter, Function.comp_def]
  -- the classes before
  obtain ⟨older', t, hold⟩ :=
    ClassDecl.checkAll_complete Program.atRoot_empty 0 hbare (h.older_at hat).erase
  obtain ⟨_, _, hroot⟩ := ClassDecl.checkAll_sound Program.atRoot_empty hbare hold
  rw [hknown] at hroot
  -- the class and its fields
  have hc := (h.class_at hat).erase
  have hregister : t.openScope.register (older.map ClassDecl.erase).length c.erase = .ok _ :=
    hroot.register_ok_iff.mpr ⟨hc.superclass, hc.name, rfl⟩
  have hclass := hroot.inClass_register (older.map ClassDecl.erase).length hc.superclass hc.name
  obtain ⟨hfields, hdeclared⟩ := hclass.declareFields
  obtain ⟨_, after, hm⟩ := id hat
  have hsplit : c.erase.methods = before.map Method.erase ++ (m :: after).map Method.erase := by
    rw [ClassDecl.erase, hm, List.map_append]
  have hdistinct : ((c.erase.upTo ([] ++ before.map Method.erase)).members.map (·.1)).Nodup :=
    (ClassDecl.proper_upTo hc hsplit).distinct
  have hfirst : c.erase.methods = [] ++ c.erase.methods := rfl
  have hnone : ((c.erase.upTo []).members.map (·.1)).Nodup :=
    (ClassDecl.proper_upTo hc hfirst).distinct
  have hnames : ((Declaration.variables c.erase.fields).map (·.1)).Nodup :=
    (ClassDecl.proper_upTo hc hsplit).distinct_fields
  obtain ⟨t₂, hdecl⟩ := hfields.mpr ⟨hc.fields, hnames⟩
  -- the methods before
  have hbefore : c.erase.MethodsDerive (fun _ _ _ => True) (ClassDecl.knownAfter [] older) []
      (before.map Method.erase) := by
    have hall := hc.methods
    rw [hsplit] at hall
    exact hall.left
  obtain ⟨before', t₃, hmethods⟩ :=
    ClassDecl.checkMethods_complete (hdeclared t₂ hdecl) hbareMethods hbefore hdistinct
  obtain ⟨_, _, _, hin⟩ :=
    ClassDecl.checkMethods_sound (hdeclared t₂ hdecl) hbareMethods hnone hmethods
  rw [List.nil_append, ClassDecl.erase_upTo] at hin
  -- the method itself
  have hderives := (h.method_at hat).erase
  obtain ⟨s, hs⟩ := Option.isSome_iff_exists.mp
    ((Tables.insertAll_openScope_isSome_iff t₃.scopes m.erase.variables).mpr hderives.distinct)
  have henter : m.erase.enter t₃ = .ok ⟨s, t₃.classes⟩ :=
    hin.enter_ok_iff.mpr ⟨hderives.result, hderives.params, hderives.locals, s, hs, rfl⟩
  refine ⟨_, ⟨older', before', t, _, t₂, t₃, hold, hregister, hdecl, hmethods, henter⟩, ?_⟩
  exact hin.inMethod_enter henter

/-- Making code reaches every method, and its site then serves the method. -/
theorem Generator.exists_siteAt {classes : Hierarchy} (h : p.Elaborated) (hr : p.Representable)
    (hclasses : ∀ derived base, p.known.Inherits derived base →
      classes.isSubclass derived base = true) (hat : p.At older c before m) :
    ∃ site, SiteAt classes p older c before m site ∧
      site.Serves (c.viewAt older before m) m := by
  obtain ⟨⟨newer, hp⟩, after, hm⟩ := id hat
  have hstart : Ready {} (ClassDecl.knownAfter [] []) (List.flatMap ClassDecl.labels []) :=
    ready_empty
  obtain ⟨codes, g, hold, hg, _⟩ := classes_ok h hr hclasses older hp hstart
  obtain ⟨g₁, hlayout, _, hg₁⟩ := layoutClass_ok h hr hp hg
  have hlabels : ([] ++ older).flatMap ClassDecl.labels = ClassDecl.labelsBefore older c [] := by
    simp [ClassDecl.labelsBefore]
  rw [hlabels] at hg₁
  obtain ⟨methods, g₂, hmethods, hg₂, _⟩ := methods_ok h hr hclasses hp before hm hg₁
  rw [List.nil_append] at hg₂
  have hfit : m.FrameFits := hr.frames c (by rw [hp]; simp) m (by rw [hm]; simp)
  obtain ⟨g₃, hframe, _, hg₃⟩ := layoutFrame_ok hg₂ (hr.label_new hat) hfit
  refine ⟨_, ⟨codes, g, _, g₁, methods, g₂, m.frame, g₃, hold, hlayout, hmethods, hframe, rfl⟩, ?_⟩
  exact Program.serves_at h hr hat rfl rfl rfl (hg₃.layouts.upTo before) hclasses

/-! ## Agreement -/

/-- Every variable of an elaborated method has a type, and records it wherever
    it is read. -/
theorem Program.variable_of_mentions (h : p.Elaborated) (hat : p.At older c before m) {x : String}
    (hx : m.Mentions x) :
    ∃ ty, (c.viewAt older before m).varTy? x = some ty ∧ ty.Storable ∧
      ∀ n, m.Uses (.var n x) → n.ty = some ty := by
  -- reading a variable records the type that it has
  have hread : ∀ n, m.Uses (.var n x) → ∃ ty, (c.viewAt older before m).varTy? x = some ty ∧
      ty.Storable ∧ n.ty = some ty := by
    intro n hn
    obtain ⟨ty, hty⟩ := h.exists_type hat hn
    cases hty with
    | var hv hs hrec => exact ⟨ty, hv, hs, hrec.1⟩
  have hsame : ∀ ty, (c.viewAt older before m).varTy? x = some ty →
      ∀ n, m.Uses (.var n x) → n.ty = some ty := by
    intro ty hty n hn
    obtain ⟨ty', hty', _, hnote⟩ := hread n hn
    rw [hnote, ← hty', hty]
  rcases hx with ⟨n, hn⟩ | ⟨s, hs, hassign⟩
  · obtain ⟨ty, hty, hst, _⟩ := hread n hn
    exact ⟨ty, hty, hst, hsame ty hty⟩
  · obtain ⟨ty, hty, hst⟩ := ((h.method_at hat).body s hs).of_assigns hassign
    exact ⟨ty, hty, hst, hsame ty hty⟩

end stages

/-- Variable `x` of type `ty` is resolved alike.  Either checking finds it in the
    scope of the method, and it is in the frame, in the slot of that parameter
    or local; or checking finds it along the chain of classes, and it is a
    field, in the slot that the class which declares it gives it in its own
    layout. -/
def ResolvedAlike (inside : Tables) (site : Site) (known : Known) (cls : String) (m : Method)
    (x : String) (ty : Ty) : Prop :=
  (inside.scopes.lookupIn inside.scopes.current x = some ty ∧
    ∃ (k : Nat) (s : Slot), m.variables[k]? = some (x, ty) ∧
      (site.frame.params ++ site.frame.locals)[k]? = some s ∧
      site.locate x = .ok (.frame s) ∧ s.ty = ty) ∨
  (inside.scopes.lookupIn inside.scopes.current x = none ∧
    ∃ entry s layout, inside.classes.resolve inside.scopes cls x = some (entry, ty) ∧
      site.layouts.object? entry.name = some layout ∧ layout.field? x = some s ∧
      s ∈ known.ownSlots entry.name ∧ site.locate x = .ok (.field s) ∧ s.ty = ty)

namespace Program

/-- In an accepted program of representable size the two resolutions of every
    variable agree, and the place of the variable has the type that checking
    gives it. -/
theorem locate_agrees {source : String} {a : Analysis} (ha : analyze source = .ok a)
    (hr : a.program.Representable) {older : List ClassDecl} {c : ClassDecl} {before : List Method}
    {m : Method} (hat : a.program.At older c before m) :
    ∃ inside site,
      TablesAt (older.map ClassDecl.erase) c.erase (before.map Method.erase) m.erase inside ∧
      Generator.SiteAt a.tables.classes a.program older c before m site ∧
      ∀ x, m.Mentions x → ∃ ty, inside.variableType c.name x = some ty ∧
        (∀ n, m.Uses (.var n x) → n.ty = some ty) ∧
        ResolvedAlike inside site a.program.known c.name m x ty := by
  obtain ⟨he, hclasses⟩ := elaborated_of_analyze ha
  obtain ⟨inside, hinside, hin⟩ := exists_tablesAt he hat
  obtain ⟨site, hsite, hserves⟩ := Generator.exists_siteAt he hr hclasses hat
  refine ⟨inside, site, hinside, hsite, ?_⟩
  intro x hx
  obtain ⟨ty, hty, hst, hnotes⟩ := variable_of_mentions he hat hx
  have hchecked : inside.variableType c.name x = some ty := (hin.variableType_eq x).trans hty
  refine ⟨ty, hchecked, hnotes, ?_⟩
  unfold View.varTy? at hty
  cases hv : (c.viewAt older before m).vars.lookup x with
  | some ty' =>
    rw [hv] at hty
    cases hty
    obtain ⟨k, hk⟩ := Site.Serves.exists_index_of_lookup hv
    refine Or.inl ⟨(hin.vars x).trans hv, k, _, hk, ?_, hserves.locate_variable hk, rfl⟩
    rw [hserves.frame, Method.getElem?_frame, show m.variables[k]? = some (x, ty) from hk]
    rfl
  | none =>
    rw [hv] at hty
    obtain ⟨⟨owner, ty'⟩, hres, rfl⟩ := Option.map_eq_some_iff.mp hty
    obtain ⟨s, hown, _, hsty, hlocate, _, howner⟩ :=
      hserves.locate_member hv hres (Site.Serves.plain_of_storable hst)
    have hfound := hin.resolve_eq c.name x
    rw [show (c.viewAt older before m).known.resolve c.name x = some (owner, ty') from hres]
      at hfound
    obtain ⟨⟨entry, ty''⟩, hentry, hpair⟩ := Option.map_eq_some_iff.mp hfound
    obtain ⟨rfl, rfl⟩ := Prod.mk.inj hpair
    have hdecl := (Known.inherits_of_resolve hres).declares_right
    refine Or.inr ⟨(hin.vars x).trans hv, entry, s, _, hentry,
      hserves.layouts.declared _ hdecl, howner, ?_, hlocate, hsty⟩
    rw [he.ownSlots_at hat hdecl]
    exact hown

/-- A program with an entry point has a method. -/
theorem HasEntry.exists_at {p : Program} (h : p.HasEntry) :
    ∃ older c before m, p.At older c before m ∧ m.name = "start" := by
  obtain ⟨last, hlast, _, m, hm, hname, _⟩ := h
  obtain ⟨older, hp⟩ := List.getLast?_eq_some_iff.mp hlast
  obtain ⟨before, after, hmethods⟩ := List.append_of_mem hm
  exact ⟨older, last, before, m, ⟨⟨[], hp⟩, after, hmethods⟩, hname⟩

theorem locate_agrees_sample :
    ∃ a older c before m, analyze sample = .ok a ∧ a.program.Representable ∧
      a.program.At older c before m ∧ m.name = "start" ∧
      ∃ inside site,
        TablesAt (older.map ClassDecl.erase) c.erase (before.map Method.erase) m.erase inside ∧
        Generator.SiteAt a.tables.classes a.program older c before m site ∧
        ∀ x, m.Mentions x → ∃ ty, inside.variableType c.name x = some ty ∧
          (∀ n, m.Uses (.var n x) → n.ty = some ty) ∧
          ResolvedAlike inside site a.program.known c.name m x ty := by
  obtain ⟨a, ha, hr⟩ := sample_accepted
  obtain ⟨older, c, before, m, hat, hname⟩ := (elaborated_of_analyze ha).1.entry.exists_at
  exact ⟨a, older, c, before, m, ha, hr, hat, hname, locate_agrees ha hr hat⟩

end Program

end ClassLang
