import ClassLang.Proofs.Lowering.Serving
import ClassLang.Proofs.Meaning.Sound

/-! # Methods that call older methods

    The methods of a program in the order in which calls can reach them.

    * **`Routine.Linked`**: every method that a method can call is an earlier
      one, and no two have the same class and name.
    * **`Routine.calls_safe`**: calls of linked methods give values of the
      types that the rules promise.
    * **`Program.Derives.linked`** and **`typed_of_mem`**: the methods of a
      program that follows the rules are so.
    * **`Program.evaluateOn`** runs a program whose object starts with any
      values or with none that are known, and **`Program.Derives.evaluateOn_ne_stuck`**: a program that
      follows the rules is never stuck. -/

namespace ClassLang

variable {known : Known} {mark : Mark}

namespace Routine

/-! ## Linked methods -/

/-- The class and the name by which a method is called. -/
def key (r : Routine) : String × String := (r.view.cls, r.method.name)

/-- The method is the one that the rules find. -/
structure Answers (r : Routine) (owner method : String) (result : Ty) (params : List Ty) : Prop where
  key : r.key = (owner, method)
  signature : r.method.signature = .func result params

theorem Answers.parts {r : Routine} {owner method : String} {result : Ty} {params : List Ty}
    (h : r.Answers owner method result params) :
    r.view.cls = owner ∧ r.method.name = method ∧ .ofName r.method.result = result ∧
      r.method.params.map (Ty.ofName ·.ty) = params := by
  have hkey := h.key
  have hsig := h.signature
  simp only [Routine.key, Prod.mk.injEq] at hkey
  simp only [Method.signature, Ty.func.injEq] at hsig
  exact ⟨hkey.1, hkey.2, hsig.1, hsig.2⟩

/-- The method follows the rules where it stands. -/
structure Typed (mark : Mark) (known : Known) (r : Routine) : Prop where
  view : r.view = r.method.view r.view.known r.view.cls
  derives : r.method.Derives mark r.view.known r.view.cls
  within : r.view.Within known

/-- Of a list of methods, the newest first: whatever one of them can call is
    among the earlier ones, and no two have one key. -/
def Linked : List Routine → Prop
  | [] => True
  | r :: earlier =>
    (∀ cls method owner result params,
      r.view.known.resolve cls method = some (owner, .func result params) →
      ∃ r' ∈ earlier, r'.Answers owner method result params)
    ∧ (∀ r' ∈ earlier, r'.key ≠ r.key) ∧ Linked earlier

/-- What the newest method can call is among the earlier ones. -/
theorem Linked.called {r : Routine} {earlier : List Routine} (h : Linked (r :: earlier))
    {cls method owner : String} {result : Ty} {params : List Ty}
    (hr : r.view.known.resolve cls method = some (owner, .func result params)) :
    ∃ r' ∈ earlier, r'.view.cls = owner ∧ r'.method.name = method ∧
      .ofName r'.method.result = result ∧ r'.method.params.map (Ty.ofName ·.ty) = params := by
  obtain ⟨r', hmem, hans⟩ := h.1 cls method owner result params hr
  exact ⟨r', hmem, hans.parts⟩

/-- The newest method is called by its own key. -/
theorem calls_self (r : Routine) (earlier : List Routine) (self : Ref) (args : List Value) :
    calls (r :: earlier) r.view.cls r.method.name self args =
      r.method.run (calls earlier) r.view self args := by
  rw [calls, if_pos ⟨rfl, rfl⟩]

/-- An earlier method is called as if there was no newer one. -/
theorem calls_of_ne {r r' : Routine} (earlier : List Routine) (h : r'.key ≠ r.key) (self : Ref)
    (args : List Value) :
    calls (r :: earlier) r'.view.cls r'.method.name self args =
      calls earlier r'.view.cls r'.method.name self args := by
  rw [calls, if_neg]
  rintro ⟨hcls, hname⟩
  exact h (by rw [key, key, hcls, hname])

/-- Calls of linked methods are safe. -/
theorem calls_safe (hk : known.Regular) {rs : List Routine} (hl : Linked rs)
    (ht : ∀ r ∈ rs, r.Typed mark known) : ∀ r ∈ rs,
    (calls rs).Sound known r.view.cls r.method.name (r.method.params.map (Ty.ofName ·.ty))
      (.ofName r.method.result) := by
  induction rs with
  | nil => simp
  | cons r earlier ih =>
    have hlinked := hl
    obtain ⟨_, hkeys, hl⟩ := hl
    have ih := ih hl fun r' hr' => ht r' (List.mem_cons_of_mem _ hr')
    intro r' hr' σ self args hσ hself hargs
    rcases List.mem_cons.mp hr' with rfl | hr'
    · have htyped := ht r' List.mem_cons_self
      have hcalls : r'.view.CallsSound known (calls earlier) := by
        intro cls method owner result params hres
        obtain ⟨r'', hmem, rfl, rfl, rfl, rfl⟩ := hlinked.called hres
        exact ih r'' hmem
      have hwithin := htyped.within
      rw [calls_self, htyped.view]
      rw [htyped.view] at hcalls hwithin
      exact Method.run_safe hk hwithin hcalls htyped.derives hσ hself hargs
    · rw [calls_of_ne earlier (hkeys r' hr')]
      exact ih r' hr' σ self args hσ hself hargs

/-- What the newest of linked methods can call is sound. -/
theorem Linked.callsSound (hk : known.Regular) {r : Routine} {earlier : List Routine}
    (hl : Linked (r :: earlier)) (ht : ∀ r' ∈ earlier, r'.Typed mark known) :
    r.view.CallsSound known (calls earlier) := by
  intro cls method owner result params hres
  obtain ⟨r', hmem, rfl, rfl, rfl, rfl⟩ := hl.called hres
  exact calls_safe hk hl.2.2 ht r' hmem

end Routine

/-! ## The methods of a program -/

namespace ClassDecl

/-- What holds of known classes: fields only hold objects of older ones. -/
theorem AllDerive.holdsOlder {known : Known} {classes : List ClassDecl}
    (h : AllDerive mark known classes) (hk : known.HoldsOlder) :
    Known.HoldsOlder (knownAfter known classes) := by
  induction classes generalizing known with
  | nil => exact hk
  | cons c rest ih =>
    rw [knownAfter_cons]
    refine ih h.2 ⟨?_, hk⟩
    intro f hf cls hcls
    simp only [interface, Declaration.variables, List.mem_flatMap, List.mem_map] at hf
    obtain ⟨d, hd, x, _, rfl⟩ := hf
    have hvisible := h.1.fields d hd
    cases hty : d.ty with
    | cls name =>
      rw [hty] at hvisible hcls
      cases hcls
      exact hvisible
    | _ =>
      rw [hty] at hcls
      cases hcls

end ClassDecl

namespace Program

variable {p : Program} {older : List ClassDecl} {c : ClassDecl} {before : List Method} {m : Method}

/-- The classes of a program that follows the rules are regular. -/
theorem Derives.regular (h : p.Derives mark) : p.known.Regular where
  wellFormed := h.classes.wellFormed trivial
  proper := h.classes.proper (by simp)
  held := h.classes.holdsOlder trivial

/-- What a method sees is declared so in the whole program. -/
theorem Derives.within_at (h : p.Derives mark) (hat : p.At older c before m) :
    (c.viewAt older before m).Within p.known where
  inherits := fun hi => h.inherits_at hat hi
  field := by
    intro x owner ty hr hp
    obtain ⟨s, hs, hname, hty, _, _⟩ :=
      Known.layout_field?_of_resolve (h.wellFormed_at hat) (h.proper_at hat) hr hp
    have hi := Known.inherits_of_resolve hr
    have hown := h.ownSlots_at hat hi.declares_right
    exact ⟨s, ⟨h.inherits_at hat hi, hown ▸ hs, hname⟩, hty⟩

/-- The methods so far, the oldest first, are all methods of the known classes,
    and they have the keys of methods of known classes. -/
structure Covered (known : Known) (done : List Routine) : Prop where
  methods : ∀ i ∈ known, ∀ b ∈ i.methods,
    ∃ r ∈ done, r.key = (i.name, b.1) ∧ r.method.signature = b.2
  keys : ∀ r ∈ done, ∃ i ∈ known, i.name = r.view.cls ∧ r.method.name ∈ i.methods.map (·.1)

theorem Covered.nil : Covered [] [] where
  methods := by simp
  keys := by simp

/-- A class without methods adds none. -/
theorem Covered.upTo_nil {known : Known} {done : List Routine} (h : Covered known done)
    (c : ClassDecl) : Covered (c.upTo [] :: known) done where
  methods := by
    intro i hi b hb
    rcases List.mem_cons.mp hi with rfl | hi
    · cases hb
    · exact h.methods i hi b hb
  keys := fun r hr => by
    obtain ⟨i, hi, hkey⟩ := h.keys r hr
    exact ⟨i, List.mem_cons_of_mem _ hi, hkey⟩

/-- The next method of a class joins the methods so far. -/
theorem Covered.concat {known : Known} {done : List Routine}
    (h : Covered (c.upTo before :: known) done) {r : Routine} (hcls : r.view.cls = c.name) :
    Covered (c.upTo (before ++ [r.method]) :: known) (done ++ [r]) where
  methods := by
    intro i hi b hb
    have hold : ∀ j ∈ c.upTo before :: known, b ∈ j.methods →
        ∃ r' ∈ done ++ [r], r'.key = (j.name, b.1) ∧ r'.method.signature = b.2 := by
      intro j hj hb
      obtain ⟨r', hr', hans⟩ := h.methods j hj b hb
      exact ⟨r', List.mem_append_left _ hr', hans⟩
    rcases List.mem_cons.mp hi with rfl | hi
    · simp only [ClassDecl.upTo, ClassDecl.interface, List.map_append, List.mem_append,
        List.map_cons, List.map_nil, List.mem_singleton] at hb
      rcases hb with hb | rfl
      · exact hold (c.upTo before) List.mem_cons_self hb
      · refine ⟨r, List.mem_append_right _ List.mem_cons_self, ?_, rfl⟩
        rw [Routine.key, hcls]
        rfl
    · exact hold i (List.mem_cons_of_mem _ hi) hb
  keys := by
    intro r' hr'
    rcases List.mem_append.mp hr' with hr' | hr'
    · obtain ⟨i, hi, hname, hmem⟩ := h.keys r' hr'
      rcases List.mem_cons.mp hi with rfl | hi
      · refine ⟨_, List.mem_cons_self, hname, ?_⟩
        simp only [ClassDecl.upTo, ClassDecl.interface, List.map_append] at hmem ⊢
        exact List.mem_append_left _ hmem
      · exact ⟨i, List.mem_cons_of_mem _ hi, hname, hmem⟩
    · cases List.mem_singleton.mp hr'
      refine ⟨_, List.mem_cons_self, hcls.symm, ?_⟩
      simp [ClassDecl.upTo, ClassDecl.interface]

/-- The next method of a class is linked to the methods so far. -/
theorem Derives.linked_concat (h : p.Derives mark) (hat : p.At older c before m)
    {done : List Routine}
    (hcov : Covered (c.upTo before :: ClassDecl.knownAfter [] older) done)
    (hl : Routine.Linked done.reverse) :
    Routine.Linked (done ++ [Routine.mk (c.viewAt older before m) m]).reverse := by
  rw [List.reverse_append, List.reverse_singleton, List.singleton_append]
  refine ⟨?_, ?_, hl⟩
  · intro cls method owner result params hres
    obtain ⟨i, hi, rfl, hmember⟩ := Known.exists_of_resolve hres
    have hmem := Known.mem_of_mem_lineage hi
    have hproper := h.proper_at hat i hmem
    rcases List.mem_append.mp (mem_of_lookup hmember) with hf | hb
    · exact (hproper.fields _ hf).elim
    · obtain ⟨r, hr, hkey, hsig⟩ := hcov.methods i hmem _ hb
      exact ⟨r, List.mem_reverse.mpr hr, hkey, hsig⟩
  · intro r hr heq
    obtain ⟨i, hi, hname, hmem⟩ := hcov.keys r (List.mem_reverse.mp hr)
    simp only [Routine.key, Prod.mk.injEq] at heq
    have hcls : i.name = c.name := hname.trans heq.1
    rw [heq.2] at hmem
    rcases List.mem_cons.mp hi with rfl | hi
    · -- two methods of one class have different names
      have hd := (h.class_at hat).distinct
      obtain ⟨_, after, hm⟩ := hat
      simp only [Interface.members, ClassDecl.interface, hm, List.map_append, List.map_cons] at hd
      have hmethods := (List.nodup_append.mp hd).2.1
      exact (List.nodup_append.mp hmethods).2.2 _ hmem _ List.mem_cons_self rfl
    · exact (h.class_at hat).name ⟨i, hi, hcls⟩

/-- The methods of a class are linked to those of the classes before it. -/
theorem Derives.linked_methods (h : p.Derives mark) {newer : List ClassDecl}
    (hp : p.classes = older ++ c :: newer) (rest : List Method) {after : List Method}
    (hm : c.methods = before ++ rest ++ after) {done : List Routine}
    (hcov : Covered (c.upTo before :: ClassDecl.knownAfter [] older) done)
    (hl : Routine.Linked done.reverse) :
    Covered (c.upTo (before ++ rest) :: ClassDecl.knownAfter [] older)
        (done ++ c.routines older before rest) ∧
      Routine.Linked (done ++ c.routines older before rest).reverse := by
  induction rest generalizing before done with
  | nil =>
    rw [ClassDecl.routines, List.append_nil, List.append_nil]
    exact ⟨hcov, hl⟩
  | cons m rest ih =>
    have hat : p.At older c before m := ⟨⟨newer, hp⟩, rest ++ after, (by simp [hm])⟩
    have hl' := h.linked_concat hat hcov hl
    have hcov' := hcov.concat (r := ⟨c.viewAt older before m, m⟩) rfl
    have hrest := ih (by simp [hm]) hcov' hl'
    simpa [ClassDecl.routines] using hrest

/-- The methods of all classes are linked. -/
theorem Derives.linked_classes (h : p.Derives mark) (rest : List ClassDecl)
    {newer : List ClassDecl} (hp : p.classes = older ++ rest ++ newer) {done : List Routine}
    (hcov : Covered (ClassDecl.knownAfter [] older) done) (hl : Routine.Linked done.reverse) :
    Covered (ClassDecl.knownAfter [] (older ++ rest)) (done ++ ClassDecl.allRoutines older rest) ∧
      Routine.Linked (done ++ ClassDecl.allRoutines older rest).reverse := by
  induction rest generalizing older done with
  | nil =>
    rw [ClassDecl.allRoutines, List.append_nil, List.append_nil]
    exact ⟨hcov, hl⟩
  | cons c rest ih =>
    have hpc : p.classes = older ++ c :: (rest ++ newer) := by simp [hp]
    obtain ⟨hcov', hl'⟩ := h.linked_methods hpc c.methods
      (show c.methods = [] ++ c.methods ++ [] by simp) (hcov.upTo_nil c) hl
    have hknown : c.upTo ([] ++ c.methods) :: ClassDecl.knownAfter [] older =
        ClassDecl.knownAfter [] (older ++ [c]) := by
      simp [ClassDecl.knownAfter, ClassDecl.upTo]
    rw [hknown] at hcov'
    have hrest := ih (by simp [hp]) hcov' hl'
    simpa [ClassDecl.allRoutines] using hrest

/-- The methods of a program that follows the rules are linked, and they are
    all methods of its classes. -/
theorem Derives.linked (h : p.Derives mark) :
    Covered p.known p.routines.reverse ∧ Routine.Linked p.routines := by
  have hall := h.linked_classes p.classes (show p.classes = [] ++ p.classes ++ [] by simp)
    Covered.nil trivial
  simpa [routines, known] using hall

/-! ## Members -/

theorem exists_of_mem_routines {rest : List Method} {r : Routine}
    (hr : r ∈ c.routines older before rest) :
    ∃ between m after, rest = between ++ m :: after ∧
      r = ⟨c.viewAt older (before ++ between) m, m⟩ := by
  induction rest generalizing before with
  | nil => cases hr
  | cons m rest ih =>
    rcases List.mem_cons.mp hr with rfl | hr
    · exact ⟨[], m, rest, rfl, by rw [List.append_nil]⟩
    · obtain ⟨between, m', after, rfl, rfl⟩ := ih hr
      exact ⟨m :: between, m', after, rfl, by simp⟩

theorem exists_of_mem_allRoutines {rest : List ClassDecl} {r : Routine}
    (hr : r ∈ ClassDecl.allRoutines older rest) :
    ∃ between c newer before m after, rest = between ++ c :: newer ∧
      c.methods = before ++ m :: after ∧ r = ⟨c.viewAt (older ++ between) before m, m⟩ := by
  induction rest generalizing older with
  | nil => cases hr
  | cons c rest ih =>
    rcases List.mem_append.mp hr with hr | hr
    · obtain ⟨before, m, after, hm, rfl⟩ := exists_of_mem_routines hr
      exact ⟨[], c, rest, before, m, after, rfl, hm, by simp⟩
    · obtain ⟨between, c', newer, before, m, after, rfl, hm, rfl⟩ := ih hr
      exact ⟨c :: between, c', newer, before, m, after, rfl, hm, by simp⟩

/-- The methods of a program stand in it. -/
theorem exists_at_of_mem_routines {r : Routine} (hr : r ∈ p.routines) :
    ∃ older c before m, p.At older c before m ∧ r = ⟨c.viewAt older before m, m⟩ := by
  obtain ⟨older, c, newer, before, m, after, hp, hm, rfl⟩ :=
    exists_of_mem_allRoutines (List.mem_reverse.mp hr)
  exact ⟨older, c, before, m, ⟨⟨newer, hp⟩, after, hm⟩, by simp⟩

/-- The methods of a program that follows the rules follow them too. -/
theorem Derives.typed_of_mem (h : p.Derives mark) {r : Routine} (hr : r ∈ p.routines) :
    r.Typed mark p.known := by
  obtain ⟨older, c, before, m, hat, rfl⟩ := exists_at_of_mem_routines hr
  exact ⟨rfl, h.method_at hat, h.within_at hat⟩

/-! ## Whole programs -/

/-- The method at which a program starts. -/
theorem Derives.exists_entry (h : p.Derives mark) :
    ∃ r ∈ p.routines, r.view.cls = "Program" ∧ r.method.name = "start" ∧ r.method.params = [] ∧
      r.method.result = .nothing := by
  obtain ⟨last, hlast, hname, m, hm, hstart, hparams, hresult⟩ := h.entry
  have hmem : last.interface ∈ p.known := by
    simp only [known, ClassDecl.knownAfter, List.append_nil, List.mem_reverse]
    exact List.mem_map_of_mem (List.mem_of_getLast? hlast)
  obtain ⟨r, hr, hkey, hsig⟩ :=
    h.linked.1.methods _ hmem (m.name, m.signature) (List.mem_map_of_mem hm)
  simp only [Routine.key, Prod.mk.injEq] at hkey
  simp only [Method.signature, hparams, hresult, List.map_nil, Ty.func.injEq,
    List.map_eq_nil_iff] at hsig
  refine ⟨r, List.mem_reverse.mp hr, hkey.1.trans hname, hkey.2.trans hstart, hsig.2, ?_⟩
  cases hres : r.method.result with
  | nothing => rfl
  | _ =>
    rw [hres] at hsig
    cases hsig.1

/-- The class of the program's own object is declared. -/
theorem Derives.declares_program (h : p.Derives mark) : p.known.Declares "Program" := by
  obtain ⟨last, hlast, hname, _⟩ := h.entry
  refine ⟨last.interface, ?_, hname⟩
  simp only [known, ClassDecl.knownAfter, List.append_nil, List.mem_reverse]
  exact List.mem_map_of_mem (List.mem_of_getLast? hlast)

/-- Only the program's own object is there.  Its fields may be cleared or not, and
    those that have values have values of their types. -/
structure Initial (known : Known) (σ : Store) : Prop where
  roots : σ.roots = ["Program"]
  printed : σ.printed = []
  typed : σ.Typed known

/-- The store in which a program starts when nothing is known of what is in its
    own object. -/
def untouched : Store where
  roots := ["Program"]
  cells := fun r => if r.root = 0 then .unset else .cleared

theorem initial_untouched (known : Known) : Initial known untouched where
  roots := rfl
  printed := rfl
  typed := by
    refine ⟨?_, ?_⟩
    · intro r hr
      by_cases h0 : r.root = 0
      · rw [h0]
        exact Nat.zero_lt_one
      · exact absurd (if_neg h0) hr
    · intro r v hr
      simp only [untouched] at hr
      split at hr <;> cases hr

/-- Runs the program from any such store: calls `start` on its object. -/
def evaluateOn (p : Program) (σ : Store) : Except Trouble Store :=
  (Routine.calls p.routines "Program" "start" ⟨0, []⟩ [] σ).map (·.2)

variable {σ σ' : Store}

theorem evaluateOn_eq_ok_iff : p.evaluateOn σ = .ok σ' ↔
    ∃ v, Routine.calls p.routines "Program" "start" ⟨0, []⟩ [] σ = .ok (v, σ') := by
  unfold evaluateOn
  cases Routine.calls p.routines "Program" "start" ⟨0, []⟩ [] σ with
  | error t => exact ⟨fun h => (by cases h), fun ⟨_, h⟩ => by cases h⟩
  | ok res =>
    obtain ⟨v, σ₁⟩ := res
    exact ⟨fun h => ⟨v, by cases h; rfl⟩, fun ⟨_, h⟩ => by cases h; rfl⟩

theorem evaluateOn_eq_error_iff {t : Trouble} : p.evaluateOn σ = .error t ↔
    Routine.calls p.routines "Program" "start" ⟨0, []⟩ [] σ = .error t := by
  unfold evaluateOn
  cases Routine.calls p.routines "Program" "start" ⟨0, []⟩ [] σ with
  | error t => exact ⟨fun h => (by cases h; rfl), fun h => (by cases h; rfl)⟩
  | ok res => exact ⟨fun h => (by cases h), fun h => (by cases h)⟩

/-- The program's own object is the one with which it starts. -/
theorem Derives.own_object (h : p.Derives mark) (hσ : Initial p.known σ) :
    (Value.object ⟨0, []⟩).Of p.known σ.roots (.object "Program") := by
  have hroot : σ.roots[0]? = some "Program" := by rw [hσ.roots]; rfl
  exact .object hroot .here (Known.inherits_refl h.declares_program)

/-- Calling `start` is safe. -/
theorem Derives.start_safe (h : p.Derives mark) (hσ : Initial p.known σ) :
    Safe (Gives p.known σ .nothing)
      (Routine.calls p.routines "Program" "start" ⟨0, []⟩ [] σ) := by
  obtain ⟨r, hr, hcls, hname, hparams, hresult⟩ := h.exists_entry
  have hsound := Routine.calls_safe h.regular h.linked.2 (fun r hr => h.typed_of_mem hr) r hr
  rw [hcls, hname, hparams, hresult] at hsound
  exact hsound σ ⟨0, []⟩ [] hσ.typed (h.own_object hσ) .nil

/-- A program that follows the rules gives a store, or it meets a trouble other
    than being stuck. -/
theorem Derives.evaluateOn_ne_stuck (h : p.Derives mark) (hσ : Initial p.known σ) :
    p.evaluateOn σ ≠ .error .stuck := by
  intro hstuck
  have hsafe := h.start_safe hσ
  rw [evaluateOn_eq_error_iff.mp hstuck] at hsafe
  exact hsafe rfl

end Program

end ClassLang
