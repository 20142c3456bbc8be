import ClassLang.Proofs.Grammar.Bare
import ClassLang.Proofs.Typing.Declare
import ClassLang.Proofs.Typing.Places
import ClassLang.Proofs.Typing.Stmt
import Mathlib

/-! # Checking programs is elaboration

    The rules of typing and the checker agree, level by level:

    * **`Method.check_sound`**, **`ClassDecl.check_sound`** and
      **`Program.check_sound`**: what checking a bare tree yields is an
      elaborated form of it.
    * **`Method.check_complete`**, **`ClassDecl.check_complete`** and
      **`Program.check_complete`**: a bare tree that follows the rules is
      accepted.
    * **`Program.check_ok_iff_wellTyped`**: for every program that is read,
      checking succeeds exactly if the program follows the rules, and then
      every expression records its type.

    The tables move along: after the methods `before` they show exactly the
    older classes and the members declared so far. -/

namespace ClassLang

/-! ## Methods -/

/-- The class after one more method. -/
theorem ClassDecl.upTo_append_singleton (c : ClassDecl) (before : List Method) (m : Method) :
    c.upTo (before ++ [m]) =
      { c.upTo before with methods := (c.upTo before).methods ++ [(m.name, m.signature)] } := by
  simp [upTo, interface]

/-- The rules depend on a class and the methods before only through what they
    look like. -/
theorem ClassDecl.MethodsDerive.of_upTo_eq {mark : Mark} {older : Known} {c c' : ClassDecl}
    {before before' methods : List Method} (heq : c.upTo before = c'.upTo before')
    (h : c.MethodsDerive mark older before methods) :
    c'.MethodsDerive mark older before' methods := by
  induction methods generalizing before before' with
  | nil => trivial
  | cons m rest ih =>
    have hname : c.name = c'.name := congrArg Interface.name heq
    refine ⟨heq ▸ hname ▸ h.1, ih ?_ h.2⟩
    rw [upTo_append_singleton, upTo_append_singleton, heq]

namespace Method

variable {t u : Tables} {i : Interface} {older : Known}

/-- The parts of a bare method are bare. -/
theorem parts_of_erase_eq {m : Method} (hb : m.erase = m) :
    Stmt.eraseAll m.body = m.body ∧ m.value.erase = m.value := by
  constructor
  · exact congrArg Method.body hb
  · exact congrArg Method.value hb

/-- What checking a bare method yields is an elaborated form of it, and the
    method is then a member of its class. -/
theorem check_sound (h : t.InClass (i :: older)) {m m' : Method} (hb : m.erase = m)
    (hy : (m.check i.name t).Yields m' u) :
    m'.erase = m ∧ m'.Derives Note.Records (i :: older) i.name ∧ i.member? m.name = none ∧
      u.InClass ({ i with methods := i.methods ++ [(m.name, m.signature)] } :: older) := by
  obtain ⟨hbody, hvalue⟩ := parts_of_erase_eq hb
  unfold check at hy
  split at hy
  · exact absurd hy Outcome.stop_yields
  · next inside henter =>
    have hin := h.inMethod_enter henter
    obtain ⟨hres, hparams, hlocals, s, hs, _⟩ := h.enter_ok_iff.mp henter
    have hnd := (Tables.insertAll_openScope_isSome_iff _ _).mp (by rw [hs]; rfl)
    obtain ⟨body', _, hb', hy⟩ := Outcome.andThen_yields.mp hy
    obtain ⟨value', ty, hv', hy⟩ := Outcome.andThen_yields.mp hy
    obtain ⟨heb, hd⟩ := Stmt.elaborated_of_checkAll hin hbody hb'
    obtain ⟨hev, hty⟩ := Expr.elaborated_of_check hin hvalue hv'
    dsimp only at hy
    split at hy
    · next hassign =>
      obtain ⟨rfl, hfree, hclass⟩ := hin.inClass_publish rfl hy
      refine ⟨?_, ⟨hres, hparams, hlocals, hnd, hd, ty, hty, ?_⟩, hfree, hclass⟩
      · rw [erase, heb, hev]
      · exact (hin.assignable_iff ty (Ty.ofName_plain _)).mp hassign
    · exact absurd hy Outcome.violated_yields

/-- A bare method that follows the rules and whose name is new is accepted. -/
theorem check_complete (h : t.InClass (i :: older)) {m : Method} (hb : m.erase = m)
    (hd : m.Derives (fun _ _ _ => True) (i :: older) i.name) (hfree : i.member? m.name = none) :
    ∃ m' u, (m.check i.name t).Yields m' u := by
  obtain ⟨hbody, hvalue⟩ := parts_of_erase_eq hb
  obtain ⟨s, hs⟩ := Option.isSome_iff_exists.mp
    ((Tables.insertAll_openScope_isSome_iff t.scopes m.variables).mpr hd.distinct)
  have henter : m.enter t = .ok ⟨s, t.classes⟩ :=
    h.enter_ok_iff.mpr ⟨hd.result, hd.params, hd.locals, s, hs, rfl⟩
  have hin := h.inMethod_enter henter
  obtain ⟨body', heb, hbody'⟩ := Stmt.exists_forms fun s hs => Stmt.exists_elaborated (hd.body s hs)
  obtain ⟨ty, hty, hassign⟩ := hd.value
  obtain ⟨value', hev, hvalue'⟩ := Expr.HasType.exists_elaborated hty
  have hchecked := (Stmt.checkAll_yields_iff hin hbody).mpr ⟨heb.trans hbody, hbody'⟩
  have htyped := (Expr.check_yields_iff hin hvalue).mpr ⟨hev.trans hvalue, hvalue'⟩
  let typed : Method := { m with body := body', value := value' }
  obtain ⟨u, hu⟩ := hin.exists_publish (m := typed) rfl i.name hfree
  refine ⟨typed, u, ?_⟩
  rw [check, henter]
  refine Outcome.andThen_yields.mpr ⟨body', (), hchecked, ?_⟩
  refine Outcome.andThen_yields.mpr ⟨value', ty, htyped, ?_⟩
  rw [if_pos ((hin.assignable_iff ty (Ty.ofName_plain _)).mpr hassign)]
  exact hu

end Method

namespace ClassDecl

variable {t u : Tables} {older : Known}

/-- What checking bare methods yields are elaborated forms of them, and all of
    them are then members of their class. -/
theorem checkMethods_sound {c : ClassDecl} {before methods methods' : List Method}
    (h : t.InClass (c.upTo before :: older)) (hb : methods.map Method.erase = methods)
    (hnd : ((c.upTo before).members.map (·.1)).Nodup)
    (hy : (Method.checkAll c.name t methods).Yields methods' u) :
    methods'.map Method.erase = methods ∧ c.MethodsDerive Note.Records older before methods' ∧
      ((c.upTo (before ++ methods)).members.map (·.1)).Nodup ∧
      u.InClass (c.upTo (before ++ methods) :: older) := by
  induction methods generalizing t before methods' with
  | nil =>
    obtain ⟨rfl, rfl⟩ := Outcome.done_yields.mp hy
    refine ⟨rfl, trivial, ?_, ?_⟩ <;> rw [List.append_nil] <;> assumption
  | cons m rest ih =>
    obtain ⟨hbm, hbr⟩ := List.cons.inj hb
    obtain ⟨m', v, hm, hy⟩ := Outcome.andThen_yields.mp hy
    obtain ⟨rest', w, hr, hy⟩ := Outcome.andThen_yields.mp hy
    obtain ⟨rfl, rfl⟩ := Outcome.done_yields.mp hy
    obtain ⟨he, hd, hfree, hv⟩ := Method.check_sound h hbm hm
    rw [← upTo_append_singleton] at hv
    have hnd' : ((c.upTo (before ++ [m])).members.map (·.1)).Nodup := by
      have hnew : m.name ∉ (c.upTo before).members.map (·.1) := lookup_eq_none_iff_names.mp hfree
      rw [upTo_append_singleton]
      simp only [Interface.members, ← List.append_assoc, List.map_append, List.map_cons,
        List.map_nil] at hnd hnew ⊢
      exact List.nodup_append.mpr ⟨hnd, List.nodup_singleton _, by
        intro x hx y hy heq
        rw [List.mem_singleton] at hy
        exact hnew (hy ▸ heq ▸ hx)⟩
    obtain ⟨her, hdr, hall, hw⟩ := ih hv hbr hnd' hr
    rw [List.append_assoc, List.singleton_append] at hall hw
    refine ⟨by rw [List.map_cons, he, her], ⟨hd, hdr.of_upTo_eq ?_⟩, hall, hw⟩
    rw [upTo_append_singleton, upTo_append_singleton, ← he]
    rfl

/-- Bare methods that follow the rules and whose names are new are accepted. -/
theorem checkMethods_complete {c : ClassDecl} {before methods : List Method}
    (h : t.InClass (c.upTo before :: older)) (hb : methods.map Method.erase = methods)
    (hd : c.MethodsDerive (fun _ _ _ => True) older before methods)
    (hnd : ((c.upTo (before ++ methods)).members.map (·.1)).Nodup) :
    ∃ methods' u, (Method.checkAll c.name t methods).Yields methods' u := by
  induction methods generalizing t before with
  | nil => exact ⟨[], t, by simp [Method.checkAll]⟩
  | cons m rest ih =>
    obtain ⟨hbm, hbr⟩ := List.cons.inj hb
    rw [← List.singleton_append, ← List.append_assoc] at hnd
    have hfree : (c.upTo before).member? m.name = none := by
      rw [Interface.member?, lookup_eq_none_iff_names]
      intro hmem
      simp only [upTo, interface, Interface.members, List.map_append, List.map_map,
        List.map_cons, List.map_nil] at hnd hmem
      simp only [← List.append_assoc] at hnd
      have := List.nodup_append.mp (List.nodup_append.mp hnd).1
      exact this.2.2 m.name hmem m.name (by simp) rfl
    obtain ⟨m', v, hm⟩ := Method.check_complete h hbm hd.1 hfree
    obtain ⟨_, _, _, hv⟩ := Method.check_sound h hbm hm
    rw [← upTo_append_singleton] at hv
    obtain ⟨rest', u, hr⟩ := ih hv hbr hd.2 hnd
    refine ⟨m' :: rest', u, Outcome.andThen_yields.mpr ⟨m', v, hm, ?_⟩⟩
    exact Outcome.andThen_yields.mpr ⟨rest', u, hr, by simp⟩

/-! ## Classes -/

/-- What checking a bare class yields is an elaborated form of it, and the
    class is then known. -/
theorem check_sound (h : t.AtRoot older) {index : Nat} {c c' : ClassDecl} (hb : c.erase = c)
    (hy : (c.check index t).Yields c' u) :
    c'.erase = c ∧ c'.Derives Note.Records older ∧ u.AtRoot (c.interface :: older) := by
  have hbm : c.methods.map Method.erase = c.methods := congrArg ClassDecl.methods hb
  unfold check at hy
  split at hy
  · exact absurd hy Outcome.stop_yields
  · next v hreg =>
    obtain ⟨hsuper, hnew, rfl⟩ := h.register_ok_iff.mp hreg
    have hclass := h.inClass_register index hsuper hnew
    obtain ⟨hfields, hdeclared⟩ := hclass.declareFields
    rw [Outcome.after_yields] at hy
    unfold checkMembers at hy
    split at hy
    · exact absurd hy Outcome.stop_yields
    · next w hw =>
      obtain ⟨hvis, hnd⟩ := hfields.mp ⟨w, hw⟩
      obtain ⟨methods', x, hm, hy⟩ := Outcome.andThen_yields.mp hy
      have hnd' : ((c.upTo []).members.map (·.1)).Nodup := by
        simpa [upTo, interface, Interface.members] using hnd
      obtain ⟨he, hd, hall, hx⟩ := checkMethods_sound (hdeclared w hw) hbm hnd' hm
      obtain ⟨y, hclose, hroot⟩ := hx.closeScope_ok
      obtain ⟨rfl, hu⟩ := Outcome.yields_mk.mp hy
      have hinterface : ({ c with methods := methods' } : ClassDecl).interface = c.interface := by
        rw [← erase_interface, erase, he]
      rw [hclose] at hu
      cases hu
      refine ⟨by rw [erase, he], ⟨hnew, hsuper, hvis, ?_, ?_⟩, hroot⟩
      · rw [hinterface]
        exact hall
      · have heq : c.upTo [] = ({ c with methods := methods' } : ClassDecl).upTo [] := rfl
        exact hd.of_upTo_eq heq

/-- A bare class that follows the rules is accepted. -/
theorem check_complete (h : t.AtRoot older) (index : Nat) {c : ClassDecl} (hb : c.erase = c)
    (hd : c.Derives (fun _ _ _ => True) older) : ∃ c' u, (c.check index t).Yields c' u := by
  have hbm : c.methods.map Method.erase = c.methods := congrArg ClassDecl.methods hb
  have hclass := h.inClass_register index hd.superclass hd.name
  obtain ⟨hfields, hdeclared⟩ := hclass.declareFields
  have hnd : ((Declaration.variables c.fields).map (·.1)).Nodup := by
    have := hd.distinct
    rw [Interface.members, List.map_append] at this
    exact (List.nodup_append.mp this).1
  obtain ⟨w, hw⟩ := hfields.mpr ⟨hd.fields, hnd⟩
  obtain ⟨methods', x, hm⟩ := checkMethods_complete (hdeclared w hw) hbm hd.methods hd.distinct
  have hnd' : ((c.upTo []).members.map (·.1)).Nodup := by
    simpa [upTo, interface, Interface.members] using hnd
  obtain ⟨_, _, _, hx⟩ := checkMethods_sound (hdeclared w hw) hbm hnd' hm
  obtain ⟨y, hclose, _⟩ := hx.closeScope_ok
  refine ⟨{ c with methods := methods' }, y, ?_⟩
  unfold check
  rw [h.register_ok_iff.mpr ⟨hd.superclass, hd.name, rfl⟩]
  refine Outcome.after_yields.mpr ?_
  unfold checkMembers
  rw [hw]
  exact Outcome.andThen_yields.mpr ⟨methods', x, hm, Outcome.yields_mk.mpr ⟨rfl, hclose⟩⟩

/-- What checking bare classes yields are elaborated forms of them, and all of
    them are then known. -/
theorem checkAll_sound (h : t.AtRoot older) {index : Nat} {classes classes' : List ClassDecl}
    (hb : classes.map erase = classes) (hy : (checkAll index t classes).Yields classes' u) :
    classes'.map erase = classes ∧ AllDerive Note.Records older classes' ∧
      u.AtRoot (knownAfter older classes) := by
  induction classes generalizing t older index classes' with
  | nil =>
    obtain ⟨rfl, rfl⟩ := Outcome.done_yields.mp hy
    exact ⟨rfl, trivial, h⟩
  | cons c rest ih =>
    obtain ⟨hbc, hbr⟩ := List.cons.inj hb
    obtain ⟨c', v, hc, hy⟩ := Outcome.andThen_yields.mp hy
    obtain ⟨rest', w, hr, hy⟩ := Outcome.andThen_yields.mp hy
    obtain ⟨rfl, rfl⟩ := Outcome.done_yields.mp hy
    obtain ⟨he, hd, hv⟩ := check_sound h hbc hc
    obtain ⟨her, hdr, hw⟩ := ih hv hbr hr
    refine ⟨by rw [List.map_cons, he, her], ⟨hd, ?_⟩, ?_⟩
    · rw [← erase_interface, he]
      exact hdr
    · rw [knownAfter_cons]
      exact hw

/-- Bare classes that follow the rules are accepted. -/
theorem checkAll_complete (h : t.AtRoot older) (index : Nat) {classes : List ClassDecl}
    (hb : classes.map erase = classes) (hd : AllDerive (fun _ _ _ => True) older classes) :
    ∃ classes' u, (checkAll index t classes).Yields classes' u := by
  induction classes generalizing t older index with
  | nil => exact ⟨[], t, by simp [checkAll]⟩
  | cons c rest ih =>
    obtain ⟨hbc, hbr⟩ := List.cons.inj hb
    obtain ⟨c', v, hc⟩ := check_complete h index hbc hd.1
    obtain ⟨_, _, hv⟩ := check_sound h hbc hc
    obtain ⟨rest', u, hr⟩ := ih hv (index + 1) hbr hd.2
    refine ⟨c' :: rest', u, Outcome.andThen_yields.mpr ⟨c', v, hc, ?_⟩⟩
    exact Outcome.andThen_yields.mpr ⟨rest', u, hr, by simp⟩

/-- Every class of a list that follows the rules does so itself. -/
theorem AllDerive.of_mem {mark : Mark} {classes : List ClassDecl} (h : AllDerive mark older classes)
    {c : ClassDecl} (hc : c ∈ classes) : ∃ known, c.Derives mark known := by
  induction classes generalizing older with
  | nil => cases hc
  | cons d rest ih =>
    rcases List.mem_cons.mp hc with rfl | hc
    · exact ⟨older, h.1⟩
    · exact ih h.2 hc

end ClassDecl

/-! ## Programs -/

namespace Program

variable {t : Tables}

/-- The tables before the first class know nothing. -/
theorem atRoot_empty : Tables.AtRoot {} [] where
  entries := .nil
  wellFormed := trivial
  written := by
    intro i hi
    cases hi
  root := fun x => rfl
  distinct := by simp
  opened := by simp
  current := rfl
  enclosing := rfl

/-- A class declares a method without parameters and result exactly if that is
    what is found under its name. -/
theorem start_iff {c : ClassDecl} (hd : (c.interface.members.map (·.1)).Nodup) :
    c.interface.member? "start" = some (.func .nothing []) ↔
      ∃ m ∈ c.methods, m.name = "start" ∧ m.params = [] ∧ m.result = .nothing := by
  have hsig : ∀ m : Method, m.signature = .func .nothing [] ↔
      m.params = [] ∧ m.result = .nothing := by
    intro m
    rw [Method.signature]
    cases m.result <;> simp [Ty.ofName]
  constructor
  · intro h
    rcases List.mem_append.mp (mem_of_lookup h) with hf | hm
    · simp only [ClassDecl.interface, Declaration.variables, List.mem_flatMap, List.mem_map,
        Prod.mk.injEq] at hf
      obtain ⟨d, _, x, _, _, hty⟩ := hf
      have := Ty.ofName_plain d.ty
      rw [hty] at this
      exact this.elim
    · obtain ⟨m, hm, heq⟩ := List.mem_map.mp hm
      obtain ⟨hname, hty⟩ := Prod.mk.inj heq
      exact ⟨m, hm, hname, (hsig m).mp hty⟩
  · rintro ⟨m, hm, hname, hms⟩
    refine lookup_of_mem hd (List.mem_append_right _ (List.mem_map.mpr ⟨m, hm, ?_⟩))
    rw [hname, (hsig m).mpr hms]

/-- The entry point is accepted exactly if the rules accept it. -/
theorem entryPoint_ok_iff {p : Program} (h : t.AtRoot (ClassDecl.knownAfter [] p.classes))
    {mark : Mark} (hd : ClassDecl.AllDerive mark [] p.classes) :
    t.entryPoint p = .ok () ↔ p.HasEntry := by
  unfold Tables.entryPoint HasEntry
  cases hlast : p.classes.getLast? with
  | none => simp
  | some last =>
    obtain ⟨init, hinit⟩ := List.getLast?_eq_some_iff.mp hlast
    have hmem : last ∈ p.classes := by rw [hinit]; simp
    obtain ⟨_, hlastd⟩ := hd.of_mem hmem
    have hstart := start_iff hlastd.distinct
    have hknown : ClassDecl.knownAfter [] p.classes =
        last.interface :: (init.map ClassDecl.interface).reverse := by
      simp [ClassDecl.knownAfter, hinit]
    obtain ⟨e, es, hei, _, hcons⟩ := List.forall₂_cons_right_iff.mp (hknown ▸ h.entries)
    have hfind : t.classes.find? last.name = some e := by
      have hname : e.name = last.name := hei.name
      simp [Hierarchy.find?, hcons, hname]
    have hlookup : (t.classes.find? last.name).bind (t.scopes.lookupIn ·.scope "start") =
        last.interface.member? "start" := by
      rw [hfind]
      exact hei.members "start"
    by_cases hn : last.name = "Program"
    · simp only [hn, ne_eq, not_true_eq_false, if_false, Option.some.injEq, exists_eq_left',
        true_and]
      rw [← hstart, ← hlookup, hn]
      cases (t.classes.find? "Program").bind (t.scopes.lookupIn ·.scope "start") with
      | none => simp
      | some ty =>
        cases ty with
        | func result params =>
          cases result with
          | nothing => cases params <;> simp
          | int | bool | object _ | func _ _ => simp
        | int | bool | nothing | object _ => simp
    · simp [hn]

/-- What checking a bare program yields is an elaborated form of it, and the
    tables show all its classes. -/
theorem check_sound {p p' : Program} (hb : p.erase = p) (hy : p.check.Yields p' t) :
    p'.erase = p ∧ p'.Elaborated ∧ t.AtRoot (ClassDecl.knownAfter [] p'.classes) := by
  have hbc : p.classes.map ClassDecl.erase = p.classes := congrArg classes hb
  obtain ⟨classes', u, hc, hy⟩ := Outcome.andThen_yields.mp hy
  obtain ⟨he, hd, hroot⟩ := ClassDecl.checkAll_sound atRoot_empty hbc hc
  have hknown : ClassDecl.knownAfter [] classes' = ClassDecl.knownAfter [] p.classes := by
    rw [← he]
    simp [ClassDecl.knownAfter, Function.comp_def]
  dsimp only at hy
  split at hy
  · exact absurd hy Outcome.stop_yields
  · next hentry =>
    obtain ⟨rfl, rfl⟩ := Outcome.done_yields.mp hy
    rw [← hknown] at hroot
    exact ⟨by rw [erase, he], ⟨hd, (entryPoint_ok_iff hroot hd).mp hentry⟩, hroot⟩

/-- A bare program that follows the rules is accepted. -/
theorem check_complete {p : Program} (hb : p.erase = p) (hd : p.WellTyped) :
    ∃ p' t, p.check.Yields p' t := by
  have hbc : p.classes.map ClassDecl.erase = p.classes := congrArg classes hb
  obtain ⟨classes', u, hc⟩ := ClassDecl.checkAll_complete atRoot_empty 0 hbc hd.classes
  obtain ⟨he, hd', hroot⟩ := ClassDecl.checkAll_sound atRoot_empty hbc hc
  let typed : Program := { p with classes := classes' }
  have herase : typed.erase = p := by
    rw [erase, he]
  have hknown : ClassDecl.knownAfter [] classes' = ClassDecl.knownAfter [] p.classes := by
    rw [← he]
    simp [ClassDecl.knownAfter, Function.comp_def]
  have hentry : u.entryPoint typed = .ok () := by
    refine (entryPoint_ok_iff (hknown ▸ hroot) hd').mpr ?_
    rw [← hasEntry_erase, herase]
    exact hd.entry
  refine ⟨typed, u, Outcome.andThen_yields.mpr ⟨classes', u, hc, ?_⟩⟩
  dsimp only
  rw [hentry]
  exact Outcome.done_yields.mpr ⟨rfl, rfl⟩

/-- The one type that the rules give an expression is the one it records. -/
theorem Elaborated.exists_ty? {p : Program} (h : p.Elaborated) {older : List ClassDecl}
    {c : ClassDecl} {before : List Method} {m : Method} (hat : p.At older c before m) {e : Expr}
    (hu : m.Uses e) :
    ∃ ty, e.ty? = some ty ∧ ∀ ty', e.HasType (c.viewAt older before m) ty' ↔ ty' = ty := by
  obtain ⟨ty, hty⟩ := h.exists_type hat hu
  refine ⟨ty, Expr.Elaborated.ty?_eq hty, ?_⟩
  intro ty'
  constructor
  · intro hty'
    exact Expr.Derives.unique hty' hty
  · rintro rfl
    exact hty.hasType

/-- Checking a program that is read succeeds exactly if the program is well
    typed.  The checked tree is then the same tree with attributes, and the
    type that an expression records is the one that the rules give it. -/
theorem check_ok_iff_wellTyped {tokens : List Token} {p : Program} (h : ofTokens tokens = .ok p) :
    ((∃ t, p.check.result = .ok t) ↔ p.WellTyped) ∧
    ∀ t, p.check.result = .ok t → p.check.tree.erase = p ∧ p.check.tree.Elaborated ∧
      ∀ older c before m, p.check.tree.At older c before m → ∀ e, m.Uses e →
        ∃ ty, e.ty? = some ty ∧ ∀ ty', e.HasType (c.viewAt older before m) ty' ↔ ty' = ty := by
  have hb : p.erase = p := erase_of_ofTokens h
  have hsound : ∀ t, p.check.result = .ok t →
      p.check.tree.erase = p ∧ p.check.tree.Elaborated := by
    intro t ht
    obtain ⟨he, hd, _⟩ := check_sound hb (⟨rfl, ht⟩ : p.check.Yields p.check.tree t)
    exact ⟨he, hd⟩
  refine ⟨⟨?_, ?_⟩, ?_⟩
  · rintro ⟨t, ht⟩
    obtain ⟨he, hd⟩ := hsound t ht
    rw [← he]
    exact hd.erase
  · intro hw
    obtain ⟨p', t, _, ht⟩ := check_complete hb hw
    exact ⟨t, ht⟩
  · intro t ht
    obtain ⟨he, hd⟩ := hsound t ht
    exact ⟨he, hd, fun _ _ _ _ hat _ hu => Elaborated.exists_ty? hd hat hu⟩

/-- A program with an inherited field, a held object, a call and a condition. -/
def sample : String :=
  "class A { int x; int get(int d) { return x + d; } }
class Program : A { A a; nothing start() { int y; y = 3; x = y; a = new A;
if (x < 4) { print(a.get(y)); } return nothing; } }"

set_option maxRecDepth 4096 in
/-- This program is well typed since checking accepts it. -/
theorem sample_wellTyped :
    ∃ tokens p, Token.scan sample = .ok tokens ∧ ofTokens tokens = .ok p ∧
      (∃ t, p.check.result = .ok t) ∧ p.WellTyped ∧
      p.check.tree.erase = p ∧ p.check.tree.Elaborated := by
  have h : (match Token.scan sample with
      | .ok tokens =>
        match ofTokens tokens with
        | .ok p =>
          match p.check.result with
          | .ok _ => true
          | .error _ => false
        | .error _ => false
      | .error _ => false) = true := by
    cbv
  split at h
  · next tokens hscan =>
    split at h
    · next p hread =>
      split at h
      · next t ht =>
        obtain ⟨hiff, htree⟩ := check_ok_iff_wellTyped hread
        obtain ⟨herase, helaborated, -⟩ := htree t ht
        exact ⟨tokens, p, hscan, hread, ⟨t, ht⟩, hiff.mp ⟨t, ht⟩, herase, helaborated⟩
      · cases h
    · cases h
  · cases h

end Program

end ClassLang
