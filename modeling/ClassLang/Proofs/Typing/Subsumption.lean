import ClassLang.Proofs.Typing.Holes
import ClassLang.Proofs.Typing.Unique

/-! # Subsumption

    Where an object of a class is created, one of a descendant may be created
    instead.

    * **`Known.Refines`** relates types whose values may stand for each other,
      and **`Expr.StandsFor`** expressions of such types.
    * **`Expr.Hole.standsFor_fill`**, **`Stmt.Hole.derives_fill`** and
      **`Method.Hole.derives_fill`**: around a hole that lies in no receiver
      nothing depends on which of them is filled in.
    * **`Program.subsumption`**: an accepted program stays accepted, with the
      same tables and with the same attributes at all other nodes. -/

namespace ClassLang

/-! ## Types -/

namespace Known

variable {known : Known} {a b c : Ty}

theorem Assignable.trans (hwf : known.WellFormed) (hab : known.Assignable a b)
    (hbc : known.Assignable b c) : known.Assignable a c := by
  cases hab with
  | int | bool | nothing => exact hbc
  | object hi =>
    cases hbc with
    | object hj => exact .object (hi.trans hwf hj)

/-- Values of the first type may stand for those of the second. -/
def Refines (known : Known) (a b : Ty) : Prop := a = b ∨ known.Assignable a b

theorem Refines.refl (a : Ty) : known.Refines a a := Or.inl rfl

/-- Numbers and truth values are refined by themselves only. -/
theorem Refines.eq_of_mem (h : known.Refines a b) (hb : b ∈ [Ty.int, .bool]) : a = b := by
  rcases h with rfl | h
  · rfl
  · simp only [List.mem_cons, List.not_mem_nil, or_false] at hb
    rcases hb with rfl | rfl <;> cases h <;> rfl

theorem Refines.assignable (hwf : known.WellFormed) (h : known.Refines a b)
    (hbc : known.Assignable b c) : known.Assignable a c := by
  rcases h with rfl | h
  · exact hbc
  · exact h.trans hwf hbc

end Known

/-! ## Expressions -/

variable {mark : Mark} {V : View} {x y : Expr}

namespace Expr

/-- The first expression may stand for the second: where the rules give a type
    to the second, they give one to the first whose values may stand for its. -/
def StandsFor (mark : Mark) (V : View) (y x : Expr) : Prop :=
  ∀ ⦃a⦄, x.Derives mark V a → ∃ b, y.Derives mark V b ∧ V.known.Refines b a

/-- What stands for a number or a truth value is one. -/
theorem StandsFor.derives (h : StandsFor mark V y x) {a : Ty} (ha : a ∈ [Ty.int, .bool])
    (hx : x.Derives mark V a) : y.Derives mark V a := by
  obtain ⟨b, hy, hr⟩ := h hx
  exact hr.eq_of_mem ha ▸ hy

/-- What stands for an expression may be used where this may be. -/
theorem StandsFor.exists_assignable (hwf : V.known.WellFormed) (h : StandsFor mark V y x)
    {a c : Ty} (hx : x.Derives mark V a) (hac : V.known.Assignable a c) :
    ∃ b, y.Derives mark V b ∧ V.known.Assignable b c := by
  obtain ⟨b, hy, hr⟩ := h hx
  exact ⟨b, hy, hr.assignable hwf hac⟩

/-- What stands for an argument fits the same parameter. -/
theorem StandsFor.fit (hwf : V.known.WellFormed) (h : StandsFor mark V y x)
    {before after : List Expr} {params : List Ty} (hf : Fit mark V (before ++ x :: after) params) :
    Fit mark V (before ++ y :: after) params := by
  induction before generalizing params with
  | nil =>
    obtain _ | ⟨hx, ha, hrest⟩ := hf
    obtain ⟨b, hy, hb⟩ := h.exists_assignable hwf hx ha
    exact .cons hy hb hrest
  | cons e before ih =>
    obtain _ | ⟨he, ha, hrest⟩ := hf
    exact .cons he ha (ih hrest)

/-- An object of a descendant may stand for an object. -/
theorem new_standsFor {n : Note} {base derived : String} (hi : V.known.Inherits derived base) :
    StandsFor Note.Records V (.new { n with ty := some (.object derived) } derived)
      (.new n base) := by
  intro a hx
  cases hx with
  | new _ hn => exact ⟨.object derived, .new hi.declares_left ⟨rfl, hn.2⟩, Or.inr (.object hi)⟩

/-- An elaborated expression that creates an object without its attributes
    records its class. -/
theorem Elaborated.eq_of_erase_eq_new {e : Expr} {n : Note} {cls : String} {ty : Ty}
    (h : e.Elaborated V ty) (he : e.erase = .new n cls) :
    e = .new { n with ty := some (.object cls) } cls := by
  cases e with
  | new n' cls' =>
    cases h with
    | new _ hn =>
      obtain ⟨line, _, _⟩ := n'
      obtain ⟨rfl, rfl⟩ := hn
      cases he
      rfl
  | _ => cases he

/-- Around a hole outside receivers nothing depends on which of two expressions
    is filled in, if one stands for the other. -/
theorem Hole.standsFor_fill (hwf : V.known.WellFormed) (hyx : StandsFor mark V y x)
    {h : Expr.Hole} (ha : h.Aside) : StandsFor mark V (h.fill y) (h.fill x) := by
  induction h with
  | here => exact hyx
  | left n op hole r ih =>
    intro a hd
    obtain ⟨b, hb, hl, hr, hop, hn⟩ := hd.binary_parts
    exact ⟨a, .of_resultType ((ih ha).derives hb hl) hr hop hn, .refl a⟩
  | right n op l hole ih =>
    intro a hd
    obtain ⟨b, hb, hl, hr, hop, hn⟩ := hd.binary_parts
    exact ⟨a, .of_resultType hl ((ih ha).derives hb hr) hop hn, .refl a⟩
  | operand n op hole ih =>
    intro a hd
    obtain ⟨rfl, ho, hn⟩ := hd.unary_parts
    have hop : op.operandType ∈ [Ty.int, .bool] := by cases op <;> simp [UnaryOp.operandType]
    exact ⟨_, .of_operandType ((ih ha).derives hop ho) hn, .refl _⟩
  -- a call of another class may resolve to another method
  | receiver => exact ha.elim
  | methodArg n receiver method before hole after ih =>
    intro a hd
    obtain _ | _ | _ | _ | _ | _ | ⟨hr, hm, hargs, hn⟩ := hd
    exact ⟨a, .methodCall hr hm ((ih ha).fit hwf hargs) hn, .refl a⟩
  | selfArg n method before hole after ih =>
    intro a hd
    cases hd with
    | selfCall hm hargs hn => exact ⟨a, .selfCall hm ((ih ha).fit hwf hargs) hn, .refl a⟩

end Expr

/-! ## Statements and methods -/

/-- A statement follows the rules with either expression in the place of its
    hole. -/
theorem Stmt.Hole.derives_fill (hwf : V.known.WellFormed) (hyx : Expr.StandsFor mark V y x)
    {h : Stmt.Hole} (ha : h.Aside) (hd : (h.fill x).Derives mark V) :
    (h.fill y).Derives mark V := by
  induction h with
  | assign line name hole =>
    obtain ⟨hv, hx, hs, hassign⟩ | _ := hd
    obtain ⟨b, hy, hb⟩ :=
      (Expr.Hole.standsFor_fill hwf hyx ha).exists_assignable hwf hv hassign
    exact .assign hy hx hs hb
  | test line hole body =>
    cases hd with
    | cond ht hbody =>
      exact .cond ((Expr.Hole.standsFor_fill hwf hyx ha).derives (by simp) ht) hbody
  | body line test before hole after ih =>
    cases hd with
    | cond ht hbody =>
      refine .cond ht ?_
      simp only [List.forall_mem_append, List.forall_mem_cons] at hbody ⊢
      exact ⟨hbody.1, ih ha hbody.2.1, hbody.2.2⟩
  | print line hole =>
    cases hd with
    | print hv hty => exact .print ((Expr.Hole.standsFor_fill hwf hyx ha).derives hty hv) hty

/-- A method follows the rules with either expression in the place of its
    hole. -/
theorem Method.Hole.derives_fill {known : Known} {cls : String} {m : Method} {h : Method.Hole}
    (hwf : known.WellFormed) (hyx : Expr.StandsFor mark (m.view known cls) y x) (ha : h.Aside)
    (hd : (h.fill m x).Derives mark known cls) : (h.fill m y).Derives mark known cls := by
  cases h with
  | body before hole after value =>
    refine ⟨hd.result, hd.params, hd.locals, hd.distinct, ?_, hd.value⟩
    have hbody := hd.body
    simp only [fill, List.forall_mem_append, List.forall_mem_cons] at hbody ⊢
    exact ⟨hbody.1, hole.derives_fill hwf hyx ha hbody.2.1, hbody.2.2⟩
  | value body hole =>
    obtain ⟨a, hx, hresult⟩ := hd.value
    exact ⟨hd.result, hd.params, hd.locals, hd.distinct, hd.body,
      (Expr.Hole.standsFor_fill hwf hyx ha).exists_assignable hwf hx hresult⟩

/-! ## Programs -/

namespace Program

variable {P : Hole} {n : Note} {base derived : String}

/-- An elaborated program stays one when objects of a descendant are created. -/
theorem Hole.elaborated_fill_new (h : (P.fill (.new n base)).Elaborated) (ha : P.hole.Aside)
    (hi : P.view.known.Inherits derived base) :
    (P.fill (.new { n with ty := some (.object derived) } derived)).Elaborated := by
  have hwf := h.wellFormed_at fill_at
  rw [viewAt_fillClass] at hwf
  have hm := h.method_at (P.fill_at (x := .new n base))
  exact P.derives_fill h (Method.Hole.derives_fill hwf (Expr.new_standsFor hi) ha hm)

@[simp] theorem Hole.declares_erase : P.erase.Declares derived ↔ P.Declares derived := by
  simp [Declares, erase, ClassDecl.erase]

/-- A class that is declared up to that with the hole inherits in the place of the
    hole from what it inherits from in the whole program. -/
theorem Hole.inherits_view (h : (P.fill x).Derives mark) (hd : P.Declares derived)
    (hi : (P.fill x).known.Inherits derived base) : P.view.known.Inherits derived base := by
  have hseen : P.view.known.Declares derived := by
    refine (Known.declares_cons _ _ _).mpr ?_
    rcases hd with hd | ⟨d, hd, hname⟩
    · exact Or.inl hd
    · exact Or.inr ⟨d.interface, by simpa [ClassDecl.knownAfter] using ⟨d, hd, rfl⟩, hname⟩
  rw [← viewAt_fillClass (x := x)] at hseen ⊢
  exact (h.inherits_at_iff P.fill_at hseen).mp hi

/-- A program that is read and that checking accepts is analysed. -/
theorem analyze_of_yields {source : String} {p q : Program} {t : Tables}
    (h : ofSource source = .ok p) (hy : p.check.Yields q t) : analyze source = .ok ⟨q, t⟩ := by
  unfold analyze analyzeLogged
  rw [h]
  obtain ⟨rfl, ht⟩ := hy
  simp only [ht]

/-- Where an accepted program creates an object of class `base`, it may create
    one of class `derived` instead, if this class inherits from `base` and is
    declared up to there: the program is accepted with the same tables, and
    around the new object all nodes record what they did before. -/
theorem subsumption {source : String} {a : Analysis} (h : analyze source = .ok a)
    (hread : ofSource source = .ok (P.fill (.new n base))) (hd : P.Declares derived)
    (hsub : a.tables.classes.isSubclass derived base = true) :
    ∃ P' : Hole, P'.erase = P ∧
      a.program = P'.fill (.new { n with ty := some (.object base) } base) ∧
      (P.fill (.new n derived)).check.Yields
        (P'.fill (.new { n with ty := some (.object derived) } derived)) a.tables ∧
      ∀ source', ofSource source' = .ok (P.fill (.new n derived)) →
        analyze source' =
          .ok ⟨P'.fill (.new { n with ty := some (.object derived) } derived), a.tables⟩ := by
  obtain ⟨p, hp, hy⟩ := exists_of_analyze h
  rw [hread] at hp
  cases hp
  obtain ⟨tokens, htokens⟩ := exists_ofTokens hread
  obtain ⟨herase, hel, hroot⟩ := check_sound (erase_of_ofSource hread) hy
  -- the annotated program has its hole in the same place
  obtain ⟨P', x', hprogram, rfl, hx'⟩ := Hole.exists_of_erase herase
  have haside : P'.hole.Aside := P'.hole.aside_erase.mp (Hole.aside_of_ofTokens htokens)
  rw [hprogram] at hel hroot
  obtain ⟨ty, hty⟩ := hel.exists_type P'.fill_at (P'.hole.uses_fill P'.method x')
  obtain rfl := Expr.Elaborated.eq_of_erase_eq_new hty hx'
  have hi : P'.view.known.Inherits derived base :=
    Hole.inherits_view hel (Hole.declares_erase.mp hd) ((hroot.isSubclass_iff _ _).mp hsub)
  have hel' := Hole.elaborated_fill_new hel haside hi
  obtain ⟨t, hq⟩ := hel'.check_yields
  -- both tables are those of the program around the hole
  have ht : t = a.tables := by
    rw [check_tables hq, check_tables hy, P'.fill_erase, P'.erase.recorded_fill]
  have hn : n.erase = n := (Expr.new.inj hx').1
  have hread' : (P'.fill (.new { n with ty := some (.object derived) } derived)).erase =
      P'.erase.fill (.new n derived) := by
    rw [P'.fill_erase, Expr.erase]
    exact congrArg (fun n => P'.erase.fill (.new n derived)) hn
  have hchecked : (P'.erase.fill (.new n derived)).check.Yields
      (P'.fill (.new { n with ty := some (.object derived) } derived)) a.tables := by
    rw [← hread', ← ht]
    exact hq
  exact ⟨P', rfl, hprogram, hchecked, fun _ hsource => analyze_of_yields hsource hchecked⟩

/-- A program that creates an object of class `A`. -/
def creatingBase : String :=
  "class A { int x; } class B : A { int y; }
class Program { A a; nothing start() { a = new A; return nothing; } }"

/-- The program that creates an object of class `B` instead. -/
def creatingDerived : String :=
  "class A { int x; } class B : A { int y; }
class Program { A a; nothing start() { a = new B; return nothing; } }"

/-- Both around the object that is created. -/
def creatingHole : Hole where
  older := [
    { name := "A", superclass := none, methods := [], line := 1
      fields := [{ ty := .int, names := ["x"], line := 1 }] },
    { name := "B", superclass := some "A", methods := [], line := 1
      fields := [{ ty := .int, names := ["y"], line := 1 }] }]
  cls := { name := "Program", superclass := none, methods := [], line := 2
           fields := [{ ty := .cls "A", names := ["a"], line := 2 }] }
  before := []
  method := { name := "start", result := .nothing, params := [], locals := [], body := []
              value := .nothing { line := 2 }, line := 2 }
  hole := .body [] (.assign 2 "a" .here) [] (.nothing { line := 2 })
  after := []
  newer := []
  line := 1

set_option maxRecDepth 4096 in
theorem ofSource_creatingBase :
    ofSource creatingBase = .ok (creatingHole.fill (.new { line := 2 } "A")) := by
  cbv

set_option maxRecDepth 4096 in
theorem ofSource_creatingDerived :
    ofSource creatingDerived = .ok (creatingHole.fill (.new { line := 2 } "B")) := by
  cbv

set_option maxRecDepth 4096 in
theorem creatingBase_accepted : ∃ a, analyze creatingBase = .ok a ∧
    a.tables.classes.isSubclass "B" "A" = true := by
  have h : (match analyze creatingBase with
      | .ok a => a.tables.classes.isSubclass "B" "A"
      | .error _ => false) = true := by cbv
  cases ha : analyze creatingBase with
  | error e =>
    rw [ha] at h
    cases h
  | ok a =>
    rw [ha] at h
    exact ⟨a, rfl, h⟩

theorem subsumption_creatingBase : ∃ a, ∃ P' : Hole, analyze creatingBase = .ok a ∧
    a.tables.classes.isSubclass "B" "A" = true ∧ P'.erase = creatingHole ∧
    a.program = P'.fill (.new { line := 2, ty := some (.object "A") } "A") ∧
    analyze creatingDerived =
      .ok ⟨P'.fill (.new { line := 2, ty := some (.object "B") } "B"), a.tables⟩ := by
  obtain ⟨a, ha, hsub⟩ := creatingBase_accepted
  have hd : creatingHole.Declares "B" := Or.inr ⟨_, List.mem_cons_of_mem _ List.mem_cons_self, rfl⟩
  obtain ⟨P', herase, hprogram, _, hsource⟩ := subsumption ha ofSource_creatingBase hd hsub
  exact ⟨a, P', ha, hsub, herase, hprogram, hsource _ ofSource_creatingDerived⟩

end Program

end ClassLang
