import ClassLang.Proofs.Lowering.Run

/-! # What checking adds to a tree

    Checking leaves a tree as it was read, and writes at every node what code
    generation will need there.

    * **`Ty.Valued`**: the types that an expression can have, which are never
      signatures.
    * **`Known.Closed`**: whatever a member of a known class yields is of such
      a type, and **`Program.Derives.closed_at`** says that this is so
      everywhere in a program.
    * **`Expr.Derives.valued`**: then the rules give expressions such types only.
    * **`Program.analyze_annotates`**: an accepted source text is returned as it
      is read, with the attributes of **`Expr.Annotated`** at every node. -/

namespace ClassLang

/-! ## Types of values -/

/-- A type that an expression can have: primitive, or that of the objects of a
    known class. -/
def Ty.Valued (known : Known) : Ty → Prop
  | .int | .bool | .nothing => True
  | .object cls => known.Declares cls
  | .func .. => False

/-- The type of what a member yields: a field its value, a method its result. -/
def Ty.yielded : Ty → Ty
  | .func result _ => result
  | ty => ty

/-- Types stay types of values when more classes are known. -/
theorem Ty.Valued.mono {known known' : Known} {ty : Ty} (h : ty.Valued known)
    (hk : ∀ cls, known.Declares cls → known'.Declares cls) : ty.Valued known' := by
  cases ty with
  | object cls => exact hk cls h
  | func => exact h
  | int | bool | nothing => trivial

theorem TypeName.Visible.valued {known : Known} {name : TypeName} (h : name.Visible known) :
    (Ty.ofName name).Valued known := by
  cases name with
  | cls name => exact h
  | int | bool | nothing => trivial

theorem Ty.yielded_ofName (name : TypeName) : (Ty.ofName name).yielded = Ty.ofName name := by
  cases name <;> rfl

theorem Ty.Storable.yielded_eq {ty : Ty} (h : ty.Storable) : ty.yielded = ty := by
  cases ty with
  | func => exact h.elim
  | _ => rfl

/-- Variables of visible types are bound to types of values. -/
theorem valued_of_mem_variables {known : Known} {decls : List Declaration}
    (h : ∀ d ∈ decls, d.ty.Visible known) {b : String × Ty}
    (hb : b ∈ Declaration.variables decls) : b.2.Valued known ∧ b.2.yielded = b.2 := by
  simp only [Declaration.variables, List.mem_flatMap, List.mem_map] at hb
  obtain ⟨d, hd, _, _, rfl⟩ := hb
  exact ⟨(h d hd).valued, Ty.yielded_ofName d.ty⟩

/-! ## Members -/

/-- All that members of known classes yield is of types of values. -/
def Known.Closed (known : Known) : Prop :=
  ∀ i ∈ known, ∀ b ∈ i.members, b.2.yielded.Valued known

/-- What a resolved member yields is of a type of values. -/
theorem Known.Closed.of_resolve {known : Known} (h : known.Closed) {cls member owner : String}
    {ty : Ty} (hr : known.resolve cls member = some (owner, ty)) : ty.yielded.Valued known := by
  obtain ⟨i, hi, _, hm⟩ := Known.exists_of_resolve hr
  exact h i (Known.mem_of_mem_lineage hi) _ (mem_of_lookup hm)

namespace ClassDecl

variable {mark : Mark} {older : Known}

/-- A class that follows the rules adds only members that yield values of known
    types, wherever among its methods one looks. -/
theorem Derives.closed_upTo {c : ClassDecl} (h : c.Derives mark older) (hc : older.Closed)
    {before after : List Method} (hm : c.methods = before ++ after) :
    Known.Closed (c.upTo before :: older) := by
  have hmono : ∀ cls, older.Declares cls → Known.Declares (c.upTo before :: older) cls :=
    fun cls hd => (Known.declares_cons _ _ _).mpr (Or.inr hd)
  intro i hi b hb
  rcases List.mem_cons.mp hi with rfl | hi
  · rcases List.mem_append.mp hb with hfield | hmethod
    · obtain ⟨hv, heq⟩ := valued_of_mem_variables h.fields hfield
      rw [heq]
      exact hv.mono hmono
    · obtain ⟨m, hmem, rfl⟩ := List.mem_map.mp hmethod
      obtain ⟨first, between, rfl⟩ := List.append_of_mem hmem
      have hmethods := h.methods
      rw [hm, List.append_assoc, List.cons_append] at hmethods
      -- the result is visible already where the method itself stands
      refine hmethods.split.result.valued.mono ?_
      intro cls hd
      rw [Known.declares_cons] at hd ⊢
      exact hd
  · exact (hc i hi b hb).mono hmono

theorem AllDerive.closed {classes : List ClassDecl} (h : AllDerive mark older classes)
    (hc : older.Closed) : Known.Closed (knownAfter older classes) := by
  induction classes generalizing older with
  | nil => exact hc
  | cons c rest ih =>
    rw [knownAfter_cons]
    exact ih h.2 (h.1.closed_upTo hc (List.append_nil _).symm)

end ClassDecl

/-! ## Expressions -/

/-- The rules give an expression a type of values, if variables and members
    have such types. -/
theorem Expr.Derives.valued {mark : Mark} {V : View} {e : Expr} {ty : Ty}
    (h : e.Derives mark V ty) (hc : V.known.Closed) (hv : ∀ b ∈ V.vars, b.2.Valued V.known) :
    ty.Valued V.known := by
  cases h with
  | arith | and | compare | equate | neg | not | num | bool | nothing => trivial
  | methodCall _ hr => exact hc.of_resolve hr
  | selfCall hr => exact hc.of_resolve hr
  | new hd => exact hd
  | var hx hs =>
    -- a variable of the method hides a field
    unfold View.varTy? at hx
    split at hx
    · next ty' hlook =>
      cases hx
      exact hv _ (mem_of_lookup hlook)
    · obtain ⟨⟨owner, ty'⟩, hr, rfl⟩ := Option.map_eq_some_iff.mp hx
      have hvalued := hc.of_resolve hr
      rwa [hs.yielded_eq] at hvalued

namespace Program

variable {p : Program} {older : List ClassDecl} {c : ClassDecl} {before : List Method} {m : Method}
  {mark : Mark}

theorem Derives.closed_at (h : p.Derives mark) (hat : p.At older c before m) :
    (c.viewAt older before m).known.Closed := by
  have hold : Known.Closed (ClassDecl.knownAfter [] older) :=
    (h.older_at hat).closed (by intro i hi; cases hi)
  obtain ⟨_, after, hm⟩ := id hat
  exact (h.class_at hat).closed_upTo hold hm

/-- Every expression of a program has a type of values. -/
theorem Derives.valued_at (h : p.Derives mark) (hat : p.At older c before m) {e : Expr} {ty : Ty}
    (hty : e.Derives mark (c.viewAt older before m) ty) :
    ty.Valued (c.viewAt older before m).known := by
  have hm := h.method_at hat
  refine hty.valued (h.closed_at hat) ?_
  intro b hb
  rcases List.mem_append.mp hb with hparam | hlocal
  · obtain ⟨q, hq, rfl⟩ := List.mem_map.mp hparam
    exact (hm.params q hq).valued
  · exact (valued_of_mem_variables hm.locals hlocal).1

/-- The classes that a method sees are those of the program up to its own. -/
theorem exists_class_of_declares {cls : String}
    (hd : (c.viewAt older before m).known.Declares cls) : ∃ d ∈ older ++ [c], d.name = cls := by
  rcases (Known.declares_cons _ _ _).mp hd with rfl | ⟨i, hi, rfl⟩
  · exact ⟨c, by simp, rfl⟩
  · simp only [ClassDecl.knownAfter, List.append_nil, List.mem_reverse, List.mem_map] at hi
    obtain ⟨d, hmem, rfl⟩ := hi
    exact ⟨d, List.mem_append_left _ hmem, rfl⟩

/-- A method that is resolved where a method stands is declared by the class
    that the search gives, which is the class where it starts or an ancestor. -/
def CallsInto (p : Program) (cls method owner : String) : Prop :=
  p.known.Inherits cls owner ∧
    ∃ d ∈ p.classes, d.name = owner ∧ ∃ m ∈ d.methods, m.name = method

theorem Derives.callsInto (h : p.Derives mark) (hat : p.At older c before m)
    {cls method owner : String} {result : Ty} {params : List Ty}
    (hr : (c.viewAt older before m).known.resolve cls method =
      some (owner, .func result params)) : p.CallsInto cls method owner := by
  refine ⟨h.inherits_at hat (Known.inherits_of_resolve hr), ?_⟩
  obtain ⟨i, hi, rfl, hmember⟩ := Known.exists_of_resolve hr
  have hmem := Known.mem_of_mem_lineage hi
  have hproper := h.proper_at hat i hmem
  obtain ⟨d, hd, first, after, hsplit, rfl⟩ := exists_class_of_mem_view hat hmem
  refine ⟨d, hd, rfl, ?_⟩
  rcases List.mem_append.mp (mem_of_lookup hmember) with hfield | hmethod
  · -- a field does not have a signature
    exact (hproper.fields _ hfield).elim
  · obtain ⟨m', hm', heq⟩ := List.mem_map.mp hmethod
    exact ⟨m', by rw [hsplit]; exact List.mem_append_left _ hm', (Prod.mk.inj heq).1⟩

end Program

/-! ## Whole programs -/

/-- The expression is a call. -/
def Expr.isCall : Expr → Bool
  | methodCall .. | selfCall .. => true
  | binary .. | unary .. | var .. | num .. | bool .. | nothing .. | new .. => false

/-- What is recorded at an expression in class `c` after the classes `older`. -/
structure Expr.Annotated (p : Program) (older : List ClassDecl) (c : ClassDecl) (e : Expr) :
    Prop where
  /-- Its type is that of a value, and no class after `c` occurs in it. -/
  ty : e.ty? = some .int ∨ e.ty? = some .bool ∨ e.ty? = some .nothing ∨
    ∃ d ∈ older ++ [c], e.ty? = some (.object d.name)
  /-- A callee is recorded at calls and nowhere else. -/
  callee : e.callee?.isSome ↔ e.isCall
  /-- The receiver is an object, and the method is found from its class
      upwards. -/
  methodCall : ∀ n receiver method args, e = .methodCall n receiver method args →
    ∃ cls owner, receiver.ty? = some (.object cls) ∧ e.callee? = some owner ∧
      p.CallsInto cls method owner
  /-- The method is found from the class around the call upwards. -/
  selfCall : ∀ n method args, e = .selfCall n method args →
    ∃ owner, e.callee? = some owner ∧ p.CallsInto c.name method owner

namespace Program

variable {p : Program} {older : List ClassDecl} {c : ClassDecl} {before : List Method} {m : Method}

/-- Checking records all this at every expression. -/
theorem Elaborated.annotated (h : p.Elaborated) (hat : p.At older c before m) {e : Expr}
    (hu : m.Uses e) : e.Annotated p older c := by
  obtain ⟨ty, hty⟩ := h.exists_type hat hu
  refine ⟨?_, ?_, ?_, ?_⟩
  · have hvalued := h.valued_at hat hty
    rw [Expr.Elaborated.ty?_eq hty]
    cases ty with
    | int => exact Or.inl rfl
    | bool => exact Or.inr (Or.inl rfl)
    | nothing => exact Or.inr (Or.inr (Or.inl rfl))
    | object cls =>
      obtain ⟨d, hd, rfl⟩ := exists_class_of_declares hvalued
      exact Or.inr (Or.inr (Or.inr ⟨d, hd, rfl⟩))
    | func => exact hvalued.elim
  · -- the rules for calls record a callee, all others record none
    have hnote : e.callee? = none ∧ e.isCall = false ∨
        ∃ owner, e.callee? = some owner ∧ e.isCall = true := by
      cases hty with
      | methodCall _ _ _ hn | selfCall _ _ hn => exact Or.inr ⟨_, hn.2, rfl⟩
      | _ => exact Or.inl ⟨And.right ‹Note.Records _ _ _›, rfl⟩
    rcases hnote with ⟨hnone, hcall⟩ | ⟨owner, hsome, hcall⟩
    · simp [hnone, hcall]
    · simp [hsome, hcall]
  · rintro n receiver method args rfl
    cases hty with
    | methodCall hreceiver hr _ hn =>
      exact ⟨_, _, Expr.Elaborated.ty?_eq hreceiver, hn.2, h.callsInto hat hr⟩
  · rintro n method args rfl
    cases hty with
    | selfCall hr _ hn => exact ⟨_, hn.2, h.callsInto hat hr⟩

/-- An accepted source text is read as the tree that comes back without its
    attributes, and each expression at any depth of the tree that comes back
    has all its attributes. -/
theorem analyze_annotates {source : String} {a : Analysis} (h : analyze source = .ok a) :
    ofSource source = .ok a.program.erase ∧
      ∀ older c newer, a.program.classes = older ++ c :: newer → ∀ m ∈ c.methods,
        ∀ e, m.Uses e → e.Annotated a.program older c := by
  obtain ⟨p, hp, hy⟩ := exists_of_analyze h
  obtain ⟨herase, hd, _⟩ := check_sound (erase_of_ofSource hp) hy
  refine ⟨by rw [herase]; exact hp, ?_⟩
  intro older c newer hclasses m hm e hu
  obtain ⟨before, after, hmethods⟩ := List.append_of_mem hm
  exact hd.annotated ⟨⟨newer, hclasses⟩, after, hmethods⟩ hu

theorem analyze_annotates_sample :
    ∃ a, analyze sample = .ok a ∧ ofSource sample = .ok a.program.erase ∧
      ∀ older c newer, a.program.classes = older ++ c :: newer → ∀ m ∈ c.methods,
        ∀ e, m.Uses e → e.Annotated a.program older c := by
  obtain ⟨a, ha, _⟩ := sample_accepted
  exact ⟨a, ha, analyze_annotates ha⟩

end Program

end ClassLang
