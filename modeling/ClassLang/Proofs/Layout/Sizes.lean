import ClassLang.Proofs.Layout.Parts
import Mathlib.Algebra.Order.BigOperators.Group.List

/-! # Exact sizes

    How large an object is if sizes may be of any magnitude, and what becomes
    of a request for its layout.

    * **`exactSize`** is the size of a class in integers: that of its superclass
      and, for each field, one word or the size of the class that the field
      holds.
    * **`Grounded`**: all classes that a class depends on are defined.
    * **`outcome_ok_iff`**: a class is laid out exactly if it is grounded and its
      exact size is a word.  No sum on the way can overflow before the last one
      does, since sizes are not negative.
    * **`layoutClass_exact`** says the same about requests to any table. -/

namespace ClassLang

/-! ## Rows of slots -/

/-- A row of slots ends behind the sum of all sizes. -/
theorem Tiles.stop_eq {start stop : Int} {slots : List Slot} (h : Tiles start slots stop) :
    stop = start + (slots.map Slot.size).sum := by
  induction slots generalizing start with
  | nil =>
    have heq : start = stop := h
    simp [heq]
  | cons s rest ih =>
    rw [ih h.2, List.map_cons, List.sum_cons]
    omega

/-- A slot lies behind the sum of the sizes before it. -/
theorem Tiles.offset_eq {start stop : Int} {before after : List Slot} {s : Slot}
    (h : Tiles start (before ++ s :: after) stop) :
    s.offset = start + (before.map Slot.size).sum := by
  obtain ⟨mid, hbefore, hrest⟩ := h.split
  rw [← hbefore.stop_eq]
  exact hrest.1

namespace Layouts

variable {defs : List ClassDecl} {cls : String}

/-! ## Sizes of any magnitude -/

/-- The size of a class definition from those of the classes it builds on. -/
def sizeOfDef (sizeOf : String → Int) (c : ClassDecl) : Int :=
  c.superclass.elim 0 sizeOf + totalSize sizeOf (Declaration.variables c.fields)

/-- The size of a class, through at most `fuel` classes that depend on each
    other; a class that is not defined takes nothing. -/
def exactSizeUpTo (defs : List ClassDecl) : (fuel : Nat) → String → Int
  | 0, _ => 0
  | fuel + 1, cls =>
    (defs.find? (·.name == cls)).elim 0 (sizeOfDef (exactSizeUpTo defs fuel))

/-- The size of a class in integers. -/
def exactSize (defs : List ClassDecl) (cls : String) : Int :=
  exactSizeUpTo defs (defs.length + 1) cls

/-- A size comes from the classes that a definition builds on and from no
    others. -/
theorem sizeOfDef_congr {f g : String → Int} {c : ClassDecl}
    (h : ∀ other, BuildsOn c other → f other = g other) : sizeOfDef f c = sizeOfDef g c := by
  have hparent : c.superclass.elim 0 f = c.superclass.elim 0 g := by
    cases hsuper : c.superclass with
    | none => rfl
    | some parent => exact h parent (.inl hsuper)
  have hfields : totalSize f (Declaration.variables c.fields) =
      totalSize g (Declaration.variables c.fields) := by
    apply congrArg List.sum
    apply List.map_congr_left
    rintro ⟨name, ty⟩ hfield
    cases ty with
    | object other => exact h other (.inr ⟨name, hfield⟩)
    | _ => rfl
  rw [sizeOfDef, sizeOfDef, hparent, hfields]

/-- Fuel beyond the depth of a class makes no difference to its size. -/
theorem exactSizeUpTo_congr (hacyclic : Acyclic defs) {fuel fuel' : Nat}
    (h : depth defs cls < fuel) (h' : depth defs cls < fuel') :
    exactSizeUpTo defs fuel cls = exactSizeUpTo defs fuel' cls := by
  refine upTo_congr hacyclic (fun {fuel fuel' cls} hbelow => ?_) h h'
  rw [exactSizeUpTo, exactSizeUpTo]
  cases hfind : defs.find? (·.name == cls) with
  | none => rfl
  | some c => exact sizeOfDef_congr fun other hbuilds => hbelow other ⟨c, hfind, hbuilds⟩

/-- The size of a defined class is that of its superclass and those of its
    fields. -/
theorem exactSize_eq (hacyclic : Acyclic defs) {c : ClassDecl}
    (hfind : defs.find? (·.name == cls) = some c) :
    exactSize defs cls = sizeOfDef (exactSize defs) c := by
  rw [exactSize, exactSizeUpTo, hfind]
  apply sizeOfDef_congr
  intro other hbuilds
  have hlt := depth_lt hacyclic ⟨c, hfind, hbuilds⟩
  have hle := depth_le defs cls
  have hle' := depth_le defs other
  exact exactSizeUpTo_congr hacyclic (by omega) (by omega)

theorem exactSizeUpTo_nonneg (fuel : Nat) (cls : String) : 0 ≤ exactSizeUpTo defs fuel cls := by
  induction fuel generalizing cls with
  | zero => exact Int.le_refl 0
  | succ fuel ih =>
    rw [exactSizeUpTo]
    cases defs.find? (·.name == cls) with
    | none => exact Int.le_refl 0
    | some c =>
      apply Int.add_nonneg
      · cases c.superclass with
        | none => exact Int.le_refl 0
        | some parent => exact ih parent
      · exact totalSize_nonneg ih _

theorem exactSize_nonneg (cls : String) : 0 ≤ exactSize defs cls := exactSizeUpTo_nonneg _ cls

/-- A class is at least as large as each class that it builds on. -/
theorem le_sizeOfDef {sizeOf : String → Int} (h : ∀ cls, 0 ≤ sizeOf cls) {c : ClassDecl}
    {other : String} (hbuilds : BuildsOn c other) : sizeOf other ≤ sizeOfDef sizeOf c := by
  have hfields := totalSize_nonneg h (Declaration.variables c.fields)
  rcases hbuilds with hparent | ⟨name, hfield⟩
  · rw [sizeOfDef, hparent, Option.elim_some]
    omega
  · have hparent : 0 ≤ c.superclass.elim 0 sizeOf := by
      cases c.superclass with
      | none => exact Int.le_refl 0
      | some parent => exact h parent
    have hmem : sizeOf other ∈
        (Declaration.variables c.fields).map fun field => field.2.size sizeOf :=
      List.mem_map.mpr ⟨_, hfield, rfl⟩
    have hle : sizeOf other ≤ totalSize sizeOf (Declaration.variables c.fields) := by
      refine List.single_le_sum ?_ _ hmem
      intro size hsize
      obtain ⟨field, _, rfl⟩ := List.mem_map.mp hsize
      exact Ty.size_nonneg h field.2
    rw [sizeOfDef]
    omega

/-! ## When a class is laid out -/

/-- Every class that a class depends on, and the class itself, is defined. -/
def Grounded (defs : List ClassDecl) (cls : String) : Prop :=
  ∀ other, Relation.ReflTransGen (Depends defs) cls other → ∃ c ∈ defs, c.name = other

/-- Fields can be put one behind the other if the end of the last is a word. -/
theorem exists_addFields {layoutOf : String → Except Fault ObjectLayout} {sizeOf : String → Int}
    (h : ∀ cls, 0 ≤ sizeOf cls) {fields : List (String × Ty)}
    (hsizes : ∀ f ∈ fields, outcomeSize layoutOf f.2 = .ok (f.2.size sizeOf))
    (layout : ObjectLayout) (h0 : 0 ≤ layout.size)
    (hfits : Word.Fits (layout.size + totalSize sizeOf fields)) :
    ∃ layout', fields.foldlM (fun layout (name, ty) => do
        let size ← outcomeSize layoutOf ty
        layout.addField name ty size) layout = .ok layout' := by
  induction fields generalizing layout with
  | nil => exact ⟨layout, rfl⟩
  | cons field rest ih =>
    obtain ⟨name, ty⟩ := field
    have hty := Ty.size_nonneg h ty
    have hrest := totalSize_nonneg h rest
    have hsum : totalSize sizeOf ((name, ty) :: rest) =
        ty.size sizeOf + totalSize sizeOf rest := rfl
    rw [hsum] at hfits
    -- the end of this field lies before the end of the last one
    have hadd : Word.add layout.size (ty.size sizeOf) = .ok (layout.size + ty.size sizeOf) := by
      refine Word.exact_eq_ok_iff.mpr ⟨?_, rfl⟩
      simp only [Word.Fits] at hfits ⊢
      omega
    obtain ⟨layout', hlayout'⟩ := ih (fun f hf => hsizes f (List.mem_cons_of_mem _ hf))
      { fields := layout.fields ++ [{ name, ty, offset := layout.size, size := ty.size sizeOf }]
        size := layout.size + ty.size sizeOf }
      (by show 0 ≤ layout.size + ty.size sizeOf; omega)
      (by show Word.Fits (layout.size + ty.size sizeOf + totalSize sizeOf rest)
          rwa [Int.add_assoc])
    refine ⟨layout', ?_⟩
    rw [List.foldlM_cons]
    refine except_bind_ok_iff.mpr ⟨_, ?_, hlayout'⟩
    refine except_bind_ok_iff.mpr ⟨_, hsizes (name, ty) List.mem_cons_self, ?_⟩
    rw [ObjectLayout.addField, hadd]
    rfl

/-- A class that is laid out has laid out classes to build on. -/
theorem exists_of_buildsOn {c : ClassDecl} {inherited layout : ObjectLayout} {own : List Slot}
    (hsuper : c.superclass = none ∧ inherited = {} ∨
      ∃ parent, c.superclass = some parent ∧ outcome defs parent = .ok inherited)
    (hgrows : Grows (outcome defs) inherited (Declaration.variables c.fields) layout own)
    {other : String} (hbuilds : BuildsOn c other) : ∃ held, outcome defs other = .ok held := by
  rcases hbuilds with hparent | ⟨name, hfield⟩
  · rcases hsuper with ⟨hnone, -⟩ | ⟨parent, hsome, hlayout⟩
    · rw [hparent] at hnone
      cases hnone
    · cases hparent.symm.trans hsome
      exact ⟨inherited, hlayout⟩
  · rw [← hgrows.fields] at hfield
    obtain ⟨s, hs, heq⟩ := List.mem_map.mp hfield
    have hsize := hgrows.sizes s hs
    rw [(Prod.mk.inj heq).2] at hsize
    obtain ⟨held, hheld, -⟩ := size_of_object hsize
    exact ⟨held, hheld⟩

/-- The slots of a class itself are as large as their types say, if the classes
    that it builds on are. -/
theorem own_sizes {c : ClassDecl} {inherited layout : ObjectLayout} {own : List Slot}
    (hgrows : Grows (outcome defs) inherited (Declaration.variables c.fields) layout own)
    (hbelow : ∀ other held, BuildsOn c other → outcome defs other = .ok held →
      held.size = exactSize defs other) :
    ∀ s ∈ own, s.size = s.ty.size (exactSize defs) := by
  intro s hs
  have hsize := hgrows.sizes s hs
  cases hty : s.ty with
  | object other =>
    rw [hty] at hsize
    obtain ⟨held, hheld, heq⟩ := size_of_object hsize
    have hfield : (s.name, Ty.object other) ∈ Declaration.variables c.fields := by
      rw [← hgrows.fields, ← hty]
      exact List.mem_map_of_mem hs
    rw [heq, hbelow other held (.inr ⟨_, hfield⟩) hheld]
    rfl
  | _ => exact size_of_word hsize fun other heq => by rw [hty] at heq; cases heq

/-- A class is grounded if those that it builds on are. -/
theorem grounded_of_below {c : ClassDecl} (hfind : defs.find? (·.name == cls) = some c)
    (hbelow : ∀ other, BuildsOn c other → Grounded defs other) : Grounded defs cls := by
  intro other hreach
  rcases Relation.ReflTransGen.cases_head hreach with rfl | ⟨mid, ⟨c', hfind', hbuilds⟩, hrest⟩
  · exact ⟨c, List.mem_of_find?_eq_some hfind, by simpa using List.find?_some hfind⟩
  · cases hfind.symm.trans hfind'
    exact hbelow mid hbuilds other hrest

/-- A class that is laid out is grounded, and its size and those of its slots
    are exact: by induction on how many classes depend on each other below. -/
theorem exact_of_outcome (hacyclic : Acyclic defs) {layout : ObjectLayout}
    (h : outcome defs cls = .ok layout) :
    Grounded defs cls ∧ layout.size = exactSize defs cls ∧
      ∀ s ∈ layout.fields, s.size = s.ty.size (exactSize defs) := by
  induction hn : depth defs cls using Nat.strong_induction_on generalizing cls layout with
  | _ n ih =>
    obtain ⟨c, inherited, own, hfind, hsuper, hgrows⟩ := outcome_inv hacyclic h
    have hbelow : ∀ other held, BuildsOn c other → outcome defs other = .ok held →
        Grounded defs other ∧ held.size = exactSize defs other ∧
          ∀ s ∈ held.fields, s.size = s.ty.size (exactSize defs) := by
      intro other held hbuilds hheld
      have hlt := depth_lt hacyclic ⟨c, hfind, hbuilds⟩
      exact ih _ (hn ▸ hlt) hheld rfl
    have hown : ∀ s ∈ own, s.size = s.ty.size (exactSize defs) :=
      own_sizes hgrows fun other held hbuilds hheld => (hbelow other held hbuilds hheld).2.1
    have hinherited : inherited.size = c.superclass.elim 0 (exactSize defs) ∧
        ∀ s ∈ inherited.fields, s.size = s.ty.size (exactSize defs) := by
      rcases hsuper with ⟨hnone, rfl⟩ | ⟨parent, hparent, hlayout⟩
      · rw [hnone]
        exact ⟨rfl, fun s hs => nomatch hs⟩
      · rw [hparent]
        exact (hbelow parent inherited (.inl hparent) hlayout).2
    refine ⟨grounded_of_below hfind fun other hbuilds => ?_, ?_, ?_⟩
    · obtain ⟨held, hheld⟩ := exists_of_buildsOn hsuper hgrows hbuilds
      exact (hbelow other held hbuilds hheld).1
    · have hsum : (own.map Slot.size).sum =
          totalSize (exactSize defs) (Declaration.variables c.fields) := by
        rw [← hgrows.fields, totalSize, List.map_map]
        exact congrArg List.sum (List.map_congr_left hown)
      rw [exactSize_eq hacyclic hfind, sizeOfDef, ← hsum, ← hinherited.1]
      exact hgrows.tiles.stop_eq
    · intro s hs
      rw [hgrows.slots] at hs
      rcases List.mem_append.mp hs with hs | hs
      · exact hinherited.2 s hs
      · exact hown s hs

/-- A grounded class is defined. -/
theorem Grounded.exists_find? (h : Grounded defs cls) :
    ∃ c, defs.find? (·.name == cls) = some c := by
  obtain ⟨c, hc, hname⟩ := h cls .refl
  have hsome : (defs.find? (·.name == cls)).isSome :=
    List.find?_isSome.mpr ⟨c, hc, by simpa using hname⟩
  exact Option.isSome_iff_exists.mp hsome

/-- A definition whose exact size is a word can be laid out, if the classes that
    it builds on are laid out with their exact sizes. -/
theorem exists_outcomeOfDef {c : ClassDecl}
    (hbelow : ∀ other, BuildsOn c other →
      ∃ held, outcome defs other = .ok held ∧ held.size = exactSize defs other)
    (hfits : sizeOfDef (exactSize defs) c ≤ 2147483647) :
    ∃ layout, outcomeOfDef (outcome defs) c = .ok layout := by
  have hsizes : ∀ f ∈ Declaration.variables c.fields,
      outcomeSize (outcome defs) f.2 = .ok (f.2.size (exactSize defs)) := by
    rintro ⟨name, ty⟩ hfield
    cases ty with
    | object other =>
      obtain ⟨held, hheld, hsize⟩ := hbelow other (.inr ⟨name, hfield⟩)
      refine except_bind_ok_iff.mpr ⟨held, hheld, ?_⟩
      rw [hsize]
      rfl
    | _ => rfl
  rw [outcomeOfDef]
  rw [sizeOfDef] at hfits
  have hfields : 0 ≤ totalSize (exactSize defs) (Declaration.variables c.fields) :=
    totalSize_nonneg exactSize_nonneg _
  cases hsuper : c.superclass with
  | none =>
    rw [hsuper, Option.elim_none] at hfits
    refine exists_addFields exactSize_nonneg hsizes {} (Int.le_refl 0) ?_
    show Word.Fits (0 + totalSize (exactSize defs) (Declaration.variables c.fields))
    simp only [Word.Fits]
    omega
  | some parent =>
    rw [hsuper, Option.elim_some] at hfits
    obtain ⟨inherited, hinherited, hsize⟩ := hbelow parent (.inl hsuper)
    have hparent : 0 ≤ exactSize defs parent := exactSize_nonneg parent
    obtain ⟨layout, hlayout⟩ := exists_addFields exactSize_nonneg hsizes inherited
      (by omega) (by simp only [Word.Fits]; omega)
    exact ⟨layout, except_bind_ok_iff.mpr ⟨inherited, hinherited, hlayout⟩⟩

/-- A grounded class whose exact size is a word is laid out. -/
theorem exists_outcome (hacyclic : Acyclic defs) (hgrounded : Grounded defs cls)
    (hfits : exactSize defs cls ≤ 2147483647) : ∃ layout, outcome defs cls = .ok layout := by
  induction hn : depth defs cls using Nat.strong_induction_on generalizing cls with
  | _ n ih =>
    obtain ⟨c, hfind⟩ := hgrounded.exists_find?
    rw [exactSize_eq hacyclic hfind] at hfits
    rw [outcome_eq hacyclic hfind]
    refine exists_outcomeOfDef (fun other hbuilds => ?_) hfits
    -- what a class builds on is grounded as well, and not larger
    have hdep : Depends defs cls other := ⟨c, hfind, hbuilds⟩
    have hle : exactSize defs other ≤ sizeOfDef (exactSize defs) c :=
      le_sizeOfDef exactSize_nonneg hbuilds
    obtain ⟨held, hheld⟩ := ih _ (hn ▸ depth_lt hacyclic hdep)
      (fun base hreach => hgrounded base (.head hdep hreach)) (by omega) rfl
    exact ⟨held, hheld, (exact_of_outcome hacyclic hheld).2.1⟩

/-- A class is laid out exactly if it is grounded and its exact size is a
    word. -/
theorem outcome_ok_iff (hacyclic : Acyclic defs) :
    (∃ layout, outcome defs cls = .ok layout) ↔
      Grounded defs cls ∧ exactSize defs cls ≤ 2147483647 := by
  constructor
  · rintro ⟨layout, hlayout⟩
    obtain ⟨hgrounded, hsize, -⟩ := exact_of_outcome hacyclic hlayout
    have hfits := (shape_outcome hacyclic hlayout).fits
    rw [← hsize]
    exact ⟨hgrounded, hfits.2⟩
  · rintro ⟨hgrounded, hfits⟩
    exact exists_outcome hacyclic hgrounded hfits

/-! ## Requests -/

/-- The layout of a class that is answered is remembered from then on. -/
theorem object?_of_layoutUpTo {fuel : Nat} {l l' : Layouts} {layout : ObjectLayout}
    (h : layoutUpTo defs fuel cls l = .ok layout l') : l'.object? cls = some layout := by
  cases fuel with
  | zero => cases h
  | succ fuel =>
    cases hremembered : l.object? cls with
    | some old =>
      rw [layoutUpTo_of_remembered defs hremembered] at h
      cases h
      exact hremembered
    | none =>
      cases hfind : defs.find? (·.name == cls) with
      | none =>
        rw [layoutUpTo_undefined hremembered hfind] at h
        cases h
      | some c =>
        rw [layoutUpTo_defined hremembered hfind] at h
        cases hrun : layoutOfDef (layoutUpTo defs fuel) c l with
        | error fault u =>
          rw [hrun] at h
          cases h
        | ok own u =>
          rw [hrun] at h
          cases h
          rw [object?_addObject, if_pos rfl]

/-- What is answered and remembered where the layout of a class is exact. -/
structure Exact (defs : List ClassDecl) (cls : String) (layout : ObjectLayout) (l : Layouts) :
    Prop where
  remembered : l.object? cls = some layout
  size : layout.size = exactSize defs cls
  /-- A slot is as large as its type says. -/
  slots : ∀ s ∈ layout.fields, s.size = s.ty.size (exactSize defs)
  /-- A slot lies behind the sum of the sizes before it. -/
  offsets : ∀ before s after, layout.fields = before ++ s :: after →
    s.offset = (before.map Slot.size).sum

/-- Exact layouts are answered and remembered. -/
theorem exact_of_answered (hacyclic : Acyclic defs) {l l' : Layouts} {layout : ObjectLayout}
    (hlayout : outcome defs cls = .ok layout) (h : layoutClass defs cls l = .ok layout l') :
    Exact defs cls layout l' := by
  obtain ⟨-, hsize, hslots⟩ := exact_of_outcome hacyclic hlayout
  refine ⟨object?_of_layoutUpTo h, hsize, hslots, ?_⟩
  intro before s after hfields
  have htiles := (shape_outcome hacyclic hlayout).tiles
  rw [hfields] at htiles
  rw [htiles.offset_eq, Int.zero_add]

/-- **Sizes are exact or refused**: where no class depends on itself, whatever
    was asked before, a request for a class is answered exactly if all that the
    class depends on is defined and its size in integers is a word.  Then the
    layout is exact; otherwise the request is refused, for one of these two
    reasons, and nothing is remembered for the class.

    The size in integers is that of the superclass and those of all fields. -/
theorem layoutClass_exact (hacyclic : Acyclic defs) {l : Layouts} (hl : Reachable defs l)
    (cls : String) :
    (∀ c, defs.find? (·.name == cls) = some c →
      exactSize defs cls = sizeOfDef (exactSize defs) c) ∧
    (Grounded defs cls ∧ exactSize defs cls ≤ 2147483647 →
      ∃ layout l', layoutClass defs cls l = .ok layout l' ∧ Exact defs cls layout l') ∧
    (¬ (Grounded defs cls ∧ exactSize defs cls ≤ 2147483647) →
      ∃ fault l', layoutClass defs cls l = .error fault l' ∧ LayoutFault fault ∧
        l'.object? cls = none) := by
  obtain ⟨hanswer, hfaithful, -⟩ := tracks_layoutClass hacyclic cls l (hl.faithful hacyclic)
  refine ⟨fun c hfind => exactSize_eq hacyclic hfind, ?_, ?_⟩
  · intro hexact
    obtain ⟨layout, hlayout⟩ := (outcome_ok_iff hacyclic).mpr hexact
    cases hrun : layoutClass defs cls l with
    | error fault l' =>
      rw [hrun, hlayout] at hanswer
      cases hanswer
    | ok given l' =>
      rw [hrun, hlayout] at hanswer
      cases hanswer
      exact ⟨layout, l', rfl, exact_of_answered hacyclic hlayout hrun⟩
  · intro hexact
    cases hrun : layoutClass defs cls l with
    | ok given l' =>
      rw [hrun] at hanswer
      exact absurd ((outcome_ok_iff hacyclic).mp ⟨given, hanswer.symm⟩) hexact
    | error fault l' =>
      rw [hrun] at hanswer hfaithful
      have hfault : LayoutFault fault :=
        failsOnly_outcomeUpTo hacyclic (Nat.lt_succ_of_le (depth_le defs cls)) fault hanswer.symm
      refine ⟨fault, l', rfl, hfault, ?_⟩
      -- an entry would be what the class is laid out to
      cases hentry : l'.object? cls with
      | none => rfl
      | some layout =>
        rw [hfaithful cls layout hentry] at hanswer
        cases hanswer

/-- Where every class builds on defined classes only, they are all grounded. -/
theorem grounded_of_closed
    (h : ∀ c ∈ defs, ∀ other, BuildsOn c other → ∃ d ∈ defs, d.name = other)
    (hcls : ∃ c ∈ defs, c.name = cls) : Grounded defs cls := by
  intro other hreach
  induction hreach with
  | refl => exact hcls
  | tail _ hdep _ =>
    obtain ⟨c, hfind, hbuilds⟩ := hdep
    exact h c (List.mem_of_find?_eq_some hfind) _ hbuilds

/-- So many names, which do not matter. -/
def manyNames (count : Nat) : List String := List.replicate count "x"

@[simp] theorem length_manyNames (count : Nat) : (manyNames count).length = count :=
  List.length_replicate

/-- A class whose fields, all of one type, are so many. -/
def wideClass (name : String) (superclass : Option String) (ty : TypeName) (count : Nat) :
    ClassDecl :=
  { name, superclass, fields := [⟨ty, manyNames count, 1⟩], methods := [], line := 1 }

/-- Three classes, the last of which is one byte too large. -/
def wideDefs : List ClassDecl :=
  [wideClass "Row" none .int 4096, wideClass "Page" none (.cls "Row") 4096,
    wideClass "Book" (some "Page") (.cls "Page") 31]

theorem wideDefs_acyclic : Acyclic wideDefs := by
  refine acyclic_of_rank (fun cls => if cls = "Book" then 2 else if cls = "Page" then 1 else 0) ?_
  simp [wideDefs, wideClass, BuildsOn, Declaration.variables, Ty.ofName, or_imp, forall_and]

/-- The size of such a class. -/
theorem exactSize_wideClass (hacyclic : Acyclic defs) {name : String} {superclass : Option String}
    {ty : TypeName} {count : Nat}
    (hfind : defs.find? (·.name == name) = some (wideClass name superclass ty count)) :
    exactSize defs name =
      superclass.elim 0 (exactSize defs) + count * (Ty.ofName ty).size (exactSize defs) := by
  rw [exactSize_eq hacyclic hfind]
  simp [sizeOfDef, wideClass, totalSize, Declaration.variables, Function.comp_def]

/-- The sizes of the three classes, from one equation for each of them. -/
theorem wide_sizes {size : String → Int}
    (hrow : size "Row" = Option.elim none 0 size + (4096 : Nat) * (Ty.ofName .int).size size)
    (hpage : size "Page" =
      Option.elim none 0 size + (4096 : Nat) * (Ty.ofName (.cls "Row")).size size)
    (hbook : size "Book" =
      Option.elim (some "Page") 0 size + (31 : Nat) * (Ty.ofName (.cls "Page")).size size) :
    size "Page" = 67108864 ∧ size "Book" = 2147483648 := by
  simp only [Ty.ofName, Ty.size, Word.size, Option.elim] at hrow hpage hbook
  omega

theorem exactSize_wideDefs :
    exactSize wideDefs "Page" = 67108864 ∧ exactSize wideDefs "Book" = 2147483648 := by
  apply wide_sizes <;> apply exactSize_wideClass wideDefs_acyclic <;> simp [wideDefs, wideClass]

/-- The last class is refused by a fresh table, and then the one before it is
    laid out. -/
theorem layoutClass_exact_wide : Acyclic wideDefs ∧
    (∃ fault l', layoutClass wideDefs "Book" {} = .error fault l' ∧ LayoutFault fault ∧
      l'.object? "Book" = none) ∧
    ∃ layout l', layoutClass wideDefs "Page" (table (layoutClass wideDefs "Book" {})) =
        .ok layout l' ∧ Exact wideDefs "Page" layout l' := by
  have hgrounded : Grounded wideDefs "Page" := by
    apply grounded_of_closed
    · simp [wideDefs, wideClass, BuildsOn, Declaration.variables, Ty.ofName, or_imp, forall_and]
    · simp [wideDefs, wideClass]
  refine ⟨wideDefs_acyclic, ?_, ?_⟩
  · refine (layoutClass_exact wideDefs_acyclic .empty "Book").2.2 ?_
    rw [exactSize_wideDefs.2]
    omega
  · refine (layoutClass_exact wideDefs_acyclic (.askClass "Book" .empty) "Page").2.1 ?_
    rw [exactSize_wideDefs.1]
    exact ⟨hgrounded, by decide⟩

end Layouts

end ClassLang
