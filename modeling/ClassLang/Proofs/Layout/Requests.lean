import Mathlib.Data.Set.Card
import Mathlib.Logic.Relation
import ClassLang.Proofs.Layout.Remembered

/-! # Layouts do not depend on the order of requests

    A table of layouts may be asked for any classes in any order, also for
    ones that cannot be laid out.  Where no class depends on itself, what was
    asked before makes no difference.

    * **`Depends`** is the dependency of a class on its superclass and on the
      classes of its fields, **`Acyclic`** says that it has no cycle.
    * **`outcomeUpTo`** is the layout of a class with nothing remembered.
    * **`Faithful`** tables remember only such layouts; **`Tracks`** says of a
      computation that it keeps tables faithful, forgets nothing and comes out
      the same on all of them.
    * **`layoutClass_any_order`**: every request is answered as by a fresh
      table, and no entry ever changes. -/

namespace ClassLang.Layouts

/-! ## Dependencies -/

variable {defs : List ClassDecl}

/-- A definition builds on its superclass and on the classes of its fields. -/
def BuildsOn (c : ClassDecl) (other : String) : Prop :=
  c.superclass = some other ∨ ∃ name, (name, Ty.object other) ∈ Declaration.variables c.fields

/-- A class depends on what its definition, the first of its name, builds on. -/
def Depends (defs : List ClassDecl) (cls other : String) : Prop :=
  ∃ c, defs.find? (·.name == cls) = some c ∧ BuildsOn c other

/-- No class depends on itself. -/
def Acyclic (defs : List ClassDecl) : Prop :=
  ∀ cls, ¬ Relation.TransGen (Depends defs) cls cls

/-- A class that depends on another is defined. -/
theorem Depends.mem_names {cls other : String} (h : Depends defs cls other) :
    cls ∈ defs.map ClassDecl.name := by
  obtain ⟨c, hfind, -⟩ := h
  have hname := List.find?_some hfind
  exact List.mem_map.2 ⟨c, List.mem_of_find?_eq_some hfind, by simpa using hname⟩

/-- The defined classes that a class reaches, itself among them. -/
def reached (defs : List ClassDecl) (cls : String) : Set String :=
  {name | name ∈ (defs.map ClassDecl.name).toFinset ∧
    Relation.ReflTransGen (Depends defs) cls name}

theorem reached_subset (cls : String) : reached defs cls ⊆ (defs.map ClassDecl.name).toFinset :=
  fun _ h => h.1

theorem reached_finite (cls : String) : (reached defs cls).Finite :=
  (Finset.finite_toSet _).subset (reached_subset cls)

/-- How many classes can depend on each other from a class downwards. -/
noncomputable def depth (defs : List ClassDecl) (cls : String) : Nat := (reached defs cls).ncard

/-- Dependencies meet each definition at most once. -/
theorem depth_le (defs : List ClassDecl) (cls : String) : depth defs cls ≤ defs.length := by
  calc (reached defs cls).ncard
      ≤ (↑(defs.map ClassDecl.name).toFinset : Set String).ncard :=
        Set.ncard_le_ncard (reached_subset cls) (Finset.finite_toSet _)
    _ = (defs.map ClassDecl.name).toFinset.card := Set.ncard_coe_finset _
    _ ≤ (defs.map ClassDecl.name).length := List.toFinset_card_le _
    _ = defs.length := List.length_map _

/-- Each dependency leads further down. -/
theorem depth_lt (hacyclic : Acyclic defs) {cls other : String} (h : Depends defs cls other) :
    depth defs other < depth defs cls := by
  refine Set.ncard_lt_ncard (Set.ssubset_iff_subset_ne.2 ⟨?_, ?_⟩) (reached_finite cls)
  · rintro name ⟨hdefined, hreach⟩
    exact ⟨hdefined, .head h hreach⟩
  · intro heq
    have hself : cls ∈ reached defs cls := ⟨List.mem_toFinset.2 h.mem_names, .refl⟩
    rw [← heq] at hself
    exact hacyclic cls (.head' h hself.2)

/-- Definitions each of which depends on classes of a lower rank only. -/
theorem acyclic_of_rank (rank : String → Nat)
    (h : ∀ c ∈ defs, ∀ other, BuildsOn c other → rank other < rank c.name) :
    Acyclic defs := by
  have hstep : ∀ cls other, Depends defs cls other → rank other < rank cls := by
    rintro cls other ⟨c, hfind, hbuilds⟩
    have hname : c.name = cls := by simpa using List.find?_some hfind
    rw [← hname]
    exact h c (List.mem_of_find?_eq_some hfind) other hbuilds
  have hrun : ∀ cls other, Relation.TransGen (Depends defs) cls other → rank other < rank cls := by
    intro cls other hreach
    induction hreach with
    | single hdep => exact hstep _ _ hdep
    | tail _ hdep ih => exact Nat.lt_trans (hstep _ _ hdep) ih
  exact fun cls hcycle => Nat.lt_irrefl _ (hrun cls cls hcycle)

/-! ## Layouts with nothing remembered -/

/-- The size of a field from the layouts of the classes it may hold. -/
def outcomeSize (layoutOf : String → Except Fault ObjectLayout) : Ty → Except Fault Int
  | .object cls => do return (← layoutOf cls).size
  | _ => return Word.size

/-- The layout of a class definition from those of the classes it depends
    on. -/
def outcomeOfDef (layoutOf : String → Except Fault ObjectLayout) (c : ClassDecl) :
    Except Fault ObjectLayout := do
  let inherited ← match c.superclass with
    | some parent => layoutOf parent
    | none => pure {}
  (Declaration.variables c.fields).foldlM (fun layout (name, ty) => do
    let size ← outcomeSize layoutOf ty
    layout.addField name ty size) inherited

/-- The layout of a class, computed anew with all that it depends on. -/
def outcomeUpTo (defs : List ClassDecl) : (fuel : Nat) → String → Except Fault ObjectLayout
  | 0, cls => .error (.endlessLayout cls)
  | fuel + 1, cls =>
    match defs.find? (·.name == cls) with
    | none => .error (.undefinedClass cls)
    | some c => outcomeOfDef (outcomeUpTo defs fuel) c

/-- The layout of a class, computed anew. -/
def outcome (defs : List ClassDecl) (cls : String) : Except Fault ObjectLayout :=
  outcomeUpTo defs (defs.length + 1) cls

/-- Steps that agree on all elements agree on the row of them. -/
theorem foldlM_congr {α β : Type} {f g : β → α → Except Fault β} {xs : List α} (b : β)
    (h : ∀ x ∈ xs, ∀ b, f b x = g b x) : xs.foldlM f b = xs.foldlM g b := by
  induction xs generalizing b with
  | nil => rfl
  | cons x xs ih =>
    rw [List.foldlM_cons, List.foldlM_cons, h x List.mem_cons_self]
    congr 1
    exact funext fun b => ih b fun y hy => h y (List.mem_cons_of_mem _ hy)

/-- A definition is laid out from the classes that it depends on and from no
    others. -/
theorem outcomeOfDef_congr {f g : String → Except Fault ObjectLayout} {c : ClassDecl}
    (h : ∀ other, BuildsOn c other → f other = g other) :
    outcomeOfDef f c = outcomeOfDef g c := by
  have hfields : ∀ inherited : ObjectLayout,
      (Declaration.variables c.fields).foldlM (fun layout (name, ty) => do
        let size ← outcomeSize f ty
        layout.addField name ty size) inherited =
      (Declaration.variables c.fields).foldlM (fun layout (name, ty) => do
        let size ← outcomeSize g ty
        layout.addField name ty size) inherited := by
    intro inherited
    refine foldlM_congr inherited fun (name, ty) hmem layout => ?_
    have hsize : outcomeSize f ty = outcomeSize g ty := by
      cases ty with
      | object cls => rw [outcomeSize, h cls (.inr ⟨name, hmem⟩), outcomeSize]
      | _ => rfl
    simp only [hsize]
  unfold outcomeOfDef
  cases hsuper : c.superclass with
  | none => exact hfields {}
  | some parent =>
    have hinherited := h parent (.inl hsuper)
    exact congrArg₂ (· >>= ·) hinherited (funext hfields)

/-- Fuel beyond the depth of a class makes no difference to what is computed for
    it, if a step comes from the classes that it depends on. -/
theorem upTo_congr {γ : Type} {upTo : Nat → String → γ} (hacyclic : Acyclic defs)
    (hstep : ∀ {fuel fuel' cls},
      (∀ other, Depends defs cls other → upTo fuel other = upTo fuel' other) →
        upTo (fuel + 1) cls = upTo (fuel' + 1) cls)
    {cls : String} {fuel fuel' : Nat} (h : depth defs cls < fuel) (h' : depth defs cls < fuel') :
    upTo fuel cls = upTo fuel' cls := by
  induction fuel generalizing cls fuel' with
  | zero => exact absurd h (Nat.not_lt_zero _)
  | succ fuel ih =>
    obtain ⟨fuel', rfl⟩ := Nat.exists_eq_succ_of_ne_zero (Nat.ne_zero_of_lt h')
    refine hstep fun other hdep => ?_
    have hlt := depth_lt hacyclic hdep
    exact ih (by omega) (by omega)

theorem outcomeUpTo_congr (hacyclic : Acyclic defs) {cls : String} {fuel fuel' : Nat}
    (h : depth defs cls < fuel) (h' : depth defs cls < fuel') :
    outcomeUpTo defs fuel cls = outcomeUpTo defs fuel' cls := by
  refine upTo_congr hacyclic (fun {fuel fuel' cls} hbelow => ?_) h h'
  rw [outcomeUpTo, outcomeUpTo]
  cases hfind : defs.find? (·.name == cls) with
  | none => rfl
  | some c => exact outcomeOfDef_congr fun other hbuilds => hbelow other ⟨c, hfind, hbuilds⟩

theorem outcomeUpTo_eq (hacyclic : Acyclic defs) {cls : String} {fuel : Nat}
    (h : depth defs cls < fuel) : outcomeUpTo defs fuel cls = outcome defs cls :=
  outcomeUpTo_congr hacyclic h (Nat.lt_succ_of_le (depth_le defs cls))

/-- A defined class is laid out from the classes that it depends on. -/
theorem outcome_eq (hacyclic : Acyclic defs) {cls : String} {c : ClassDecl}
    (hfind : defs.find? (·.name == cls) = some c) :
    outcome defs cls = outcomeOfDef (outcome defs) c := by
  have hbelow : ∀ other, Depends defs cls other →
      outcomeUpTo defs defs.length other = outcome defs other := fun other hdep =>
    outcomeUpTo_eq hacyclic (Nat.lt_of_lt_of_le (depth_lt hacyclic hdep) (depth_le defs cls))
  rw [outcome, outcomeUpTo, hfind]
  exact outcomeOfDef_congr fun other hbuilds => hbelow other ⟨c, hfind, hbuilds⟩

/-! ## What a layout can fail by -/

/-- The faults of a layout where no class depends on itself: a class has no
    definition, or a size is no word. -/
def LayoutFault (fault : Fault) : Prop :=
  (∃ cls, fault = .undefinedClass cls) ∨ fault = .overflow .add

/-- A step that fails by such faults only. -/
def FailsOnly {α : Type} (x : Except Fault α) : Prop :=
  ∀ fault, x = .error fault → LayoutFault fault

theorem failsOnly_pure {α : Type} (a : α) : FailsOnly (pure a) := fun _ h => nomatch h

theorem FailsOnly.bind {α β : Type} {x : Except Fault α} {f : α → Except Fault β}
    (hx : FailsOnly x) (hf : ∀ a, FailsOnly (f a)) : FailsOnly (x >>= f) := by
  intro fault h
  cases x with
  | error fault' =>
    cases h
    exact hx _ rfl
  | ok a => exact hf a fault h

theorem failsOnly_foldlM {α β : Type} {f : β → α → Except Fault β} {xs : List α} (b : β)
    (h : ∀ x ∈ xs, ∀ b, FailsOnly (f b x)) : FailsOnly (xs.foldlM f b) := by
  induction xs generalizing b with
  | nil => exact failsOnly_pure b
  | cons x xs ih =>
    rw [List.foldlM_cons]
    exact (h x List.mem_cons_self b).bind fun b => ih b fun y hy => h y (List.mem_cons_of_mem _ hy)

theorem failsOnly_addField (layout : ObjectLayout) (name : String) (ty : Ty) (size : Int) :
    FailsOnly (layout.addField name ty size) := by
  refine FailsOnly.bind ?_ fun total => failsOnly_pure _
  intro fault h
  unfold Word.add Word.exact at h
  split at h <;> cases h
  exact .inr rfl

theorem failsOnly_outcomeOfDef {layoutOf : String → Except Fault ObjectLayout} {c : ClassDecl}
    (h : ∀ other, BuildsOn c other → FailsOnly (layoutOf other)) :
    FailsOnly (outcomeOfDef layoutOf c) := by
  have hfields : ∀ inherited : ObjectLayout,
      FailsOnly ((Declaration.variables c.fields).foldlM (fun layout (name, ty) => do
        let size ← outcomeSize layoutOf ty
        layout.addField name ty size) inherited) := by
    intro inherited
    refine failsOnly_foldlM inherited fun (name, ty) hmem layout => ?_
    refine FailsOnly.bind ?_ fun size => failsOnly_addField _ _ _ _
    cases ty with
    | object other => exact (h other (.inr ⟨name, hmem⟩)).bind fun _ => failsOnly_pure _
    | _ => exact failsOnly_pure _
  unfold outcomeOfDef
  cases hsuper : c.superclass with
  | none => exact hfields {}
  | some parent => exact (h parent (.inl hsuper)).bind hfields

/-- Where no class depends on itself, no layout contains itself. -/
theorem failsOnly_outcomeUpTo (hacyclic : Acyclic defs) {cls : String} {fuel : Nat}
    (h : depth defs cls < fuel) : FailsOnly (outcomeUpTo defs fuel cls) := by
  induction fuel generalizing cls with
  | zero => exact absurd h (Nat.not_lt_zero _)
  | succ fuel ih =>
    rw [outcomeUpTo]
    cases hfind : defs.find? (·.name == cls) with
    | none =>
      rintro _ ⟨⟩
      exact .inl ⟨cls, rfl⟩
    | some c =>
      refine failsOnly_outcomeOfDef fun other hbuilds => ih ?_
      exact Nat.lt_of_lt_of_le (depth_lt hacyclic ⟨c, hfind, hbuilds⟩) (Nat.le_of_lt_succ h)

/-! ## Tables that remember right -/

/-- What a computation comes to. -/
def answer {α : Type} : EStateM.Result Fault Layouts α → Except Fault α
  | .ok a _ => .ok a
  | .error fault _ => .error fault

/-- The table that a computation leaves behind, also where it faults. -/
def table {α : Type} : EStateM.Result Fault Layouts α → Layouts
  | .ok _ l => l
  | .error _ l => l

/-- Every entry of a table is what its class is laid out to anew. -/
def Faithful (defs : List ClassDecl) (l : Layouts) : Prop :=
  ∀ cls layout, l.object? cls = some layout → outcome defs cls = .ok layout

/-- A table that has all entries of another. -/
def Extends (l l' : Layouts) : Prop :=
  ∀ cls layout, l.object? cls = some layout → l'.object? cls = some layout

/-- A computation comes to `result` on every faithful table, leaves one behind,
    and forgets nothing, whether it faults or not. -/
def Tracks (defs : List ClassDecl) {α : Type} (x : Build α) (result : Except Fault α) : Prop :=
  ∀ l, Faithful defs l →
    answer (x l) = result ∧ Faithful defs (table (x l)) ∧ Extends l (table (x l))

section Tracking

variable {α β : Type} {x : Build α} {result : Except Fault α}

theorem tracks_pure (a : α) : Tracks defs (pure a) (.ok a) :=
  fun _ h => ⟨rfl, h, fun _ _ hentry => hentry⟩

theorem tracks_throw (fault : Fault) : Tracks defs (throw fault : Build α) (.error fault) :=
  fun _ h => ⟨rfl, h, fun _ _ hentry => hentry⟩

theorem tracks_lift (step : Except Fault α) : Tracks defs (lift step) step := by
  cases step with
  | ok a => exact tracks_pure a
  | error fault => exact tracks_throw fault

theorem Tracks.bind {f : α → Build β} {g : α → Except Fault β} (hx : Tracks defs x result)
    (hf : ∀ a, Tracks defs (f a) (g a)) : Tracks defs (x >>= f) (result >>= g) := by
  intro l h
  obtain ⟨hanswer, hfaithful, hextends⟩ := hx l h
  simp only [Bind.bind, EStateM.bind]
  cases hrun : x l with
  | ok a l' =>
    rw [hrun] at hanswer hfaithful hextends
    obtain ⟨hanswer', hfaithful', hextends'⟩ := hf a l' hfaithful
    refine ⟨?_, hfaithful', fun cls layout hentry => hextends' _ _ (hextends _ _ hentry)⟩
    rw [← hanswer]
    exact hanswer'
  | error fault l' =>
    rw [hrun] at hanswer hfaithful hextends
    rw [← hanswer]
    exact ⟨rfl, hfaithful, hextends⟩

theorem tracks_foldlM {f : β → α → Build β} {g : β → α → Except Fault β} {xs : List α} (b : β)
    (h : ∀ x ∈ xs, ∀ b, Tracks defs (f b x) (g b x)) :
    Tracks defs (xs.foldlM f b) (xs.foldlM g b) := by
  induction xs generalizing b with
  | nil => exact tracks_pure b
  | cons x xs ih =>
    rw [List.foldlM_cons, List.foldlM_cons]
    exact (h x List.mem_cons_self b).bind fun b => ih b fun y hy => h y (List.mem_cons_of_mem _ hy)

end Tracking

/-- A definition is laid out as anew if all that it depends on is. -/
theorem tracks_layoutOfDef {layoutOf : String → Build ObjectLayout}
    {f : String → Except Fault ObjectLayout} {c : ClassDecl}
    (h : ∀ other, BuildsOn c other → Tracks defs (layoutOf other) (f other)) :
    Tracks defs (layoutOfDef layoutOf c) (outcomeOfDef f c) := by
  have hfields : ∀ inherited : ObjectLayout,
      Tracks defs
        ((Declaration.variables c.fields).foldlM (fun layout (name, ty) => do
          let size ← fieldSize layoutOf ty
          lift (layout.addField name ty size)) inherited)
        ((Declaration.variables c.fields).foldlM (fun layout (name, ty) => do
          let size ← outcomeSize f ty
          layout.addField name ty size) inherited) := by
    intro inherited
    refine tracks_foldlM inherited fun (name, ty) hmem layout => ?_
    refine Tracks.bind ?_ fun size => tracks_lift _
    cases ty with
    | object other => exact (h other (.inr ⟨name, hmem⟩)).bind fun layout => tracks_pure _
    | _ => exact tracks_pure _
  unfold layoutOfDef outcomeOfDef
  cases hsuper : c.superclass with
  | none => exact hfields {}
  | some parent => exact (h parent (.inl hsuper)).bind hfields

/-- A step that starts with a look at the layouts. -/
theorem get_bind {α : Type} (f : Layouts → Build α) (l : Layouts) : (get >>= f) l = f l l :=
  rfl

/-- A class without a definition cannot be laid out. -/
theorem layoutUpTo_undefined {l : Layouts} {cls : String} (hnew : l.object? cls = none)
    (hfind : defs.find? (·.name == cls) = none) (fuel : Nat) :
    layoutUpTo defs (fuel + 1) cls l = .error (.undefinedClass cls) l := by
  unfold layoutUpTo
  rw [get_bind, hnew, hfind]
  rfl

/-- A defined class is laid out from its definition, and remembered if that
    goes through. -/
theorem layoutUpTo_defined {l : Layouts} {cls : String} {c : ClassDecl}
    (hnew : l.object? cls = none) (hfind : defs.find? (·.name == cls) = some c) (fuel : Nat) :
    layoutUpTo defs (fuel + 1) cls l =
      match layoutOfDef (layoutUpTo defs fuel) c l with
      | .ok layout l' => .ok layout (l'.addObject cls layout)
      | .error fault l' => .error fault l' := by
  unfold layoutUpTo
  rw [get_bind, hnew, hfind]
  simp only [bind, EStateM.bind]
  cases layoutOfDef (layoutUpTo defs fuel) c l <;> rfl

/-- Remembering what a class is laid out to anew keeps a table faithful. -/
theorem Faithful.addObject {l : Layouts} (h : Faithful defs l) {cls : String}
    {layout : ObjectLayout} (hlayout : outcome defs cls = .ok layout) :
    Faithful defs (l.addObject cls layout) := by
  intro other found hentry
  rw [object?_addObject] at hentry
  split at hentry
  · next heq =>
    cases hentry
    rw [heq, hlayout]
  · exact h other found hentry

/-- A class is laid out as anew, and remembered so. -/
theorem tracks_layoutUpTo (hacyclic : Acyclic defs) {cls : String} {fuel : Nat}
    (h : depth defs cls < fuel) : Tracks defs (layoutUpTo defs fuel cls) (outcome defs cls) := by
  induction fuel generalizing cls with
  | zero => exact absurd h (Nat.not_lt_zero _)
  | succ fuel ih =>
    intro l hfaithful
    cases hremembered : l.object? cls with
    | some layout =>
      rw [layoutUpTo_of_remembered defs hremembered fuel]
      exact ⟨(hfaithful cls layout hremembered).symm, hfaithful, fun _ _ hentry => hentry⟩
    | none =>
      cases hfind : defs.find? (·.name == cls) with
      | none =>
        rw [layoutUpTo_undefined hremembered hfind, outcome, outcomeUpTo, hfind]
        exact ⟨rfl, hfaithful, fun _ _ hentry => hentry⟩
      | some c =>
        have hbelow : ∀ other, Depends defs cls other →
            Tracks defs (layoutUpTo defs fuel other) (outcome defs other) := fun other hdep =>
          ih (Nat.lt_of_lt_of_le (depth_lt hacyclic hdep) (Nat.le_of_lt_succ h))
        obtain ⟨hanswer, hfaithful', hextends⟩ :=
          tracks_layoutOfDef (fun other hbuilds => hbelow other ⟨c, hfind, hbuilds⟩) l hfaithful
        rw [← outcome_eq hacyclic hfind] at hanswer
        rw [layoutUpTo_defined hremembered hfind]
        cases hrun : layoutOfDef (layoutUpTo defs fuel) c l with
        | error fault l' =>
          -- what was remembered before the fault stays, and is right
          rw [hrun] at hanswer hfaithful' hextends
          exact ⟨hanswer, hfaithful', hextends⟩
        | ok layout l' =>
          rw [hrun] at hanswer hfaithful' hextends
          refine ⟨hanswer, hfaithful'.addObject hanswer.symm, fun other found hentry => ?_⟩
          have hother : other ≠ cls := by
            rintro rfl
            rw [hremembered] at hentry
            cases hentry
          show (l'.addObject cls layout).object? other = some found
          rw [object?_addObject, if_neg hother]
          exact hextends other found hentry

theorem tracks_layoutClass (hacyclic : Acyclic defs) (cls : String) :
    Tracks defs (layoutClass defs cls) (outcome defs cls) :=
  tracks_layoutUpTo hacyclic (Nat.lt_succ_of_le (depth_le defs cls))

/-! ## Requests -/

/-- The table after requests for classes, answered or not, one after the
    other. -/
def afterRequests (defs : List ClassDecl) (l : Layouts) (requests : List String) : Layouts :=
  requests.foldl (fun l cls => table (layoutClass defs cls l)) l

/-- Requests keep a table faithful and forget nothing. -/
theorem afterRequests_faithful (hacyclic : Acyclic defs) (requests : List String) {l : Layouts}
    (h : Faithful defs l) :
    Faithful defs (afterRequests defs l requests) ∧
      Extends l (afterRequests defs l requests) := by
  induction requests generalizing l with
  | nil => exact ⟨h, fun _ _ hentry => hentry⟩
  | cons cls rest ih =>
    obtain ⟨-, hfaithful, hextends⟩ := tracks_layoutClass hacyclic cls l h
    obtain ⟨hfaithful', hextends'⟩ := ih hfaithful
    exact ⟨hfaithful', fun other layout hentry => hextends' _ _ (hextends _ _ hentry)⟩

/-- An empty table is faithful. -/
theorem faithful_empty : Faithful defs {} := fun _ _ h => nomatch h

/-- A class and two subclasses of it; one holds an object of a class that is
    not defined. -/
def sampleDefs : List ClassDecl :=
  [{ name := "Point", superclass := none, fields := [⟨.int, ["x", "y"], 1⟩], methods := [],
     line := 1 },
   { name := "Ghost", superclass := some "Point", fields := [⟨.cls "Nowhere", ["n"], 2⟩],
     methods := [], line := 2 },
   { name := "Edge", superclass := some "Point", fields := [⟨.cls "Point", ["p"], 3⟩],
     methods := [], line := 3 }]

theorem sampleDefs_acyclic : Acyclic sampleDefs := by
  refine acyclic_of_rank (fun cls => if cls = "Edge" ∨ cls = "Ghost" then 2 else
    if cls = "Point" then 1 else 0) ?_
  simp [sampleDefs, BuildsOn, Declaration.variables, Ty.ofName, or_imp, forall_and]

/-- Where no class depends on itself, it makes no difference which requests
    came before, also if they faulted: every class is answered as by a fresh
    table, with the same layout or the same fault; every entry is such a
    layout, and stays.  A fault is a missing definition or a size that is no
    word. -/
theorem layoutClass_any_order (hacyclic : Acyclic defs) (requests : List String) :
    (∀ cls, answer (layoutClass defs cls (afterRequests defs {} requests)) =
      answer (layoutClass defs cls {})) ∧
    (∀ cls layout, (afterRequests defs {} requests).object? cls = some layout →
      answer (layoutClass defs cls {}) = .ok layout) ∧
    (∀ more cls layout, (afterRequests defs {} requests).object? cls = some layout →
      (afterRequests defs {} (requests ++ more)).object? cls = some layout) ∧
    ∀ cls fault, answer (layoutClass defs cls {}) = .error fault → LayoutFault fault := by
  have hfresh : ∀ cls, answer (layoutClass defs cls {}) = outcome defs cls := fun cls =>
    (tracks_layoutClass hacyclic cls {} faithful_empty).1
  have hfaithful : Faithful defs (afterRequests defs {} requests) :=
    (afterRequests_faithful hacyclic requests faithful_empty).1
  refine ⟨fun cls => ?_, fun cls layout hentry => ?_, fun more cls layout hentry => ?_,
    fun cls fault hfault => ?_⟩
  · rw [hfresh, (tracks_layoutClass hacyclic cls _ hfaithful).1]
  · rw [hfresh, hfaithful cls layout hentry]
  · rw [afterRequests, List.foldl_append]
    exact (afterRequests_faithful hacyclic more hfaithful).2 cls layout hentry
  · rw [hfresh] at hfault
    exact failsOnly_outcomeUpTo hacyclic (Nat.lt_succ_of_le (depth_le defs cls)) fault hfault

/-- The subclass that cannot be laid out leaves the layout of its superclass
    behind, and its sister is answered as by a fresh table. -/
theorem layoutClass_any_order_sample :
    Acyclic sampleDefs ∧
      answer (layoutClass sampleDefs "Edge" (afterRequests sampleDefs {} ["Ghost", "Nowhere"])) =
        answer (layoutClass sampleDefs "Edge" {}) ∧
      (afterRequests sampleDefs {} ["Ghost", "Nowhere"]).object? "Point" ≠ none :=
  ⟨sampleDefs_acyclic, (layoutClass_any_order sampleDefs_acyclic ["Ghost", "Nowhere"]).1 "Edge",
    by decide⟩

end ClassLang.Layouts
