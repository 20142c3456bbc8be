import ClassLang.Proofs.Layout.Frames

/-! # Remembered layouts

    What is remembered while the classes of a program are laid out in order.

    * **`Layouts.Holds`**: exactly the layouts of the known classes are
      remembered.
    * **`Layouts.layoutClass_of_holds`**: a known class is not laid out again.
    * **`Layouts.layoutClass_next`**: the next class is laid out as it has to
      be, since all that it depends on is remembered.
    * **`Layouts.layoutFrame_of_fresh`**: a method under a new label gets its
      own frame.
    * **`Layouts.layoutFrame_framed`** and **`layoutUpTo_frames`**: frames are only
      remembered for methods, each under its label. -/

namespace ClassLang

namespace Layouts

/-- Exactly the layouts of the known classes are remembered. -/
structure Holds (l : Layouts) (known : Known) : Prop where
  declared : ∀ cls, known.Declares cls → l.object? cls = some (known.layout cls)
  undeclared : ∀ cls, ¬ known.Declares cls → l.object? cls = none

theorem holds_empty : Holds {} [] where
  declared := fun cls h => absurd h (Known.declares_nil cls)
  undeclared := fun _ _ => rfl

/-- Methods are of no concern to the layouts of classes. -/
theorem Holds.upTo {l : Layouts} {older : Known} {c : ClassDecl}
    (h : l.Holds (c.interface :: older)) (before : List Method) :
    l.Holds (c.upTo before :: older) := by
  have hdecl : ∀ cls, Known.Declares (c.upTo before :: older) cls ↔
      Known.Declares (c.interface :: older) cls := by
    intro cls
    rw [Known.declares_cons, Known.declares_cons]
    rfl
  refine ⟨?_, ?_⟩
  · intro cls hc
    rw [Known.layout_upTo]
    exact h.declared cls ((hdecl cls).mp hc)
  · intro cls hc
    exact h.undeclared cls (mt (hdecl cls).mpr hc)

variable {l : Layouts} {older : Known} (defs : List ClassDecl)

/-- A remembered layout is not computed again. -/
theorem layoutUpTo_of_remembered {cls : String} {layout : ObjectLayout}
    (h : l.object? cls = some layout) (fuel : Nat) :
    layoutUpTo defs (fuel + 1) cls l = .ok layout l := by
  refine estate_bind_ok_iff.mpr ⟨l, l, rfl, ?_⟩
  rw [h]
  rfl

/-- The size of a field is that of its type once its class is remembered. -/
theorem fieldSize_eq (h : l.Holds older) (fuel : Nat) {ty : Ty}
    (hty : ∀ cls, ty = .object cls → older.Declares cls) :
    fieldSize (layoutUpTo defs (fuel + 1)) ty l = .ok (ty.size older.objectSize) l := by
  cases ty with
  | object cls =>
    have hc := h.declared cls (hty cls rfl)
    exact estate_bind_ok_iff.mpr ⟨_, l, layoutUpTo_of_remembered defs hc fuel, rfl⟩
  | _ => rfl

/-- Fields are put one behind the other if the size in the end is a word. -/
theorem addFields_eq (h : l.Holds older) (fuel : Nat) (fields : List (String × Ty))
    (hty : ∀ f ∈ fields, ∀ cls, f.2 = .object cls → older.Declares cls) (layout : ObjectLayout)
    (h0 : 0 ≤ layout.size) (hfit : Word.Fits (layout.extend older.objectSize fields).size) :
    (fields.foldlM (fun (layout : ObjectLayout) (f : String × Ty) => do
        let size ← fieldSize (layoutUpTo defs (fuel + 1)) f.2
        lift (layout.addField f.1 f.2 size)) layout) l =
      .ok (layout.extend older.objectSize fields) l := by
  induction fields generalizing layout with
  | nil => simp [ObjectLayout.extend, slotsFrom, totalSize, pure, EStateM.pure]
  | cons f rest ih =>
    have hsize := Ty.size_nonneg older.objectSize_nonneg f.2
    have hrest := totalSize_nonneg older.objectSize_nonneg rest
    have hsum : totalSize older.objectSize (f :: rest) =
        f.2.size older.objectSize + totalSize older.objectSize rest := rfl
    -- one more field, and the whole extension seen from there
    let grown : ObjectLayout :=
      { fields := layout.fields ++
          [{ name := f.1, ty := f.2, offset := layout.size, size := f.2.size older.objectSize }]
        size := layout.size + f.2.size older.objectSize }
    have hgrown : grown.extend older.objectSize rest =
        layout.extend older.objectSize (f :: rest) := by
      simp [grown, ObjectLayout.extend, slotsFrom, hsum, Int.add_assoc]
    have hadd : Word.add layout.size (f.2.size older.objectSize) =
        .ok (layout.size + f.2.size older.objectSize) := by
      refine Word.exact_eq_ok_iff.mpr ⟨?_, rfl⟩
      simp only [ObjectLayout.extend, hsum, Word.Fits] at hfit ⊢
      omega
    have hfield : layout.addField f.1 f.2 (f.2.size older.objectSize) = .ok grown := by
      rw [ObjectLayout.addField, hadd]
      rfl
    rw [List.foldlM_cons]
    refine estate_bind_ok_iff.mpr ⟨grown, l, ?_, ?_⟩
    · refine estate_bind_ok_iff.mpr ⟨_, l, fieldSize_eq defs h fuel (hty f List.mem_cons_self), ?_⟩
      rw [hfield]
      rfl
    · rw [← hgrown] at hfit ⊢
      refine ih (fun g hg => hty g (List.mem_cons_of_mem _ hg)) grown ?_ hfit
      show 0 ≤ layout.size + f.2.size older.objectSize
      omega

/-- A field of a class that follows the rules holds only older objects. -/
theorem declares_of_mem_variables {mark : Mark} {c : ClassDecl} (hc : c.Derives mark older)
    {f : String × Ty} (hf : f ∈ Declaration.variables c.fields) (cls : String)
    (hcls : f.2 = .object cls) : older.Declares cls := by
  simp only [Declaration.variables, List.mem_flatMap, List.mem_map] at hf
  obtain ⟨d, hd, x, _, rfl⟩ := hf
  have hvis := hc.fields d hd
  cases hty : d.ty with
  | cls name =>
    rw [hty] at hvis
    simp only [hty, Ty.ofName, Ty.object.injEq] at hcls
    exact hcls ▸ hvis
  | _ => simp [hty, Ty.ofName] at hcls

/-- The next class is laid out on top of what is remembered. -/
theorem layoutOfDef_eq {mark : Mark} (h : l.Holds older) (fuel : Nat) {c : ClassDecl}
    (hc : c.Derives mark older)
    (hfit : Word.Fits (Known.objectSize (c.interface :: older) c.name)) :
    layoutOfDef (layoutUpTo defs (fuel + 1)) c l =
      .ok (Known.layout (c.interface :: older) c.name) l := by
  have hself : Known.layout (c.interface :: older) c.name =
      (older.inherited c.interface).extend older.objectSize (Declaration.variables c.fields) :=
    Known.layout_self c.interface older
  have hinherited : 0 ≤ (older.inherited c.interface).size := by
    unfold Known.inherited
    cases c.interface.superclass with
    | none => exact Int.le_refl 0
    | some parent => exact older.objectSize_nonneg parent
  rw [Known.objectSize, hself] at hfit
  rw [hself]
  have hfields := addFields_eq defs h fuel (Declaration.variables c.fields)
    (fun f hf => declares_of_mem_variables hc hf) _ hinherited hfit
  rw [← hfields]
  unfold layoutOfDef
  cases hs : c.superclass with
  | none =>
    have hnone : older.inherited c.interface = {} := by
      simp [Known.inherited, ClassDecl.interface, hs]
    rw [hnone]
    rfl
  | some parent =>
    have hparent : older.inherited c.interface = older.layout parent := by
      simp [Known.inherited, ClassDecl.interface, hs]
    have hlaid := layoutUpTo_of_remembered defs
      (h.declared parent (hc.superclass parent hs)) fuel
    rw [hparent]
    simp only [bind, EStateM.bind, hlaid]

/-- A remembered class stays as it is. -/
theorem layoutClass_of_holds (h : l.Holds older) {cls : String} (hc : older.Declares cls) :
    layoutClass defs cls l = .ok (older.layout cls) l :=
  layoutUpTo_of_remembered defs (h.declared cls hc) defs.length

/-- The next class is laid out as it has to be, and remembered. -/
theorem layoutClass_next {mark : Mark} (h : l.Holds older) {c : ClassDecl}
    (hc : c.Derives mark older) (hfind : defs.find? (·.name == c.name) = some c)
    (hfit : Word.Fits (Known.objectSize (c.interface :: older) c.name)) :
    layoutClass defs c.name l = .ok (Known.layout (c.interface :: older) c.name)
        (l.addObject c.name (Known.layout (c.interface :: older) c.name)) ∧
      (l.addObject c.name (Known.layout (c.interface :: older) c.name)).Holds
        (c.interface :: older) := by
  obtain ⟨fuel, hfuel⟩ : ∃ fuel, defs.length = fuel + 1 := by
    cases defs with
    | nil => cases hfind
    | cons d rest => exact ⟨rest.length, rfl⟩
  refine ⟨?_, ?_⟩
  · rw [layoutClass, hfuel]
    refine estate_bind_ok_iff.mpr ⟨l, l, rfl, ?_⟩
    rw [h.undeclared c.name hc.name, hfind]
    exact estate_bind_ok_iff.mpr ⟨_, l, layoutOfDef_eq _ h fuel hc hfit, rfl⟩
  · have hother : ∀ cls, cls ≠ c.name →
        (l.addObject c.name (Known.layout (c.interface :: older) c.name)).object? cls =
          l.object? cls := by
      intro cls hne
      rw [object?_addObject, if_neg hne]
    refine ⟨?_, ?_⟩
    · intro cls hdecl
      by_cases hcls : cls = c.name
      · rw [object?_addObject, if_pos hcls, hcls]
      · have hold : Known.Declares older cls := by
          rcases (Known.declares_cons _ _ _).mp hdecl with heq | hold
          · exact absurd heq.symm hcls
          · exact hold
        rw [hother cls hcls, h.declared cls hold, Known.layout_of_ne (i := c.interface)]
        exact fun heq => hcls heq.symm
    · intro cls hdecl
      have hnot := (not_congr (Known.declares_cons _ _ _)).mp hdecl
      have hcls : cls ≠ c.name := fun heq => hnot (Or.inl heq.symm)
      rw [hother cls hcls]
      exact h.undeclared cls fun hold => hnot (Or.inr hold)

/-! ## Frames -/

/-- A method under a new label gets its own frame, which is remembered under
    this label only. -/
theorem layoutFrame_of_fresh {cls : String} {m : Method} (hfresh : l.frame? cls m.name = none)
    (hfit : m.FrameFits) :
    layoutFrame cls m l = .ok m.frame (l.addFrame (methodLabel cls m.name) m.frame) := by
  refine estate_bind_ok_iff.mpr ⟨l, l, rfl, ?_⟩
  rw [hfresh]
  refine estate_bind_ok_iff.mpr ⟨m.frame, l, ?_, rfl⟩
  rw [m.ofMethod_eq hfit]
  rfl

/-- The frame of a method under a label: the one that is remembered there, or
    else its own, which is remembered from then on. -/
def Framed (m : Method) (label : String) (frames : List (String × Frame)) (frame : Frame)
    (frames' : List (String × Frame)) : Prop :=
  (frames.lookup label = some frame ∧ frames' = frames) ∨
    (frames.lookup label = none ∧ Frame.ofMethod m = .ok frame ∧
      frames' = (label, frame) :: frames)

theorem layoutFrame_framed {cls : String} {m : Method} {frame : Frame} {l' : Layouts}
    (h : layoutFrame cls m l = .ok frame l') :
    Framed m (methodLabel cls m.name) l.frames frame l'.frames := by
  obtain ⟨_, _, hget, h⟩ := estate_bind_ok_iff.mp h
  cases hget
  cases hf : l.frame? cls m.name with
  | some remembered =>
    rw [hf] at h
    cases h
    exact Or.inl ⟨hf, rfl⟩
  | none =>
    rw [hf] at h
    obtain ⟨own, l₁, hlift, h⟩ := estate_bind_ok_iff.mp h
    obtain ⟨_, l₂, hadd, hpure⟩ := estate_bind_ok_iff.mp h
    cases hpure
    cases hadd
    unfold lift at hlift
    split at hlift
    · next hown =>
      cases hlift
      exact Or.inr ⟨hf, hown, rfl⟩
    · cases hlift

/-- Steps that leave the frames alone do so in a row. -/
theorem foldlM_frames {α β : Type} {step : β → α → Build β}
    (hstep : ∀ b a l b' l', step b a l = .ok b' l' → l'.frames = l.frames) (as : List α) {b b' : β}
    {l l' : Layouts} (h : as.foldlM step b l = .ok b' l') : l'.frames = l.frames := by
  induction as generalizing b l with
  | nil =>
    cases h
    rfl
  | cons a rest ih =>
    rw [List.foldlM_cons] at h
    obtain ⟨c, l₁, ha, hrest⟩ := estate_bind_ok_iff.mp h
    exact (ih hrest).trans (hstep _ _ _ _ _ ha)

theorem lift_frames {α : Type} {step : Except Fault α} {a : α} {l l' : Layouts}
    (h : lift step l = .ok a l') : l'.frames = l.frames := by
  unfold lift at h
  split at h
  · cases h
    rfl
  · cases h

theorem fieldSize_frames {layoutOf : String → Build ObjectLayout}
    (hof : ∀ cls l layout l', layoutOf cls l = .ok layout l' → l'.frames = l.frames) {ty : Ty}
    {size : Int} {l l' : Layouts} (h : fieldSize layoutOf ty l = .ok size l') :
    l'.frames = l.frames := by
  cases ty with
  | object cls =>
    obtain ⟨layout, l₁, hlayout, hpure⟩ := estate_bind_ok_iff.mp h
    cases hpure
    exact hof _ _ _ _ hlayout
  | _ =>
    cases h
    rfl

theorem layoutOfDef_frames {layoutOf : String → Build ObjectLayout}
    (hof : ∀ cls l layout l', layoutOf cls l = .ok layout l' → l'.frames = l.frames)
    {c : ClassDecl} {layout : ObjectLayout} {l l' : Layouts}
    (h : layoutOfDef layoutOf c l = .ok layout l') : l'.frames = l.frames := by
  have hfields : ∀ {inherited layout : ObjectLayout} {l l' : Layouts},
      ((Declaration.variables c.fields).foldlM (fun layout field => do
        let size ← fieldSize layoutOf field.2
        lift (layout.addField field.1 field.2 size)) inherited : Build ObjectLayout) l =
          .ok layout l' →
      l'.frames = l.frames := by
    intro inherited layout l l' hfold
    refine foldlM_frames ?_ _ hfold
    intro layout field l layout' l' hfield
    obtain ⟨size, l₂, hsize, hlift⟩ := estate_bind_ok_iff.mp hfield
    exact (lift_frames hlift).trans (fieldSize_frames hof hsize)
  unfold layoutOfDef at h
  cases hsuper : c.superclass with
  | none =>
    rw [hsuper] at h
    exact hfields h
  | some parent =>
    rw [hsuper] at h
    obtain ⟨inherited, l₁, hinherited, h⟩ := estate_bind_ok_iff.mp h
    exact (hfields h).trans (hof _ _ _ _ hinherited)

/-- Laying out classes is of no concern to frames. -/
theorem layoutUpTo_frames (defs : List ClassDecl) (fuel : Nat) : ∀ cls l layout l',
    layoutUpTo defs fuel cls l = .ok layout l' → l'.frames = l.frames := by
  induction fuel with
  | zero =>
    intro cls l layout l' h
    cases h
  | succ fuel ih =>
    intro cls l layout l' h
    obtain ⟨_, _, hget, h⟩ := estate_bind_ok_iff.mp h
    cases hget
    cases hremembered : l.object? cls with
    | some old =>
      rw [hremembered] at h
      cases h
      rfl
    | none =>
      rw [hremembered] at h
      cases hdef : defs.find? (·.name == cls) with
      | none =>
        rw [hdef] at h
        cases h
      | some c =>
        rw [hdef] at h
        obtain ⟨own, l₁, hown, h⟩ := estate_bind_ok_iff.mp h
        obtain ⟨_, l₂, hadd, hpure⟩ := estate_bind_ok_iff.mp h
        cases hpure
        cases hadd
        show l₁.frames = l.frames
        exact layoutOfDef_frames ih hown

/-- Remembering a frame is of no concern to the layouts of classes. -/
theorem Holds.addFrame (h : l.Holds older) (label : String) (frame : Frame) :
    (l.addFrame label frame).Holds older :=
  ⟨h.declared, h.undeclared⟩

/-- Remembering a frame changes what is known of its label only. -/
theorem lookup_frames_addFrame {label other : String} (frame : Frame) (h : other ≠ label) :
    (l.addFrame label frame).frames.lookup other = l.frames.lookup other := by
  have hne : (other == label) = false := by simpa using h
  rw [addFrame, List.lookup_cons, hne]

end Layouts

end ClassLang
