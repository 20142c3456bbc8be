import ClassLang.Proofs.Layout.Objects
import ClassLang.Proofs.Sequence
import Mathlib.Tactic.Ring

/-! # Frames of methods

    What the frame of a method has to be, and that it is laid out so where its
    offsets are words.

    * **`Method.frame`** is the frame, **`Method.FrameFits`** says that it is
      representable.
    * **`Method.ofMethod_eq`** and **`localsSize_frame`**: laying it out gives
      just that.
    * **`Method.slot?_frame`**: variable number `k` is found at offset
      **`Method.offsetOf`** `k`. -/

namespace ClassLang

/-! ## Slots of one word -/

/-- Slots of one word, the first at `first`, each of the others `step` behind
    the one before. -/
def wordSlots (first step : Int) : List (String × Ty) → List Slot
  | [] => []
  | (name, ty) :: rest =>
    { name, ty, offset := first, size := Word.size } :: wordSlots (first + step) step rest

@[simp] theorem length_wordSlots (first step : Int) (vars : List (String × Ty)) :
    (wordSlots first step vars).length = vars.length := by
  induction vars generalizing first with
  | nil => rfl
  | cons v rest ih => simp [wordSlots, ih]

@[simp] theorem map_name_wordSlots (first step : Int) (vars : List (String × Ty)) :
    (wordSlots first step vars).map Slot.name = vars.map (·.1) := by
  induction vars generalizing first with
  | nil => rfl
  | cons v rest ih => simp [wordSlots, ih]

/-- The slot of variable number `k`. -/
theorem getElem?_wordSlots (first step : Int) (vars : List (String × Ty)) (k : Nat) :
    (wordSlots first step vars)[k]? =
      vars[k]?.map fun v =>
        { name := v.1, ty := v.2, offset := first + step * k, size := Word.size } := by
  induction vars generalizing first k with
  | nil => simp [wordSlots]
  | cons v rest ih =>
    cases k with
    | zero => simp [wordSlots]
    | succ k =>
      have hstep : first + step + step * k = first + step * ((k + 1 : Nat) : Int) := by
        push_cast
        ring
      simp only [wordSlots, List.getElem?_cons_succ, ih, hstep]

/-- Placing variables gives slots of one word if every offset on the way is a
    word, also the one behind the last. -/
theorem place_eq {next : Int → Except Fault Int} {step : Int}
    (hnext : ∀ o, Word.Fits (o + step) → next o = .ok (o + step)) (vars : List (String × Ty))
    (first : Int) (h : ∀ k : Nat, k < vars.length → Word.Fits (first + step * (k + 1))) :
    Frame.place next first vars =
      .ok (wordSlots first step vars, first + step * vars.length) := by
  induction vars generalizing first with
  | nil => simp [Frame.place, wordSlots, pure, Except.pure]
  | cons v rest ih =>
    have hfirst : Word.Fits (first + step) := by
      have := h 0 (Nat.succ_pos _)
      simpa using this
    have hrest : ∀ k : Nat, k < rest.length → Word.Fits (first + step + step * (k + 1)) := by
      intro k hk
      have hk' := h (k + 1) (by simpa using hk)
      have heq : first + step * (((k + 1 : Nat) : Int) + 1) = first + step + step * (k + 1) := by
        push_cast
        ring
      rwa [heq] at hk'
    have hend : first + step + step * rest.length = first + step * (v :: rest).length := by
      simp only [List.length_cons]
      push_cast
      ring
    rw [Frame.place, hnext first hfirst]
    refine except_bind_ok_iff.mpr ⟨_, rfl, except_bind_ok_iff.mpr ⟨_, ih _ hrest, ?_⟩⟩
    rw [hend]
    rfl

/-! ## The frame of a method -/

namespace Method

/-- The frame of a method. -/
def frame (m : Method) : Frame where
  params := wordSlots (2 * Word.size) Word.size (Param.variables m.params)
  locals := wordSlots (-Word.size) (-Word.size) (Declaration.variables m.locals)
  receiver := 2 * Word.size + Word.size * m.params.length

/-- The offsets of the receiver and of all parameters, and the bytes that the
    locals take, are words. -/
structure FrameFits (m : Method) : Prop where
  params : Word.Fits (Word.size * (2 + m.params.length))
  locals : Word.Fits (Word.size * (Declaration.variables m.locals).length)

instance (m : Method) : Decidable m.FrameFits :=
  decidable_of_iff (Word.Fits (Word.size * (2 + m.params.length)) ∧
      Word.Fits (Word.size * (Declaration.variables m.locals).length))
    ⟨fun h => ⟨h.1, h.2⟩, fun h => ⟨h.params, h.locals⟩⟩

/-- The offset of variable number `k`, parameters before locals. -/
def offsetOf (m : Method) (k : Nat) : Int :=
  if k < m.params.length then 4 * (2 + k) else -4 * (1 + (k - m.params.length : Nat))

@[simp] theorem length_paramVariables (params : List Param) :
    (Param.variables params).length = params.length := by
  simp [Param.variables]

/-- The frame of a method is laid out as it has to be. -/
theorem ofMethod_eq {m : Method} (h : m.FrameFits) : Frame.ofMethod m = .ok m.frame := by
  have hup : ∀ o : Int, Word.Fits (o + Word.size) → Word.add o Word.size = .ok (o + Word.size) :=
    fun o ho => Word.exact_eq_ok_iff.mpr ⟨ho, rfl⟩
  have hdown : ∀ o : Int, Word.Fits (o + -Word.size) →
      Word.sub o Word.size = .ok (o + -Word.size) :=
    fun o ho => Word.exact_eq_ok_iff.mpr ⟨ho, rfl⟩
  have hparams := place_eq hup (Param.variables m.params) (2 * Word.size) (by
    intro k hk
    rw [length_paramVariables] at hk
    have := h.params
    simp only [Word.Fits, Word.size] at this ⊢
    omega)
  have hlocals := place_eq hdown (Declaration.variables m.locals) (-Word.size) (by
    intro k hk
    have := h.locals
    simp only [Word.Fits, Word.size] at this ⊢
    omega)
  refine except_bind_ok_iff.mpr ⟨_, hparams, except_bind_ok_iff.mpr ⟨_, hlocals, ?_⟩⟩
  rw [frame, length_paramVariables]
  rfl

/-- Adding up words that are of one size. -/
theorem foldlM_size_eq (vars : List (String × Ty)) (first step total : Int)
    (h0 : 0 ≤ total) (h : Word.Fits (total + Word.size * vars.length)) :
    (wordSlots first step vars).foldlM (fun total slot => Word.add total slot.size) total =
      .ok (total + Word.size * vars.length) := by
  induction vars generalizing first total with
  | nil => simp [wordSlots, pure, Except.pure]
  | cons v rest ih =>
    have hadd : Word.add total Word.size = .ok (total + Word.size) := by
      refine Word.exact_eq_ok_iff.mpr ⟨?_, rfl⟩
      simp only [Word.Fits, Word.size, List.length_cons] at h ⊢
      omega
    have heq : total + Word.size + Word.size * rest.length =
        total + Word.size * (v :: rest).length := by
      simp only [List.length_cons]
      push_cast
      ring
    have hrest := ih (first + step) (total + Word.size) (by
      simp only [Word.size]
      omega) (by rwa [heq])
    rw [wordSlots, List.foldlM_cons]
    exact except_bind_ok_iff.mpr ⟨_, hadd, by rw [hrest, heq]⟩

/-- All locals take one word each. -/
theorem localsSize_frame {m : Method} (h : m.FrameFits) :
    m.frame.localsSize = .ok (Word.size * (Declaration.variables m.locals).length) := by
  have hsum := foldlM_size_eq (Declaration.variables m.locals) (-Word.size) (-Word.size) 0
    (Int.le_refl 0) (by rw [Int.zero_add]; exact h.locals)
  rwa [Int.zero_add] at hsum

/-- Variable number `k` has the slot at its offset. -/
theorem getElem?_frame (m : Method) (k : Nat) :
    (m.frame.params ++ m.frame.locals)[k]? =
      m.variables[k]?.map fun v =>
        { name := v.1, ty := v.2, offset := m.offsetOf k, size := Word.size } := by
  rw [List.getElem?_append, Method.variables, List.getElem?_append]
  simp only [frame, length_wordSlots, length_paramVariables, getElem?_wordSlots, offsetOf,
    Word.size]
  by_cases hk : k < m.params.length
  · simp only [if_pos hk]
    congr
    funext v
    congr 1
    omega
  · simp only [if_neg hk]
    congr
    funext v
    congr 1
    omega

/-- Variable number `k` is found by its name. -/
theorem slot?_frame {m : Method} (hd : (m.variables.map (·.1)).Nodup) {k : Nat} {x : String}
    {ty : Ty} (h : m.variables[k]? = some (x, ty)) :
    m.frame.slot? x = some { name := x, ty, offset := m.offsetOf k, size := Word.size } := by
  have hslot := m.getElem?_frame k
  rw [h] at hslot
  have hnames : (m.frame.params ++ m.frame.locals).map Slot.name = m.variables.map (·.1) := by
    simp [frame, Method.variables]
  exact find?_name_of_mem (by rw [hnames]; exact hd) (List.mem_of_getElem? hslot)

/-- A name that is no variable is not found. -/
theorem slot?_frame_eq_none {m : Method} {x : String} (h : m.variables.lookup x = none) :
    m.frame.slot? x = none := by
  have hnames : (m.frame.params ++ m.frame.locals).map Slot.name = m.variables.map (·.1) := by
    simp [frame, Method.variables]
  rw [Frame.slot?, find?_name_eq_none_iff, hnames]
  exact lookup_eq_none_iff_names.mp h

end Method

end ClassLang
