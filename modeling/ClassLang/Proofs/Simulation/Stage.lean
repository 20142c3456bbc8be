import ClassLang.Proofs.Lowering.Sites
import ClassLang.Proofs.Machine.Routines
import ClassLang.Proofs.Meaning.Sound
import ClassLang.Proofs.Simulation.Relation

/-! # A method on the machine

    What holds while the code of a method runs.

    * **`Machine.HasFrame`**: the frame of the method stands for its receiver
      and its variables.
    * **`Machine.Running`** is the invariant between two expressions.
    * **`Machine.Gave`** is what the code of an expression leaves behind, and
      **`Running.after`** goes on from there.
    * **`Machine.Evaluates`** and **`Machine.Answers`** say that code does what
      an expression means and what a call means.
    * **`Machine.Stage`** is all that the code of a method relies on. -/

namespace ClassLang

/-! ## Frames -/

namespace Method

/-- How many words the locals take. -/
def localCount (m : Method) : Nat := (Declaration.variables m.locals).length

/-- The number of the stack word that holds variable number `k`, when the frame
    pointer is at word `b`. -/
def slotOf (m : Method) (b k : Nat) : Nat :=
  if k < m.params.length then b - (2 + k) else b + 1 + (k - m.params.length)

/-- The number of the stack word that holds the receiver. -/
def selfSlot (m : Method) (b : Nat) : Nat := b - (2 + m.params.length)

variable {m : Method} {b k : Nat}

theorem offsetOf_eq (hb : m.params.length + 3 ≤ b) :
    m.offsetOf k = 4 * ((b : Int) - m.slotOf b k) := by
  unfold offsetOf slotOf
  split <;> omega

theorem receiver_eq (hb : m.params.length + 3 ≤ b) :
    m.frame.receiver = 4 * ((b : Int) - m.selfSlot b) := by
  simp only [frame, selfSlot, Word.size]
  omega

theorem length_variables (m : Method) :
    m.variables.length = m.params.length + m.localCount := by
  simp [Method.variables, localCount]

/-- Every variable has a word of the frame. -/
theorem slotOf_bounds (hb : m.params.length + 3 ≤ b) (hk : k < m.variables.length) :
    1 ≤ m.slotOf b k ∧ m.slotOf b k ≤ b + m.localCount := by
  rw [length_variables] at hk
  unfold slotOf
  split <;> omega

/-- Different variables have different words. -/
theorem slotOf_inj {j : Nat} (hb : m.params.length + 3 ≤ b) (h : m.slotOf b j = m.slotOf b k) :
    j = k := by
  unfold slotOf at h
  split at h <;> split at h <;> omega

/-- No variable has the word of the receiver. -/
theorem slotOf_ne_selfSlot (hb : m.params.length + 3 ≤ b) : m.slotOf b k ≠ m.selfSlot b := by
  unfold slotOf selfSlot
  split <;> omega

end Method

namespace Machine

/-- The frame with its pointer at word `b` stands for the receiver and the
    variables of the method. -/
structure HasFrame (M : Machine) (known : Known) (roots : List String) (m : Method) (b : Nat)
    (ρ : Env) (s : State) : Prop where
  ebp : s.regs .ebp = M.slot b
  deep : m.params.length + 3 ≤ b
  self : M.Shows known roots (.object ρ.self) (s.memory (M.slot (m.selfSlot b)))
  vars : ∀ k x ty v, m.variables[k]? = some (x, ty) → ρ.vars x = some v →
    M.Shows known roots v (s.memory (M.slot (m.slotOf b k)))

/-! ## Runs of code -/

/-- A run that keeps the frame pointer and the first `d` words of the stack. -/
structure Keeps (M : Machine) (d : Nat) (s s' : State) : Prop where
  runs : M.Runs s s'
  ebp : s'.regs .ebp = s.regs .ebp
  kept : ∀ k, 1 ≤ k → k ≤ d → s'.memory (M.slot k) = s.memory (M.slot k)

/-- Between two expressions of a method: store, frame and stack are as they have
    to be. -/
structure Running (M : Machine) (known : Known) (before : List Int) (V : View) (m : Method)
    (b : Nat) (ρ : Env) (σ : Store) (d : Nat) (s : State) : Prop where
  env : ρ.Typed known σ.roots V
  store : σ.Typed known
  mirrors : M.Mirrors known before σ s
  frame : M.HasFrame known σ.roots m b ρ s
  esp : s.regs .esp = M.slot d
  deep : b + m.localCount ≤ d

/-- Code of `n` lines left its value on a stack of `d` words. -/
structure Gave (M : Machine) (known : Known) (before : List Int) (d n : Nat) (v : Value)
    (σ' : Store) (s s' : State) : Prop extends M.Keeps d s s' where
  line : s'.line = s.line + n
  esp : s'.regs .esp = M.slot (d + 1)
  shows : M.Shows known σ'.roots v (s'.memory (M.slot (d + 1)))
  mirrors : M.Mirrors known before σ' s'

variable {M : Machine} {known : Known} {before : List Int} {V : View} {m : Method}
  {b d d' n n' : Nat} {ρ : Env} {σ σ' : Store} {s s' t : State} {v : Value} {w : BitVec 32}

theorem Keeps.trans (h : M.Keeps d s t) (h' : M.Keeps d' t s') (hd : d ≤ d') :
    M.Keeps d s s' where
  runs := h.runs.trans h'.runs
  ebp := h'.ebp.trans h.ebp
  kept := fun k h1 hk => (h'.kept k h1 (by omega)).trans (h.kept k h1 hk)

theorem Pushed.keeps (h : M.Pushed d n w s s') : M.Keeps d s s' := ⟨h.runs, h.ebp, h.kept⟩

/-- Code that only pushes a word gives the value for which the word stands. -/
theorem Pushed.gave (hk : known.Regular) (h : M.Pushed d n w s s')
    (hm : M.Mirrors known before σ s) (hv : M.Shows known σ.roots v w) :
    M.Gave known before d n v σ s s' where
  toKeeps := h.keeps
  line := h.line
  esp := h.esp
  shows := by
    rw [h.word]
    exact hv
  mirrors := hm.of_same hk h.heap

/-- A frame stays as it is if its words are kept. -/
theorem HasFrame.keep {roots roots' : List String} (h : M.HasFrame known roots m b ρ s)
    (hebp : s'.regs .ebp = s.regs .ebp)
    (hkept : ∀ k, 1 ≤ k → k ≤ d → s'.memory (M.slot k) = s.memory (M.slot k))
    (hd : b + m.localCount ≤ d) (hr : roots <+: roots') :
    M.HasFrame known roots' m b ρ s' where
  ebp := hebp.trans h.ebp
  deep := h.deep
  self := by
    have hb := h.deep
    have hslot : 1 ≤ m.selfSlot b ∧ m.selfSlot b ≤ b := by
      unfold Method.selfSlot
      omega
    rw [hkept _ hslot.1 (by omega)]
    exact h.self.mono hr
  vars := by
    intro k x ty v hx hv
    have hlt := (List.getElem?_eq_some_iff.mp hx).1
    obtain ⟨hone, hle⟩ := Method.slotOf_bounds h.deep hlt
    rw [hkept _ hone (by omega)]
    exact (h.vars k x ty v hx hv).mono hr

/-- The method goes on with `k` more words on the stack. -/
theorem Running.keep (h : M.Running known before V m b ρ σ d s) (hkeep : M.Keeps d s s')
    (hgrows : σ.Grows known σ') (hm : M.Mirrors known before σ' s') {k : Nat}
    (hesp : s'.regs .esp = M.slot (d + k)) : M.Running known before V m b ρ σ' (d + k) s' where
  env := h.env.mono hgrows.roots
  store := hgrows.typed
  mirrors := hm
  frame := h.frame.keep hkeep.ebp hkeep.kept h.deep hgrows.roots
  esp := hesp
  deep := Nat.le_add_right_of_le h.deep

/-- The method goes on when an expression gave its value. -/
theorem Running.after (h : M.Running known before V m b ρ σ d s)
    (hg : M.Gave known before d n v σ' s s') (hgrows : σ.Grows known σ') :
    M.Running known before V m b ρ σ' (d + 1) s' :=
  h.keep hg.toKeeps hgrows hg.mirrors hg.esp

/-! ## What code does -/

/-- The code leaves the value of an expression on the stack, and it needs this
    much room on the stack. -/
def Evaluates (M : Machine) (known : Known) (before : List Int) (V : View) (m : Method)
    (code : List Line) (room : Nat) (eval : Env → Eval Value) : Prop :=
  ∀ b ρ σ d s v σ', M.Running known before V m b ρ σ d s → M.CodeAt s.line code →
    eval ρ σ = .ok (v, σ') → M.HasSlot (d + room) →
    M.heap.low + known.roomOf σ'.roots ≤ M.heap.high →
    ∃ s', M.Gave known before d code.length v σ' s s'

/-- Receiver and arguments are the topmost words of a stack of `d` words. -/
structure Given (M : Machine) (known : Known) (roots : List String) (r : Ref)
    (args : List Value) (d : Nat) (s : State) : Prop where
  deep : args.length + 1 ≤ d
  self : M.Shows known roots (.object r) (s.memory (M.slot (d - args.length)))
  args : ∀ i v, args[i]? = some v → M.Shows known roots v (s.memory (M.slot (d - i)))

/-- The routine of a method does what a call of the method means.  It needs this
    much room on the stack behind the return address. -/
def Answers (M : Machine) (known : Known) (before : List Int) (calls : Calls) (room : Nat)
    (owner method : String) (params : List Ty) : Prop :=
  ∃ start, M.find (methodLabel owner method) = some start ∧
    ∀ σ self args d s v σ' ret, σ.Typed known →
      (Value.object self).Of known σ.roots (.object owner) →
      List.Forall₂ (Value.Of known σ.roots) args params →
      M.Mirrors known before σ s → M.Given known σ.roots self args d s →
      s.line = start → s.regs .esp = M.slot (d + 1) →
      s.memory (M.slot (d + 1)) = M.place ret → M.isCode ret = true →
      calls owner method self args σ = .ok (v, σ') → M.HasSlot (d + 1 + room) →
      M.heap.low + known.roomOf σ'.roots ≤ M.heap.high →
      ∃ s', M.Keeps (d - (args.length + 1)) s s' ∧ s'.line = ret ∧ s'.regs .esp = M.slot d ∧
        M.Shows known σ'.roots v (s'.regs .eax) ∧ M.Mirrors known before σ' s'

/-- All that the code of a method relies on. -/
structure Stage (M : Machine) (known : Known) (before : List Int) (site : Site) (V : View)
    (m : Method) (calls : Calls) (need : Nat) : Prop where
  placed : M.WellPlaced
  distinct : M.Distinct
  regular : known.Regular
  within : V.Within known
  serves : site.Serves V m
  /-- The classes that are seen are laid out as in the whole program. -/
  sizes : ∀ cls, V.known.Declares cls → known.objectSize cls = V.known.objectSize cls
  slots : ∀ cls, V.known.Declares cls → known.ownSlots cls = V.known.ownSlots cls
  sound : V.CallsSound known calls
  answers : ∀ cls method owner result params,
    V.known.resolve cls method = some (owner, .func result params) →
    M.Answers known before calls need owner method params
  print : ∃ i, M.find printRoutine = some i ∧ M.CodeAt i printCode
  format : M.text? printFormat = some "%d\\n"

end Machine

end ClassLang
