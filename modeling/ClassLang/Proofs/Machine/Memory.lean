import ClassLang.Proofs.Machine.Code
import Mathlib.Tactic.Ring

/-! # The memory of the machine

    The words of the stack, of the heap and of the symbols, by number.

    * **`Machine.WellPlaced`**: the parts of the memory are aligned and
      disjoint, and instructions lie at different addresses.
    * **`Machine.slot`** `d` is the address of word number `d` of the stack,
      counted from its upper end, where 1 is the first one.
    * **`Machine.SameHeap`**: what happens on the stack alone.
    * **`Machine.word`** `k` is the address of byte `k` of the heap. -/

namespace ClassLang

namespace Machine

/-- The stack, the heap and the words of the symbols are aligned and disjoint,
    and instructions lie at different addresses. -/
structure WellPlaced (M : Machine) : Prop where
  stackWhole : M.stack.high % 4 = 0
  stackEnd : M.stack.high ≤ 2 ^ 32
  heapWhole : M.heap.low % 4 = 0
  heapEnd : M.heap.high ≤ 2 ^ 32
  apart : M.stack.high ≤ M.heap.low ∨ M.heap.high ≤ M.stack.low
  symbolsWhole : ∀ x ∈ [heapBase, heapTop], (M.symbol x).toNat % 4 = 0
  symbolsApart : M.symbol heapBase ≠ M.symbol heapTop
  symbolsOutside : ∀ x ∈ [heapBase, heapTop],
    ¬ M.stack.Holds (M.symbol x) ∧ ¬ M.heap.Holds (M.symbol x)
  places : ∀ i j, M.isCode i = true → M.isCode j = true → M.place i = M.place j → i = j

/-- The address of word number `d` of the stack. -/
def slot (M : Machine) (d : Nat) : BitVec 32 := BitVec.ofInt 32 (M.stack.high - 4 * d)

/-- The address of byte `k` of the heap. -/
def word (M : Machine) (k : Int) : BitVec 32 := BitVec.ofInt 32 (M.heap.low + k)

/-- The stack has this many words. -/
def HasSlot (M : Machine) (d : Nat) : Prop := 1 ≤ d ∧ M.stack.low + 4 * d ≤ M.stack.high

/-- The heap has a word at byte `k`. -/
def HasWord (M : Machine) (k : Int) : Prop := 0 ≤ k ∧ 4 ∣ k ∧ M.heap.low + k + 4 ≤ M.heap.high

variable {M : Machine} {d d' : Nat} {k k' : Int}

theorem HasSlot.of_le (h : M.HasSlot d) (h1 : 1 ≤ d') (hle : d' ≤ d) : M.HasSlot d' := by
  obtain ⟨_, hlow⟩ := h
  exact ⟨h1, by omega⟩

/-! ## Counting -/

/-- The slot `j` words nearer to the upper end. -/
theorem slot_add {j : Int} (h : (d' : Int) = d - j) :
    M.slot d + BitVec.ofInt 32 (4 * j) = M.slot d' := by
  rw [slot, slot, ← BitVec.ofInt_add]
  congr 1
  omega

@[simp] theorem slot_sub_four (M : Machine) (d : Nat) : M.slot d - 4 = M.slot (d + 1) := by
  have hfour : (4 : BitVec 32) = -BitVec.ofInt 32 (4 * -1) := by decide
  rw [hfour, BitVec.sub_neg]
  exact slot_add (by omega)

@[simp] theorem slot_add_four (M : Machine) (d : Nat) : M.slot (d + 1) + 4 = M.slot d := by
  have hfour : (4 : BitVec 32) = BitVec.ofInt 32 (4 * 1) := by decide
  rw [hfour]
  exact slot_add (by omega)

theorem word_add (M : Machine) (k j : Int) : M.word k + BitVec.ofInt 32 j = M.word (k + j) := by
  rw [word, word, ← BitVec.ofInt_add]
  congr 1
  omega

/-! ## Where words lie -/

/-- A number of 32 bits is what it is read back as. -/
theorem toNat_ofInt_of_lt {n : Int} (h0 : 0 ≤ n) (h : n < 2 ^ 32) :
    ((BitVec.ofInt 32 n).toNat : Int) = n := by
  rw [BitVec.toNat_ofInt]
  have hmod : n % ((2 ^ 32 : Nat) : Int) = n := Int.emod_eq_of_lt h0 (by norm_num; omega)
  rw [hmod, Int.toNat_of_nonneg h0]

section different

variable (hM : M.WellPlaced)

include hM

theorem toNat_slot (h : M.HasSlot d) : ((M.slot d).toNat : Int) = M.stack.high - 4 * d := by
  obtain ⟨h1, hlow⟩ := h
  have hend := hM.stackEnd
  exact toNat_ofInt_of_lt (by omega) (by omega)

theorem toNat_word (h : M.HasWord k) : ((M.word k).toNat : Int) = M.heap.low + k := by
  obtain ⟨h0, _, hhigh⟩ := h
  have hend := hM.heapEnd
  exact toNat_ofInt_of_lt (by omega) (by omega)

theorem holds_slot (h : M.HasSlot d) : M.stack.Holds (M.slot d) := by
  have hnat := toNat_slot hM h
  obtain ⟨h1, hlow⟩ := h
  unfold Area.Holds
  omega

theorem holds_word (h : M.HasWord k) : M.heap.Holds (M.word k) := by
  have hnat := toNat_word hM h
  obtain ⟨h0, _, hhigh⟩ := h
  unfold Area.Holds
  omega

theorem usable_slot (h : M.HasSlot d) : M.Usable (M.slot d) := by
  refine ⟨?_, Or.inl (holds_slot hM h)⟩
  have hnat := toNat_slot hM h
  have hwhole := hM.stackWhole
  omega

theorem usable_word (h : M.HasWord k) : M.Usable (M.word k) := by
  refine ⟨?_, Or.inr (Or.inl (holds_word hM h))⟩
  have hnat := toNat_word hM h
  have hwhole := hM.heapWhole
  obtain ⟨_, ⟨j, hj⟩, _⟩ := h
  omega

theorem usable_heapBase : M.Usable (M.symbol heapBase) :=
  ⟨hM.symbolsWhole _ (by simp), Or.inr (Or.inr (Or.inl rfl))⟩

theorem usable_heapTop : M.Usable (M.symbol heapTop) :=
  ⟨hM.symbolsWhole _ (by simp), Or.inr (Or.inr (Or.inr rfl))⟩

/-! ## Different words -/

theorem slot_inj (h : M.HasSlot d) (h' : M.HasSlot d') : M.slot d = M.slot d' ↔ d = d' := by
  constructor
  · intro heq
    have hnat := toNat_slot hM h
    have hnat' := toNat_slot hM h'
    rw [heq] at hnat
    omega
  · rintro rfl
    rfl

theorem word_inj (h : M.HasWord k) (h' : M.HasWord k') : M.word k = M.word k' ↔ k = k' := by
  constructor
  · intro heq
    have hnat := toNat_word hM h
    have hnat' := toNat_word hM h'
    rw [heq] at hnat
    omega
  · rintro rfl
    rfl

theorem word_ne_slot (h : M.HasWord k) (h' : M.HasSlot d) : M.word k ≠ M.slot d := by
  intro heq
  have hword := holds_word hM h
  have hslot := holds_slot hM h'
  rw [heq] at hword
  have hapart := hM.apart
  unfold Area.Holds at hword hslot
  omega

theorem symbol_ne_slot {x : String} (hx : x ∈ [heapBase, heapTop]) (h : M.HasSlot d) :
    M.symbol x ≠ M.slot d := by
  intro heq
  exact (hM.symbolsOutside x hx).1 (heq ▸ holds_slot hM h)

theorem symbol_ne_word {x : String} (hx : x ∈ [heapBase, heapTop]) (h : M.HasWord k) :
    M.symbol x ≠ M.word k := by
  intro heq
  exact (hM.symbolsOutside x hx).2 (heq ▸ holds_word hM h)

end different

/-! ## What happens on the stack -/

/-- Heap and output are the same. -/
structure SameHeap (M : Machine) (s s' : State) : Prop where
  words : ∀ k, M.HasWord k → s'.memory (M.word k) = s.memory (M.word k)
  top : s'.memory (M.symbol heapTop) = s.memory (M.symbol heapTop)
  output : s'.output = s.output

variable {s s' t : State}

theorem SameHeap.trans (h : M.SameHeap s t) (h' : M.SameHeap t s') : M.SameHeap s s' where
  words := fun k hk => (h'.words k hk).trans (h.words k hk)
  top := h'.top.trans h.top
  output := h'.output.trans h.output

/-- A state that differs in one word of the stack, and in registers. -/
theorem SameHeap.of_slot (hM : M.WellPlaced) {d : Nat} (hd : M.HasSlot d)
    (hmem : ∀ a, a ≠ M.slot d → s'.memory a = s.memory a) (hout : s'.output = s.output) :
    M.SameHeap s s' where
  words := fun _ hk => hmem _ (word_ne_slot hM hk hd)
  top := hmem _ (symbol_ne_slot hM (by simp) hd)
  output := hout

/-! ## Returning -/

/-- The line of an instruction is found by its address. -/
theorem lineAt_place (hM : M.WellPlaced) {n : Nat} (h : M.isCode n = true) : M.lineAt (M.place n) = some n := by
  have hle : n ≤ M.lines.length := by
    unfold isCode at h
    cases hn : M.lines[n]? with
    | some l => exact Nat.le_of_lt (List.getElem?_eq_some_iff.mp hn).1
    | none =>
      rw [hn] at h
      exact Nat.le_of_eq (by simpa using h)
  rw [lineAt]
  cases hf : (List.range (M.lines.length + 1)).find?
      (fun n' => M.isCode n' && M.place n' == M.place n) with
  | none =>
    rw [List.find?_eq_none] at hf
    have hno := hf n (List.mem_range.mpr (Nat.lt_succ_of_le hle))
    simp [h] at hno
  | some n' =>
    have hn' := List.find?_some hf
    simp only [Bool.and_eq_true, beq_iff_eq] at hn'
    rw [hM.places n' n hn'.1 h hn'.2]

end Machine

end ClassLang
