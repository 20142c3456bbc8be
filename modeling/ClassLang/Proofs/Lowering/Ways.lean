import ClassLang.Proofs.Lowering.Listing

/-! # Ways through code

    How many words code has put on the stack, wherever its jumps take it.

    * **`Way`**: a way through code comes to a line at a depth.
    * **`DepthMap`** gives each line one depth on which all ways agree, and
      **`Way.depth_eq`** is the induction along a way.
    * **`Raises`**: code takes the stack from one depth to another, and no way
      comes below a third.
    * **`Raises.append`** and **`Raises.around`** put such codes together. -/

namespace ClassLang

/-! ## Ways through code -/

/-- By how many words an instruction makes the stack deeper.  A call counts as
    nothing, since its return takes the return address back.  How a routine ends
    is not counted: there the stack pointer is set anew. -/
def Instr.growth : Instr → Int
  | .push _ => 1
  | .pop _ => -1
  | .arith .add (.imm bytes) (.reg .esp) => -(bytes / 4)
  | .arith .sub (.imm bytes) (.reg .esp) => bytes / 4
  | _ => 0

namespace Line

/-- By how many words a line makes the stack deeper. -/
def growth : Line → Int
  | .instr i => i.growth
  | .label _ | .directive _ | .comment _ => 0

/-- May the next line follow? -/
def goesOn : Line → Bool
  | .instr (.jump _) | .instr .ret => false
  | .instr _ | .label _ | .directive _ | .comment _ => true

end Line

/-- An instruction that is always followed by the next one. -/
theorem Line.of_straight {ins : Instr} (h : ins.straight = true) :
    (Line.instr ins).target? = none ∧ (Line.instr ins).goesOn = true := by
  cases ins with
  | jump | jumpIf | call | ret => cases h
  | _ => exact ⟨rfl, rfl⟩

/-- Some way through the code, which is entered at its first line and depth `a`
    and takes each jump or does not, comes to line `i` at depth `q`. -/
inductive Way (code : List Line) (a : Int) : Nat → Int → Prop where
  | start : Way code a 0 a
  | next {i q l} : Way code a i q → code[i]? = some l → l.goesOn = true →
      Way code a (i + 1) (q + l.growth)
  | jump {i j q l t} : Way code a i q → code[i]? = some l → l.target? = some t →
      code[j]? = some (.label t) → Way code a j (q + l.growth)

/-- A depth for each line, and for the end of the code, with which every step of
    a way agrees and which is nowhere below `low`. -/
structure DepthMap (code : List Line) (low : Int) (depth : Nat → Int) : Prop where
  next : ∀ i l, code[i]? = some l → l.goesOn = true → depth (i + 1) = depth i + l.growth
  jump : ∀ i j l t, code[i]? = some l → l.target? = some t → code[j]? = some (.label t) →
    depth j = depth i + l.growth
  low : ∀ i, i ≤ code.length → low ≤ depth i

/-- The code takes the stack from depth `a` to depth `b`: some way comes to its
    end so, and all ways agree and are nowhere below `low`. -/
structure Raises (code : List Line) (low a b : Int) : Prop where
  ends : Way code a code.length b
  map : ∃ depth, DepthMap code low depth ∧ depth 0 = a

variable {p q code : List Line} {low low' a b m : Int} {depth depth' : Nat → Int} {i n k n' : Nat}
  {x : Int}

namespace Way

/-- A way stays in the code or comes to its end. -/
theorem le_length (h : Way code a i x) : i ≤ code.length := by
  cases h with
  | start => exact Nat.zero_le _
  | next _ hl _ => exact (List.getElem?_eq_some_iff.mp hl).1
  | jump _ _ _ hj => exact Nat.le_of_lt (List.getElem?_eq_some_iff.mp hj).1

/-- All ways come to a line at its depth: every step agrees with the map. -/
theorem depth_eq (hm : DepthMap code low depth) (h : Way code (depth 0) i x) : x = depth i := by
  induction h with
  | start => rfl
  | next _ hl hon ih =>
    rw [ih]
    exact (hm.next _ _ hl hon).symm
  | jump _ hl ht hj ih =>
    rw [ih]
    exact (hm.jump _ _ _ _ hl ht hj).symm

/-- A way through code goes on in the same way before other code. -/
theorem left (h : Way p a i x) : Way (p ++ q) a i x := by
  have hlift : ∀ {j : Nat} {l : Line}, p[j]? = some l → (p ++ q)[j]? = some l := by
    intro j l hl
    rw [List.getElem?_append_left (List.getElem?_eq_some_iff.mp hl).1]
    exact hl
  induction h with
  | start => exact .start
  | next _ hl hon ih => exact ih.next (hlift hl) hon
  | jump _ hl ht hj ih => exact ih.jump (hlift hl) ht (hlift hj)

/-- A way that comes to the second of two codes goes on there. -/
theorem right (hm : Way (p ++ q) a p.length m) (h : Way q m i x) :
    Way (p ++ q) a (p.length + i) x := by
  have hlift : ∀ {j : Nat} {l : Line}, q[j]? = some l → (p ++ q)[p.length + j]? = some l := by
    intro j l hl
    rw [List.getElem?_append_right (Nat.le_add_right _ _), Nat.add_sub_cancel_left]
    exact hl
  induction h with
  | start => exact hm
  | next _ hl hon ih => exact ih.next (hlift hl) hon
  | jump _ hl ht hj ih => exact ih.jump (hlift hl) ht (hlift hj)

/-- A way through one code and then a way through the next. -/
theorem append (hp : Way p a p.length m) (hq : Way q m i x) :
    Way (p ++ q) a (p.length + i) x := right (left hp) hq

end Way

/-- The depth at the end of the code is that of its end in the map. -/
theorem Raises.exists_map (h : Raises code low a b) :
    ∃ depth, DepthMap code low depth ∧ depth 0 = a ∧ depth code.length = b := by
  obtain ⟨hend, depth, hm, rfl⟩ := h
  exact ⟨depth, hm, rfl, (hend.depth_eq hm).symm⟩

/-- Wherever ways meet they have one depth, which is not below `low`, and at the
    end it is `b`. -/
theorem Raises.way (h : Raises code low a b) (hw : Way code a i x) :
    low ≤ x ∧ (i = code.length → x = b) ∧ ∀ y, Way code a i y → y = x := by
  obtain ⟨depth, hm, rfl, rfl⟩ := h.exists_map
  have hx := hw.depth_eq hm
  refine ⟨?_, ?_, ?_⟩
  · rw [hx]
    exact hm.low i hw.le_length
  · intro hi
    rw [hx, hi]
  · intro y hy
    rw [hx]
    exact hy.depth_eq hm

/-! ## Code in a row -/

namespace DepthMap

theorem mono (h : DepthMap code low depth) (hle : low' ≤ low) : DepthMap code low' depth where
  next := h.next
  jump := h.jump
  low := fun i hi => Int.le_trans hle (h.low i hi)

/-- Depths of two codes in a row, if they agree where one meets the other and
    where the first jumps into the second, and the second does not jump back. -/
theorem append (hp : DepthMap p low depth) (hq : DepthMap q low depth')
    (hmeet : depth p.length = depth' 0)
    (hover : ∀ (i j : Nat) (l : Line) (t : Label), p[i]? = some l → l.target? = some t →
      q[j]? = some (.label t) → depth' j = depth i + l.growth)
    (hback : ∀ (i j : Nat) (l : Line) (t : Label), q[i]? = some l → l.target? = some t →
      p[j]? ≠ some (.label t)) :
    DepthMap (p ++ q) low (fun i => if i < p.length then depth i else depth' (i - p.length)) where
  next := by
    intro i l hl hon
    by_cases hi : i < p.length
    · rw [List.getElem?_append_left hi] at hl
      have hnext := hp.next i l hl hon
      by_cases hi' : i + 1 < p.length
      · simp only [if_pos hi, if_pos hi']
        exact hnext
      · -- the last line of the first code is followed by the first of the second
        have heq : i + 1 = p.length := by omega
        simp only [if_pos hi, if_neg hi']
        rw [heq, Nat.sub_self, ← hmeet, ← heq]
        exact hnext
    · rw [List.getElem?_append_right (by omega)] at hl
      have hnext := hq.next _ l hl hon
      have hsub : i + 1 - p.length = i - p.length + 1 := by omega
      have hi' : ¬ i + 1 < p.length := by omega
      simp only [if_neg hi, if_neg hi', hsub]
      exact hnext
  jump := by
    intro i j l t hl ht hj
    by_cases hi : i < p.length
    · rw [List.getElem?_append_left hi] at hl
      by_cases hjc : j < p.length
      · rw [List.getElem?_append_left hjc] at hj
        simp only [if_pos hi, if_pos hjc]
        exact hp.jump i j l t hl ht hj
      · rw [List.getElem?_append_right (by omega)] at hj
        simp only [if_pos hi, if_neg hjc]
        exact hover i _ l t hl ht hj
    · rw [List.getElem?_append_right (by omega)] at hl
      by_cases hjc : j < p.length
      · rw [List.getElem?_append_left hjc] at hj
        exact absurd hj (hback _ j l t hl ht)
      · rw [List.getElem?_append_right (by omega)] at hj
        simp only [if_neg hi, if_neg hjc]
        exact hq.jump _ _ l t hl ht hj
  low := by
    intro i hi
    rw [List.length_append] at hi
    by_cases hlt : i < p.length
    · simp only [if_pos hlt]
      exact hp.low i (by omega)
    · simp only [if_neg hlt]
      exact hq.low _ (by omega)

/-- Depths of an instruction and the code behind it, if they agree where it goes
    on and where it jumps. -/
theorem cons (hm : DepthMap code low depth) (ins : Instr) (hlow : low ≤ a)
    (hnext : depth 0 = a + ins.growth)
    (hjump : ∀ (j : Nat) (t : Label), (Line.instr ins).target? = some t →
      code[j]? = some (.label t) → depth j = a + ins.growth) :
    DepthMap (.instr ins :: code) low (fun i => match i with | 0 => a | i + 1 => depth i) where
  next := by
    intro i l hl hon
    cases i with
    | zero =>
      cases hl
      exact hnext
    | succ i => exact hm.next i l hl hon
  jump := by
    intro i j l t hl ht hj
    cases j with
    | zero => cases hj
    | succ j =>
      cases i with
      | zero =>
        cases hl
        exact hjump j t ht hj
      | succ i => exact hm.jump i j l t hl ht hj
  low := by
    intro i hi
    cases i with
    | zero => exact hlow
    | succ i => exact hm.low i (Nat.le_of_succ_le_succ hi)

end DepthMap

/-! ## Own labels -/

namespace Labelled

/-- The labels of labelled code are numbers between the two counts. -/
theorem bounds (h : Labelled code n n') {x : Nat} (hx : .label (.numbered x) ∈ code) :
    n ≤ x ∧ x < n' := by
  have hmem : x ∈ numbers code := List.mem_filterMap.mpr ⟨_, hx, rfl⟩
  have hrange := h.once.mem_iff.mp hmem
  have hle := h.le
  rw [List.mem_range'_1] at hrange
  omega

/-- Labelled code jumps to its own labels. -/
theorem exists_target (h : Labelled code n n') {i : Nat} {l : Line} {t : Label}
    (hi : code[i]? = some l) (ht : l.target? = some t) :
    ∃ x, t = .numbered x ∧ n ≤ x ∧ x < n' := by
  obtain ⟨x, j, rfl, _, hj⟩ := h.forward.exists_label hi ht
  exact ⟨x, rfl, h.bounds (List.mem_of_getElem? hj)⟩

/-- Code with other labels is not jumped to. -/
theorem not_over (hp : Labelled p n k) (hq : Labelled q k n') (i j : Nat) (l : Line) (t : Label)
    (hl : p[i]? = some l) (ht : l.target? = some t) : q[j]? ≠ some (.label t) := by
  intro hj
  obtain ⟨x, rfl, _, hx⟩ := hp.exists_target hl ht
  have hbounds := hq.bounds (List.mem_of_getElem? hj)
  omega

theorem not_back (hp : Labelled p n k) (hq : Labelled q k n') (i j : Nat) (l : Line) (t : Label)
    (hl : q[i]? = some l) (ht : l.target? = some t) : p[j]? ≠ some (.label t) := by
  intro hj
  obtain ⟨x, rfl, hx, _⟩ := hq.exists_target hl ht
  have hbounds := hp.bounds (List.mem_of_getElem? hj)
  omega

end Labelled

/-- A way through two codes that do not jump to each other is a way through the
    first of them, and then one through the second. -/
theorem Way.parts
    (hover : ∀ (i j : Nat) (l : Line) (t : Label), p[i]? = some l → l.target? = some t →
      q[j]? ≠ some (.label t))
    (hback : ∀ (i j : Nat) (l : Line) (t : Label), q[i]? = some l → l.target? = some t →
      p[j]? ≠ some (.label t)) (h : Way (p ++ q) a i x) :
    (i < p.length → Way p a i x) ∧
      (p.length ≤ i → ∃ y, Way p a p.length y ∧ Way q y (i - p.length) x) := by
  induction h with
  | start =>
    refine ⟨fun _ => .start, ?_⟩
    intro hi
    have hlen : p.length = 0 := Nat.le_zero.mp hi
    rw [hlen]
    exact ⟨a, .start, .start⟩
  | @next i x l hw hl hon ih =>
    by_cases hi : i < p.length
    · -- the end of the first code is the start of the second
      rw [List.getElem?_append_left hi] at hl
      have hnext : Way p a (i + 1) (x + l.growth) := (ih.1 hi).next hl hon
      refine ⟨fun _ => hnext, ?_⟩
      intro hle
      have hlen : p.length = i + 1 := by omega
      rw [hlen, Nat.sub_self]
      exact ⟨_, hnext, .start⟩
    · rw [List.getElem?_append_right (by omega)] at hl
      refine ⟨by omega, ?_⟩
      intro _
      obtain ⟨y, hy, hq⟩ := ih.2 (by omega)
      have hsub : i + 1 - p.length = i - p.length + 1 := by omega
      rw [hsub]
      exact ⟨y, hy, hq.next hl hon⟩
  | @jump i j x l t hw hl ht hj ih =>
    by_cases hi : i < p.length
    · rw [List.getElem?_append_left hi] at hl
      by_cases hjc : j < p.length
      · rw [List.getElem?_append_left hjc] at hj
        exact ⟨fun _ => (ih.1 hi).jump hl ht hj, by omega⟩
      · -- jumps stay in the code where they start
        rw [List.getElem?_append_right (by omega)] at hj
        exact absurd hj (hover _ _ l t hl ht)
    · rw [List.getElem?_append_right (by omega)] at hl
      by_cases hjc : j < p.length
      · rw [List.getElem?_append_left hjc] at hj
        exact absurd hj (hback _ _ l t hl ht)
      · rw [List.getElem?_append_right (by omega)] at hj
        refine ⟨by omega, ?_⟩
        intro _
        obtain ⟨y, hy, hq⟩ := ih.2 (by omega)
        exact ⟨y, hy, hq.jump hl ht hj⟩

/-- Labelled codes in a row do not jump to each other. -/
theorem Way.split (lp : Labelled p n k) (lq : Labelled q k n') (h : Way (p ++ q) a i x) :
    (i < p.length → Way p a i x) ∧
      (p.length ≤ i → ∃ y, Way p a p.length y ∧ Way q y (i - p.length) x) :=
  h.parts (lp.not_over lq) (lp.not_back lq)

namespace Raises

theorem mono (h : Raises code low a b) (hle : low' ≤ low) : Raises code low' a b where
  ends := h.ends
  map := by
    obtain ⟨depth, hm, ha⟩ := h.map
    exact ⟨depth, hm.mono hle, ha⟩

/-- One code after another, if they do not jump to each other. -/
theorem beside (hp : Raises p low a m) (hq : Raises q low m b)
    (hover : ∀ (i j : Nat) (l : Line) (t : Label), p[i]? = some l → l.target? = some t →
      q[j]? ≠ some (.label t))
    (hback : ∀ (i j : Nat) (l : Line) (t : Label), q[i]? = some l → l.target? = some t →
      p[j]? ≠ some (.label t)) : Raises (p ++ q) low a b := by
  obtain ⟨depth, hpm, ha, hm⟩ := hp.exists_map
  obtain ⟨depth', hqm, hm'⟩ := hq.map
  refine ⟨?_, _, hpm.append hqm (hm.trans hm'.symm)
    (fun i j l t hl ht hj => absurd hj (hover i j l t hl ht)) hback, ?_⟩
  · rw [List.length_append]
    exact hp.ends.append hq.ends
  · by_cases h0 : 0 < p.length
    · simp only [if_pos h0]
      exact ha
    · have hlen : p.length = 0 := by omega
      rw [hlen] at hm
      simp only [if_neg h0, Nat.zero_sub]
      rw [hm', ← hm, ha]

/-- Labelled codes in a row do not jump to each other. -/
theorem append (hp : Raises p low a m) (hq : Raises q low m b) (lp : Labelled p n k)
    (lq : Labelled q k n') : Raises (p ++ q) low a b :=
  hp.beside hq (lp.not_over lq) (lp.not_back lq)

/-! ## Instructions in a row -/

theorem nil (h : low ≤ a) : Raises [] low a a :=
  ⟨.start, fun _ => a, ⟨by simp, by simp, fun _ _ => h⟩, rfl⟩

/-- An instruction that does not jump, and the code behind it. -/
theorem instr {ins : Instr} (ht : (Line.instr ins).target? = none)
    (hon : (Line.instr ins).goesOn = true) (hlow : low ≤ a) (hg : a + ins.growth = m)
    (h : Raises code low m b) : Raises (.instr ins :: code) low a b := by
  obtain ⟨depth, hm, rfl⟩ := h.map
  refine ⟨?_, _, hm.cons ins hlow hg.symm ?_, rfl⟩
  · have hfirst : Way [.instr ins] a 1 (depth 0) := hg ▸ Way.start.next rfl hon
    rw [List.length_cons, Nat.add_comm]
    exact hfirst.append h.ends
  · intro j t hj
    rw [ht] at hj
    cases hj

/-- Instructions that neither jump nor make the stack deeper, and the code behind
    them. -/
theorem flat (is : List Instr)
    (hflat : ∀ ins ∈ is, ins.straight = true ∧ ins.growth = 0) (hlow : low ≤ a)
    (h : Raises code low a b) : Raises (instrs is ++ code) low a b := by
  induction is with
  | nil => exact h
  | cons ins rest ih =>
    obtain ⟨hs, hg⟩ := hflat ins List.mem_cons_self
    obtain ⟨ht, hon⟩ := Line.of_straight hs
    refine instr ht hon hlow ?_ (ih fun ins' h => hflat ins' (List.mem_cons_of_mem _ h))
    rw [hg, Int.add_zero]

/-- The topmost word is taken from the stack. -/
theorem pop {r : Reg} (hlow : low ≤ a) (h : Raises code low a b) :
    Raises (.instr (.pop r) :: code) low (a + 1) b :=
  instr rfl rfl (by omega) (Int.add_neg_cancel_right a 1) h

/-- A word goes on the stack. -/
theorem push {source : Operand} (hlow : low ≤ a) (h : Raises code low (a + 1) b) :
    Raises (.instr (.push source) :: code) low a b :=
  instr rfl rfl hlow rfl h

/-! ## Code that may be jumped over -/

/-- A jump over code that leaves the stack as it was meets the way through. -/
theorem jumpOver (cond : JumpCond) (hq : Raises q low a a) (lq : Labelled q k n') (hn : n < k) :
    Raises (.instr (.jumpIf cond (.numbered n)) :: (q ++ [.label (.numbered n)])) low a a := by
  obtain ⟨depth, hm, h0, hend⟩ := hq.exists_map
  have hlow : low ≤ a := h0 ▸ hm.low 0 (Nat.zero_le _)
  -- the label has the depth of the end of the code
  have hlabel : DepthMap [.label (.numbered n)] low (fun _ => a) := by
    refine ⟨?_, ?_, fun _ _ => hlow⟩
    · intro i l hl _
      cases List.mem_singleton.mp (List.mem_of_getElem? hl)
      exact (Int.add_zero a).symm
    · intro i j l t hl ht _
      cases List.mem_singleton.mp (List.mem_of_getElem? hl)
      cases ht
  have hrest := hm.append hlabel hend
    (by
      intro i j l t hl ht hj
      obtain ⟨x, rfl, hx, _⟩ := lq.exists_target hl ht
      cases List.mem_singleton.mp (List.mem_of_getElem? hj)
      omega)
    (by
      intro i j l t hl ht
      cases List.mem_singleton.mp (List.mem_of_getElem? hl)
      cases ht)
  have hstart : (if 0 < q.length then depth 0 else a) = a := by
    rw [h0, ite_self]
  refine ⟨?_, _, hrest.cons (.jumpIf cond (.numbered n)) hlow ?_ ?_, rfl⟩
  · -- the way without the jump
    have hfirst : Way [.instr (.jumpIf cond (.numbered n))] a 1 (a + 0) :=
      Way.start.next (l := .instr (.jumpIf cond (.numbered n))) rfl rfl
    have hlast : Way [.label (.numbered n)] a 1 (a + 0) :=
      Way.start.next (l := .label (.numbered n)) rfl rfl
    rw [Int.add_zero] at hfirst hlast
    have hall := hfirst.append (hq.ends.append hlast)
    rw [List.length_singleton, Nat.add_comm] at hall
    rw [List.length_cons, List.length_append]
    exact hall
  · simp only [hstart]
    exact (Int.add_zero a).symm
  · -- the label stands at the end only
    intro j t ht hj
    cases ht
    have hj' : ¬ j < q.length := by
      intro hlt
      rw [List.getElem?_append_left hlt] at hj
      have hbounds := lq.bounds (List.mem_of_getElem? hj)
      omega
    simp only [if_neg hj']
    exact (Int.add_zero a).symm

/-- Code that may be jumped over after a test leaves the stack as it was on both
    ways. -/
theorem around (hp : Raises p a a (a + 1)) (hq : Raises q a a a)
    (lp : Labelled p (n + 1) k) (lq : Labelled q k n') :
    Raises (p ++ instrs [.pop .eax, .cmp (.imm 1) (.reg .eax),
      .jumpIf .notEqual (.numbered n)] ++ q ++ [.label (.numbered n)]) a a a := by
  have hle := lp.le
  have hover := jumpOver .notEqual hq lq (show n < k by omega)
  have htail : Raises (.instr (.pop .eax) :: .instr (.cmp (.imm 1) (.reg .eax)) ::
      .instr (.jumpIf .notEqual (.numbered n)) :: (q ++ [.label (.numbered n)])) a (a + 1) a :=
    .pop (Int.le_refl a) (.instr rfl rfl (Int.le_refl a) (Int.add_zero a) hover)
  have hlabels : ∀ x : Nat, .label (.numbered x) ∈ (.instr (.pop .eax) ::
      .instr (.cmp (.imm 1) (.reg .eax)) :: .instr (.jumpIf .notEqual (.numbered n)) ::
      (q ++ [.label (.numbered n)]) : List Line) → x = n ∨ k ≤ x := by
    intro x hx
    simp only [List.mem_cons, List.mem_append, reduceCtorEq, false_or, Line.label.injEq,
      Label.numbered.injEq, List.not_mem_nil, or_false] at hx
    rcases hx with hx | rfl
    · exact Or.inr (lq.bounds hx).1
    · exact Or.inl rfl
  have hcode := hp.beside htail
    (by
      intro i j l t hl ht hj
      obtain ⟨x, rfl, hx, hx'⟩ := lp.exists_target hl ht
      rcases hlabels x (List.mem_of_getElem? hj) with rfl | hk <;> omega)
    (by
      intro i j l t hl ht hj
      have htarget : ∃ x, t = .numbered x ∧ (x = n ∨ k ≤ x) := by
        have hmem := List.mem_of_getElem? hl
        simp only [List.mem_cons, List.mem_append, List.not_mem_nil, or_false] at hmem
        rcases hmem with rfl | rfl | rfl | hmem | rfl
        · cases ht
        · cases ht
        · cases ht
          exact ⟨n, rfl, Or.inl rfl⟩
        · obtain ⟨i', hi'⟩ := List.mem_iff_getElem?.mp hmem
          obtain ⟨x, rfl, hx, _⟩ := lq.exists_target hi' ht
          exact ⟨x, rfl, Or.inr hx⟩
        · cases ht
      obtain ⟨x, rfl, hx⟩ := htarget
      have hbounds := lp.bounds (List.mem_of_getElem? hj)
      omega)
  simpa [instrs] using hcode

end Raises

end ClassLang
