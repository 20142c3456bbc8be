import ClassLang.Proofs.Lowering.Listing
import Mathlib.Data.List.Count

/-! # The symbols of a listing

    When two labels have the same text, and when a listing defines a symbol
    twice.

    * **`Label.render_numbered_inj`**: numbered labels with different numbers
      have different texts.
    * **`methodLabel_ne_numbered`** and **`methodLabel_of_mem_fixed`**: the label of
      a method is none of these, and of the fixed symbols it can only be one of
      the two of the heap.
    * **`Listing.Of.nodup_symbols_iff`**: so only labels of methods can be in the
      way.  **`nodup_labels`** is about the labels alone. -/

namespace ClassLang

/-! ## Texts of labels -/

theorem padded_toList (n : Nat) :
    (padded n).toList = List.replicate (3 - (toString n).length) '0' ++ Nat.toDigits 10 n := by
  rw [padded, String.toList_append, String.toList_ofList]
  congr 1
  exact Nat.toList_repr

/-- Zeros in front do not change the number that is read. -/
theorem ofDigitChars_padded (n : Nat) : Nat.ofDigitChars 10 (padded n).toList 0 = n := by
  rw [padded_toList, Nat.ofDigitChars_append, Nat.ofDigitChars_replicate_zero, Nat.mul_zero,
    Nat.ofDigitChars_ten_toDigits]

theorem padded_inj {n k : Nat} (h : padded n = padded k) : n = k := by
  rw [← ofDigitChars_padded n, h, ofDigitChars_padded k]

theorem isDigit_of_mem_padded {n : Nat} {c : Char} (h : c ∈ (padded n).toList) :
    c.isDigit = true := by
  rw [padded_toList] at h
  rcases List.mem_append.mp h with h | h
  · rw [List.eq_of_mem_replicate h]
    rfl
  · exact Nat.isDigit_of_mem_toDigits (by decide) (by decide) h

theorem Label.render_numbered_inj {n k : Nat}
    (h : (Label.numbered n).render = (Label.numbered k).render) : n = k := by
  have h : ".L" ++ padded n = ".L" ++ padded k := h
  exact padded_inj ((String.append_right_inj _).mp h)

/-- Does the symbol look like a numbered label? -/
def isNumbered (symbol : String) : Bool :=
  symbol.toList.take 2 == ['.', 'L'] && (symbol.toList.drop 2).all Char.isDigit

theorem isNumbered_numbered (n : Nat) : isNumbered (Label.numbered n).render = true := by
  have htext : (Label.numbered n).render.toList = '.' :: 'L' :: (padded n).toList := by
    simp [Label.render]
  have hdigits : (padded n).toList.all Char.isDigit = true :=
    List.all_eq_true.mpr fun _ => isDigit_of_mem_padded
  rw [isNumbered, htext]
  show (['.', 'L'] == ['.', 'L'] && (padded n).toList.all Char.isDigit) = true
  rw [hdigits]
  rfl

/-- The label of a method has an underscore. -/
theorem underscore_mem_methodLabel (cls method : String) :
    '_' ∈ (methodLabel cls method).toList := by
  simp [methodLabel]

theorem methodLabel_ne_numbered (cls method : String) (n : Nat) :
    methodLabel cls method ≠ (Label.numbered n).render := by
  intro heq
  have hnumbered := isNumbered_numbered n
  rw [← heq, isNumbered, Bool.and_eq_true, beq_iff_eq, List.all_eq_true] at hnumbered
  have hmem := underscore_mem_methodLabel cls method
  rw [← List.take_append_drop 2 (methodLabel cls method).toList, hnumbered.1] at hmem
  -- it is neither in front nor a digit
  rcases List.mem_append.mp hmem with hmem | hmem
  · revert hmem
    decide
  · cases hnumbered.2 _ hmem

/-- Two methods share a label exactly if they have the same names, or if the name
    of one class goes on with an underscore and what the name of the other method
    starts with. -/
theorem methodLabel_eq_iff {c d m n : String} :
    methodLabel c m = methodLabel d n ↔ (c = d ∧ m = n) ∨
      (∃ x, d = c ++ "_" ++ x ∧ m = x ++ "_" ++ n) ∨
      ∃ x, c = d ++ "_" ++ x ∧ n = x ++ "_" ++ m := by
  -- the two readings of a text that is cut at two underscores
  have hcut : ∀ {c d m n : String} {rest : List Char}, d.toList = c.toList ++ rest →
      '_' :: m.toList = rest ++ '_' :: n.toList →
      (c = d ∧ m = n) ∨ ∃ x, d = c ++ "_" ++ x ∧ m = x ++ "_" ++ n := by
    intro c d m n rest hd hm
    cases rest with
    | nil =>
      have hcls : c = d := String.toList_inj.mp (by simpa using hd.symm)
      have hname : m = n := String.toList_inj.mp (by simpa using hm)
      exact Or.inl ⟨hcls, hname⟩
    | cons first rest =>
      obtain ⟨rfl, htail⟩ := List.cons.inj hm
      have htail : m.toList = rest ++ '_' :: n.toList := htail
      refine Or.inr ⟨String.ofList rest, String.toList_inj.mp ?_, String.toList_inj.mp ?_⟩
      · simp [hd]
      · simp [htail]
  constructor
  · intro h
    have hlist : c.toList ++ '_' :: m.toList = d.toList ++ '_' :: n.toList := by
      have := congrArg String.toList h
      simpa [methodLabel] using this
    rcases List.append_eq_append_iff.mp hlist with ⟨rest, hd, hm⟩ | ⟨rest, hc, hn⟩
    · rcases hcut hd hm with heq | hx
      · exact Or.inl heq
      · exact Or.inr (Or.inl hx)
    · rcases hcut hc hn with ⟨rfl, rfl⟩ | hx
      · exact Or.inl ⟨rfl, rfl⟩
      · exact Or.inr (Or.inr hx)
  · rintro (⟨rfl, rfl⟩ | ⟨x, rfl, rfl⟩ | ⟨x, rfl, rfl⟩) <;> simp [methodLabel, String.append_assoc]

/-- A label with names without an underscore belongs to one method. -/
theorem methodLabel_eq_iff_of_plain {c d m n : String} (hd : '_' ∉ d.toList) (hn : '_' ∉ n.toList) :
    methodLabel c m = methodLabel d n ↔ c = d ∧ m = n := by
  rw [methodLabel_eq_iff]
  constructor
  · rintro (h | ⟨x, rfl, _⟩ | ⟨x, _, rfl⟩)
    · exact h
    · exact absurd (by simp) hd
    · exact absurd (by simp) hn
  · exact Or.inl

/-- Of the fixed symbols only those of the heap look like labels of methods. -/
theorem methodLabel_of_mem_fixed {cls method : String}
    (h : methodLabel cls method ∈ Listing.fixedSymbols) :
    methodLabel cls method = heapBase ∨ methodLabel cls method = heapTop := by
  have hall : ∀ x ∈ Listing.fixedSymbols, '_' ∈ x.toList → x = heapBase ∨ x = heapTop := by
    decide
  exact hall _ h (underscore_mem_methodLabel cls method)

theorem numbered_not_mem_fixed (n : Nat) : (Label.numbered n).render ∉ Listing.fixedSymbols := by
  have hall : ∀ x ∈ Listing.fixedSymbols, isNumbered x = false := by decide
  intro h
  have hfalse := hall _ h
  rw [isNumbered_numbered] at hfalse
  cases hfalse

/-! ## Symbols that are defined twice -/

theorem Program.exists_of_mem_labels {p : Program} {x : String} (h : x ∈ p.labels) :
    ∃ cls method, x = methodLabel cls method := by
  obtain ⟨c, _, hx⟩ := List.mem_flatMap.mp h
  obtain ⟨m, _, rfl⟩ := List.mem_map.mp hx
  exact ⟨c.name, m.name, rfl⟩

namespace Listing.Of

variable {p : Program} {t : Listing} {n n' : Nat}

/-- A numbered label is defined as often as its number is among the labels. -/
theorem count_numbered (h : t.Of p n n') (k : Nat) :
    (t.lines.filterMap Line.defines).count (Label.numbered k).render =
      (numbers t.lines).count k := by
  have hlabels : p.labels.count (Label.numbered k).render = 0 := by
    rw [List.count_eq_zero]
    intro hmem
    obtain ⟨cls, method, heq⟩ := Program.exists_of_mem_labels hmem
    exact methodLabel_ne_numbered cls method k heq.symm
  rw [h.symbols.count_eq, List.count_append, List.count_append,
    List.count_eq_zero.mpr (numbered_not_mem_fixed k), hlabels, Nat.zero_add, Nat.zero_add]
  exact List.count_map_of_injective _ _ (fun _ _ => Label.render_numbered_inj) k

/-- Beside the memory of the heap, a listing defines every symbol once exactly if
    the labels of methods are distinct. -/
theorem nodup_rest_iff (h : t.Of p n n') :
    ([printFormat, printRoutine, startRoutine] ++
        (p.labels ++ (numbers t.lines).map fun k => (Label.numbered k).render)).Nodup ↔
      p.labels.Nodup := by
  have hnumbers : ((numbers t.lines).map fun k => (Label.numbered k).render).Nodup := by
    refine List.Nodup.map (fun _ _ => Label.render_numbered_inj) ?_
    exact h.numbered.once.nodup_iff.mpr List.nodup_range'
  have hfixed : [printFormat, printRoutine, startRoutine].Nodup := by decide
  have hplain : ∀ x ∈ [printFormat, printRoutine, startRoutine], '_' ∉ x.toList := by decide
  rw [List.nodup_append, List.nodup_append]
  constructor
  · rintro ⟨_, ⟨hlabels, _, _⟩, _⟩
    exact hlabels
  · intro hlabels
    refine ⟨hfixed, ⟨hlabels, hnumbers, ?_⟩, ?_⟩
    · intro x hx y hy heq
      obtain ⟨cls, method, rfl⟩ := Program.exists_of_mem_labels hx
      obtain ⟨k, _, rfl⟩ := List.mem_map.mp hy
      exact methodLabel_ne_numbered cls method k heq
    · rintro x hx y hy rfl
      rcases List.mem_append.mp hy with hy | hy
      · obtain ⟨cls, method, rfl⟩ := Program.exists_of_mem_labels hy
        exact hplain _ hx (underscore_mem_methodLabel cls method)
      · obtain ⟨k, _, rfl⟩ := List.mem_map.mp hy
        exact numbered_not_mem_fixed k (List.mem_cons_of_mem _ (List.mem_cons_of_mem _ hx))

/-- A listing defines every symbol once exactly if the labels of methods are
    distinct and none of them is a symbol of the heap. -/
theorem nodup_symbols_iff (h : t.Of p n n') :
    (t.lines.filterMap Line.defines).Nodup ↔
      p.labels.Nodup ∧ heapBase ∉ p.labels ∧ heapTop ∉ p.labels := by
  have hsplit : ∀ rest : List String, fixedSymbols ++ rest =
      [heapBase, heapTop] ++ ([printFormat, printRoutine, startRoutine] ++ rest) := fun _ => rfl
  have hheap : [heapBase, heapTop].Nodup := by decide
  have hfixed : ∀ x ∈ [heapBase, heapTop], x ∉ [printFormat, printRoutine, startRoutine] := by
    decide
  rw [h.symbols.nodup_iff, hsplit, List.nodup_append, h.nodup_rest_iff]
  constructor
  · rintro ⟨_, hlabels, hapart⟩
    refine ⟨hlabels, fun hmem => ?_, fun hmem => ?_⟩
    · exact hapart heapBase (by decide) heapBase
        (List.mem_append_right _ (List.mem_append_left _ hmem)) rfl
    · exact hapart heapTop (by decide) heapTop
        (List.mem_append_right _ (List.mem_append_left _ hmem)) rfl
  · rintro ⟨hlabels, hbase, htop⟩
    refine ⟨hheap, hlabels, ?_⟩
    rintro x hx y hy rfl
    rcases List.mem_append.mp hy with hy | hy
    · exact hfixed x hx hy
    · rcases List.mem_append.mp hy with hy | hy
      · rcases List.mem_pair.mp hx with rfl | rfl
        · exact hbase hy
        · exact htop hy
      · obtain ⟨k, _, rfl⟩ := List.mem_map.mp hy
        exact numbered_not_mem_fixed k (List.mem_append_left [_, _, _] hx)

/-- No two labels of a listing are the same if those of methods are distinct.  A
    method may have the name of a symbol of the heap, which is no label. -/
theorem nodup_labels (h : t.Of p n n') (hlabels : p.labels.Nodup) :
    (t.lines.filterMap Line.label?).Nodup := by
  -- the symbols of the heap stand first, and behind them only labels are defined
  have hsymbols : (t.lines.filterMap Line.defines) =
      [heapBase, heapTop] ++ (t.lines.drop 4).filterMap Line.defines := rfl
  have hnames : t.lines.filterMap Line.label? = (t.lines.drop 4).filterMap Line.label? := rfl
  have hperm := h.symbols
  rw [hsymbols] at hperm
  have hrest := (List.perm_append_left_iff [heapBase, heapTop]).mp hperm
  have hsub : ∀ code : List Line,
      (code.filterMap Line.label?).Sublist (code.filterMap Line.defines) := by
    intro code
    induction code with
    | nil => exact .slnil
    | cons l code ih =>
      cases l with
      | label l => exact ih.cons_cons _
      | instr i => exact ih
      | comment text => exact ih
      | directive d =>
        cases d with
        | common symbol size alignment => exact ih.cons _
        | _ => exact ih
  rw [hnames]
  exact (hrest.nodup_iff.mpr (h.nodup_rest_iff.mpr hlabels)).sublist (hsub _)

end Listing.Of

end ClassLang
