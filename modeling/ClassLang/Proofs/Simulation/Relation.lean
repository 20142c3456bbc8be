import ClassLang.Proofs.Layout.Frames
import ClassLang.Proofs.Layout.Heap
import ClassLang.Proofs.Machine.Memory
import ClassLang.Proofs.Meaning.Typed

/-! # Machine states for stores

    How the state of the machine stands for what a program works on.

    * **`Machine.Shows`**: a word stands for a value.
    * **`Machine.Mirrors`**: heap and output stand for a store.
    * **`Mirrors.of_same`**: what happens on the stack alone keeps this.
    * **`Mirrors.set`**, **`copy`**, **`make`** and **`print`** are the other
      changes, one for each operation on stores. -/

namespace ClassLang

namespace Machine

/-! ## Values -/

/-- The word stands for the value: a number for itself, a truth value as 0 or
    1, and a reference is the address of its object. -/
def Shows (M : Machine) (known : Known) (roots : List String) : Value → BitVec 32 → Prop
  | .int a, w => w = a
  | .bool b, w => w = if b then 1 else 0
  | .nothing, w => w = 0
  | .object r, w => ∃ u a, known.Lies roots r u a ∧ w = M.word a

/-- The heap and the output stand for the store, when `before` was already
    printed at the start. -/
structure Mirrors (M : Machine) (known : Known) (before : List Int) (σ : Store) (s : State) :
    Prop where
  cells : ∀ r u a v, known.Lies σ.roots r u a → (∀ c, u ≠ .object c) →
    (σ.cells r).value? u = some v → M.Shows known σ.roots v (s.memory (M.word a))
  top : s.memory (M.symbol heapTop) = M.word (known.roomOf σ.roots)
  output : s.output = before ++ σ.printed
  fits : M.heap.low + known.roomOf σ.roots ≤ M.heap.high

variable {M : Machine} {known : Known} {roots roots' : List String} {before : List Int}
  {σ : Store} {s s' t : State} {v : Value} {w : BitVec 32} {r : Ref} {u : Ty} {a : Int}

theorem Shows.mono (h : M.Shows known roots v w) (hr : roots <+: roots') :
    M.Shows known roots' v w := by
  cases v with
  | object r =>
    obtain ⟨u, a, hl, hw⟩ := h
    exact ⟨u, a, hl.mono hr, hw⟩
  | _ => exact h

/-- Zero stands for the value of a field that was not assigned to. -/
theorem shows_zero (hu : ∀ c, u ≠ .object c) : M.Shows known roots u.zero 0 := by
  cases u with
  | object c => exact absurd rfl (hu c)
  | _ => exact rfl

/-! ## Words of the heap -/

/-- A field lies at a word of the heap. -/
theorem Mirrors.hasWord (hk : known.Regular) (h : M.Mirrors known before σ s)
    (hl : known.Lies σ.roots r u a) (hu : ∀ c, u ≠ .object c) : M.HasWord a := by
  obtain ⟨h0, hend, hdvd⟩ := hl.bounds hk
  have hfits := h.fits
  rw [Known.room_eq_four hu] at hend
  exact ⟨h0, hdvd, by omega⟩

/-- The words of an object are words of the heap. -/
theorem Mirrors.hasWord_object (hk : known.Regular) (h : M.Mirrors known before σ s) {c : String}
    (hl : known.Lies σ.roots r (.object c) a) {i : Nat} (hi : 4 * (i : Int) < known.objectSize c) :
    M.HasWord (a + 4 * i) := by
  obtain ⟨h0, hend, hdvd⟩ := hl.bounds hk
  obtain ⟨j, hj⟩ := known.objectSize_dvd c
  have hfits := h.fits
  rw [Known.room_object] at hend
  exact ⟨by omega, Int.dvd_add hdvd ⟨i, rfl⟩, by omega⟩

/-! ## What happens on the stack -/

theorem Mirrors.of_same (hk : known.Regular) (h : M.Mirrors known before σ s)
    (hs : M.SameHeap s s') : M.Mirrors known before σ s' where
  cells := by
    intro r u a v hl hu hv
    rw [hs.words a (h.hasWord hk hl hu)]
    exact h.cells r u a v hl hu hv
  top := hs.top.trans h.top
  output := hs.output.trans h.output
  fits := h.fits

/-! ## Fields -/

/-- A word goes to a field. -/
theorem Mirrors.set (hM : M.WellPlaced) (hk : known.Regular) (h : M.Mirrors known before σ s)
    (hl : known.Lies σ.roots r u a) (hu : ∀ c, u ≠ .object c)
    (hv : M.Shows known σ.roots v w) (hword : s'.memory (M.word a) = w)
    (hmem : ∀ x, x ≠ M.word a → s'.memory x = s.memory x) (hout : s'.output = s.output) :
    M.Mirrors known before (σ.set r v) s' where
  cells := by
    intro r' u' a' v' hl' hu' hv'
    have hl' : known.Lies σ.roots r' u' a' := hl'
    have ha := h.hasWord hk hl hu
    have ha' := h.hasWord hk hl' hu'
    show M.Shows known σ.roots _ _
    simp only [Store.set] at hv'
    by_cases heq : r' = r
    · subst heq
      obtain ⟨rfl, rfl⟩ := hl.unique hk hl'
      rw [if_pos rfl] at hv'
      cases hv'
      rw [hword]
      exact hv
    · have hne := hl.ne_of_fields hk hu hl' hu' heq
      rw [if_neg heq] at hv'
      rw [hmem _ fun haddr => hne ((word_inj hM ha' ha).mp haddr)]
      exact h.cells r' u' a' v' hl' hu' hv'
  top := by
    rw [hmem _ (symbol_ne_word hM (by simp) (h.hasWord hk hl hu))]
    exact h.top
  output := hout.trans h.output
  fits := h.fits

/-- The words of an object go to a field that holds an object. -/
theorem Mirrors.copy (hM : M.WellPlaced) (hk : known.Regular) (h : M.Mirrors known before σ s)
    {source target : Ref} {c d : String} {b : Int}
    (hs : known.Lies σ.roots source (.object d) b) (hi : known.Inherits d c)
    (ht : known.Lies σ.roots target (.object c) a)
    (hcopied : ∀ i : Nat, 4 * (i : Int) < known.objectSize c →
      s'.memory (M.word (a + 4 * i)) = s.memory (M.word (b + 4 * i)))
    (hmem : ∀ x, (∀ i : Nat, 4 * (i : Int) < known.objectSize c → x ≠ M.word (a + 4 * i)) →
      s'.memory x = s.memory x) (hout : s'.output = s.output) :
    M.Mirrors known before (σ.copy source target) s' where
  cells := by
    intro r' u' a' v hl' hu' hv
    have hl' : known.Lies σ.roots r' u' a' := hl'
    have hword := h.hasWord hk hl' hu'
    show M.Shows known σ.roots _ _
    by_cases hin : r'.root = target.root ∧ target.path <+: r'.path
    · obtain ⟨hroot, q, hq⟩ := hin
      have heq : r' = ⟨target.root, target.path ++ q⟩ := by
        rw [hq, ← hroot]
      rw [heq] at hl'
      obtain ⟨k, hleads, rfl⟩ := ht.split hk hl'
      have hq0 : q ≠ [] := by
        rintro rfl
        cases hleads
        exact hu' c rfl
      have hbounds := hleads.bounds hk
      obtain ⟨j, hj⟩ := hleads.dvd hk
      rw [Known.room_eq_four hu', Known.room_object] at hbounds
      have hi4 : (4 : Int) * (j.toNat : Nat) = k := by omega
      have hcell := hcopied j.toNat (by omega)
      rw [hi4] at hcell
      have hsource := hs.append (hleads.inherited hk hi hq0)
      have hfrom : (σ.copy source target).cells r' =
          σ.cells ⟨source.root, source.path ++ q⟩ := by
        have hne : target.path ++ q ≠ target.path := by simpa using hq0
        rw [heq]
        simp [Store.copy, hne]
      rw [hfrom] at hv
      rw [hcell]
      exact h.cells _ u' _ v hsource hu' hv
    · have hcell : (σ.copy source target).cells r' = σ.cells r' := by
        simp only [Store.copy]
        rw [if_neg fun hcond => hin ⟨hcond.1, hcond.2.1⟩]
      have happart := ht.apart_of_field hk hl' hu' hin
      rw [Known.room_eq_four hu', Known.room_object] at happart
      rw [hcell] at hv
      rw [hmem]
      · exact h.cells r' u' a' v hl' hu' hv
      · intro i hlt haddr
        have hobject := h.hasWord_object hk ht hlt
        have := (word_inj hM hword hobject).mp haddr
        omega
  top := by
    rw [hmem _ fun i hlt => symbol_ne_word hM (by simp) (h.hasWord_object hk ht hlt)]
    exact h.top
  output := hout.trans h.output
  fits := h.fits

/-! ## Objects and output -/

/-- A new object is put behind the others. -/
theorem Mirrors.make (hk : known.Regular) (h : M.Mirrors known before σ s)
    (hσ : σ.Typed known) (cls : String)
    (hfits : M.heap.low + known.roomOf (σ.roots ++ [cls]) ≤ M.heap.high)
    (hzero : ∀ i : Nat, 4 * (i : Int) < known.objectSize cls →
      s'.memory (M.word (known.roomOf σ.roots + 4 * i)) = 0)
    (hmem : ∀ k, M.HasWord k → k < known.roomOf σ.roots →
      s'.memory (M.word k) = s.memory (M.word k))
    (htop : s'.memory (M.symbol heapTop) = M.word (known.roomOf (σ.roots ++ [cls])))
    (hout : s'.output = s.output) : M.Mirrors known before (σ.make cls).2 s' where
  cells := by
    intro r u a v hl hu hv
    have hl : known.Lies (σ.roots ++ [cls]) r u a := hl
    have hv : (σ.cells r).value? u = some v := hv
    show M.Shows known (σ.roots ++ [cls]) v _
    by_cases hlt : r.root < σ.roots.length
    · have hold := hl.of_append hlt
      have hbounds := hold.bounds hk
      rw [Known.room_eq_four hu] at hbounds
      rw [hmem a (h.hasWord hk hold hu) (by omega)]
      exact (h.cells r u a v hold hu hv).mono (List.prefix_append _ _)
    · -- the fields of the new object
      have hcleared : σ.cells r = .cleared := Decidable.byContradiction fun hc => hlt (hσ.made r hc)
      rw [hcleared] at hv
      cases hv
      obtain ⟨root, k, hroot, hleads, rfl⟩ := hl
      have hlen := (List.getElem?_eq_some_iff.mp hroot).1
      rw [List.length_append, List.length_singleton] at hlen
      have hlast : r.root = σ.roots.length := by omega
      rw [hlast, List.getElem?_concat_length] at hroot
      cases hroot
      have hbounds := hleads.bounds hk
      obtain ⟨j, hj⟩ := hleads.dvd hk
      rw [Known.room_eq_four hu, Known.room_object] at hbounds
      have hi4 : k = (4 : Int) * (j.toNat : Nat) := by omega
      rw [hlast, List.take_left, hi4, hzero j.toNat (by omega)]
      exact shows_zero hu
  top := htop
  output := hout.trans h.output
  fits := hfits

/-- A number is printed. -/
theorem Mirrors.print (hk : known.Regular) (h : M.Mirrors known before σ s) {n : Int}
    (hwords : ∀ k, M.HasWord k → s'.memory (M.word k) = s.memory (M.word k))
    (htop : s'.memory (M.symbol heapTop) = s.memory (M.symbol heapTop))
    (hout : s'.output = s.output ++ [n]) :
    M.Mirrors known before { σ with printed := σ.printed ++ [n] } s' where
  cells := by
    intro r u a v hl hu hv
    have hl : known.Lies σ.roots r u a := hl
    rw [hwords a (h.hasWord hk hl hu)]
    exact h.cells r u a v hl hu hv
  top := htop.trans h.top
  output := by rw [hout, h.output, List.append_assoc]
  fits := h.fits

end Machine

end ClassLang
