import ClassLang.Proofs.Scopes.History
import Mathlib.Data.List.Sort

/-! # How scopes lie in each other

    Scopes are numbered as they are opened, and the current one is always the
    last one or a scope around it.

    * **`path_around`**: the scopes around a scope are those on its path.
    * **`Nested`** is what this makes of a tree, and **`nested_after`** says that
      any calls lead to such a tree.
    * **`Nested.linesFrom_eq`**: a walk from a scope meets it and the scopes inside it
      in the order of their numbers.
    * **`Nested.around_eq_of_depths`**: how deep scopes lie decides where. -/

namespace ClassLang.ScopeTree

variable {t u : ScopeTree} {calls : List Call} {call : Call} {n m p : Nat}

/-! ## The scopes around a scope -/

theorem around_of_size_le (h : t.scopes.size ≤ n) : t.around n = [] := by
  simp [around, scope?, h]

theorem lt_size_of_around (h : t.around n ≠ []) : n < t.scopes.size := by
  by_contra hle
  exact h (around_of_size_le (Nat.not_lt.mp hle))

/-- The scopes around a new scope are the current one and those around it. -/
theorem around_openScope_size (t : ScopeTree) :
    t.openScope.around t.scopes.size = t.current :: t.enclosing := by
  simp [around, scope?, openScope]

theorem size_openScope (t : ScopeTree) : t.openScope.scopes.size = t.scopes.size + 1 := by
  simp [openScope]

theorem around_openScope (h : n < t.scopes.size) : t.openScope.around n = t.around n := by
  simp [around, scope?, openScope, Array.getElem?_push, Nat.ne_of_lt h]

/-- A change that opens no scope moves none, and no other scopes are open. -/
theorem Change.opened_or_kept (h : Change t call u) : call = .openScope ∧ u = t.openScope ∨
    u.scopes.size = t.scopes.size ∧ u.around = t.around ∧
      u.current :: u.enclosing ⊆ t.current :: t.enclosing := by
  cases h with
  | none => exact .inr ⟨rfl, rfl, List.Subset.refl _⟩
  | opened => exact .inl ⟨rfl, rfl⟩
  | closed hclose =>
    obtain ⟨parent, outer, henclosing, rfl⟩ := eq_of_closeScope hclose
    rw [henclosing]
    exact .inr ⟨rfl, rfl, List.subset_cons_self _ _⟩
  | bound _ hinsert =>
    rw [(eq_of_insertIn hinsert).2]
    refine .inr ⟨Array.size_modify, ?_, List.Subset.refl _⟩
    funext n
    simp only [around, scope?, Array.getElem?_modify]
    split
    · cases t.scopes[n]? <;> rfl
    · rfl

/-- The scopes around a scope are those on its path: by induction on the calls. -/
theorem path_around (calls : List Call) (h : n < (after calls).scopes.size) :
    Path calls n (n :: (after calls).around n) := by
  induction calls using List.reverseRecOn with
  | nil =>
    obtain rfl : n = 0 := Nat.lt_one_iff.mp h
    exact .root
  | append_singleton calls call ih =>
    rw [after_concat] at h ⊢
    rcases (change_run (after calls) call).opened_or_kept with ⟨rfl, hopened⟩ | ⟨hsize, haround, -⟩
    · rw [hopened, size_openScope] at h
      rw [hopened]
      rcases Nat.lt_succ_iff_lt_or_eq.mp h with hold | rfl
      · rw [around_openScope hold]
        exact (ih hold).append _
      · rw [around_openScope_size]
        exact .inner ⟨calls, [], rfl, rfl, rfl⟩ ((path_after calls).append _)
    · rw [haround]
      exact (ih (hsize ▸ h)).append _

/-- The scope in which one was opened is the innermost one around it. -/
theorem openedIn_iff : OpenedIn calls n p ↔ ((after calls).around n).head? = some p := by
  constructor
  · intro h
    obtain ⟨outer, haround⟩ := (path_around calls h.bounds.2).eq_of_opened h
    rw [haround, List.head?_cons]
  · intro h
    obtain ⟨outer, haround⟩ := List.head?_eq_some_iff.mp h
    have hn : n < (after calls).scopes.size := lt_size_of_around (by simp [haround])
    have hpath := path_around calls hn
    rw [haround] at hpath
    exact hpath.opened.1

/-- A scope is opened in an earlier one. -/
theorem OpenedIn.lt (h : OpenedIn calls n p) : p < n := by
  obtain ⟨before, rest, rfl, rfl, rfl⟩ := h
  exact (path_after before).lt_size _ List.mem_cons_self

/-- The scopes there are: the root, and those that were opened. -/
theorem lt_size_iff : n < (after calls).scopes.size ↔ n = 0 ∨ ∃ p, OpenedIn calls n p := by
  constructor
  · intro h
    have hpath := path_around calls h
    generalize (after calls).around n = outer at hpath
    cases hpath with
    | root => exact .inl rfl
    | inner hopened => exact .inr ⟨_, hopened⟩
  · rintro (rfl | ⟨p, hopened⟩)
    · exact size_after_le [] calls
    · exact hopened.bounds.2

/-! ## Later scopes -/

/-- A scope that is opened while others are open lies in them. -/
structure Ordered (t : ScopeTree) : Prop where
  /-- What was opened behind a scope that is still open lies in it. -/
  behind : ∀ {p m}, p ∈ t.current :: t.enclosing → p < m → m < t.scopes.size → p ∈ t.around m
  /-- Between a scope and one inside it there are only scopes inside it. -/
  between : ∀ {n m p}, p ∈ t.around n → p < m → m ≤ n → p ∈ t.around m

theorem Ordered.openScope (h : t.Ordered) : t.openScope.Ordered where
  behind := by
    intro p m hp hlater hm
    rw [size_openScope] at hm
    rcases List.mem_cons.mp hp with rfl | hp
    · -- no scope is opened behind the new one yet
      exact absurd hlater (Nat.not_lt.mpr (Nat.le_of_lt_succ hm))
    · rcases Nat.lt_succ_iff_lt_or_eq.mp hm with hold | rfl
      · rw [around_openScope hold]
        exact h.behind hp hlater hold
      · rw [around_openScope_size]
        exact hp
  between := by
    intro n m p hp hlater hm
    have hn := lt_size_of_around (List.ne_nil_of_mem hp)
    rw [size_openScope] at hn
    rcases Nat.lt_succ_iff_lt_or_eq.mp hn with hold | rfl
    · rw [around_openScope hold] at hp
      rw [around_openScope (Nat.lt_of_le_of_lt hm hold)]
      exact h.between hp hlater hm
    · rcases Nat.lt_or_eq_of_le hm with hm | rfl
      · -- what is around the new scope is still open
        rw [around_openScope_size] at hp
        rw [around_openScope hm]
        exact h.behind hp hlater hm
      · exact hp

theorem Change.ordered (h : Change t call u) (ht : t.Ordered) : u.Ordered := by
  rcases h.opened_or_kept with ⟨-, rfl⟩ | ⟨hsize, haround, hsubset⟩
  · exact ht.openScope
  · constructor
    · intro p m hp hlater hm
      rw [haround]
      exact ht.behind (hsubset hp) hlater (hsize ▸ hm)
    · intro n m p hp hlater hm
      rw [haround] at hp ⊢
      exact ht.between hp hlater hm

theorem ordered_after (calls : List Call) : (after calls).Ordered := by
  refine after_append_of_change (P := Ordered) (fun h => h.ordered) [] calls ⟨?_, ?_⟩
  · intro p m _ hlater hm
    exact absurd (Nat.zero_lt_of_lt hlater) (Nat.not_lt.mpr (Nat.le_of_lt_succ hm))
  · intro n m p hp hlater hm
    have hn : n < 1 := lt_size_of_around (List.ne_nil_of_mem hp)
    omega

/-! ## Nested scopes -/

/-- The scopes of a tree lie in each other in the order of their numbers. -/
structure Nested (t : ScopeTree) : Prop where
  pos : 0 < t.scopes.size
  root : t.around 0 = []
  /-- Around any other scope are an earlier one and the scopes around that. -/
  inner : ∀ n, 0 < n → n < t.scopes.size → ∃ p < n, t.around n = p :: t.around p
  /-- Between a scope and one inside it there are only scopes inside it. -/
  between : ∀ {n m p}, p ∈ t.around n → p < m → m ≤ n → p ∈ t.around m

/-- Any calls lead to nested scopes. -/
theorem nested_after (calls : List Call) : (after calls).Nested where
  pos := size_after_le [] calls
  root := by
    have hpath := path_around calls (size_after_le [] calls)
    exact (List.cons.inj (hpath.unique .root)).2
  inner := by
    intro n hpos hn
    cases haround : (after calls).around n with
    | nil =>
      have hpath := path_around calls hn
      rw [haround] at hpath
      exact absurd hpath.eq_root (Nat.ne_of_gt hpos)
    | cons p outer =>
      have hopened : OpenedIn calls n p := openedIn_iff.mpr (by rw [haround, List.head?_cons])
      have hpath := path_around calls hn
      rw [haround] at hpath
      refine ⟨p, hopened.lt, ?_⟩
      exact hpath.opened.2.unique (path_around calls (Nat.lt_trans hopened.lt hn))
  between := (ordered_after calls).between

namespace Nested

variable (h : t.Nested)
include h

/-- A scope has nothing around it, or an earlier scope and what is around that. -/
theorem around_cases (n : Nat) :
    t.around n = [] ∨ n < t.scopes.size ∧ ∃ p < n, t.around n = p :: t.around p := by
  rcases Nat.eq_zero_or_pos n with rfl | hpos
  · exact .inl h.root
  · rcases Nat.lt_or_ge n t.scopes.size with hn | hn
    · exact .inr ⟨hn, h.inner n hpos hn⟩
    · exact .inl (around_of_size_le hn)

/-- What is around a scope inside ends with that scope and what is around it. -/
theorem suffix_of_mem (hp : p ∈ t.around n) : p :: t.around p <:+ t.around n := by
  induction n using Nat.strong_induction_on with
  | _ n ih =>
    rcases h.around_cases n with hnil | ⟨-, q, hq, haround⟩
    · rw [hnil] at hp
      cases hp
    · rw [haround] at hp ⊢
      rcases List.mem_cons.mp hp with rfl | hp
      · exact List.suffix_refl _
      · exact (ih q hq hp).trans (List.suffix_cons _ _)

theorem lt_of_mem (hp : p ∈ t.around n) : p < n := by
  induction n using Nat.strong_induction_on with
  | _ n ih =>
    rcases h.around_cases n with hnil | ⟨-, q, hq, haround⟩
    · rw [hnil] at hp
      cases hp
    · rw [haround] at hp
      rcases List.mem_cons.mp hp with rfl | hp
      · exact hq
      · exact Nat.lt_trans (ih q hq hp) hq

theorem mem_trans (hp : p ∈ t.around m) (hm : m ∈ t.around n) : p ∈ t.around n :=
  (h.suffix_of_mem hm).subset (List.mem_cons_of_mem _ hp)

theorem around_inside (hm : m ∈ t.inside n) : t.around m = n :: t.around n := by
  obtain ⟨-, -, hhead⟩ := mem_inside.mp hm
  rcases h.around_cases m with hnil | ⟨-, q, -, haround⟩
  · rw [hnil] at hhead
    cases hhead
  · rw [haround] at hhead
    cases hhead
    exact haround

/-- Below a scope are the scopes that were opened in it and what is below them. -/
theorem exists_inside (hn : n ∈ t.around m) : ∃ c ∈ t.inside n, m = c ∨ c ∈ t.around m := by
  induction m using Nat.strong_induction_on with
  | _ m ih =>
    rcases h.around_cases m with hnil | ⟨hm, q, hq, haround⟩
    · rw [hnil] at hn
      cases hn
    · rw [haround] at hn ⊢
      rcases List.mem_cons.mp hn with rfl | hn
      · exact ⟨m, mem_inside.mpr ⟨hm, hq, by rw [haround, List.head?_cons]⟩, .inl rfl⟩
      · obtain ⟨c, hc, rfl | hmem⟩ := ih q hq hn
        · exact ⟨q, hc, .inr List.mem_cons_self⟩
        · exact ⟨c, hc, .inr (List.mem_cons_of_mem _ hmem)⟩

end Nested

/-! ## Walks -/

/-- A scope and the scopes below it, in the order of their numbers. -/
def below (t : ScopeTree) (n : Nat) : List Nat :=
  (List.range t.scopes.size).filter fun m => m = n ∨ n ∈ t.around m

theorem mem_below : m ∈ t.below n ↔ m < t.scopes.size ∧ (m = n ∨ n ∈ t.around m) := by
  simp [below]

theorem below_pairwise (t : ScopeTree) (n : Nat) : (t.below n).Pairwise (· < ·) :=
  List.pairwise_lt_range.filter _

namespace Nested

variable (h : t.Nested)
include h

theorem le_of_mem_below (hm : m ∈ t.below n) : n ≤ m := by
  rcases (mem_below.mp hm).2 with rfl | hmem
  · exact Nat.le_refl _
  · exact Nat.le_of_lt (h.lt_of_mem hmem)

/-- Of two scopes opened in the same one, all that is below the first is in front
    of the second: it was closed by then. -/
theorem lt_of_mem_below {c d : Nat} (hc : c ∈ t.inside n) (hd : d ∈ t.inside n) (hlt : c < d)
    (hm : m ∈ t.below c) : m < d := by
  by_contra hle
  rw [Nat.not_lt] at hle
  rcases (mem_below.mp hm).2 with rfl | hmem
  · exact absurd hlt (Nat.not_lt.mpr hle)
  · have haround := h.between hmem hlt hle
    rw [h.around_inside hd] at haround
    have hlater := (mem_inside.mp hc).2.1
    rcases List.mem_cons.mp haround with rfl | haround
    · exact Nat.lt_irrefl _ hlater
    · exact Nat.lt_irrefl _ (Nat.lt_trans hlater (h.lt_of_mem haround))

/-- A scope comes in front of the scopes opened in it, each with all below it. -/
theorem below_eq (hn : n < t.scopes.size) : t.below n = n :: (t.inside n).flatMap t.below := by
  -- both sides ascend, so it is enough that they have the same members
  refine (t.below_pairwise n).eq_of_mem_iff (List.pairwise_cons.mpr ⟨?_, ?_⟩) ?_
  · intro m hm
    obtain ⟨c, hc, hm⟩ := List.mem_flatMap.mp hm
    exact Nat.lt_of_lt_of_le (mem_inside.mp hc).2.1 (h.le_of_mem_below hm)
  · refine List.pairwise_flatMap.mpr ⟨fun c _ => t.below_pairwise c, ?_⟩
    have hinside : (t.inside n).Pairwise (· < ·) := List.pairwise_lt_range.filter _
    refine hinside.imp_of_mem fun {c d} hc hd hlt x hx y hy => ?_
    exact Nat.lt_of_lt_of_le (h.lt_of_mem_below hc hd hlt hx) (h.le_of_mem_below hy)
  · intro m
    rw [List.mem_cons, List.mem_flatMap, mem_below]
    constructor
    · rintro ⟨hm, rfl | hmem⟩
      · exact .inl rfl
      · obtain ⟨c, hc, hbelow⟩ := h.exists_inside hmem
        exact .inr ⟨c, hc, mem_below.mpr ⟨hm, hbelow⟩⟩
    · rintro (rfl | ⟨c, hc, hbelow⟩)
      · exact ⟨hn, .inl rfl⟩
      · have hmem : n ∈ t.around c := by simp [h.around_inside hc]
        obtain ⟨hm, rfl | hbelow⟩ := mem_below.mp hbelow
        · exact ⟨hm, .inr hmem⟩
        · exact ⟨hm, .inr (h.mem_trans hmem hbelow)⟩

/-- All scopes are below the root. -/
theorem below_root : t.below 0 = List.range t.scopes.size := by
  refine List.filter_eq_self.mpr fun m hm => ?_
  rw [decide_eq_true_eq]
  induction m using Nat.strong_induction_on with
  | _ m ih =>
    rcases Nat.eq_zero_or_pos m with rfl | hpos
    · exact .inl rfl
    · have hsize := List.mem_range.mp hm
      obtain ⟨p, hp, haround⟩ := h.inner m hpos hsize
      rw [haround]
      rcases ih p hp (List.mem_range.mpr (Nat.lt_trans hp hsize)) with rfl | hmem
      · exact .inr List.mem_cons_self
      · exact .inr (List.mem_cons_of_mem _ hmem)

/-- A walk from a scope lists it and all scopes below it in the order of their
    numbers, each as deep as there are scopes around it. -/
theorem linesFrom_eq (hn : n < t.scopes.size) : t.linesFrom (t.around n).length n =
    (t.below n).flatMap fun m => t.scopeLines (t.around m).length m := by
  -- by induction on the number of scopes opened later
  induction hk : t.scopes.size - n using Nat.strong_induction_on generalizing n with
  | _ k ih =>
    have hinner : ∀ c ∈ t.inside n, t.linesFrom ((t.around n).length + 1) c =
        (t.below c).flatMap fun m => t.scopeLines (t.around m).length m := by
      intro c hc
      obtain ⟨hsize, hlater, -⟩ := mem_inside.mp hc
      have hdepth : (t.around c).length = (t.around n).length + 1 := by
        rw [h.around_inside hc, List.length_cons]
      rw [← hdepth]
      exact ih _ (by omega) hsize rfl
    rw [ScopeTree.linesFrom_eq, h.below_eq hn, List.flatMap_cons, List.flatMap_congr hinner,
      List.flatMap_assoc]

/-- The whole listing goes through the scopes by their numbers. -/
theorem linesFrom_root : t.linesFrom 0 0 =
    (List.range t.scopes.size).flatMap fun m => t.scopeLines (t.around m).length m := by
  have hlines := h.linesFrom_eq h.pos
  rwa [h.root, h.below_root] at hlines

/-! ## Depths -/

/-- A scope lies one step deeper than the one in which it was opened, and no scope
    between these two lies less deep. -/
theorem depth_between (hp : (t.around n).head? = some p) :
    (t.around n).length = (t.around p).length + 1 ∧
      ∀ m, p < m → m < n → (t.around n).length ≤ (t.around m).length := by
  obtain hnil | ⟨-, q, -, haround⟩ := h.around_cases n
  · rw [hnil] at hp
    cases hp
  · rw [haround] at hp ⊢
    cases hp
    refine ⟨rfl, fun m hlater hm => ?_⟩
    have hmem : p ∈ t.around m :=
      h.between (by rw [haround]; exact List.mem_cons_self) hlater (Nat.le_of_lt hm)
    exact (h.suffix_of_mem hmem).length_le

/-- Two trees nest their scopes in the same way if each scope was opened in the
    same one. -/
theorem around_eq_of_heads (h' : u.Nested)
    (hhead : ∀ n, (t.around n).head? = (u.around n).head?) : t.around = u.around := by
  funext n
  induction n using Nat.strong_induction_on with
  | _ n ih =>
    have heq := hhead n
    rcases h.around_cases n with hnil | ⟨-, p, hp, haround⟩
    · rw [hnil] at heq
      rw [hnil, List.head?_eq_none_iff.mp heq.symm]
    · rcases h'.around_cases n with hnil' | ⟨-, q, -, haround'⟩
      · rw [haround, hnil'] at heq
        cases heq
      · rw [haround, haround'] at heq
        cases heq
        rw [haround, haround', ih p hp]

/-- Of two trees with equally deep scopes, the second has opened none in a later
    scope than the first. -/
theorem head_le_of_depths (h' : u.Nested)
    (hdepth : ∀ m, (t.around m).length = (u.around m).length) {q : Nat}
    (hp : (t.around n).head? = some p) (hq : (u.around n).head? = some q) : q ≤ p := by
  by_contra hlt
  rw [Nat.not_le] at hlt
  -- otherwise `q` lies between `p` and `n`, and so it is as deep as `n`
  have hdeeper := (h'.depth_between hq).1
  have hqn : q < n := h'.lt_of_mem (List.mem_of_mem_head? hq)
  have hle := (h.depth_between hp).2 q hlt hqn
  rw [hdepth, hdepth] at hle
  omega

/-- Two trees whose scopes are equally deep nest them in the same way: a scope was
    opened in the last one before it that is less deep. -/
theorem around_eq_of_depths (h' : u.Nested)
    (hdepth : ∀ m, (t.around m).length = (u.around m).length) : t.around = u.around := by
  refine h.around_eq_of_heads h' fun n => ?_
  cases hp : (t.around n).head? with
  | none =>
    have hlength := hdepth n
    rw [List.head?_eq_none_iff.mp hp, List.length_nil] at hlength
    rw [List.eq_nil_of_length_eq_zero hlength.symm, List.head?_nil]
  | some p =>
    cases hq : (u.around n).head? with
    | none =>
      have hlength := (h.depth_between hp).1
      rw [hdepth, List.head?_eq_none_iff.mp hq] at hlength
      cases hlength
    | some q =>
      have hdepth' := fun m => (hdepth m).symm
      rw [Nat.le_antisymm (h'.head_le_of_depths h hdepth' hq hp)
        (h.head_le_of_depths h' hdepth hp hq)]

end Nested

end ClassLang.ScopeTree
