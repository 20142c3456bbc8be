import ClassLang.Command.FileSystem
import ClassLang.Proofs.Sequence

/-! # Writing one file

    * **`FileSystem.Leads`**: a written path leads to a place at which a file
      can lie.
    * **`FileSystem.Wrote`**: two file systems differ in one file only.
    * **`FileSystem.wrote_of_write`**: writing a file changes this file only,
      and afterwards it can be read along the same path.
    * **`FileSystem.Writable.write`**: whether a file can be written does not
      depend on what is written. -/

namespace ClassLang.Command

namespace FileSystem

variable {s t : FileSystem} {path : String} {p q : Path} {bytes : ByteArray}

/-- The path leads to this place; it has no slash at its end. -/
def Leads (s : FileSystem) (path : String) (p : Path) : Prop :=
  ∃ r, Route.ofString path = .ok r ∧ r.endsInSlash = false ∧
    s.follow r.fromRoot r.names = .ok p

/-- `t` has a file with these bytes where the path leads in `s`, and is the same
    everywhere else; along the path the file can be read. -/
structure Wrote (s : FileSystem) (path : String) (bytes : ByteArray) (t : FileSystem) : Prop where
  place : ∃ p, s.Leads path p ∧ t.entry? p = some (.file bytes) ∧
    ∀ q, q ≠ p → t.entry? q = s.entry? q
  read : t.read path = .ok bytes
  current : t.current = s.current

/-- Something can be written there. -/
def Writable (s : FileSystem) (path : String) : Prop := ∃ bytes t, s.write path bytes = .ok t

/-! ## Directories -/

theorem hasDirectory_iff : s.hasDirectory p = true ↔
    p <+: s.current ∨ ∃ f ∈ s.files, p <+: f.1 ∧ p.length < f.1.length := by
  simp [hasDirectory, List.any_eq_true, List.isPrefixOf_iff_prefix]

/-- All places on the way to a directory are directories. -/
theorem hasDirectory_of_prefix (h : s.hasDirectory p = true) (hq : q <+: p) :
    s.hasDirectory q = true := by
  rw [hasDirectory_iff] at h ⊢
  rcases h with h | ⟨f, hf, hprefix, hlength⟩
  · exact .inl (hq.trans h)
  · exact .inr ⟨f, hf, hq.trans hprefix, Nat.lt_of_le_of_lt hq.length_le hlength⟩

theorem hasDirectory_of_entry (h : s.entry? p = some .directory) : s.hasDirectory p = true := by
  unfold entry? at h
  split at h
  · cases h
  · split at h
    · assumption
    · cases h

/-- All places on the way to this one are directories. -/
def Reached (s : FileSystem) (p : Path) : Prop := ∀ q, q <+: p → q ≠ p → s.hasDirectory q = true

/-- A name leads on from a directory, and nowhere beside the ways that there
    are. -/
theorem next_ok {name : String} (h : s.next p name = .ok q) :
    s.entry? p = some .directory ∧ q = p.step name := by
  unfold next at h
  split at h
  · cases h
  · cases h
  · next hentry =>
    split at h
    · cases h
    · cases h
      exact ⟨hentry, rfl⟩

theorem Reached.next {name : String} (hp : s.Reached p) (h : s.next p name = .ok q) :
    s.Reached q := by
  obtain ⟨hentry, rfl⟩ := next_ok h
  have hdirectory := hasDirectory_of_entry hentry
  unfold Path.step
  -- stay, go up, or go down
  split
  · exact hp
  · split
    · intro q hq _
      exact hasDirectory_of_prefix hdirectory (hq.trans (List.dropLast_prefix p))
    · intro q hq hne
      rcases List.prefix_concat_iff.mp hq with rfl | hq
      · exact absurd rfl hne
      · exact hasDirectory_of_prefix hdirectory hq

theorem foldlM_reached {names : List String} (hp : s.Reached p)
    (h : names.foldlM s.next p = .ok q) : s.Reached q := by
  induction names generalizing p with
  | nil =>
    cases h
    exact hp
  | cons name rest ih =>
    rw [List.foldlM_cons] at h
    obtain ⟨next, hnext, hrest⟩ := except_bind_ok_iff.mp h
    exact ih (hp.next hnext) hrest

/-- On the way along a route there are only directories. -/
theorem follow_reached {fromRoot : Bool} {names : List String}
    (h : s.follow fromRoot names = .ok p) : s.Reached p := by
  apply foldlM_reached ?_ h
  split
  · intro q hq hne
    exact absurd (List.prefix_nil.mp hq) hne
  · intro q hq _
    exact hasDirectory_iff.mpr (.inl hq)

/-- A way that ends with the name of the directory itself ends in one. -/
theorem entry_of_follow_dot {fromRoot : Bool} {names : List String}
    (h : s.follow fromRoot (names ++ ["."]) = .ok p) : s.entry? p = some .directory := by
  unfold follow at h
  rw [List.foldlM_append] at h
  obtain ⟨d, _, hlast⟩ := except_bind_ok_iff.mp h
  rw [List.foldlM_cons] at hlast
  obtain ⟨q, hnext, hend⟩ := except_bind_ok_iff.mp hlast
  cases hend
  obtain ⟨hentry, rfl⟩ := next_ok hnext
  exact hentry

/-! ## Writing -/

/-- The file system with this file, which is new or in the place of an old one. -/
def withFile (s : FileSystem) (p : Path) (bytes : ByteArray) : FileSystem :=
  { s with files := (p, bytes) :: s.files.filter fun (q, _) => q ≠ p }

/-- Writing puts a file where the path leads, unless there is a directory. -/
theorem write_ok_iff :
    s.write path bytes = .ok t ↔
      ∃ p, s.Leads path p ∧ s.entry? p ≠ some .directory ∧ t = s.withFile p bytes := by
  unfold write
  constructor
  · intro h
    obtain ⟨r, hroute, h⟩ := except_bind_ok_iff.mp h
    obtain ⟨p, hfollow, h⟩ := except_bind_ok_iff.mp h
    split at h
    · cases h
    · next hentry =>
      cases h
      cases hslash : r.endsInSlash with
      | true =>
        -- behind a slash a directory is looked for, and that cannot be written
        rw [hslash, if_pos rfl] at hfollow
        exact absurd (entry_of_follow_dot hfollow) (by simpa using hentry)
      | false =>
        rw [hslash, if_neg Bool.false_ne_true] at hfollow
        exact ⟨p, ⟨r, hroute, hslash, hfollow⟩, by simpa using hentry, rfl⟩
  · rintro ⟨p, ⟨r, hroute, hslash, hfollow⟩, hentry, rfl⟩
    refine except_bind_ok_iff.mpr ⟨r, hroute, ?_⟩
    rw [hslash, if_neg Bool.false_ne_true]
    refine except_bind_ok_iff.mpr ⟨p, hfollow, ?_⟩
    split
    · contradiction
    · rfl

/-- Whether a file can be written does not depend on its bytes. -/
theorem Writable.write (h : s.Writable path) (bytes : ByteArray) :
    ∃ t, s.write path bytes = .ok t := by
  obtain ⟨_, _, h⟩ := h
  obtain ⟨p, hleads, hentry, _⟩ := write_ok_iff.mp h
  exact ⟨_, write_ok_iff.mpr ⟨p, hleads, hentry, rfl⟩⟩

theorem lookup_withFile_self : (s.withFile p bytes).files.lookup p = some bytes := by
  simp [withFile]

theorem lookup_withFile_of_ne (hne : q ≠ p) :
    (s.withFile p bytes).files.lookup q = s.files.lookup q := by
  show ((p, bytes) :: s.files.filter fun f => f.1 ≠ p).lookup q = s.files.lookup q
  rw [List.lookup_cons, beq_false_of_ne hne]
  show (s.files.filter fun f => f.1 ≠ p).lookup q = s.files.lookup q
  induction s.files with
  | nil => rfl
  | cons f rest ih =>
    obtain ⟨place, old⟩ := f
    by_cases hplace : place = p
    · subst hplace
      simpa [List.lookup_cons, beq_false_of_ne hne] using ih
    · rw [List.filter_cons_of_pos (by simpa using hplace), List.lookup_cons, List.lookup_cons, ih]

/-- A new file lies in an old directory, so that no directory is new. -/
theorem hasDirectory_withFile (hp : s.Reached p) :
    (s.withFile p bytes).hasDirectory q = s.hasDirectory q := by
  rw [Bool.eq_iff_iff, hasDirectory_iff, hasDirectory_iff]
  constructor
  · rintro (h | ⟨f, hf, hprefix, hlength⟩)
    · exact .inl h
    · rcases List.mem_cons.mp hf with rfl | hf
      · -- the way to the new file has led through this place
        have hne : q ≠ p := fun heq => absurd (congrArg List.length heq) (Nat.ne_of_lt hlength)
        exact hasDirectory_iff.mp (hp q hprefix hne)
      · exact .inr ⟨f, (List.mem_filter.mp hf).1, hprefix, hlength⟩
  · rintro (h | ⟨f, hf, hprefix, hlength⟩)
    · exact .inl h
    · by_cases hfile : f.1 = p
      · subst hfile
        exact .inr ⟨_, List.mem_cons_self, hprefix, hlength⟩
      · refine .inr ⟨f, List.mem_cons_of_mem _ (List.mem_filter.mpr ⟨hf, ?_⟩), hprefix, hlength⟩
        simpa using hfile

theorem entry_withFile_of_ne (hp : s.Reached p) (hne : q ≠ p) :
    FileSystem.entry? (s.withFile p bytes) q = s.entry? q := by
  unfold entry?
  rw [lookup_withFile_of_ne hne, hasDirectory_withFile hp]

theorem entry_withFile_self : FileSystem.entry? (s.withFile p bytes) p = some (.file bytes) := by
  unfold entry?
  rw [lookup_withFile_self]

/-- The way to a new file is still there. -/
theorem follow_withFile {fromRoot : Bool} {names : List String} (hp : s.Reached p)
    (hentry : s.entry? p ≠ some .directory) (h : s.follow fromRoot names = .ok q) :
    (s.withFile p bytes).follow fromRoot names = .ok q := by
  have hstep : ∀ {a b : Path} {name : String}, s.next a name = .ok b →
      (s.withFile p bytes).next a name = .ok b := by
    intro a b name hab
    -- the way leads through directories, and the file was none
    have hne : a ≠ p := by
      rintro rfl
      exact hentry (next_ok hab).1
    unfold next at hab ⊢
    rwa [entry_withFile_of_ne hp hne]
  unfold follow at h ⊢
  have hstart : (if fromRoot = true then [] else (s.withFile p bytes).current) =
      if fromRoot = true then [] else s.current := rfl
  rw [hstart]
  generalize (if fromRoot = true then [] else s.current) = start at h
  induction names generalizing start with
  | nil => exact h
  | cons name rest ih =>
    rw [List.foldlM_cons] at h ⊢
    obtain ⟨next, hnext, hrest⟩ := except_bind_ok_iff.mp h
    exact except_bind_ok_iff.mpr ⟨next, hstep hnext, ih _ hrest⟩

/-- Writing changes one file only, and along the same path it can be read. -/
theorem wrote_of_write (h : s.write path bytes = .ok t) : s.Wrote path bytes t := by
  obtain ⟨p, hleads, hentry, rfl⟩ := write_ok_iff.mp h
  obtain ⟨r, hroute, hslash, hfollow⟩ := hleads
  have hp := follow_reached hfollow
  have hread : (s.withFile p bytes).read path = .ok bytes := by
    refine except_bind_ok_iff.mpr ⟨r, hroute, ?_⟩
    rw [hslash, if_neg Bool.false_ne_true]
    refine except_bind_ok_iff.mpr ⟨p, follow_withFile hp hentry hfollow, ?_⟩
    rw [entry_withFile_self]
  have hplace : s.Leads path p := ⟨r, hroute, hslash, hfollow⟩
  exact ⟨⟨p, hplace, entry_withFile_self, fun q hne => entry_withFile_of_ne hp hne⟩, hread, rfl⟩

end FileSystem

end ClassLang.Command
