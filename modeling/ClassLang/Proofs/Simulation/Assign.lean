import ClassLang.Lowering.Stmt
import ClassLang.Proofs.Simulation.Variables

/-! # Assignments on the machine

    The code that pops a value into a variable.

    * **`Machine.Went`**: a run inside the body of a method keeps all words of
      the frame but those of variables.
    * **`Site.copy_ok`** is the code that copies an object word by word.
    * **`Stage.store`** is the code that assigns to a variable: a word of the
      frame, a word of the object, or all words of an object that it holds. -/

namespace ClassLang

/-! ## Copies -/

/-- The code that copies an object moves its words one by one. -/
theorem Site.copy_ok {sl : Slot} {code : List Line} {n : Nat}
    (hoffsets : wordOffsets sl.size = (List.range n).map fun (i : Nat) => 4 * (i : Int))
    (h : Site.copy sl = .ok code) :
    code = instrs ((List.range n).flatMap (Machine.moveWord sl.offset)) := by
  have hfold : ∀ (is : List Nat) (done : List Line),
      (is.map fun (i : Nat) => 4 * (i : Int)).foldlM (fun code offset => do
        let target ← Word.add sl.offset offset
        return code ++ instrs [.mov (.mem offset .eax) (.reg .edx),
          .mov (.reg .edx) (.mem target .ecx)]) done = .ok code →
      code = done ++ instrs (is.flatMap (Machine.moveWord sl.offset)) := by
    intro is
    induction is with
    | nil =>
      intro done h
      cases h
      simp [instrs]
    | cons i is ih =>
      intro done h
      rw [List.map_cons, List.foldlM_cons] at h
      obtain ⟨next, hnext, hrest⟩ := except_bind_ok_iff.mp h
      obtain ⟨target, htarget, hdone⟩ := except_bind_ok_iff.mp hnext
      obtain ⟨_, rfl⟩ := Word.exact_eq_ok_iff.mp htarget
      cases hdone
      rw [ih _ hrest]
      simp [instrs, Machine.moveWord]
  unfold Site.copy at h
  rw [hoffsets] at h
  exact hfold (List.range n) [] h

namespace Method

variable {m : Method} {b k j : Nat}

/-- Word number `k` belongs to the frame or to what lies below it, but to no
    variable. -/
def Spares (m : Method) (b k : Nat) : Prop := 1 ≤ k ∧ (k ≤ m.selfSlot b ∨ k + 1 = b ∨ k = b)

theorem slotOf_ne_of_spares (hb : m.params.length + 3 ≤ b) (hk : m.Spares b k) :
    m.slotOf b j ≠ k := by
  obtain ⟨_, hk⟩ := hk
  unfold selfSlot at hk
  unfold slotOf
  split <;> omega

end Method

namespace Machine

variable {M : Machine} {known : Known} {before : List Int} {site : Site} {V : View} {m : Method}
  {calls : Calls} {need b d n n' k : Nat} {ρ ρ' : Env} {σ σ' : Store} {s s' t : State}
  {x : String} {ty : Ty} {v : Value} {w : BitVec 32} {code : List Line}

/-! ## Runs inside a body -/

/-- Code of `n` lines was run in a body whose frame pointer is at word `b`.  The
    words that belong to no variable are kept. -/
structure Went (M : Machine) (m : Method) (b n : Nat) (s s' : State) : Prop where
  runs : M.Runs s s'
  line : s'.line = s.line + n
  kept : ∀ k, m.Spares b k → s'.memory (M.slot k) = s.memory (M.slot k)

theorem Went.refl (s : State) : M.Went m b 0 s s := ⟨.refl s, rfl, fun _ _ => rfl⟩

theorem Went.trans (h : M.Went m b n s t) (h' : M.Went m b n' t s') :
    M.Went m b (n + n') s s' where
  runs := h.runs.trans h'.runs
  line := by rw [h'.line, h.line, Nat.add_assoc]
  kept := fun k hk => (h'.kept k hk).trans (h.kept k hk)

/-- The code of an expression runs inside the body. -/
theorem Gave.went (h : M.Gave known before d n v σ' s s') (hd : b ≤ d) : M.Went m b n s s' where
  runs := h.runs
  line := h.line
  kept := by
    intro k hk
    obtain ⟨hone, hk⟩ := hk
    refine h.kept k hone ?_
    unfold Method.selfSlot at hk
    omega

/-! ## Frames -/

/-- A variable of the frame takes a value. -/
theorem HasFrame.set {roots : List String} (hM : M.WellPlaced)
    (h : M.HasFrame known roots m b ρ s) (hd : M.HasSlot (b + m.localCount))
    (hdistinct : (m.variables.map (·.1)).Nodup) (hk : m.variables[k]? = some (x, ty))
    (hv : M.Shows known roots v w) (hebp : s'.regs .ebp = s.regs .ebp)
    (hmem : s'.memory = (s.setWord (M.slot (m.slotOf b k)) w).memory) :
    M.HasFrame known roots m b { ρ with vars := fun y => if y = x then some v else ρ.vars y }
      s' where
  ebp := hebp.trans h.ebp
  deep := h.deep
  self := by
    have hlt := (List.getElem?_eq_some_iff.mp hk).1
    have hne : M.slot (m.selfSlot b) ≠ M.slot (m.slotOf b k) := by
      intro heq
      have hslots := (slot_inj hM (h.hasSlot_self (Nat.le_add_right _ _) hd)
        (h.hasSlot_var (Nat.le_refl _) hd hlt)).mp heq
      exact Method.slotOf_ne_selfSlot h.deep hslots.symm
    rw [hmem, State.setWord_memory, if_neg hne]
    exact h.self
  vars := by
    intro j y ty' v' hj hy
    have hlt := (List.getElem?_eq_some_iff.mp hk).1
    have hlt' := (List.getElem?_eq_some_iff.mp hj).1
    rw [hmem, State.setWord_memory]
    simp only at hy
    by_cases heq : j = k
    · subst heq
      cases hk.symm.trans hj
      rw [if_pos rfl] at hy
      cases hy
      rw [if_pos rfl]
      exact hv
    · -- another variable has another name and another word
      have hname : y ≠ x := by
        rintro rfl
        have hj' : (m.variables.map (·.1))[j]? = some y := by simp [hj]
        have hk' : (m.variables.map (·.1))[k]? = some y := by simp [hk]
        have hlen : j < (m.variables.map (·.1)).length := by simpa using hlt'
        exact heq ((List.getElem?_inj hlen hdistinct).mp (hj'.trans hk'.symm))
      have hne : M.slot (m.slotOf b j) ≠ M.slot (m.slotOf b k) := by
        intro haddr
        have hslots := (slot_inj hM (h.hasSlot_var (Nat.le_refl _) hd hlt')
          (h.hasSlot_var (Nat.le_refl _) hd hlt)).mp haddr
        exact heq (Method.slotOf_inj h.deep hslots)
      rw [if_neg hname] at hy
      rw [if_neg hne]
      exact h.vars j y ty' v' hj hy

/-! ## Assigning -/

/-- A variable of the frame. -/
theorem Stage.store_frame (S : M.Stage known before site V m calls need)
    (hx : V.vars.lookup x = some ty) (hcode : site.store x = .ok code)
    (R : M.Running known before V m b ρ σ (d + 1) s) (hdeep : b + m.localCount ≤ d)
    (hv : M.Shows known σ.roots v (s.memory (M.slot (d + 1)))) (hof : v.Of known σ.roots ty)
    (hat : M.CodeAt s.line code) (hd : M.HasSlot (d + 1)) :
    ∃ s', M.Went m b code.length s s' ∧ M.Running known before V m b
      { ρ with vars := fun y => if y = x then some v else ρ.vars y } σ d s' := by
  obtain ⟨k, hk⟩ := Site.Serves.exists_index_of_lookup hx
  rw [Site.store, S.serves.locate_variable hk] at hcode
  cases hcode
  have hb := R.frame.deep
  have hdistinct : (m.variables.map (·.1)).Nodup := S.serves.vars ▸ S.serves.distinct
  rw [S.serves.vars] at hk
  have hlt := (List.getElem?_eq_some_iff.mp hk).1
  have hslot := R.frame.hasSlot_var (d := d + 1) (by omega) hd hlt
  obtain ⟨s', hs', hmem⟩ := pop_frame S.placed R.frame.ebp (Method.offsetOf_eq hb) hslot hat R.esp hd
  have hother : ∀ a, a ≠ M.slot (m.slotOf b k) → s'.memory a = s.memory a := by
    intro a ha
    rw [hmem, State.setWord_memory, if_neg ha]
  refine ⟨s', ⟨hs'.runs, hs'.line, ?_⟩, ?_⟩
  · intro j hj
    refine hother _ fun heq => ?_
    have hle : j ≤ b := by
      obtain ⟨_, hj⟩ := hj
      unfold Method.selfSlot at hj
      omega
    have hslots := (slot_inj S.placed (hd.of_le hj.1 (by omega)) hslot).mp heq
    exact Method.slotOf_ne_of_spares hb hj hslots.symm
  · refine ⟨⟨R.env.self, ?_⟩, R.store, ?_, ?_, hs'.esp, hdeep⟩
    · intro y ty' v' hy hv'
      simp only at hv'
      by_cases heq : y = x
      · subst heq
        rw [if_pos rfl] at hv'
        cases hv'
        cases hx.symm.trans hy
        exact hof
      · rw [if_neg heq] at hv'
        exact R.env.vars hy hv'
    · exact R.mirrors.of_same S.regular (.of_slot S.placed hslot hother hs'.output)
    · exact R.frame.set S.placed (hd.of_le (by omega) (by omega)) hdistinct hk hv hs'.ebp hmem

/-- Code that pops a word and changes nothing else of the stack. -/
theorem Running.pop (R : M.Running known before V m b ρ σ (d + 1) s)
    (hdeep : b + m.localCount ≤ d) (hs' : M.Popped d n s s') (hgrows : σ.Grows known σ')
    (hm : M.Mirrors known before σ' s')
    (hslots : ∀ k, 1 ≤ k → k ≤ d → s'.memory (M.slot k) = s.memory (M.slot k)) :
    M.Went m b n s s' ∧ M.Running known before V m b ρ σ' d s' := by
  refine ⟨⟨hs'.runs, hs'.line, ?_⟩, R.env.mono hgrows.roots, hgrows.typed, hm, ?_, hs'.esp, hdeep⟩
  · intro k hk
    obtain ⟨hone, hk⟩ := hk
    refine hslots k hone ?_
    unfold Method.selfSlot at hk
    omega
  · exact R.frame.keep hs'.ebp hslots hdeep hgrows.roots

/-- A field that holds no object. -/
theorem Stage.store_field (S : M.Stage known before site V m calls need) {owner : String}
    (hx : V.vars.lookup x = none) (hr : V.known.resolve V.cls x = some (owner, ty))
    (hty : ty.Plain) (hno : ∀ c, ty ≠ .object c) (hcode : site.store x = .ok code)
    (R : M.Running known before V m b ρ σ (d + 1) s) (hdeep : b + m.localCount ≤ d)
    (hv : M.Shows known σ.roots v (s.memory (M.slot (d + 1))))
    (hgrows : σ.Grows known (σ.set (ρ.self.sub owner x) v))
    (hat : M.CodeAt s.line code) (hd : M.HasSlot (d + 1)) :
    ∃ s', M.Went m b code.length s s' ∧
      M.Running known before V m b ρ (σ.set (ρ.self.sub owner x) v) d s' := by
  obtain ⟨sl, hloc, rfl, hf⟩ := S.field hx hr hty
  obtain ⟨cls, a, hlies, hi, hself⟩ := R.receiver S.regular
  have hfield := hlies.field S.regular hi hf
  have hword := R.mirrors.hasWord S.regular hfield hno
  have hslot := R.frame.hasSlot_self (d := d + 1) (by omega) hd
  have hcode' : code = instrs [.pop .eax, .mov (.mem (4 * ((b : Int) - m.selfSlot b)) .ebp)
      (.reg .ecx), .mov (.reg .eax) (.mem sl.offset .ecx)] := by
    rw [Site.store, hloc, S.receiver_eq R.frame.deep] at hcode
    cases hslty : sl.ty with
    | object c => exact absurd hslty (hno c)
    | _ =>
      simp only [bind, Except.bind, hslty] at hcode
      cases hcode
      rfl
  subst hcode'
  obtain ⟨s', hs', hmem⟩ :=
    pop_field S.placed R.frame.ebp rfl hslot hat R.esp hd hself hword
  refine ⟨s', R.pop hdeep hs' hgrows ?_ ?_⟩
  · refine R.mirrors.set S.placed S.regular hfield hno hv ?_ ?_ hs'.output
    · rw [hmem, State.setWord_memory, if_pos rfl]
    · intro y hy
      rw [hmem, State.setWord_memory, if_neg hy]
  · intro k hone hk
    have hne := word_ne_slot S.placed hword (hd.of_le hone (Nat.le_succ_of_le hk))
    rw [hmem, State.setWord_memory, if_neg hne.symm]

/-- A field that holds an object. -/
theorem Stage.store_object (S : M.Stage known before site V m calls need) {owner c : String}
    (hx : V.vars.lookup x = none) (hr : V.known.resolve V.cls x = some (owner, .object c))
    (hcode : site.store x = .ok code)
    (R : M.Running known before V m b ρ σ (d + 1) s) (hdeep : b + m.localCount ≤ d)
    {source : Ref} (hv : M.Shows known σ.roots (.object source) (s.memory (M.slot (d + 1))))
    (hof : (Value.object source).Of known σ.roots (.object c))
    (hgrows : σ.Grows known (σ.copy source (ρ.self.sub owner x)))
    (hat : M.CodeAt s.line code) (hd : M.HasSlot (d + 1)) :
    ∃ s', M.Went m b code.length s s' ∧
      M.Running known before V m b ρ (σ.copy source (ρ.self.sub owner x)) d s' := by
  obtain ⟨sl, hloc, hslty, hf⟩ := S.field hx hr trivial
  obtain ⟨cls, a, hlies, hi, hself⟩ := R.receiver S.regular
  have hfield := hlies.field S.regular hi hf
  rw [hslty] at hfield
  have hslot := R.frame.hasSlot_self (d := d + 1) (by omega) hd
  -- where the source lies
  obtain ⟨u, e, hsource, hword⟩ := hv
  generalize hval : Value.object source = val at hof
  obtain _ | _ | _ | ⟨hsroot, hsleads, hinherits⟩ := hof
  cases hval
  obtain ⟨rfl, _⟩ := hsource.unique S.regular ⟨_, _, hsroot, hsleads, rfl⟩
  have hle := hinherits.objectSize_le S.regular.wellFormed
  have hbeside := hsource.beside S.regular hinherits hfield
  -- the code
  have hsize : sl.size = known.objectSize c := by
    rw [(S.regular.ownSlot hf.own).size, hslty, Known.room_object]
  have hcount := wordCount_eq known c
  generalize hn : ((known.objectSize c).toNat + 3) / 4 = n at hcount
  have hoffsets : wordOffsets sl.size = (List.range n).map fun (i : Nat) => 4 * (i : Int) := by
    rw [wordOffsets, hsize, hn]
    rfl
  have hcode' : code = instrs ([.pop .eax, .mov (.mem (4 * ((b : Int) - m.selfSlot b)) .ebp)
      (.reg .ecx)] ++ (List.range n).flatMap (moveWord sl.offset)) := by
    rw [Site.store, hloc, S.receiver_eq R.frame.deep] at hcode
    obtain ⟨place, hplace, hcode⟩ := except_bind_ok_iff.mp hcode
    cases hplace
    simp only [hslty] at hcode
    obtain ⟨access, haccess, hcode⟩ := except_bind_ok_iff.mp hcode
    cases hcode
    rw [Site.copy_ok hoffsets haccess]
    simp [instrs]
  subst hcode'
  have hfrom : ∀ i < n, M.HasWord (e + 4 * i) :=
    fun i hlt => R.mirrors.hasWord_object S.regular hsource (by omega)
  have hto : ∀ i < n, M.HasWord (a + sl.offset + 4 * i) :=
    fun i hlt => R.mirrors.hasWord_object S.regular hfield (by omega)
  have hapart : ∀ i < n, ∀ i' < i, e + 4 * (i : Int) ≠ a + sl.offset + 4 * (i' : Int) := by
    intro i hlt i' hlt'
    rcases hbeside with ⟨rfl, _⟩ | hle' | hle'
    · obtain ⟨_, rfl⟩ := hsource.unique S.regular hfield
      omega
    · omega
    · omega
  obtain ⟨s', hs', hcopied, hother⟩ :=
    pop_copy S.placed R.frame.ebp rfl hslot hat R.esp hd hself hword hfrom hto hapart
  have hlength : (instrs ([.pop .eax, .mov (.mem (4 * ((b : Int) - m.selfSlot b)) .ebp)
      (.reg .ecx)] ++ (List.range n).flatMap (moveWord sl.offset))).length = 2 + 2 * n := by
    rw [instrs, List.length_map, List.length_append, length_moveWords]
    rfl
  rw [hlength]
  refine ⟨s', R.pop hdeep hs' hgrows ?_ ?_⟩
  · refine R.mirrors.copy S.placed S.regular hsource hinherits hfield ?_ ?_ hs'.output
    · exact fun i hlt => hcopied i (by omega)
    · exact fun y hy => hother y fun i hlt => hy i (by omega)
  · intro k hone hk
    refine hother _ fun i hlt => ?_
    exact (word_ne_slot S.placed (hto i hlt) (hd.of_le hone (Nat.le_succ_of_le hk))).symm

/-- The code that assigns to a variable does what assigning means. -/
theorem Stage.store (S : M.Stage known before site V m calls need) (hx : V.varTy? x = some ty)
    (hty : ty.Storable) (hcode : site.store x = .ok code)
    (R : M.Running known before V m b ρ σ (d + 1) s) (hdeep : b + m.localCount ≤ d)
    (hv : M.Shows known σ.roots v (s.memory (M.slot (d + 1)))) (hof : v.Of known σ.roots ty)
    (hassign : V.assign ρ x v σ = .ok (ρ', σ')) (hat : M.CodeAt s.line code)
    (hd : M.HasSlot (d + 1)) :
    ∃ s', M.Went m b code.length s s' ∧ M.Running known before V m b ρ' σ' d s' := by
  have hgrows := ((View.assign_safe S.regular S.within R.env R.store hx hty hof).of_ok hassign).1
  unfold View.varTy? at hx
  unfold View.assign at hassign
  cases hl : V.vars.lookup x with
  | some ty' =>
    rw [hl] at hx hassign
    cases hx
    cases hassign
    exact S.store_frame hl hcode R hdeep hv hof hat hd
  | none =>
    rw [hl] at hx hassign
    obtain ⟨⟨owner, ty'⟩, hr, rfl⟩ := Option.map_eq_some_iff.mp hx
    simp only [hr] at hassign
    have hplain := Site.Serves.plain_of_storable hty
    cases hty' : ty' with
    | object c =>
      rw [hty'] at hof hr
      obtain _ | _ | _ | ⟨hsroot, hsleads, hinherits⟩ := hof
      rw [hty'] at hassign
      cases hassign
      exact S.store_object hl hr hcode R hdeep hv (.object hsroot hsleads hinherits) hgrows hat hd
    | _ =>
      have hno : ∀ c, ty' ≠ .object c := by
        intro c h
        rw [hty'] at h
        cases h
      rw [hty'] at hassign
      cases hassign
      exact S.store_field hl hr hplain hno hcode R hdeep hv hgrows hat hd

end Machine

end ClassLang
