import LargeBuffers.Store.Release

/-! # What writes and releases leave alone

Writing changes the bytes of blocks. Releasing a region tells its owner, and changes nothing but
counters and the journal. Giving a manager up moves its region to the owner and releases it.
-/

namespace LargeBuffers.Store

variable (st : Store)

theorem write_frame (v : View) (bytes : List UInt8) :
    ∃ blocks, st.write v bytes = { st with blocks } := by
  unfold write
  split
  · exact ⟨_, rfl⟩
  · exact ⟨_, rfl⟩

theorem dropReference_frame (i : ImportationId) : ∃ importations gauge journal,
    st.dropReference i = { st with importations, gauge, journal } := by
  unfold dropReference
  repeat' split
  all_goals exact ⟨_, _, _, rfl⟩

theorem free_frame (a : AllocatorId) (len : UInt64) : ∃ allocators gauge journal,
    st.free a len = { st with allocators, gauge, journal } := by
  simp only [free]
  repeat' split
  all_goals exact ⟨_, _, _, rfl⟩

theorem release_frame (r : RegionId) (g : Region) :
    ∃ importations allocators gauge journal,
      st.release r g = { st with importations, allocators, gauge, journal } := by
  unfold release
  split
  · exact ⟨_, _, _, _, rfl⟩
  · obtain ⟨_, _, _, h⟩ := (st.note (.released r g)).free_frame _ _
    exact ⟨_, _, _, _, h⟩
  · obtain ⟨_, _, _, h⟩ := (st.note (.released r g)).dropReference_frame _
    exact ⟨_, _, _, _, h⟩

@[simp]
theorem managers_release (r : RegionId) (g : Region) :
    (st.release r g).managers = st.managers := by
  obtain ⟨_, _, _, _, h⟩ := st.release_frame r g
  rw [h]

@[simp]
theorem regions_release (r : RegionId) (g : Region) :
    (st.release r g).regions = st.regions := by
  obtain ⟨_, _, _, _, h⟩ := st.release_frame r g
  rw [h]

/-- A manager gives up a region, or holds none that is there. -/
theorem giveUp_cases (k : ManagerId) :
    (∃ r g, st.managers[k]? = some (.native r true) ∧ st.regions[r]? = some g ∧
      st.giveUp k = ((st.setManager k (.native r false)).note (.releasing g.len)).release r g) ∨
    st.giveUp k = st ∧ ∀ r, st.managers[k]? = some (.native r true) → st.regions[r]? = none := by
  unfold giveUp
  split
  · rename_i r hk
    split
    · rename_i g hg
      exact .inl ⟨r, g, hk, hg, rfl⟩
    · rename_i hg
      refine .inr ⟨rfl, fun r' hr => ?_⟩
      obtain ⟨rfl, -⟩ := Manager.native.inj (Option.some.inj (hk.symm.trans hr))
      exact hg
  · rename_i hk
    exact .inr ⟨rfl, fun r hr => absurd hr (hk r)⟩

theorem giveUp_eq_self {k : ManagerId} (h : ∀ r, st.managers[k]? ≠ some (.native r true)) :
    st.giveUp k = st := by
  obtain ⟨r, g, hk, -⟩ | ⟨he, -⟩ := st.giveUp_cases k
  · exact absurd hk (h r)
  · exact he

theorem giveUp_giveUp (k : ManagerId) : (st.giveUp k).giveUp k = st.giveUp k := by
  obtain ⟨r, g, hk, -, he⟩ | ⟨he, -⟩ := st.giveUp_cases k
  · apply giveUp_eq_self
    intro r'
    obtain ⟨hl, -⟩ := List.getElem?_eq_some_iff.mp hk
    simp [he, hl]
  · rw [he, he]

theorem giveUp_dispose (k : ManagerId) : (st.dispose k).giveUp k = st.dispose k := by
  unfold dispose
  split
  · rename_i b live hk
    apply giveUp_eq_self
    obtain ⟨hl, -⟩ := List.getElem?_eq_some_iff.mp hk
    simp [hl]
  · exact st.giveUp_giveUp k
  · rename_i pr hk
    apply giveUp_eq_self
    obtain ⟨hl, -⟩ := List.getElem?_eq_some_iff.mp hk
    simp [hl]
  · rename_i h₁ h₂ h₃
    exact giveUp_eq_self _ fun r => h₂ r true

/-- Disposing of a manager gives it up, or turns one that never held a region. -/
theorem dispose_cases (k : ManagerId) : st.dispose k = st.giveUp k ∨
    ∃ m m' events, st.managers[k]? = some m ∧ (∀ r held, m ≠ .native r held) ∧
      (∀ r held, m' ≠ .native r held) ∧ (∀ x ∈ events, x = .disposed k) ∧
      st.dispose k = { st.setManager k m' with journal := st.journal ++ events } := by
  unfold dispose
  split
  · rename_i b live hk
    exact .inr ⟨_, .array b false, [], hk, nofun, nofun, nofun, by simp⟩
  · exact .inl rfl
  · rename_i pr hk
    exact .inr ⟨_, .probe _, [.disposed k], hk, nofun, nofun, by simp, rfl⟩
  · rename_i h₁ h₂ h₃
    exact .inl (giveUp_eq_self _ fun r => h₂ r true).symm

@[simp]
theorem length_managers_giveUp (k : ManagerId) :
    (st.giveUp k).managers.length = st.managers.length := by
  obtain ⟨r, g, -, -, he⟩ | ⟨he, -⟩ := st.giveUp_cases k
  · simp [he]
  · rw [he]

@[simp]
theorem length_managers_dispose (k : ManagerId) :
    (st.dispose k).managers.length = st.managers.length := by
  obtain he | ⟨m, m', events, -, -, -, -, he⟩ := st.dispose_cases k
  · rw [he, length_managers_giveUp]
  · simp [he]

@[simp]
theorem managers_dropRaw (r : RegionId) : (st.dropRaw r).managers = st.managers := by
  unfold dropRaw
  split
  · simp
  · rfl

@[simp]
theorem managers_dropReference (i : ImportationId) :
    (st.dropReference i).managers = st.managers := by
  obtain ⟨_, _, _, h⟩ := st.dropReference_frame i
  rw [h]

@[simp]
theorem regions_dropReference (i : ImportationId) : (st.dropReference i).regions = st.regions := by
  obtain ⟨_, _, _, h⟩ := st.dropReference_frame i
  rw [h]

end LargeBuffers.Store
