import LargeBuffers.Proofs.Growth

/-! # Managers that hold regions

The managers that hold a region of some kind are counted. Replacing a manager changes the number
by that one manager, and giving a manager up moves the region it held to its owner. Most handles
hold nothing of their own and do not count.
-/

namespace LargeBuffers

def Manager.bears (q : RegionId → Bool) : Manager → Bool
  | .native r true => q r
  | _ => false

theorem Manager.bears_of_not_native {m : Manager} {q : RegionId → Bool}
    (h : ∀ r held, m ≠ .native r held) : m.bears q = false := by
  unfold bears
  split
  · exact absurd rfl (h _ _)
  · rfl

namespace Store

def bearers (st : Store) (q : RegionId → Bool) : ℕ := st.managers.countP (·.bears q)

variable {st st' : Store} {k : ManagerId} {q : RegionId → Bool}

theorem countP_set_add {α : Type} {f : α → Bool} {l : List α} {i : ℕ} {a : α} (b : α)
    (h : l[i]? = some a) :
    (l.set i b).countP f + (if f a then 1 else 0) = l.countP f + if f b then 1 else 0 := by
  obtain ⟨hl, ha⟩ := List.getElem?_eq_some_iff.mp h
  have hs := List.countP_set (p := f) (a := b) hl
  have hp := List.boole_getElem_le_countP (p := f) (l := l) hl
  rw [ha] at hs hp
  omega

theorem bearers_setManager {m : Manager} (m' : Manager) (h : st.managers[k]? = some m) :
    (st.setManager k m').bearers q + (if m.bears q then 1 else 0) =
      st.bearers q + if m'.bears q then 1 else 0 :=
  countP_set_add m' h

theorem bearers_addManager (st : Store) (m : Manager) (q : RegionId → Bool) :
    (st.addManager m).bearers q = st.bearers q + if m.bears q then 1 else 0 := by
  simp [bearers, List.countP_append, List.countP_singleton]

theorem bearers_congr (h : st'.managers = st.managers) (q : RegionId → Bool) :
    st'.bearers q = st.bearers q := by
  rw [bearers, bearers, h]

theorem bearers_setManager_of_not {m m' : Manager} (h : st.managers[k]? = some m)
    (hm : m.bears q = false) (hm' : m'.bears q = false) :
    (st.setManager k m').bearers q = st.bearers q := by
  simpa [hm, hm'] using bearers_setManager (q := q) m' h

theorem bearers_pos {r : RegionId} (h : st.managers[k]? = some (.native r true))
    (hq : q r = true) : 0 < st.bearers q :=
  List.countP_pos_iff.mpr ⟨_, List.mem_of_getElem? h, hq⟩

theorem two_le_bearers {k' : ManagerId} {r r' : RegionId}
    (h : st.managers[k]? = some (.native r true))
    (h' : st.managers[k']? = some (.native r' true)) (hne : k ≠ k') (hq : q r = true)
    (hq' : q r' = true) : 2 ≤ st.bearers q := by
  have hs := bearers_setManager (q := q) (.native r false) h
  have hk' : (st.setManager k (.native r false)).managers[k']? = some (.native r' true) := by
    rw [← h']
    exact List.getElem?_set_ne hne
  have hp := bearers_pos hk' hq'
  simp only [Manager.bears, hq, if_true, Bool.false_eq_true, if_false] at hs
  omega

theorem bearers_giveUp {r : RegionId} {g : Region} (q : RegionId → Bool)
    (hk : st.managers[k]? = some (.native r true)) (hg : st.regions[r]? = some g) :
    (st.giveUp k).bearers q + (if q r then 1 else 0) = st.bearers q := by
  obtain ⟨r', g', hk', hg', he⟩ | ⟨-, hn⟩ := st.giveUp_cases k
  · obtain ⟨rfl, -⟩ := Manager.native.inj (Option.some.inj (hk.symm.trans hk'))
    have hs := bearers_setManager (q := q) (.native r false) hk
    have hb : (st.giveUp k).bearers q = (st.setManager k (.native r false)).bearers q :=
      bearers_congr (by simp [he]) q
    rw [hb]
    exact hs
  · rw [hn r hk] at hg
    cases hg

end Store

/-! ## Handles that hold nothing themselves -/

/-- Neither a raw allocation nor an importation. -/
def Handle.plain : Handle → Bool
  | raw _ | importation _ => false
  | _ => true

theorem Handle.plain_of_memory? {h : Handle} {x : Access × Memory} (hm : h.memory? = some x) :
    h.plain = true := by
  cases h with
  | memory | readOnly | owner => rfl
  | _ => cases hm

theorem Handle.plain_of_manager? {h : Handle} {k : ManagerId} (hk : h.manager? = some k) :
    h.plain = true := by
  cases h with
  | shared | manager => rfl
  | _ => cases hk

/-- The end of a plain handle is that of its manager, or changes nothing. -/
theorem Estate.discard_cases (e : Estate) {h : Handle} (hp : h.plain = true) :
    (∃ k, h.backing = .manager k ∧ e.holders (.manager k) = 0 ∧
      e.discard h = e.store.giveUp k) ∨
    e.discard h = e.store ∧ ∀ k, h.backing = .manager k → e.holders (.manager k) ≠ 0 := by
  unfold discard
  split
  · cases hp
  · cases hp
  · rcases h.backing with _ | b | k
    · exact .inr ⟨rfl, nofun⟩
    · exact .inr ⟨rfl, nofun⟩
    · by_cases hk : e.holders (.manager k) = 0
      · exact .inl ⟨k, rfl, hk, if_pos hk⟩
      · refine .inr ⟨if_neg hk, ?_⟩
        rintro _ ⟨⟩
        exact hk

theorem count_raw_cons {h : Handle} (hp : h.plain = true) (r : RegionId) (hs : Multiset Handle) :
    (h ::ₘ hs).count (.raw r) = hs.count (.raw r) := by
  refine Multiset.count_cons_of_ne ?_ hs
  rintro rfl
  cases hp

theorem mem_of_raw_mem_cons {h : Handle} {r : RegionId} {hs : Multiset Handle}
    (hp : h.plain = true) (hr : .raw r ∈ h ::ₘ hs) : .raw r ∈ hs := by
  obtain rfl | hr := Multiset.mem_cons.mp hr
  · cases hp
  · exact hr

theorem count_importation_cons {h : Handle} (hp : h.plain = true) (i : ImportationId)
    (hs : Multiset Handle) : (h ::ₘ hs).count (.importation i) = hs.count (.importation i) := by
  refine Multiset.count_cons_of_ne ?_ hs
  rintro rfl
  cases hp

namespace Store

variable {st : Store} {h h' : Handle}

theorem Part.plain {m : Memory} (hp : st.Part h m) : h.plain = true := by
  cases hp with
  | memory hm => exact Handle.plain_of_memory? hm
  | array | manager => rfl

theorem Derived.plain (hd : st.Derived h h') : h.plain = true ∧ h'.plain = true := by
  cases hd with
  | array => exact ⟨rfl, rfl⟩
  | shared hk => exact ⟨Handle.plain_of_manager? hk, rfl⟩
  | memory hp hm => exact ⟨hp.plain, Handle.plain_of_memory? hm⟩

theorem Standing.plain (hs : st.Standing h) : h.plain = true := by
  cases hs with
  | memory hm => exact Handle.plain_of_memory? hm
  | singleton | owner | allocator => rfl

theorem Whole.plain {k : ManagerId} (hw : st.Whole k h) : h.plain = true := by
  cases hw <;> rfl

end Store

end LargeBuffers
