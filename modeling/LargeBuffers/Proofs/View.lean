import LargeBuffers.Proofs.Layout

/-! # Views of backings

Each view that a handle leads to is empty or a part of all storage of its backing. Under a layout
it shows values of the right type, within the bytes of its block.
-/

namespace LargeBuffers

namespace View

/-- A view is all of another one, or a slice of it. -/
def PartOf (v w : View) : Prop := v = w ∨ ∃ start length, w.slice start length = .ok v

theorem slice_eq_ok_iff {v w : View} {start length : UInt64} : w.slice start length = .ok v ↔
    checkRange w.window.len start length = .ok () ∧
      v = { w with window := w.window.sub start length } := by
  constructor
  · intro h
    obtain ⟨w', hs, hv⟩ := bind_eq_ok_iff.mp h
    obtain ⟨hr, rfl⟩ := Window.slice_eq_ok_iff.mp hs
    exact ⟨hr, (Except.ok.inj hv).symm⟩
  · rintro ⟨hr, rfl⟩
    exact bind_eq_ok_iff.mpr ⟨_, Window.slice_eq_ok_iff.mpr ⟨hr, rfl⟩, rfl⟩

theorem range_eq_ok_iff {v w : View} {start length : UInt64} :
    w.range start length = .ok v ↔ w.slice start length = .ok v := by
  unfold range
  split
  · rename_i hs
    rw [hs]
    simp
  · rename_i hs
    rw [hs]
    simp

theorem PartOf.block_eq {v w : View} (h : v.PartOf w) : v.block = w.block := by
  obtain rfl | ⟨start, length, hs⟩ := h
  · rfl
  · obtain ⟨-, rfl⟩ := slice_eq_ok_iff.mp hs
    rfl

end View

theorem lift_eq_ok_iff {α : Type} {x : Except Error α} {a : α} :
    Failure.lift x = .ok a ↔ x = .ok a := by
  cases x <;> simp [Failure.lift]

theorem lift_eq_error_iff {α : Type} {x : Except Error α} {c : Error} :
    Failure.lift x = .error (.error c) ↔ x = .error c := by
  cases x <;> simp [Failure.lift]

theorem bind_eq_error_iff {ε α β : Type} {x : Except ε α} {f : α → Except ε β} {c : ε} :
    x >>= f = .error c ↔ x = .error c ∨ ∃ a, x = .ok a ∧ f a = .error c := by
  cases x <;> simp [bind, Except.bind]

namespace Store

variable {st : Store} {v w : View} {k : ManagerId}

def storageOf (st : Store) : Backing → Except Error View
  | .nothing => .ok (.empty st.element)
  | .array b => .ok (st.blockView b)
  | .manager k => st.managerView k

theorem view_eq_ok {m : Memory} (h : st.view m = .ok v) :
    v = .empty st.element ∨
      ∃ w, st.storageOf m.backing = .ok w ∧ w.slice m.start m.len = .ok v := by
  unfold view at h
  rcases hb : m.backing with _ | b | k
  · simp only [hb] at h
    exact .inl (Except.ok.inj h).symm
  · simp only [hb] at h
    exact .inr ⟨_, rfl, View.range_eq_ok_iff.mp h⟩
  · simp only [hb] at h
    obtain ⟨w, hw, hs⟩ := bind_eq_ok_iff.mp (lift_eq_ok_iff.mp h)
    exact .inr ⟨w, hw, hs⟩

/-- A memory that is written is empty, or the sole handle to its backing. -/
theorem viewMut_eq_ok {m : Memory} {sole : Bool} (h : st.viewMut m sole = .ok v) :
    v = .empty st.element ∨ sole = true ∧
      ∃ w, st.storageOf m.backing = .ok w ∧ w.slice m.start m.len = .ok v := by
  unfold viewMut at h
  rcases hb : m.backing with _ | b | k
  · simp only [hb] at h
    exact .inl (Except.ok.inj h).symm
  · simp only [hb] at h
    split at h
    · exact .inl (Except.ok.inj h).symm
    · split at h
      · exact .inr ⟨‹_›, _, rfl, View.range_eq_ok_iff.mp h⟩
      · cases h
  · simp only [hb] at h
    split at h
    · cases h
    · split at h
      · exact .inl (Except.ok.inj h).symm
      · split at h
        · obtain ⟨w, hw, hs⟩ := bind_eq_ok_iff.mp (lift_eq_ok_iff.mp h)
          exact .inr ⟨‹_›, w, hw, hs⟩
        · cases h

theorem managerView_eq_ok (h : st.managerView k = .ok v) :
    v = .empty st.element ∨
    (∃ b, v = st.blockView b ∧ (st.managers[k]? = some (.array b true) ∨
      ∃ pr, st.managers[k]? = some (.probe pr) ∧ pr.block = b)) ∨
    ∃ r g, st.managers[k]? = some (.native r true) ∧ st.regions[r]? = some g ∧
      v = regionView g := by
  unfold managerView at h
  split at h
  · exact .inl (Except.ok.inj h).symm
  · exact .inr (.inl ⟨_, (Except.ok.inj h).symm, .inl ‹_›⟩)
  · split at h
    · exact .inr (.inr ⟨_, _, ‹_›, ‹_›, (Except.ok.inj h).symm⟩)
    · cases h
  · split at h
    · cases h
    · exact .inr (.inl ⟨_, (Except.ok.inj h).symm, .inr ⟨_, ‹_›, rfl⟩⟩)
  · cases h

/-- A view shows values of the store's type, within the bytes of its block. -/
structure Shows (st : Store) (v : View) : Prop where
  element : v.window.element = st.element
  within : v.window.Within (st.bytesOf v).length
  lt : (st.bytesOf v).length < UInt64.size

theorem shows_empty (st : Store) : st.Shows (.empty st.element) :=
  ⟨rfl, Window.within_empty .., Nat.zero_lt_succ _⟩

theorem Shows.slice {start length : UInt64} (h : st.Shows v) (hs : v.slice start length = .ok w) :
    st.Shows w := by
  obtain ⟨hr, rfl⟩ := View.slice_eq_ok_iff.mp hs
  exact ⟨h.element, h.within.sub h.lt hr, h.lt⟩

theorem Shows.part (h : st.Shows w) (hp : v.PartOf w) : st.Shows v := by
  obtain rfl | ⟨start, length, hs⟩ := hp
  · exact h
  · exact h.slice hs

end Store

namespace Estate

variable {e : Estate} {roles : List Role} {x : Handle} {v : View}

theorem viewMutOf_eq_ok (h : e.viewMutOf x = .ok v) :
    v = .empty e.store.element ∨
      ((∃ k, x = .manager k) ∨ e.sole x.backing = true) ∧
        ∃ w, e.store.storageOf x.backing = .ok w ∧ v.PartOf w := by
  have hmem : ∀ m : Memory, x.backing = m.backing →
      e.store.viewMut m (e.sole m.backing) = .ok v →
      v = .empty e.store.element ∨
        ((∃ k, x = .manager k) ∨ e.sole x.backing = true) ∧
          ∃ w, e.store.storageOf x.backing = .ok w ∧ v.PartOf w := by
    intro m hb hm
    rw [hb]
    obtain hv | ⟨hs, w, hw, hp⟩ := Store.viewMut_eq_ok hm
    · exact .inl hv
    · exact .inr ⟨.inr hs, w, hw, .inr ⟨_, _, hp⟩⟩
  cases x with
  | memory m | owner m => exact hmem m rfl h
  | manager k => exact .inr ⟨.inl ⟨k, rfl⟩, v, lift_eq_ok_iff.mp h, .inl rfl⟩
  | shared k =>
    simp only [viewMutOf, Handle.writable?] at h
    split at h
    · exact .inr ⟨.inr ‹_›, v, lift_eq_ok_iff.mp h, .inl rfl⟩
    · cases h
  | _ => cases h

theorem Layout.shows_block {b : BlockId} {role : Role} (h : e.Layout roles)
    (hr : roles[b]? = some role) (he : role.element e.store.element = e.store.element) :
    e.store.Shows (e.store.blockView b) := by
  obtain ⟨-, hs, hel⟩ := h.of_getElem? hr
  exact ⟨hel.trans he, Window.within_whole hs, hs.lt⟩

theorem Layout.shows_region {r : RegionId} {g : Region} (h : e.Layout roles)
    (hg : e.store.regions[r]? = some g) : e.store.Shows (Store.regionView g) := by
  obtain ⟨hr, hu, hle⟩ := h.region hg
  obtain ⟨-, hs, hel⟩ := h.of_getElem? hr
  have h8 : (e.store.contentsOf g.block).element = .u8 := by
    rw [hel, hu]
    cases g.role r <;> rfl
  refine ⟨hu.symm, .inr ?_, hs.lt⟩
  change g.offset.toNat + g.len.toNat * 1 ≤ (e.store.contentsOf g.block).bytes.length
  have h1 : Element.u8.size = 1 := rfl
  rw [hs.length, h8, h1]
  omega

theorem Layout.shows_storageOf (h : e.Layout roles)
    (hx : ∀ {b}, x.backing = .array b → roles[b]? = some .array)
    (hv : e.store.storageOf x.backing = .ok v) : e.store.Shows v := by
  rcases hb : x.backing with _ | b | k
  · rw [hb] at hv
    obtain rfl := Except.ok.inj hv
    exact Store.shows_empty _
  · rw [hb] at hv
    obtain rfl := Except.ok.inj hv
    exact h.shows_block (hx hb) rfl
  · rw [hb] at hv
    obtain rfl | ⟨b, rfl, hk | ⟨pr, hk, rfl⟩⟩ | ⟨r, g, hk, hg, rfl⟩ := Store.managerView_eq_ok hv
    · exact Store.shows_empty _
    · exact h.shows_block (h.array hk) rfl
    · exact h.shows_block (h.probe hk) rfl
    · exact h.shows_region hg

theorem Layout.shows_view {a : Access} {m : Memory} (h : e.Layout roles) (hx : x ∈ e.handles)
    (hm : x.memory? = some (a, m)) (hv : e.store.view m = .ok v) : e.store.Shows v := by
  obtain rfl | ⟨w, hw, hs⟩ := Store.view_eq_ok hv
  · exact Store.shows_empty _
  · rw [← Handle.backing_of_memory? hm] at hw
    exact (h.shows_storageOf (h.handle hx) hw).slice hs

theorem Layout.shows_viewMutOf (h : e.Layout roles) (hx : x ∈ e.handles)
    (hv : e.viewMutOf x = .ok v) : e.store.Shows v := by
  obtain rfl | ⟨-, w, hw, hp⟩ := viewMutOf_eq_ok hv
  · exact Store.shows_empty _
  · exact (h.shows_storageOf (h.handle hx) hw).part hp

end Estate

end LargeBuffers
