import LargeBuffers.Proofs.Layout.Step
import LargeBuffers.Proofs.Steady

/-! # The extent of memories

Every memory lies within its backing, and the length of the backing does not change while the
memory is there.
-/

namespace LargeBuffers

namespace Store

def backingLength (st : Store) : Backing → UInt64
  | .nothing => 0
  | .array b => (st.contentsOf b).count
  | .manager k => st.managerLength k

def backingState (st : Store) : Backing → Lifecycle
  | .nothing => .empty
  | .array _ => .live
  | .manager k => st.managerState k

/-- A memory lies within its backing. The sum is one of natural numbers and does not wrap. -/
def Bounds (st : Store) (m : Memory) : Prop :=
  m.start.toNat + m.len.toNat ≤ (st.backingLength m.backing).toNat

variable {st : Store} {h : Handle} {m : Memory}

theorem bounds_whole (st : Store) (b : Backing) : st.Bounds ⟨b, 0, st.backingLength b⟩ :=
  (Nat.zero_add _).le

theorem Bounds.lt (hb : st.Bounds m) : m.start.toNat + m.len.toNat < UInt64.size :=
  lt_of_le_of_lt hb (UInt64.toNat_lt_size _)

theorem Bounds.toNat_start_sub {start : UInt64} (hb : st.Bounds m)
    (hs : start.toNat ≤ m.len.toNat) (length : UInt64) :
    (m.sub start length).start.toNat = m.start.toNat + start.toNat := by
  have hlt := hb.lt
  change (m.start + start).toNat = _
  rw [UInt64.toNat_add]
  exact Nat.mod_eq_of_lt ((Nat.add_le_add_left hs _).trans_lt hlt)

theorem Bounds.sub {start length : UInt64} (hb : st.Bounds m)
    (hr : checkRange m.len start length = .ok ()) : st.Bounds (m.sub start length) := by
  have hr := checkRange_eq_ok_iff.mp hr
  have hs := hb.toNat_start_sub (show start.toNat ≤ m.len.toNat by omega) length
  unfold Bounds at hb ⊢
  rw [hs]
  change _ + length.toNat ≤ (st.backingLength m.backing).toNat
  omega

theorem Part.bounds (hp : st.Part h m) (hb : ∀ {a m}, h.memory? = some (a, m) → st.Bounds m) :
    st.Bounds m := by
  cases hp with
  | memory hm hr => exact (hb hm).sub hr
  | array hr => exact checkRange_eq_ok_iff.mp hr
  | manager => exact bounds_whole ..

theorem Derived.bounds {h' : Handle} {a : Access} (hd : st.Derived h h')
    (hb : ∀ {a m}, h.memory? = some (a, m) → st.Bounds m) (hm : h'.memory? = some (a, m)) :
    st.Bounds m := by
  cases hd with
  | array | shared => cases hm
  | memory hp hm' =>
    obtain ⟨-, rfl⟩ := Prod.mk.inj (Option.some.inj (hm.symm.trans hm'))
    exact hp.bounds hb

theorem Standing.bounds {a : Access} (hs : st.Standing h) (hm : h.memory? = some (a, m)) :
    st.Bounds m := by
  cases hs with
  | memory hm' =>
    obtain ⟨-, rfl⟩ := Prod.mk.inj (Option.some.inj (hm.symm.trans hm'))
    exact Nat.le_refl 0
  | owner =>
    obtain ⟨-, rfl⟩ := Prod.mk.inj (Option.some.inj hm)
    exact bounds_whole st (.manager nullSingleton)
  | singleton | allocator => cases hm

theorem Whole.bounds {k : ManagerId} {a : Access} (hw : st.Whole k h)
    (hm : h.memory? = some (a, m)) : st.Bounds m := by
  cases hw with
  | manager | shared => cases hm
  | owner =>
    obtain ⟨-, rfl⟩ := Prod.mk.inj (Option.some.inj hm)
    exact bounds_whole st (.manager k)

end Store

namespace Estate

variable {p : Platform} {e e' : Estate} {roles : List Role} {x : Handle} {b : Backing}

theorem Layout.backingLength_eq {st : Store} (h : e.Layout roles) (hg : e.store.Grows st)
    (hb : ∀ {j}, b = .array j → roles[j]? = some .array)
    (hm : ∀ {k : ManagerId}, b = .manager k → st.managers[k]? = e.store.managers[k]?) :
    st.backingLength b = e.store.backingLength b := by
  have hc : ∀ {j role}, roles[j]? = some role →
      (st.contentsOf j).count = (e.store.contentsOf j).count := by
    intro j role hr
    obtain ⟨⟨block, hblock, -⟩, -⟩ := h.of_getElem? hr
    exact hg.count_contentsOf hblock
  rcases b with _ | j | k
  · rfl
  · exact hc (hb rfl)
  · change st.managerLength k = e.store.managerLength k
    unfold Store.managerLength
    rw [hm rfl]
    split
    · rename_i j live hk
      rw [hc (h.array hk)]
    · rename_i r held hk
      have hr := List.getElem?_eq_getElem (h.native hk)
      rw [hr, Store.getElem?_of_extension hg.regions hr]
    · rename_i pr hk
      rw [hc (h.probe hk)]
    · rfl

def Bounded (e : Estate) : Prop :=
  ∀ {x a m}, x ∈ e.handles → x.memory? = some (a, m) → e.store.Bounds m

theorem Layout.bounds_of_mem {st : Store} {a : Access} {m : Memory} (h : e.Layout roles)
    (hb : e.Bounded) (hg : e.store.Grows st) (hx : x ∈ e.handles) (hm : x.memory? = some (a, m))
    (hk : ∀ {k : ManagerId}, x.backing = .manager k →
      st.managers[k]? = e.store.managers[k]?) : st.Bounds m := by
  have hmb := Handle.backing_of_memory? hm
  unfold Store.Bounds
  rw [← hmb, h.backingLength_eq hg (h.handle hx) hk, hmb]
  exact hb hx hm

theorem Deed.bounded (ht : e.Tenure) (h : e.Layout roles) (hb : e.Bounded) (hd : e.Deed p e') :
    e'.Bounded := by
  intro x a m hx hm
  have hg := hd.grows
  have hd' := hd
  have hmn := Handle.manager?_of_memory? hm
  have hold : x ∈ e.handles → e'.store.Bounds m := fun hxe =>
    h.bounds_of_mem hb hg hxe hm fun hk => hd'.steady ht hxe hx hmn hk
  cases hd with
  | nothing | recorder | storage | dispose | calls => exact hold hx
  | derive hy _ hd =>
    obtain rfl | hx := Multiset.mem_cons.mp hx
    · exact hd.bounds (hb hy) hm
    · exact hold hx
  | @convert y y' hs he hd =>
    obtain rfl | hx := Multiset.mem_cons.mp hx
    · exact hd.bounds (hb (he ▸ Multiset.mem_cons_self ..)) hm
    · exact hold (he ▸ Multiset.mem_cons_of_mem hx)
  | standing hs =>
    obtain rfl | hx := Multiset.mem_cons.mp hx
    · exact hs.bounds hm
    · exact hold hx
  | @array c y _ hy =>
    obtain rfl | hx := Multiset.mem_cons.mp hx
    · obtain rfl | ⟨a', hy⟩ := hy
      · cases hm
      · obtain ⟨-, rfl⟩ := Prod.mk.inj (Option.some.inj (hm.symm.trans hy))
        have hl : (e.store.addContents c).backingLength (.array e.store.blocks.length) =
            c.count := by
          simp [Store.backingLength, Store.contentsOf]
        unfold Store.Bounds
        rw [hl]
        exact (Nat.zero_add _).le
    · exact hold hx
  | importation | allocator | handOff =>
    obtain rfl | hx := Multiset.mem_cons.mp hx
    · cases hm
    · exact hold hx
  | manager _ hw =>
    obtain rfl | hx := Multiset.mem_cons.mp hx
    · exact hw.bounds hm
    · exact hold hx
  | @rewrap r hs he =>
    obtain rfl | hx := Multiset.mem_cons.mp hx
    · cases hm
    · exact hold (he ▸ Multiset.mem_cons_of_mem hx)
  | disposeOwner he => exact hold (he ▸ Multiset.mem_cons_of_mem hx)

theorem Loss.bounded (h : e.Layout roles) (hb : e.Bounded) (hl : e.Loss e') : e'.Bounded :=
  fun hx hm => h.bounds_of_mem hb hl.grows (hl.mem hx) hm fun hk => hl.steady hx hk

theorem Writing.bounded (h : e.Layout roles) (hb : e.Bounded) (hw : e.Writing x e') :
    e'.Bounded := by
  intro y a m hy hm
  have hg := hw.grows
  obtain ⟨blocks, rfl⟩ := hw.frame
  exact h.bounds_of_mem hb hg hy hm fun _ => rfl

/-- All that holds of the estate of a session between two operations. -/
structure Regular (e : Estate) : Prop where
  order : e.InOrder
  layout : ∃ roles, e.Layout roles
  bounded : e.Bounded

theorem stable_regular (p : Platform) : Stable p Regular where
  deed := by
    rintro e e' ⟨ho, ⟨roles, h⟩, hb⟩ hd
    exact ⟨(stable_inOrder p).deed ho hd, hd.layout ho.custody h, hd.bounded ho.tenure h hb⟩
  loss := by
    rintro e e' ⟨ho, ⟨roles, h⟩, hb⟩ hl
    exact ⟨(stable_inOrder p).loss ho hl, ⟨roles, hl.layout h⟩, hl.bounded h hb⟩
  writing := by
    rintro e e' x ⟨ho, ⟨roles, h⟩, hb⟩ hw
    exact ⟨(stable_inOrder p).writing ho hw, ⟨roles, hw.layout h⟩, hw.bounded h hb⟩
  gauge := by
    rintro e gauge ⟨ho, ⟨roles, h⟩, hb⟩
    have hg := Store.grows_gauge e.store gauge
    exact ⟨(stable_inOrder p).gauge ho, ⟨roles, h.of_stock hg rfl rfl h.handle h.storage⟩,
      fun hx hm => h.bounds_of_mem hb hg hx hm fun _ => rfl⟩

end Estate

namespace Session

theorem regular_after {p : Platform} {s : Session} (hd : s.slots.Distinct) (h : s.estate.Regular)
    (ops : List Op) : (s.after p ops).estate.Regular :=
  (Estate.stable_regular p).after hd h ops

theorem regular_run (p : Platform) (e : Element) (ops : List Op) :
    ((start e).after p ops).estate.Regular :=
  regular_after Directory.distinct_nil
    ⟨Estate.inOrder_start e, ⟨[], Estate.layout_start e⟩, nofun⟩ ops

end Session

end LargeBuffers
