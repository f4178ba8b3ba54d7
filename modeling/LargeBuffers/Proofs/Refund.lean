import LargeBuffers.Proofs.Disposal

/-! # What a release gives back

The owner of a buffer takes as many bytes back as the platform was asked for: they leave the gauge,
the allocator counts them as released, and it is noted who had them before. It makes no difference
whether the buffer is given up by its manager or by a raw allocation.
-/

namespace LargeBuffers

namespace Store

variable {st : Store} {k : ManagerId} {r : RegionId} {g : Region} {a : AllocatorId}
  {al : Allocator}

def refunded (st : Store) (a : AllocatorId) (al : Allocator) (size : UInt64)
    (events : List Event) : Store :=
  { st with
    allocators := st.allocators.set a { al with statistics := al.statistics.recordRelease size }
    gauge := monus st.gauge size
    journal := st.journal ++ events ++ [.freed a size] }

/-- A region of an allocator whose size can be formed again. -/
structure Refundable (st : Store) (r : RegionId) (g : Region) (a : AllocatorId)
    (al : Allocator) : Prop where
  region : st.regions[r]? = some g
  owner : g.owner = .allocator a
  allocator : st.allocators[a]? = some al
  size : g.len + al.supply.alignment ≤ maxBytes

section Refundable

variable (h : st.Refundable r g a al)

include h

theorem Refundable.giveUp (hk : st.managers[k]? = some (.native r true)) : st.giveUp k =
    (st.setManager k (.native r false)).refunded a al (g.len + al.supply.alignment)
      [.releasing g.len, .released r g] := by
  simp [Store.giveUp, hk, h.region, release, h.owner, free, h.allocator, if_pos h.size, refunded]

theorem Refundable.dispose (hk : st.managers[k]? = some (.native r true)) : st.dispose k =
    (st.setManager k (.native r false)).refunded a al (g.len + al.supply.alignment)
      [.releasing g.len, .released r g] := by
  rw [← h.giveUp hk]
  simp only [Store.dispose, hk]

theorem Refundable.dropRaw : st.dropRaw r =
    st.refunded a al (g.len + al.supply.alignment) [.dropped g.len, .released r g] := by
  simp [Store.dropRaw, h.region, release, h.owner, free, h.allocator, if_pos h.size, refunded]

end Refundable

end Store

namespace Session

variable {s : Session} {slot : String} {x : Handle} {k : ManagerId} {r : RegionId}

theorem store_drop_of_sole (hd : s.slots.Distinct) (hs : s.slots.get? slot = some x)
    (hb : x.backing = .manager k) (ho : s.sole (.manager k) = true) :
    (s.drop slot).store = s.store.giveUp k := by
  have hz : (s.remove slot).holders (.manager k) = 0 :=
    hb ▸ (sole_iff_remove hd hs).mp (hb.symm ▸ ho)
  have hr : (s.remove slot).retire k = (s.remove slot).withStore (s.store.giveUp k) := by
    simp only [retire, hz, if_true]
    rfl
  simp only [drop, hs]
  cases x with
  | array | raw | allocator | importation => cases hb
  | _ =>
    simp only [discard, hb, hr]
    rfl

theorem store_dispose_of_sole (hd : s.slots.Distinct) (hs : s.slots.get? slot = some x)
    (hb : x.backing = .manager k) (ho : s.sole (.manager k) = true)
    (hx : x.manager? = some k ∨ ∃ m, x = .owner m) :
    (s.dispose slot).2.store = s.store.dispose k := by
  obtain hx | ⟨m, rfl⟩ := hx
  · have hc : s.Commands x k := by
      cases x with
      | shared j => exact .inr ⟨congrArg Handle.shared (Option.some.inj hx), ho⟩
      | manager j => exact .inl (congrArg Handle.manager (Option.some.inj hx))
      | _ => cases hx
    rw [dispose_of_commands hs hc]
    rfl
  · have hz : (s.remove slot).holders (.manager k) = 0 :=
      hb ▸ (sole_iff_remove hd hs).mp (hb.symm ▸ ho)
    rw [(dispose_of_last hs hb ho hz).1]
    rfl

theorem store_drop_of_raw (hs : s.slots.get? slot = some (.raw r)) :
    (s.drop slot).store = s.store.dropRaw r := by
  simp only [drop, hs]
  rfl

/-- A buffer is taken back by its allocator when its last holder goes. -/
structure Refunds (p : Platform) (s : Session) (r : RegionId) (g : Region) (a : AllocatorId)
    (al : Allocator) (size : UInt64) : Prop where
  drop : ∀ slot x k, s.slots.get? slot = some x → x.backing = .manager k →
    s.store.managers[k]? = some (.native r true) → s.sole (.manager k) = true →
    (s.step p (.drop slot)).2.store = (s.store.setManager k (.native r false)).refunded a al size
      [.releasing g.len, .released r g]
  dispose : ∀ slot x k, s.slots.get? slot = some x → x.backing = .manager k →
    s.store.managers[k]? = some (.native r true) → s.sole (.manager k) = true →
    (x.manager? = some k ∨ ∃ m, x = .owner m) →
    (s.step p (.dispose slot)).2.store =
      (s.store.setManager k (.native r false)).refunded a al size
        [.releasing g.len, .released r g]
  raw : ∀ slot, s.slots.get? slot = some (.raw r) → (s.step p (.drop slot)).2.store =
    s.store.refunded a al size [.dropped g.len, .released r g]

theorem refunds {p : Platform} {g : Region} {a : AllocatorId} {al : Allocator}
    (hd : s.slots.Distinct) (h : s.store.Refundable r g a al) :
    s.Refunds p r g a al (g.len + al.supply.alignment) where
  drop slot x k hs hb hk ho := by
    rw [step_drop, store_drop_of_sole hd hs hb ho, h.giveUp hk]
  dispose slot x k hs hb hk ho hx := (store_dispose_of_sole hd hs hb ho hx).trans (h.dispose hk)
  raw slot hs := by
    rw [step_drop, store_drop_of_raw hs, h.dropRaw]

end Session

end LargeBuffers
