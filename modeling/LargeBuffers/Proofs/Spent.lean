import LargeBuffers.Proofs.Contract
import LargeBuffers.Proofs.Inert

/-! # Spent managers

A native manager that has handed its region off or given it up is spent for ever. Nothing that is
done with the handles to spent managers has an effect on anything else: all other handles stay,
and nothing changes in the store, except that it is noted when such a manager is told of the end of
a pin.
-/

namespace LargeBuffers

/-- The handle refers to a native manager that no longer holds its region. -/
def Store.Spent (st : Store) (x : Handle) : Prop :=
  ∃ k r, x.backing = .manager k ∧ st.managers[k]? = some (.native r false)

namespace Store

variable {st : Store} {x : Handle} {k : ManagerId} {r : RegionId}

section Entry

variable (hk : st.managers[k]? = some (.native r false))

include hk

theorem managerState_of_spent : st.managerState k = .released := by
  simp only [managerState, hk, Bool.false_eq_true, if_false]

theorem handOff_of_spent : st.handOff k = (none, st) :=
  handOff_of_inert hk (.spent r)

theorem spent_of_grows {st' : Store} (hg : st.Grows st') :
    st'.managers[k]? = some (.native r false) := by
  obtain ⟨m, hm, hb⟩ := hg.managers hk
  cases hb <;> exact hm

end Entry

theorem Spent.entry (hx : st.Spent x) (hb : x.backing = .manager k) :
    ∃ r, st.managers[k]? = some (.native r false) := by
  obtain ⟨j, r, hj, hk⟩ := hx
  obtain rfl := Backing.manager.inj (hb.symm.trans hj)
  exact ⟨r, hk⟩

theorem Spent.inert (hx : st.Spent x) : st.Inert x := by
  obtain ⟨k, r, hb, hk⟩ := hx
  exact ⟨k, _, hb, hk, .spent r⟩

theorem Spent.honest (hx : st.Spent x) : st.Honest x.backing := by
  obtain ⟨k, r, hb, hk⟩ := hx
  rw [hb]
  exact honest_of_getElem? hk (by simp)

end Store

namespace Session

variable {p : Platform} {s s' : Session} {name slot : String} {x : Handle}
  {names : List String}

def Clear (s : Session) (name : String) : Prop :=
  ∀ x, s.slots.get? name = some x → s.store.Spent x

/-- The operation is on names without handles and on those of spent handles. -/
def Idle (s : Session) (op : Op) : Prop :=
  ∃ names, op.names? = some names ∧ ∀ name ∈ names, s.Clear name

structure Undisturbed (s s' : Session) : Prop where
  store : ∃ events : List Event, (∀ event ∈ events, ∃ k, event = .unpinned k) ∧
    s'.store = { s.store with journal := s.store.journal ++ events }
  slots : ∀ {name x}, s.slots.get? name = some x → ¬s.store.Spent x →
    s'.slots.get? name = some x

namespace Undisturbed

theorem refl (s : Session) : s.Undisturbed s where
  store := ⟨[], List.forall_mem_nil _, by rw [List.append_nil]⟩
  slots hx _ := hx

theorem of_sameBut (h : SameBut names s s') (hc : ∀ name ∈ names, s.Clear name) :
    s.Undisturbed s' where
  store := ⟨[], List.forall_mem_nil _, by rw [h.store, List.append_nil]⟩
  slots hx hs := (h.slots _ fun hn => hs (hc _ hn _ hx)).trans hx

end Undisturbed

theorem Clear.vacant (h : s.Clear name) : s.Vacant name := fun x hx => (h x hx).inert

theorem clear_remove_self (s : Session) (name : String) : (s.remove name).Clear name := by
  intro x hx
  cases (Directory.get?_erase_self ..).symm.trans hx

theorem Clear.remove (h : s.Clear name) (slot : String) : (s.remove slot).Clear name := by
  by_cases hn : name = slot
  · exact hn ▸ clear_remove_self s name
  · exact fun x hx => h x ((Directory.get?_erase_of_ne hn).symm.trans hx)

theorem store_put (h : s.Clear name) (x : Handle) : (s.put name x).store = s.store :=
  h.vacant.store_put x

theorem drop_of_clear (h : s.Clear slot) : s.drop slot = s.remove slot := h.vacant.drop_eq

theorem undisturbed_unpin (s : Session) (slot : String) : s.Undisturbed (s.unpin slot).2 := by
  simp only [unpin]
  split
  · rename_i k hk
    refine ⟨?_, fun hx _ => hx⟩
    change ∃ events : List Event, _ ∧ s.store.unpinManager k = _
    simp only [Store.unpinManager]
    split
    · exact ⟨[], List.forall_mem_nil _, by rw [List.append_nil]⟩
    · exact ⟨[], List.forall_mem_nil _, by rw [List.append_nil]⟩
    · exact ⟨[.unpinned k], by simp, rfl⟩
  · exact .refl s

theorem Idle.undisturbed {op : Op} (h : s.Idle op) : s.Undisturbed (s.step p op).2 := by
  obtain ⟨names, ho, hc⟩ := h
  by_cases hu : ∃ slot, op = .unpin slot
  · obtain ⟨slot, rfl⟩ := hu
    exact undisturbed_unpin s slot
  · have hs : SameBut names s (s.step p op).2 :=
      sameBut_step ho (fun slot he => hu ⟨slot, he⟩) fun name hn => (hc name hn).vacant
    exact .of_sameBut hs hc

end Session

end LargeBuffers
