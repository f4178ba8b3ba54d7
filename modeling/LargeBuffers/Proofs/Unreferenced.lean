import LargeBuffers.Proofs.Exclusive

/-! # Managers without handles

The register keeps an entry for every manager that was ever made. An entry to which no handle
refers has no part in anything: whatever stands there, every operation gives the same answer, does
the same and leaves the entry as it is, and no handle ever refers to it again.
-/

namespace LargeBuffers

theorem Memory.manager?_eq_some_iff {m : Memory} {k : ManagerId} :
    m.manager? = some k ↔ m.backing = .manager k := by
  obtain ⟨_ | b | j, start, len⟩ := m <;> simp [manager?]

namespace Store

variable {st : Store} {k j : ManagerId} {m : Manager}

/-! ## One entry of the register -/

section Entry

variable (st) (k) (m)

theorem setManager_note (x : Event) : (st.setManager k m).note x = (st.note x).setManager k m := rfl

theorem setManager_dropReference (i : ImportationId) :
    (st.setManager k m).dropReference i = (st.dropReference i).setManager k m := by
  simp only [dropReference, setManager]
  rcases st.importations[i]? with _ | imp
  · rfl
  · dsimp only
    split <;> rfl

theorem setManager_free (a : AllocatorId) (len : UInt64) :
    (st.setManager k m).free a len = (st.free a len).setManager k m := by
  simp only [free, setManager]
  rcases st.allocators[a]? with _ | al
  · rfl
  · dsimp only
    split <;> rfl

theorem setManager_release (r : RegionId) (g : Region) :
    (st.setManager k m).release r g = (st.release r g).setManager k m := by
  rcases g with ⟨b, offset, len, _ | a | i⟩
  · rfl
  · exact (st.note _).setManager_free k m a len
  · exact (st.note _).setManager_dropReference k m i

theorem setManager_dropRaw (r : RegionId) :
    (st.setManager k m).dropRaw r = (st.dropRaw r).setManager k m := by
  have hr : (st.setManager k m).regions[r]? = st.regions[r]? := rfl
  simp only [dropRaw, hr]
  rcases st.regions[r]? with _ | g
  · rfl
  · exact (st.note _).setManager_release k m r g

theorem setManager_countAllocation (a : AllocatorId) (bytes : UInt64) :
    (st.setManager k m).countAllocation a bytes = (st.countAllocation a bytes).setManager k m := by
  simp only [countAllocation, setManager]
  rcases st.allocators[a]? with _ | al <;> rfl

theorem setManager_write (v : View) (bytes : List UInt8) :
    (st.setManager k m).write v bytes = (st.write v bytes).setManager k m := by
  rcases v with ⟨_ | b, w⟩ <;> rfl

end Entry

section Other

variable (h : j ≠ k)

include h

theorem getElem?_setManager : (st.setManager k m).managers[j]? = st.managers[j]? :=
  List.getElem?_set_ne h.symm

theorem setManager_comm (n : Manager) :
    (st.setManager k m).setManager j n = (st.setManager j n).setManager k m := by
  simp only [setManager, List.set_comm _ _ h.symm]

theorem managerState_setManager : (st.setManager k m).managerState j = st.managerState j := by
  simp only [managerState, getElem?_setManager h]

theorem managerLength_setManager : (st.setManager k m).managerLength j = st.managerLength j := by
  simp only [managerLength, getElem?_setManager h]
  rfl

theorem managerView_setManager : (st.setManager k m).managerView j = st.managerView j := by
  simp only [managerView, getElem?_setManager h]
  rfl

theorem managerArray_setManager : (st.setManager k m).managerArray j = st.managerArray j := by
  simp only [managerArray, getElem?_setManager h]
  rfl

theorem pinManager_setManager (i : UInt64) : (st.setManager k m).pinManager j i =
    ((st.pinManager j i).1, (st.pinManager j i).2.setManager k m) := by
  have hc : (st.setManager k m).contentsOf = st.contentsOf := rfl
  have hr : (st.setManager k m).regions = st.regions := rfl
  simp only [pinManager, getElem?_setManager h, hc, hr]
  repeat' split
  all_goals rfl

theorem unpinManager_setManager :
    (st.setManager k m).unpinManager j = (st.unpinManager j).setManager k m := by
  simp only [unpinManager, getElem?_setManager h]
  rcases st.managers[j]? with _ | _ | _ | _ | _ <;> rfl

omit h in
theorem unpin_setManager {pin : Pin} (hp : pin.manager ≠ some k) :
    (st.setManager k m).unpin pin = (st.unpin pin).setManager k m := by
  obtain ⟨b, offset, _ | j⟩ := pin
  · rfl
  · exact unpinManager_setManager (ne_of_apply_ne some hp)

theorem giveUp_setManager : (st.setManager k m).giveUp j = (st.giveUp j).setManager k m := by
  have hr : (st.setManager k m).regions = st.regions := rfl
  simp only [giveUp, getElem?_setManager h, hr]
  split
  · split
    · rw [setManager_comm h, setManager_note, setManager_release]
    · rfl
  · rfl

theorem dispose_setManager : (st.setManager k m).dispose j = (st.dispose j).setManager k m := by
  simp only [dispose, getElem?_setManager h]
  split
  · exact setManager_comm h _
  · exact giveUp_setManager h
  · rw [setManager_comm h, setManager_note]
  · rfl

theorem handOff_setManager : (st.setManager k m).handOff j =
    ((st.handOff j).1, (st.handOff j).2.setManager k m) := by
  have hr : (st.setManager k m).regions = st.regions := rfl
  have he : (st.setManager k m).exclusive = st.exclusive := rfl
  simp only [handOff, getElem?_setManager h, hr, he]
  repeat' split
  · rw [setManager_comm h, setManager_note]
  all_goals rfl

end Other

theorem manager_of_pinManager {i : UInt64} {pin : Pin} {st' : Store}
    (h : st.pinManager j i = (.ok pin, st')) : pin.manager = none ∨ pin.manager = some j := by
  unfold pinManager at h
  repeat' split at h
  all_goals cases h
  · exact .inl rfl
  all_goals exact .inr rfl

theorem manager_of_pin {mem : Memory} {pin : Pin} {st' : Store}
    (h : st.pin mem = (.ok pin, st')) : pin.manager = none ∨ pin.manager = mem.manager? := by
  obtain ⟨_ | b | j, start, len⟩ := mem
  · cases h
    exact .inl rfl
  · cases h
    exact .inl rfl
  · exact manager_of_pinManager h

section Memory

variable {mem : Memory} (h : mem.backing ≠ .manager k)

include h

theorem view_setManager : (st.setManager k m).view mem = st.view mem := by
  obtain ⟨_ | b | j, start, len⟩ := mem
  · rfl
  · rfl
  · simp only [view, managerView_setManager (ne_of_apply_ne Backing.manager h)]

theorem viewMut_setManager (sole : Bool) :
    (st.setManager k m).viewMut mem sole = st.viewMut mem sole := by
  obtain ⟨_ | b | j, start, len⟩ := mem
  · rfl
  · rfl
  · have hj := ne_of_apply_ne Backing.manager h
    simp only [viewMut, managerState_setManager hj, managerView_setManager hj]
    rfl

theorem arrayOf_setManager : (st.setManager k m).arrayOf mem = st.arrayOf mem := by
  obtain ⟨_ | b | j, start, len⟩ := mem
  · rfl
  · rfl
  · simp only [arrayOf, managerArray_setManager (ne_of_apply_ne Backing.manager h)]

theorem pin_setManager :
    (st.setManager k m).pin mem = ((st.pin mem).1, (st.pin mem).2.setManager k m) := by
  obtain ⟨_ | b | j, start, len⟩ := mem
  · rfl
  · rfl
  · exact pinManager_setManager (ne_of_apply_ne Backing.manager h) start

end Memory

theorem addManager_setManager (st : Store) (h : k < st.managers.length) (n : Manager) :
    (st.setManager k m).addManager n = (st.addManager n).setManager k m := by
  simp only [addManager, setManager, List.set_append_left _ _ h]

theorem addNative_setManager (st : Store) (h : k < st.managers.length) (g : Region) :
    (st.setManager k m).addNative g = (st.addNative g).setManager k m :=
  addManager_setManager (st.addRegion g) h _

theorem addAlias_setManager (h : k < st.managers.length) (i : ImportationId) (b : BlockId)
    (offset length : UInt64) : (st.setManager k m).addAlias i b offset length =
      ((st.addAlias i b offset length).1, (st.addAlias i b offset length).2.setManager k m) := by
  have hi : (st.setManager k m).importations = st.importations := rfl
  simp only [addAlias, hi]
  rcases st.importations[i]? with _ | imp
  · rfl
  · dsimp only
    split
    · exact Prod.ext rfl (addNative_setManager ((st.setImportation i _).raiseGauge length) h _)
    · rfl

theorem allocate_setManager (h : k < st.managers.length) (p : Platform) (a : AllocatorId)
    (length : UInt64) : (st.setManager k m).allocate p a length =
      ((st.allocate p a length).1, (st.allocate p a length).2.setManager k m) := by
  have ha : (st.setManager k m).allocators = st.allocators := rfl
  have hb : (st.setManager k m).blocks = st.blocks := rfl
  have hr : (st.setManager k m).regions = st.regions := rfl
  simp only [allocate, ha]
  rcases st.allocators[a]? with _ | ⟨alignment | ⟨limit, pad⟩, statistics⟩
  · rfl
  · simp only [allocateNative, hb, hr]
    rcases requestSize alignment length with e | size
    · rfl
    · dsimp only
      rcases p.grant st.blocks.length size with _ | g
      · rfl
      · refine Prod.ext rfl ?_
        dsimp only
        rw [← setManager_countAllocation]
        exact congrArg (fun st' : Store => ((st'.raiseGauge size).note
          (.allocated a st.regions.length size)).countAllocation a size)
          (addNative_setManager (st.addBlock _) h _)
  · dsimp only
    split
    · refine Prod.ext rfl ?_
      dsimp only
      rw [← setManager_countAllocation]
      exact congrArg (countAllocation · a _) (addManager_setManager (st.addContents _) h _)
    · rfl

end Store

namespace Session

/-- The session with another entry for one manager. -/
def withManager (s : Session) (k : ManagerId) (m : Manager) : Session :=
  s.withStore (s.store.setManager k m)

def overlay (k : ManagerId) (m : Manager) (r : Result) : Result := (r.1, r.2.withManager k m)

structure Unreferenced (s : Session) (k : ManagerId) : Prop where
  lt : k < s.store.managers.length
  ne_null : k ≠ nullSingleton
  slots : ∀ {name x}, s.slots.get? name = some x → x.backing ≠ .manager k

variable {p : Platform} {s : Session} {k j : ManagerId} {m : Manager} {r : Result}
  {name slot dest storage : String} {x : Handle}

/-! ## Handles that come and go -/

theorem holders_withManager : (s.withManager k m).holders = s.holders := rfl

theorem retire_withManager (h : j ≠ k) :
    (s.withManager k m).retire j = (s.retire j).withManager k m := by
  by_cases hz : s.holders (.manager j) = 0
  · simp only [retire, holders_withManager, hz, if_true]
    exact congrArg s.withStore (Store.giveUp_setManager h)
  · simp only [retire, holders_withManager, hz, if_false]

theorem discard_withManager (h : x.backing ≠ .manager k) :
    (s.withManager k m).discard x = (s.discard x).withManager k m := by
  cases x with
  | memory mem | readOnly mem | owner mem =>
    obtain ⟨_ | b | j, start, len⟩ := mem
    · rfl
    · rfl
    · exact retire_withManager (ne_of_apply_ne Backing.manager h)
  | shared j | manager j => exact retire_withManager (ne_of_apply_ne Backing.manager h)
  | raw r => exact congrArg s.withStore (s.store.setManager_dropRaw k m r)
  | importation i => exact congrArg s.withStore (s.store.setManager_dropReference k m i)
  | array | allocator => rfl

theorem put_withManager (h : ∀ {x}, s.slots.get? name = some x → x.backing ≠ .manager k)
    (y : Handle) : (s.withManager k m).put name y = (s.put name y).withManager k m := by
  have hs : (s.withManager k m).slots = s.slots := rfl
  simp only [put, hs]
  split
  · exact discard_withManager (s := { s with slots := s.slots.put name y }) (h ‹_›)
  · rfl

theorem drop_withManager (h : s.Unreferenced k) (slot : String) :
    (s.withManager k m).drop slot = (s.drop slot).withManager k m := by
  have hs : (s.withManager k m).slots = s.slots := rfl
  simp only [drop, hs]
  split
  · exact discard_withManager (s := s.remove slot) (h.slots ‹_›)
  · rfl

theorem Unreferenced.remove (h : s.Unreferenced k) (slot : String) :
    (s.remove slot).Unreferenced k where
  lt := h.lt
  ne_null := h.ne_null
  slots {name x} hx := by
    by_cases hn : name = slot
    · subst hn
      cases (s.slots.get?_erase_self name).symm.trans hx
    · exact h.slots ((Directory.get?_erase_of_ne hn).symm.trans hx)

theorem make_withManager (h : s.Unreferenced k) (name : String) (y : Handle) :
    (s.withManager k m).make name y = overlay k m (s.make name y) :=
  congrArg (answer · .done) (put_withManager h.slots y)

theorem convert_withManager (h : s.Unreferenced k) (name slot : String) (y : Handle) :
    (s.withManager k m).convert name slot y = overlay k m (s.convert name slot y) :=
  make_withManager (h.remove slot) name y

theorem makeManager_withManager (h : s.Unreferenced k) (name : String) (st : Store) :
    (s.withManager k m).makeManager name (st.setManager k m) =
      overlay k m (s.makeManager name st) := by
  have hn : ((s.withStore st).withManager k m).newestManager = (s.withStore st).newestManager := by
    simp only [newestManager, withManager, withStore, Store.setManager, List.length_set]
  change ((s.withStore st).withManager k m).make name
    (.manager ((s.withStore st).withManager k m).newestManager) = _
  rw [hn]
  exact congrArg (answer · .done) (put_withManager (s := s.withStore st) h.slots _)

theorem ofBytes_withManager {r' : Result} (h : r' = overlay k m r) :
    (s.withManager k m).ofBytes r' = overlay k m (s.ofBytes r) := by
  have he : (s.withManager k m).store.element = s.store.element := rfl
  simp only [ofBytes, he]
  split
  · exact h
  · rfl

theorem reply_withManager {a a' : Except Failure Answer} (h : a' = a) :
    (s.withManager k m).reply a' = overlay k m (s.reply a) := by
  rw [h]
  cases a <;> rfl

theorem slots_withManager : (s.withManager k m).slots = s.slots := rfl

/-- What a memory is derived from or shows is not in the entry. -/
theorem Unreferenced.memory (h : s.Unreferenced k) {a : Access} {mem : Memory}
    (hs : s.slots.get? slot = some x) (hm : x.memory? = some (a, mem)) :
    mem.backing ≠ .manager k :=
  Handle.backing_of_memory? hm ▸ h.slots hs

theorem Unreferenced.manager (h : s.Unreferenced k) (hs : s.slots.get? slot = some x)
    (hj : x.manager? = some j) : j ≠ k :=
  ne_of_apply_ne Backing.manager (Handle.backing_of_manager? hj ▸ h.slots hs)

end Session

end LargeBuffers
