import LargeBuffers.Proofs.Unreferenced

/-! # Making handles beside an entry without handles

No operation that makes a handle looks at the entry of a manager to which no handle refers.
-/

namespace LargeBuffers.Session

variable {s : Session} {k j : ManagerId} {m : Manager} {slot : String} {x : Handle}

theorem makeStorage_withManager (name : String) (c : Contents) :
    (s.withManager k m).makeStorage name c = overlay k m (s.makeStorage name c) := by
  unfold makeStorage
  split <;> rfl

section Operations

variable (h : s.Unreferenced k)

include h

theorem makeArray_withManager (name : String) (c : Contents) :
    (s.withManager k m).makeArray name c = overlay k m (s.makeArray name c) := by
  have he : (s.withManager k m).store.element = s.store.element := rfl
  simp only [makeArray, he]
  split
  · exact congrArg (answer · _)
      (put_withManager (s := s.withStore (s.store.addContents c)) h.slots _)
  · rfl

theorem makeMemory_withManager (name : String) (a : Access) (source : MemorySource) :
    (s.withManager k m).makeMemory name a source = overlay k m (s.makeMemory name a source) := by
  have he : (s.withManager k m).store.element = s.store.element := rfl
  have hc : (s.withManager k m).store.contentsOf = s.store.contentsOf := rfl
  cases source with
  | nothing => exact make_withManager h ..
  | values c =>
    simp only [makeMemory, he]
    split
    · exact congrArg (answer · .done)
        (put_withManager (s := s.withStore (s.store.addContents c)) h.slots _)
    · rfl
  | array slot =>
    simp only [makeMemory, slots_withManager, hc]
    split
    · exact make_withManager h ..
    · rfl
  | range slot start length =>
    simp only [makeMemory, slots_withManager, hc]
    split
    · split
      · exact make_withManager h ..
      · rfl
    · rfl
  | manager slot take =>
    simp only [makeMemory, slots_withManager]
    split
    · rename_i j hs
      have hl : (s.withManager k m).store.managerLength j = s.store.managerLength j :=
        Store.managerLength_setManager (h.manager hs rfl)
      rw [hl]
      cases take with
      | true => exact convert_withManager h ..
      | false => exact make_withManager h ..
    · rfl

theorem makeNarrow_withManager (name slot : String) :
    (s.withManager k m).makeNarrow name slot = overlay k m (s.makeNarrow name slot) := by
  simp only [makeNarrow, slots_withManager]
  split
  · exact convert_withManager h ..
  · rfl

theorem makeClone_withManager (name slot : String) :
    (s.withManager k m).makeClone name slot = overlay k m (s.makeClone name slot) := by
  simp only [makeClone, slots_withManager]
  split
  · exact make_withManager h ..
  · rfl

theorem makeSlice_withManager (name slot : String) (part : Memory → Except Error Memory) :
    (s.withManager k m).makeSlice name slot part = overlay k m (s.makeSlice name slot part) := by
  simp only [makeSlice, slots_withManager]
  split
  · split
    · exact make_withManager h ..
    · rfl
  · rfl

theorem makeShared_withManager (name slot : String) :
    (s.withManager k m).makeShared name slot = overlay k m (s.makeShared name slot) := by
  simp only [makeShared, slots_withManager]
  split
  · exact convert_withManager h ..
  · rfl

theorem makeOwner_withManager (name slot : String) :
    (s.withManager k m).makeOwner name slot = overlay k m (s.makeOwner name slot) := by
  simp only [makeOwner, slots_withManager]
  split
  · exact convert_withManager h ..
  · rfl

theorem unmakeOwner_withManager (name slot : String) :
    (s.withManager k m).unmakeOwner name slot = overlay k m (s.unmakeOwner name slot) := by
  simp only [unmakeOwner, slots_withManager]
  split
  · exact convert_withManager h ..
  · rfl

theorem makeNewManager_withManager (name : String) (st : Store)
    (hl : s.store.managers.length ≤ st.managers.length) (n : Manager) :
    (s.withManager k m).makeManager name ((st.setManager k m).addManager n) =
      overlay k m (s.makeManager name (st.addManager n)) := by
  rw [st.addManager_setManager (h.lt.trans_le hl)]
  exact makeManager_withManager h name _

theorem makeArrayManager_withManager (name : String) (c : Contents) :
    (s.withManager k m).makeArrayManager name c = overlay k m (s.makeArrayManager name c) := by
  have he : (s.withManager k m).store.element = s.store.element := rfl
  simp only [makeArrayManager, he]
  split
  · exact makeNewManager_withManager h name (s.store.addContents c) le_rfl _
  · rfl

theorem makeNative_withManager (name storage recorder : String) (offset length : UInt64) :
    (s.withManager k m).makeNative name storage recorder offset length =
      overlay k m (s.makeNative name storage recorder offset length) := by
  apply ofBytes_withManager
  have hp : (s.withManager k m).storagePart storage offset length =
    s.storagePart storage offset length := rfl
  have hr : (s.withManager k m).recorders = s.recorders := rfl
  simp only [hp, hr]
  split
  · rfl
  · exact makeNewManager_withManager h name (s.store.addRegion _) le_rfl _
  · rfl

theorem tryAcquire_withManager (name slot : String) :
    (s.withManager k m).tryAcquire name slot = overlay k m (s.tryAcquire name slot) := by
  simp only [tryAcquire, slots_withManager]
  split
  · rename_i j hs
    have hj := h.manager hs rfl
    have hk : (s.withManager k m).store.managers[j]? = s.store.managers[j]? :=
      Store.getElem?_setManager hj
    have ho : (s.withManager k m).store.handOff j = _ := Store.handOff_setManager hj
    rw [hk, ho]
    split
    · rcases s.store.handOff j with ⟨_ | r, st⟩
      · rfl
      · exact congrArg (answer · (.flag true))
          (put_withManager (s := s.withStore st) h.slots _)
    · rfl
  · rfl

theorem intoManager_withManager (name slot : String) :
    (s.withManager k m).intoManager name slot = overlay k m (s.intoManager name slot) := by
  simp only [intoManager, slots_withManager]
  split
  · exact makeNewManager_withManager (h.remove slot) name s.store le_rfl _
  · rfl

theorem makeImportation_withManager (name : String) :
    (s.withManager k m).makeImportation name = overlay k m (s.makeImportation name) := by
  apply ofBytes_withManager
  refine congrArg (answer · .done) (put_withManager (s := { s with
    store := s.store.addImportation
    importations := s.importations.put name s.store.importations.length }) h.slots _)

theorem makeAlias_withManager (name slot storage : String) (offset length : UInt64) :
    (s.withManager k m).makeAlias name slot storage offset length =
      overlay k m (s.makeAlias name slot storage offset length) := by
  apply ofBytes_withManager
  have hp : (s.withManager k m).storagePart storage offset length =
    s.storagePart storage offset length := rfl
  simp only [hp, slots_withManager]
  split
  · rfl
  · rename_i b i _ _
    have ha : (s.withManager k m).store.addAlias i b offset length = _ :=
      Store.addAlias_setManager h.lt i b offset length
    rw [ha]
    rcases s.store.addAlias i b offset length with ⟨e | _, st⟩
    · rfl
    · exact makeManager_withManager h name st
  · rfl

theorem makeBuffer_withManager (hj : j ≠ k) (name : String) (form : BufferForm) :
    (s.withManager k m).makeBuffer name form j = overlay k m (s.makeBuffer name form j) := by
  have hl : (s.withManager k m).store.managerLength j = s.store.managerLength j :=
    Store.managerLength_setManager hj
  cases form <;> simp only [makeBuffer, hl] <;> exact make_withManager h ..

theorem makeAllocatorOf_withManager (name : String) (supply : Supply) :
    (s.withManager k m).makeAllocatorOf name supply = overlay k m (s.makeAllocatorOf name supply) :=
  congrArg (answer · _) (put_withManager (s := s.withStore (s.store.addAllocator supply)) h.slots _)

theorem makeAllocator_withManager (name : String) (alignment : Option UInt64) :
    (s.withManager k m).makeAllocator name alignment =
      overlay k m (s.makeAllocator name alignment) := by
  apply ofBytes_withManager
  split
  · exact makeAllocatorOf_withManager h name _
  · rfl

theorem makeDefaultAllocator_withManager (name : String) :
    (s.withManager k m).makeDefaultAllocator name = overlay k m (s.makeDefaultAllocator name) :=
  ofBytes_withManager (congrArg (answer · _) (put_withManager h.slots _))

theorem allocate_withManager (p : Platform) (name slot : String) (form : BufferForm)
    (length : UInt64) : (s.withManager k m).allocate p name slot form length =
      overlay k m (s.allocate p name slot form length) := by
  have hal : (s.withManager k m).store.allocators = s.store.allocators := rfl
  apply ofBytes_withManager
  simp only [slots_withManager, hal]
  split
  · rename_i a _
    split
    · rfl
    · split
      · exact makeBuffer_withManager h h.ne_null.symm ..
      · have ha : (s.withManager k m).store.allocate p a length = _ :=
          Store.allocate_setManager h.lt p a length
        rw [ha]
        rcases hst : s.store.allocate p a length with ⟨e | _, st⟩
        · rfl
        · have hl := Store.length_managers_allocate hst
          have hlt := h.lt
          have hnew : (s.withStore st).newestManager = s.store.managers.length := by
            simp only [newestManager, withStore, hl, Nat.add_sub_cancel]
          have hnew' : (s.withStore (st.setManager k m)).newestManager =
              s.store.managers.length := by
            simp only [newestManager, withStore, Store.setManager, List.length_set, hl,
              Nat.add_sub_cancel]
          dsimp only
          change (s.withStore (st.setManager k m)).makeBuffer name _
            (s.withStore (st.setManager k m)).newestManager = _
          rw [hnew, hnew']
          exact makeBuffer_withManager (s := s.withStore st)
            ⟨hl ▸ hlt.trans (Nat.lt_succ_self _), h.ne_null, h.slots⟩ hlt.ne' name _
  · rfl

theorem makeProbe_withManager (name : String) (c : Contents) (claim : Option UInt64)
    (state : Lifecycle) (exposesArray : Bool) :
    (s.withManager k m).makeProbe name c claim state exposesArray =
      overlay k m (s.makeProbe name c claim state exposesArray) := by
  have he : (s.withManager k m).store.element = s.store.element := rfl
  have hl : (s.withManager k m).store.managers.length = s.store.managers.length :=
    List.length_set
  have hs : ({ s with probes := s.probes.put name (s.store.managers.length, 0) } :
      Session).Unreferenced k := ⟨h.lt, h.ne_null, h.slots⟩
  simp only [makeProbe, he, hl]
  split
  · exact makeNewManager_withManager hs name (s.store.addContents c) le_rfl _
  · rfl

end Operations

end LargeBuffers.Session
