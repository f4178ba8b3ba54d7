import LargeBuffers.Proofs.Course

/-! # The courses of operations that make handles -/

namespace LargeBuffers

theorem Store.Part.self {st : Store} {h : Handle} {a : Access} {m : Memory}
    (hm : h.memory? = some (a, m)) : st.Part h m := by
  have hp : st.Part h (m.sub 0 m.len) := .memory hm (checkRange_whole m.len)
  rwa [Memory.sub_self] at hp

theorem Store.derived_of_clone? {st : Store} {h h' : Handle} (hc : h.clone? = some h') :
    st.Derived h h' ∧ ∀ k, h ≠ .manager k := by
  cases h <;> simp only [Handle.clone?, Option.some.injEq, reduceCtorEq] at hc <;> subst hc
  case array => exact ⟨.array, nofun⟩
  case shared => exact ⟨.shared rfl, nofun⟩
  all_goals exact ⟨.memory (.self rfl) rfl, nofun⟩

@[simp]
theorem Store.managers_countAllocation (st : Store) (a : AllocatorId) (bytes : UInt64) :
    (st.countAllocation a bytes).managers = st.managers := by
  unfold countAllocation
  split <;> rfl

@[simp]
theorem Store.regions_countAllocation (st : Store) (a : AllocatorId) (bytes : UInt64) :
    (st.countAllocation a bytes).regions = st.regions := by
  unfold countAllocation
  split <;> rfl

@[simp]
theorem Store.journal_countAllocation (st : Store) (a : AllocatorId) (bytes : UInt64) :
    (st.countAllocation a bytes).journal = st.journal := by
  unfold countAllocation
  split <;> rfl

@[simp]
theorem Store.importations_countAllocation (st : Store) (a : AllocatorId) (bytes : UInt64) :
    (st.countAllocation a bytes).importations = st.importations := by
  unfold countAllocation
  split <;> rfl

theorem Store.length_managers_allocate {p : Platform} {st st' : Store} {a : AllocatorId}
    {length : UInt64} (h : st.allocate p a length = (.ok (), st')) :
    st'.managers.length = st.managers.length + 1 := by
  obtain ⟨al, -, ⟨alignment, -, h⟩ | ⟨limit, pad, -, -, rfl⟩⟩ := allocate_eq_ok h
  · obtain ⟨size, g, -, -, rfl⟩ := allocateNative_eq_ok h
    simp
  · simp

theorem Estate.Makes.length_managers {p : Platform} {e : Estate} {st : Store}
    (h : e.Makes p st) : st.managers.length = e.store.managers.length + 1 := by
  cases h with
  | null | array | probe | native => simp
  | imported _ _ _ _ h =>
    obtain ⟨imp, -, -, rfl⟩ := Store.addAlias_eq_ok h
    simp
  | buffer _ _ h => exact Store.length_managers_allocate h

namespace Session

variable {p : Platform} {s : Session}

theorem course_ofBytes {r : Result} (hd : s.slots.Distinct)
    (h : s.store.element = .u8 → Course p s r.2) : Course p s (s.ofBytes r).2 := by
  simp only [ofBytes]
  split
  · rename_i hu
    exact h hu
  · exact .refl hd

theorem course_makeStorage (hd : s.slots.Distinct) (name : String) (c : Contents) :
    Course p s (s.makeStorage name c).2 := by
  simp only [makeStorage]
  split
  · rename_i hc
    exact .of_deed hd (.storage hc fun b hb => Directory.mem_map_put hb)
  · exact .refl hd

theorem course_makeRecorder (hd : s.slots.Distinct) (name : String) (exclusive : Bool) :
    Course p s (s.makeRecorder name exclusive).2 :=
  .of_deed hd (.recorder fun _ ho => Directory.mem_map_put ho)

theorem course_makeArray (hd : s.slots.Distinct) (name : String) (c : Contents) :
    Course p s (s.makeArray name c).2 := by
  simp only [makeArray]
  split
  · rename_i hc
    exact .put hd (.array hc (.inl rfl))
  · exact .refl hd

theorem course_makeMemory (hd : s.slots.Distinct) (name : String) (a : Access)
    (source : MemorySource) : Course p s (s.makeMemory name a source).2 := by
  cases source with
  | nothing => exact course_standing hd (.memory (Handle.memory?_ofMemory ..))
  | values c =>
    simp only [makeMemory]
    split
    · rename_i hc
      exact .put hd (.array hc (.inr ⟨a, Handle.memory?_ofMemory ..⟩))
    · exact .refl hd
  | array slot =>
    simp only [makeMemory]
    split
    · rename_i hs
      exact course_derive hd hs nofun
        (.memory (.array (checkRange_whole _)) (Handle.memory?_ofMemory ..))
    · exact .refl hd
  | range slot start length =>
    simp only [makeMemory]
    split
    · rename_i hs
      split
      · rename_i hc
        exact course_derive hd hs nofun (.memory (.array hc) (Handle.memory?_ofMemory ..))
      · exact .refl hd
    · exact .refl hd
  | manager slot take =>
    simp only [makeMemory]
    split
    · rename_i k hs
      have hh : s.store.Derived (.shared k)
          (.ofMemory a ⟨.manager k, 0, s.store.managerLength k⟩) :=
        .memory .manager (Handle.memory?_ofMemory ..)
      split
      · exact course_convert hd hs hh
      · exact course_derive hd hs nofun hh
    · exact .refl hd

theorem course_makeNarrow (hd : s.slots.Distinct) (name slot : String) :
    Course p s (s.makeNarrow name slot).2 := by
  simp only [makeNarrow]
  split
  · rename_i hs
    exact course_convert hd hs (.memory (.self rfl) rfl)
  · exact .refl hd

theorem course_makeClone (hd : s.slots.Distinct) (name slot : String) :
    Course p s (s.makeClone name slot).2 := by
  simp only [makeClone]
  split
  · rename_i h' hc
    obtain ⟨h, hs, hc⟩ := Option.bind_eq_some_iff.mp hc
    obtain ⟨hh, hm⟩ := Store.derived_of_clone? hc
    exact course_derive hd hs hm hh
  · exact .refl hd

theorem course_makeSlice {part : Memory → Except Error Memory} (hd : s.slots.Distinct)
    (name slot : String)
    (hp : ∀ m m', part m = .ok m' → ∃ start length, m.slice start length = .ok m') :
    Course p s (s.makeSlice name slot part).2 := by
  simp only [makeSlice]
  split
  · rename_i a m hm
    split
    · rename_i m' hm'
      obtain ⟨h, hs, hm⟩ := Option.bind_eq_some_iff.mp hm
      obtain ⟨start, length, hc⟩ := hp m m' hm'
      obtain ⟨hr, rfl⟩ := Memory.slice_eq_ok_iff.mp hc
      exact course_derive hd hs (by rintro k rfl; simp [Handle.memory?] at hm)
        (.memory (.memory hm hr) (Handle.memory?_ofMemory ..))
    · exact .refl hd
  · exact .refl hd

theorem course_makeManager {st : Store} (hd : s.slots.Distinct) (name : String)
    (hm : s.estate.Makes p st) : Course p s (s.makeManager name st).2 := by
  have hk : (s.withStore st).newestManager = s.store.managers.length := by
    have hl : st.managers.length = s.store.managers.length + 1 := hm.length_managers
    simp [newestManager, withStore, hl]
  rw [makeManager, hk]
  exact .put hd (.manager hm .manager)

theorem course_makeArrayManager (hd : s.slots.Distinct) (name : String) (c : Contents) :
    Course p s (s.makeArrayManager name c).2 := by
  simp only [makeArrayManager]
  split
  · rename_i hc
    exact course_makeManager hd name (.array hc)
  · exact .refl hd

theorem course_makeNullSingleton (hd : s.slots.Distinct) (name : String) :
    Course p s (s.makeNullSingleton name).2 :=
  course_ofBytes hd fun _ => course_standing hd .singleton

theorem mem_storages {storage : String} {b : BlockId} (h : s.storages.get? storage = some b) :
    b ∈ s.estate.storages :=
  List.mem_map.mpr ⟨_, Directory.mem_of_get? h, rfl⟩

theorem storagePart_eq_ok {storage : String} {offset length : UInt64} {b : BlockId}
    (h : s.storagePart storage offset length = .ok b) :
    s.storages.get? storage = some b ∧
      checkRange (s.store.contentsOf b).count offset length = .ok () := by
  unfold storagePart at h
  split at h
  · rename_i b' hb
    split at h
    · cases h
      exact ⟨hb, ‹_›⟩
    · cases h
  · cases h

theorem course_makeNative (hd : s.slots.Distinct) (name storage recorder : String)
    (offset length : UInt64) : Course p s (s.makeNative name storage recorder offset length).2 := by
  refine course_ofBytes hd fun hu => ?_
  split
  · exact .refl hd
  · rename_i b o hb ho
    obtain ⟨hb, hr⟩ := storagePart_eq_ok hb
    exact course_makeManager hd name
      (.native hu (mem_storages hb) (List.mem_map.mpr ⟨_, Directory.mem_of_get? ho, rfl⟩) hr)
  · exact .refl hd

theorem course_makeShared (hd : s.slots.Distinct) (name slot : String) :
    Course p s (s.makeShared name slot).2 := by
  simp only [makeShared]
  split
  · rename_i hs
    exact course_convert hd hs (.shared rfl)
  · exact .refl hd

theorem course_tryAcquire (hd : s.slots.Distinct) (name slot : String) :
    Course p s (s.tryAcquire name slot).2 := by
  simp only [tryAcquire]
  split
  · rename_i k hs
    split
    · split
      · rename_i r st ho
        exact .put hd (.handOff (mem_handles hs) ho)
      · rename_i st ho
        rw [(Store.handOff_eq_none ho : st = s.store)]
        exact .refl hd
    · exact .refl hd
  · exact .refl hd

theorem course_intoManager (hd : s.slots.Distinct) (name slot : String) :
    Course p s (s.intoManager name slot).2 := by
  simp only [intoManager]
  split
  · rename_i r hs
    have hk : ((s.remove slot).withStore (s.store.addManager (.native r true))).newestManager =
        s.store.managers.length := by
      simp [newestManager, withStore]
    rw [makeManager, hk]
    exact .put (hd.erase slot) (.rewrap (handles_eq_cons hd hs))
  · exact .refl hd

theorem course_makeImportation (hd : s.slots.Distinct) (name : String) :
    Course p s (s.makeImportation name).2 :=
  course_ofBytes hd fun hu => .put hd (.importation hu)

theorem course_makeAlias (hd : s.slots.Distinct) (name slot storage : String)
    (offset length : UInt64) : Course p s (s.makeAlias name slot storage offset length).2 := by
  refine course_ofBytes hd fun hu => ?_
  split
  · exact .refl hd
  · rename_i b i hb hi
    obtain ⟨hb, hr⟩ := storagePart_eq_ok hb
    split
    · rename_i st ha
      exact course_makeManager hd name (.imported hu (mem_storages hb) (mem_handles hi) hr ha)
    · rename_i e st ha
      rw [(Store.addAlias_eq_error ha : st = s.store)]
      exact .refl hd
  · exact .refl hd

theorem course_makeAllocatorOf {supply : Supply} (hd : s.slots.Distinct)
    (hu : s.store.element = .u8) (hp : supply.Proper) (name : String) :
    Course p s (s.makeAllocatorOf name supply).2 :=
  .put hd (.allocator hu hp)

theorem course_makeAllocator (hd : s.slots.Distinct) (name : String) (alignment : Option UInt64) :
    Course p s (s.makeAllocator name alignment).2 := by
  refine course_ofBytes hd fun hu => ?_
  split
  · rename_i n hn
    exact course_makeAllocatorOf hd hu (proper_of_checkAlignment hn) name
  · exact .refl hd

theorem course_makeDefaultAllocator (hd : s.slots.Distinct) (name : String) :
    Course p s (s.makeDefaultAllocator name).2 :=
  course_ofBytes hd fun _ => .put hd (.standing .allocator)

theorem course_makeMeteredAllocator (hd : s.slots.Distinct) (name : String) (limit pad : UInt64) :
    Course p s (s.makeMeteredAllocator name limit pad).2 :=
  course_ofBytes hd fun hu =>
    course_makeAllocatorOf hd hu (show (Supply.metered limit pad).Proper from trivial) name

theorem course_makeBuffer {st : Store} {k : ManagerId} (hd : s.slots.Distinct)
    (hm : s.estate.Makes p st) (hk : k = s.store.managers.length) (name : String)
    (form : BufferForm) : Course p s ((s.withStore st).makeBuffer name form k).2 := by
  subst hk
  cases form with
  | shared => exact .put hd (.manager hm .shared)
  | native => exact .put hd (.manager hm .manager)
  | owner => exact .put hd (.manager hm .owner)

/-- An allocation is refused, or has the null singleton for no bytes, or makes a manager. -/
theorem allocate_cases (p : Platform) (s : Session) (name slot : String) (form : BufferForm)
    (length : UInt64) :
    (∃ f, s.allocate p name slot form length = s.refuse f) ∨
    (length = 0 ∧ form ≠ .native ∧
      s.allocate p name slot form length = s.makeBuffer name form nullSingleton) ∨
    ∃ a st, s.store.element = .u8 ∧ s.slots.get? slot = some (.allocator a) ∧
      (length ≠ 0 ∨ form = .native) ∧ s.store.allocate p a length = (.ok (), st) ∧
      s.allocate p name slot form length =
        (s.withStore st).makeBuffer name form (s.withStore st).newestManager := by
  unfold allocate ofBytes
  split
  · rename_i hu
    split
    · rename_i a ha
      split
      · exact .inl ⟨_, rfl⟩
      · rename_i form _ _ _
        split
        · rename_i hz
          exact .inr (.inl ⟨hz.1, hz.2, rfl⟩)
        · rename_i hz
          have hne : length ≠ 0 ∨ form = .native := by
            by_contra hc
            rw [not_or, not_not] at hc
            exact hz hc
          split
          · rename_i st hb
            exact .inr (.inr ⟨a, st, hu, ha, hne, hb, rfl⟩)
          · rename_i e st hb
            obtain rfl := Store.allocate_eq_error hb
            exact .inl ⟨_, rfl⟩
    · exact .inl ⟨_, rfl⟩
  · exact .inl ⟨_, rfl⟩

theorem course_allocate (hd : s.slots.Distinct) (name slot : String) (form : BufferForm)
    (length : UInt64) : Course p s (s.allocate p name slot form length).2 := by
  obtain ⟨f, he⟩ | ⟨-, hform, he⟩ | ⟨a, st, hu, ha, -, hb, he⟩ :=
    s.allocate_cases p name slot form length
  · rw [he]
    exact .refl hd
  · rw [he]
    cases form with
    | shared => exact course_standing hd .singleton
    | native => exact absurd rfl hform
    | owner => exact course_standing hd .owner
  · have hm : s.estate.Makes p st := .buffer hu (mem_handles ha) hb
    have hl : st.managers.length = s.store.managers.length + 1 := hm.length_managers
    rw [he]
    exact course_makeBuffer hd hm (by simp [newestManager, withStore, hl]) name form

theorem course_makeOwner (hd : s.slots.Distinct) (name slot : String) :
    Course p s (s.makeOwner name slot).2 := by
  simp only [makeOwner]
  split
  · rename_i hs
    exact course_convert hd hs (.memory (.self rfl) rfl)
  · exact .refl hd

theorem course_unmakeOwner (hd : s.slots.Distinct) (name slot : String) :
    Course p s (s.unmakeOwner name slot).2 := by
  simp only [unmakeOwner]
  split
  · rename_i hs
    exact course_convert hd hs (.memory (.self rfl) rfl)
  · exact .refl hd

theorem course_makeProbe (hd : s.slots.Distinct) (name : String) (c : Contents)
    (claim : Option UInt64) (state : Lifecycle) (exposesArray : Bool) :
    Course p s (s.makeProbe name c claim state exposesArray).2 := by
  simp only [makeProbe]
  split
  · rename_i hc
    -- The names of probes are no part of the estate.
    let s₁ : Session := { s with probes := s.probes.put name (s.store.managers.length, 0) }
    have hm : s₁.estate.Makes p (s.store.addProbe c claim state exposesArray) := .probe hc
    have hd₁ : s₁.slots.Distinct := hd
    have h := course_makeManager hd₁ name hm
    exact ⟨h.distinct, h.deed⟩
  · exact .refl hd

end Session

end LargeBuffers
