import LargeBuffers.Proofs.Course.Step

/-! # Direct calls of managers

A region is handed off, and a pin is taken or given up, because a manager was asked to. All other
events come of what becomes of buffers and handles. Operations that do not ask a manager directly
note no such event.
-/

namespace LargeBuffers

def Event.direct : Event → Bool
  | .handedOff _ | .pinned .. | .unpinned _ => true
  | _ => false

def directs (journal : List Event) : List Event := journal.filter Event.direct

theorem directs_append_others {xs : List Event} (h : ∀ x ∈ xs, x.direct = false)
    (journal : List Event) : directs (journal ++ xs) = directs journal := by
  have hn : directs xs = [] := List.filter_eq_nil_iff.mpr fun x hx => by simp [h x hx]
  rw [directs, List.filter_append, ← directs, ← directs, hn, List.append_nil]

theorem directs_concat {x : Event} (h : x.direct = false) (journal : List Event) :
    directs (journal ++ [x]) = directs journal :=
  directs_append_others (List.forall_mem_singleton.mpr h) journal

namespace Store

variable (st : Store)

theorem directs_free (a : AllocatorId) (len : UInt64) :
    directs (st.free a len).journal = directs st.journal := by
  simp only [free]
  repeat' split
  · rfl
  · exact directs_concat rfl _
  · exact directs_concat rfl _

theorem directs_dropReference (i : ImportationId) :
    directs (st.dropReference i).journal = directs st.journal := by
  unfold dropReference
  split
  · rfl
  · dsimp only
    split
    · exact directs_concat rfl _
    · rfl

theorem directs_release (r : RegionId) (g : Region) :
    directs (st.release r g).journal = directs st.journal := by
  have hn : directs (st.note (.released r g)).journal = directs st.journal :=
    directs_concat rfl _
  unfold release
  split
  · exact hn
  · exact (directs_free ..).trans hn
  · exact (directs_dropReference ..).trans hn

theorem directs_giveUp (k : ManagerId) :
    directs (st.giveUp k).journal = directs st.journal := by
  obtain ⟨r, g, -, -, he⟩ | ⟨he, -⟩ := st.giveUp_cases k
  · rw [he, directs_release]
    exact directs_concat rfl _
  · rw [he]

theorem directs_dispose (k : ManagerId) :
    directs (st.dispose k).journal = directs st.journal := by
  obtain he | ⟨m, m', events, -, -, -, hx, he⟩ := st.dispose_cases k
  · rw [he, directs_giveUp]
  · rw [he]
    refine directs_append_others (fun x hm => ?_) _
    rw [hx x hm]
    rfl

theorem directs_dropRaw (r : RegionId) :
    directs (st.dropRaw r).journal = directs st.journal := by
  unfold dropRaw
  split
  · rw [directs_release]
    exact directs_concat rfl _
  · rfl

theorem journal_write (v : View) (bytes : List UInt8) :
    (st.write v bytes).journal = st.journal := by
  obtain ⟨blocks, he⟩ := st.write_frame v bytes
  rw [he]

theorem directs_allocate {p : Platform} {st' : Store} {a : AllocatorId} {length : UInt64}
    (h : st.allocate p a length = (.ok (), st')) : directs st'.journal = directs st.journal := by
  obtain ⟨al, -, ⟨alignment, -, h⟩ | ⟨limit, pad, -, -, rfl⟩⟩ := allocate_eq_ok h
  · obtain ⟨size, g, -, -, rfl⟩ := allocateNative_eq_ok h
    rw [journal_countAllocation]
    exact directs_concat rfl _
  · rw [journal_countAllocation]
    rfl

end Store

def Op.acquires : Op → Bool
  | .tryAcquire .. => true
  | _ => false

def Op.pins : Op → Bool
  | .pin .. | .unpin _ => true
  | _ => false

namespace Session

variable {p : Platform} {s s' : Session} {r : Result}

theorem directs_discard (s : Session) (h : Handle) :
    directs (s.discard h).store.journal = directs s.store.journal := by
  have hr : ∀ k, directs (s.retire k).store.journal = directs s.store.journal := by
    intro k
    unfold retire
    split
    · exact s.store.directs_giveUp k
    · rfl
  unfold discard
  split
  · exact s.store.directs_dropRaw _
  · exact s.store.directs_dropReference _
  · split
    · exact hr _
    · rfl

theorem directs_put (s : Session) (name : String) (h : Handle) :
    directs (s.put name h).store.journal = directs s.store.journal := by
  simp only [put]
  split
  · exact directs_discard ..
  · rfl

theorem directs_drop (s : Session) (slot : String) :
    directs (s.drop slot).store.journal = directs s.store.journal := by
  simp only [drop]
  split
  · exact directs_discard ..
  · rfl

theorem directs_dropAll (slots : List String) (n : Nat) :
    directs (slots.foldl (fun (x : Nat × Session) slot =>
      if (x.2.slots.get? slot).isSome then (x.1 + 1, x.2.drop slot)
      else x) (n, s)).2.store.journal = directs s.store.journal := by
  induction slots generalizing s n with
  | nil => rfl
  | cons slot slots ih =>
    rw [List.foldl_cons]
    split
    · rw [ih, directs_drop]
    · exact ih n

/-! ## Operations without direct calls -/

/-- No event of an operation tells of a direct call. -/
def Quiet (s : Session) (r : Result) : Prop :=
  directs r.2.store.journal = directs s.store.journal

theorem quiet_refuse (s : Session) (f : Failure) : s.Quiet (s.refuse f) := rfl

theorem quiet_put (h : s'.store.journal = s.store.journal) (name : String) (x : Handle)
    (a : Answer) : s.Quiet ((s'.put name x).answer a) :=
  (directs_put ..).trans (congrArg directs h)

theorem quiet_drop (h : directs s'.store.journal = directs s.store.journal) (slot : String)
    (a : Answer) : s.Quiet ((s'.drop slot).answer a) :=
  (directs_drop ..).trans h

theorem Quiet.ofBytes (h : s.Quiet r) : s.Quiet (s.ofBytes r) := by
  unfold Session.ofBytes
  split
  · exact h
  · exact quiet_refuse ..

section Functions

variable (s : Session) (name slot dest storage : String) (c : Contents) (offset length : UInt64)

theorem quiet_reply (a : Except Failure Answer) : s.Quiet (s.reply a) := by
  rw [Quiet, reply_snd]

theorem quiet_makeStorage : s.Quiet (s.makeStorage name c) := by
  unfold makeStorage
  split <;> rfl

theorem quiet_makeArray : s.Quiet (s.makeArray name c) := by
  unfold makeArray
  split
  · exact quiet_put rfl ..
  · exact quiet_refuse ..

theorem quiet_makeMemory (a : Access) (source : MemorySource) :
    s.Quiet (s.makeMemory name a source) := by
  cases source <;> simp only [makeMemory]
  case nothing => exact quiet_put rfl ..
  all_goals repeat' split
  all_goals first | exact quiet_refuse .. | exact quiet_put rfl ..

theorem quiet_makeNarrow : s.Quiet (s.makeNarrow name slot) := by
  unfold makeNarrow
  split
  · exact quiet_put rfl ..
  · exact quiet_refuse ..

theorem quiet_makeClone : s.Quiet (s.makeClone name slot) := by
  unfold makeClone
  split
  · exact quiet_put rfl ..
  · exact quiet_refuse ..

theorem quiet_makeSlice (part : Memory → Except Error Memory) :
    s.Quiet (s.makeSlice name slot part) := by
  unfold makeSlice
  repeat' split
  · exact quiet_put rfl ..
  · exact quiet_refuse ..
  · exact quiet_refuse ..

theorem quiet_makeManager {st : Store} (h : st.journal = s.store.journal) :
    s.Quiet (s.makeManager name st) :=
  quiet_put h ..

theorem quiet_makeArrayManager : s.Quiet (s.makeArrayManager name c) := by
  unfold makeArrayManager
  split
  · exact quiet_makeManager _ _ rfl
  · exact quiet_refuse ..

theorem quiet_makeNative (recorder : String) :
    s.Quiet (s.makeNative name storage recorder offset length) := by
  apply Quiet.ofBytes
  split
  · exact quiet_refuse ..
  · exact quiet_makeManager _ _ rfl
  · exact quiet_refuse ..

theorem quiet_makeShared : s.Quiet (s.makeShared name slot) := by
  unfold makeShared
  split
  · exact quiet_put rfl ..
  · exact quiet_refuse ..

theorem quiet_intoManager : s.Quiet (s.intoManager name slot) := by
  unfold intoManager
  split
  · exact quiet_put rfl ..
  · exact quiet_refuse ..

theorem quiet_makeAlias : s.Quiet (s.makeAlias name slot storage offset length) := by
  apply Quiet.ofBytes
  split
  · exact quiet_refuse ..
  · split
    · rename_i h
      obtain ⟨imp, -, -, rfl⟩ := Store.addAlias_eq_ok h
      exact quiet_makeManager _ _ rfl
    · rename_i h
      rw [Store.addAlias_eq_error h]
      exact quiet_refuse ..
  · exact quiet_refuse ..

theorem quiet_makeAllocator (alignment : Option UInt64) :
    s.Quiet (s.makeAllocator name alignment) := by
  apply Quiet.ofBytes
  split
  · exact quiet_put rfl ..
  · exact quiet_refuse ..

theorem quiet_makeBuffer (h : directs s'.store.journal = directs s.store.journal)
    (form : BufferForm) (k : ManagerId) : s.Quiet (s'.makeBuffer name form k) := by
  cases form <;> exact (directs_put ..).trans h

theorem quiet_allocate (p : Platform) (form : BufferForm) :
    s.Quiet (s.allocate p name slot form length) := by
  obtain ⟨f, he⟩ | ⟨-, -, he⟩ | ⟨a, st, -, -, -, h, he⟩ := s.allocate_cases p name slot form length
  · rw [he]
    exact quiet_refuse ..
  · rw [he]
    exact quiet_makeBuffer _ _ rfl ..
  · rw [he]
    exact quiet_makeBuffer _ _ (s.store.directs_allocate h) ..

theorem quiet_makeOwner : s.Quiet (s.makeOwner name slot) := by
  unfold makeOwner
  split
  · exact quiet_put rfl ..
  · exact quiet_refuse ..

theorem quiet_unmakeOwner : s.Quiet (s.unmakeOwner name slot) := by
  unfold unmakeOwner
  split
  · exact quiet_put rfl ..
  · exact quiet_refuse ..

theorem quiet_makeProbe (claim : Option UInt64) (state : Lifecycle) (exposesArray : Bool) :
    s.Quiet (s.makeProbe name c claim state exposesArray) := by
  unfold makeProbe
  split
  · exact quiet_put rfl ..
  · exact quiet_refuse ..

theorem quiet_copyView {v v' : View} {s' : Session} (h : s.copyView v v' = .ok s') (a : Answer) :
    s.Quiet (s'.answer a) := by
  obtain ⟨-, rfl⟩ := copyView_eq_ok h
  exact congrArg directs (s.store.journal_write ..)

theorem quiet_spanMut (prog : Program) : s.Quiet (s.spanMut slot prog) := by
  unfold spanMut
  repeat' split
  · exact congrArg directs (s.store.journal_write ..)
  · exact quiet_refuse ..
  · exact quiet_refuse ..

theorem quiet_copy : s.Quiet (s.copy slot dest) := by
  unfold copy
  repeat' split
  · exact quiet_copyView _ ‹_› _
  · exact quiet_refuse ..
  · exact quiet_refuse ..

theorem quiet_tryCopy : s.Quiet (s.tryCopy slot dest) := by
  unfold tryCopy
  repeat' split
  · exact quiet_copyView _ ‹_› _
  · rfl
  · exact quiet_refuse ..

theorem quiet_copyToSpan : s.Quiet (s.copyToSpan slot dest) := by
  unfold copyToSpan
  repeat' split
  · exact quiet_refuse ..
  · exact quiet_refuse ..
  · exact quiet_copyView _ ‹_› _
  · exact quiet_refuse ..
  · exact quiet_refuse ..

theorem quiet_calls : s.Quiet (s.calls slot) := by
  unfold calls
  split <;> rfl

theorem quiet_dispose : s.Quiet (s.dispose slot) := by
  unfold dispose
  split
  · refine quiet_drop ?_ ..
    unfold disposeBacking
    repeat' split
    · exact s.store.directs_dispose _
    · rfl
    · rfl
  · exact s.store.directs_dispose _
  · split
    · exact s.store.directs_dispose _
    · exact quiet_refuse ..
  · exact quiet_refuse ..

theorem quiet_dropSlot : s.Quiet (s.dropSlot slot) := by
  unfold dropSlot
  split
  · exact quiet_drop rfl ..
  · exact quiet_refuse ..

theorem quiet_release : s.Quiet (s.release slot) := by
  unfold release
  split
  · exact quiet_drop rfl ..
  · exact quiet_refuse ..

theorem quiet_intoInner : s.Quiet (s.intoInner slot) := by
  unfold intoInner
  repeat' split
  all_goals rfl

end Functions

theorem quiet_step {op : Op} (ha : op.acquires = false) (hp : op.pins = false) :
    s.Quiet (s.step p op) := by
  cases op with
  | tryAcquire => cases ha
  | pin | unpin => cases hp
  | storage => exact quiet_makeStorage ..
  | array => exact quiet_makeArray ..
  | memory => exact quiet_makeMemory ..
  | narrow => exact quiet_makeNarrow ..
  | clone => exact quiet_makeClone ..
  | slice | sliceFrom => exact quiet_makeSlice ..
  | arrayManager => exact quiet_makeArrayManager ..
  | nullManager => exact quiet_makeManager _ _ rfl
  | native => exact quiet_makeNative ..
  | share => exact quiet_makeShared ..
  | intoManager => exact quiet_intoManager ..
  | addAlias => exact quiet_makeAlias ..
  | allocator => exact quiet_makeAllocator ..
  | allocate => exact quiet_allocate ..
  | own => exact quiet_makeOwner ..
  | disown => exact quiet_unmakeOwner ..
  | probe => exact quiet_makeProbe ..
  | nullSingleton | importation | defaultAllocator | meteredAllocator =>
    exact .ofBytes (quiet_put rfl ..)
  | drop => exact quiet_dropSlot ..
  | dropAll slots => exact directs_dropAll slots 0
  | release => exact quiet_release ..
  | dispose => exact quiet_dispose ..
  | intoInner => exact quiet_intoInner ..
  | calls => exact quiet_calls ..
  | spanMut => exact quiet_spanMut ..
  | copy => exact quiet_copy ..
  | tryCopy => exact quiet_tryCopy ..
  | copyToSpan => exact quiet_copyToSpan ..
  | storageBytes | sameManager | equal | distinct | values | getArray | span | info =>
    exact quiet_reply ..
  | recorder | raiseGauge | lowerGauge | unreadable => rfl

/-! ## Acquisition -/

theorem tryAcquire_cases (s : Session) (name slot : String) :
    (∃ (k : ManagerId) (r : RegionId) (g : Region), s.tryAcquire name slot =
      ((s.withStore ((s.store.setManager k (.native r false)).note (.handedOff g.len))).put name
        (.raw r)).answer (.flag true)) ∨
    s.tryAcquire name slot = s.answer (.flag false) ∨
    ∃ f, s.tryAcquire name slot = s.refuse f := by
  unfold tryAcquire
  split
  · rename_i k _
    split
    · split
      · rename_i r st ho
        obtain ⟨g, -, -, -, rfl⟩ := Store.handOff_eq_some ho
        exact .inl ⟨k, r, g, rfl⟩
      · rename_i st ho
        rw [Store.handOff_eq_none ho]
        exact .inr (.inl rfl)
    · exact .inr (.inr ⟨_, rfl⟩)
  · exact .inr (.inr ⟨_, rfl⟩)

end Session

end LargeBuffers
