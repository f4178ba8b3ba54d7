import LargeBuffers.Proofs.Course.Make
import LargeBuffers.Session.Step

/-! # Atomic operations

Every operation but a pin checks what it needs before it changes anything: it takes place, or it
is refused and leaves the session as it was.
-/

namespace LargeBuffers.Session

variable {p : Platform} {s s' : Session} {r : Result} {op : Op}

/-- An operation takes place, or it is refused and leaves the session as it was. -/
inductive Atomic (s : Session) : Result → Prop
  | answered (s' : Session) (a : Answer) : s.Atomic (s'.answer a)
  | refused (f : Failure) : s.Atomic (s.refuse f)

theorem Atomic.snd_eq (h : s.Atomic r) {f : Failure} (hr : r.1 = .error f) : r.2 = s := by
  cases h with
  | answered s' a => cases hr
  | refused f => rfl

theorem Atomic.ofBytes (h : s.Atomic r) : s.Atomic (s.ofBytes r) := by
  unfold Session.ofBytes
  split
  · exact h
  · constructor

section Functions

variable (s : Session) (name slot dest storage : String) (c : Contents) (offset length : UInt64)

theorem atomic_reply (a : Except Failure Answer) : s.Atomic (s.reply a) := by
  cases a <;> constructor

/-! ## Making -/

theorem atomic_makeStorage : s.Atomic (s.makeStorage name c) := by
  unfold makeStorage
  split <;> constructor

theorem atomic_makeArray : s.Atomic (s.makeArray name c) := by
  unfold makeArray
  split <;> constructor

theorem atomic_makeMemory (a : Access) (source : MemorySource) :
    s.Atomic (s.makeMemory name a source) := by
  cases source with
  | nothing => constructor
  | values c =>
    simp only [makeMemory]
    split <;> constructor
  | array slot =>
    simp only [makeMemory]
    split <;> constructor
  | range slot start length =>
    simp only [makeMemory]
    split
    · split <;> constructor
    · constructor
  | manager slot take =>
    simp only [makeMemory]
    split
    · cases take <;> constructor
    · constructor

theorem atomic_makeNarrow : s.Atomic (s.makeNarrow name slot) := by
  unfold makeNarrow
  split <;> constructor

theorem atomic_makeClone : s.Atomic (s.makeClone name slot) := by
  unfold makeClone
  split <;> constructor

theorem atomic_makeSlice (part : Memory → Except Error Memory) :
    s.Atomic (s.makeSlice name slot part) := by
  unfold makeSlice
  split
  · split <;> constructor
  · constructor

theorem atomic_makeArrayManager : s.Atomic (s.makeArrayManager name c) := by
  unfold makeArrayManager
  split <;> constructor

theorem atomic_makeNative (recorder : String) :
    s.Atomic (s.makeNative name storage recorder offset length) := by
  apply Atomic.ofBytes
  split <;> constructor

theorem atomic_makeShared : s.Atomic (s.makeShared name slot) := by
  unfold makeShared
  split <;> constructor

theorem atomic_tryAcquire : s.Atomic (s.tryAcquire name slot) := by
  unfold tryAcquire
  split
  · split
    · split <;> constructor
    · constructor
  · constructor

theorem atomic_intoManager : s.Atomic (s.intoManager name slot) := by
  unfold intoManager
  split <;> constructor

theorem atomic_makeAlias : s.Atomic (s.makeAlias name slot storage offset length) := by
  apply Atomic.ofBytes
  split
  · constructor
  · split
    · constructor
    · rename_i h
      rw [Store.addAlias_eq_error h]
      constructor
  · constructor

theorem atomic_makeAllocator (alignment : Option UInt64) :
    s.Atomic (s.makeAllocator name alignment) := by
  apply Atomic.ofBytes
  split <;> constructor

theorem atomic_makeBuffer (form : BufferForm) (k : ManagerId) :
    s.Atomic (s'.makeBuffer name form k) := by
  cases form <;> constructor

theorem atomic_allocate (p : Platform) (form : BufferForm) :
    s.Atomic (s.allocate p name slot form length) := by
  rcases s.allocate_cases p name slot form length with
    ⟨f, he⟩ | ⟨-, -, he⟩ | ⟨a, st, -, -, -, -, he⟩
  · rw [he]
    constructor
  · rw [he]
    apply atomic_makeBuffer
  · rw [he]
    apply atomic_makeBuffer

theorem atomic_makeOwner : s.Atomic (s.makeOwner name slot) := by
  unfold makeOwner
  split <;> constructor

theorem atomic_unmakeOwner : s.Atomic (s.unmakeOwner name slot) := by
  unfold unmakeOwner
  split <;> constructor

theorem atomic_makeProbe (claim : Option UInt64) (state : Lifecycle) (exposesArray : Bool) :
    s.Atomic (s.makeProbe name c claim state exposesArray) := by
  unfold makeProbe
  split <;> constructor

/-! ## Using -/

theorem atomic_spanMut (prog : Program) : s.Atomic (s.spanMut slot prog) := by
  unfold spanMut
  split
  · split <;> constructor
  · constructor

theorem atomic_copy : s.Atomic (s.copy slot dest) := by
  unfold copy
  split
  · split <;> constructor
  · constructor

theorem atomic_tryCopy : s.Atomic (s.tryCopy slot dest) := by
  unfold tryCopy
  split
  · split <;> constructor
  · constructor

theorem atomic_copyToSpan : s.Atomic (s.copyToSpan slot dest) := by
  unfold copyToSpan
  split
  · split
    · constructor
    · constructor
    · split <;> constructor
  · constructor

theorem atomic_unpin : s.Atomic (s.unpin slot) := by
  unfold unpin
  split <;> constructor

theorem atomic_calls : s.Atomic (s.calls slot) := by
  unfold calls
  split <;> constructor

theorem atomic_dispose : s.Atomic (s.dispose slot) := by
  unfold dispose
  split
  · constructor
  · constructor
  · split <;> constructor
  · constructor

theorem atomic_dropSlot : s.Atomic (s.dropSlot slot) := by
  unfold dropSlot
  split <;> constructor

theorem atomic_release : s.Atomic (s.release slot) := by
  unfold release
  split <;> constructor

theorem atomic_intoInner : s.Atomic (s.intoInner slot) := by
  unfold intoInner
  split
  · split <;> constructor
  · constructor

end Functions

theorem atomic_step (hp : ∀ slot index, op ≠ .pin slot index) : s.Atomic (s.step p op) := by
  cases op with
  | storage => exact atomic_makeStorage ..
  | array => exact atomic_makeArray ..
  | memory => exact atomic_makeMemory ..
  | narrow => exact atomic_makeNarrow ..
  | clone => exact atomic_makeClone ..
  | slice | sliceFrom => exact atomic_makeSlice ..
  | arrayManager => exact atomic_makeArrayManager ..
  | native => exact atomic_makeNative ..
  | share => exact atomic_makeShared ..
  | tryAcquire => exact atomic_tryAcquire ..
  | intoManager => exact atomic_intoManager ..
  | addAlias => exact atomic_makeAlias ..
  | allocator => exact atomic_makeAllocator ..
  | allocate => exact atomic_allocate ..
  | own => exact atomic_makeOwner ..
  | disown => exact atomic_unmakeOwner ..
  | probe => exact atomic_makeProbe ..
  | nullSingleton | importation | defaultAllocator | meteredAllocator =>
    exact .ofBytes (.answered ..)
  | drop => exact atomic_dropSlot ..
  | release => exact atomic_release ..
  | dispose => exact atomic_dispose ..
  | unpin => exact atomic_unpin ..
  | intoInner => exact atomic_intoInner ..
  | calls => exact atomic_calls ..
  | spanMut => exact atomic_spanMut ..
  | copy => exact atomic_copy ..
  | tryCopy => exact atomic_tryCopy ..
  | copyToSpan => exact atomic_copyToSpan ..
  | storageBytes | sameManager | equal | distinct | values | getArray | span | info =>
    exact atomic_reply ..
  | recorder | nullManager | dropAll | raiseGauge | lowerGauge | unreadable => constructor
  | pin slot index => exact absurd rfl (hp slot index)

end LargeBuffers.Session
