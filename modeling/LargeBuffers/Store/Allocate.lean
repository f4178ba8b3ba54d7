import LargeBuffers.Store

/-! # New managers

Allocated buffers, aliases of importations and other regions, each under a manager of its own.
A new object is the last one of its register.
-/

namespace LargeBuffers.Store

def addNative (s : Store) (g : Region) : Store :=
  (s.addRegion g).addManager (.native s.regions.length true)

def addArrayManager (s : Store) (c : Contents) : Store :=
  (s.addContents c).addManager (.array s.blocks.length true)

def addProbe (s : Store) (c : Contents) (claim : Option UInt64) (state : Lifecycle)
    (exposesArray : Bool) : Store :=
  (s.addContents c).addManager (.probe ⟨s.blocks.length, claim, state, exposesArray⟩)

attribute [simp] addNative addArrayManager addProbe

def countAllocation (s : Store) (a : AllocatorId) (bytes : UInt64) : Store :=
  match s.allocators[a]? with
  | some al => s.setAllocator a { al with statistics := al.statistics.recordAllocation bytes }
  | none => s

/-- The block that the platform granted, with the bytes from the first aligned one on cleared. -/
def clearedBlock (g : Grant) (size offset length : UInt64) : Block :=
  let usable := (Window.mk .u8 offset length).write (Contents.zeros .u8 length).bytes g.bytes
  ⟨g.base, ⟨.u8, size, usable⟩⟩

/-- A manager over `length` zero bytes from the platform, the first of them aligned. -/
def allocateNative (p : Platform) (s : Store) (a : AllocatorId) (alignment length : UInt64) :
    Except Error Unit × Store :=
  match requestSize alignment length with
  | .error e => (.error e, s)
  | .ok size =>
    match p.grant s.blocks.length size with
    | none => (.error (.allocationFailed size), s)
    | some g =>
      let offset := alignOffset g.base alignment
      let s₁ := s.addBlock (clearedBlock g size offset length)
      let s₂ := s₁.addNative ⟨s.blocks.length, offset, length, .allocator a⟩
      (.ok (), ((s₂.raiseGauge size).note (.allocated a s.regions.length size)).countAllocation
        a size)

theorem allocateNative_eq_ok {p : Platform} {s st : Store} {a : AllocatorId}
    {alignment length : UInt64} (h : s.allocateNative p a alignment length = (.ok (), st)) :
    ∃ size g, requestSize alignment length = .ok size ∧ p.grant s.blocks.length size = some g ∧
      st = (((((s.addBlock (clearedBlock g size (alignOffset g.base alignment) length)).addNative
        ⟨s.blocks.length, alignOffset g.base alignment, length, .allocator a⟩).raiseGauge
          size).note (.allocated a s.regions.length size)).countAllocation a size) := by
  unfold allocateNative at h
  split at h
  · cases h
  · split at h
    · cases h
    · exact ⟨_, _, ‹_›, ‹_›, (Prod.mk.inj h).2.symm⟩

def allocate (p : Platform) (s : Store) (a : AllocatorId) (length : UInt64) :
    Except Error Unit × Store :=
  match s.allocators[a]? with
  | none => (.error (.allocationFailed length), s)
  | some al =>
    match al.supply with
    | .native alignment => s.allocateNative p a alignment length
    | .metered limit pad =>
      if length ≤ limit then
        (.ok (), (s.addArrayManager (.zeros .u8 length)).countAllocation a (length + pad))
      else (.error (.allocationFailed length), s)

theorem allocate_eq_ok {p : Platform} {s st : Store} {a : AllocatorId} {length : UInt64}
    (h : s.allocate p a length = (.ok (), st)) :
    ∃ al, s.allocators[a]? = some al ∧
      ((∃ alignment, al.supply = .native alignment ∧
          s.allocateNative p a alignment length = (.ok (), st)) ∨
        ∃ limit pad, al.supply = .metered limit pad ∧ length ≤ limit ∧
          st = (s.addArrayManager (.zeros .u8 length)).countAllocation a (length + pad)) := by
  unfold allocate at h
  split at h
  · cases h
  · refine ⟨_, ‹_›, ?_⟩
    split at h
    · exact .inl ⟨_, ‹_›, h⟩
    · split at h
      · exact .inr ⟨_, _, ‹_›, ‹_›, (Prod.mk.inj h).2.symm⟩
      · cases h

theorem allocate_eq_error {p : Platform} {s st : Store} {a : AllocatorId} {length : UInt64}
    {e : Error} (h : s.allocate p a length = (.error e, st)) : st = s := by
  unfold allocate allocateNative at h
  repeat' split at h
  all_goals cases h
  all_goals rfl

def addAlias (s : Store) (i : ImportationId) (block : BlockId) (offset length : UInt64) :
    Except Error Unit × Store :=
  match s.importations[i]? with
  | none => (.error (.disposed "ImportedAllocationOwner"), s)
  | some imp =>
    if 0 < imp.references then
      let s₁ := s.setImportation i
        { imp with references := imp.references + 1, tracked := imp.tracked + length }
      (.ok (), (s₁.raiseGauge length).addNative ⟨block, offset, length, .importation i⟩)
    else (.error (.disposed "ImportedAllocationOwner"), s)

theorem addAlias_eq_ok {s st : Store} {i : ImportationId} {block : BlockId}
    {offset length : UInt64} (h : s.addAlias i block offset length = (.ok (), st)) :
    ∃ imp, s.importations[i]? = some imp ∧ 0 < imp.references ∧
      st = ((s.setImportation i
        { imp with references := imp.references + 1, tracked := imp.tracked + length }).raiseGauge
          length).addNative ⟨block, offset, length, .importation i⟩ := by
  unfold addAlias at h
  split at h
  · cases h
  · split at h
    · exact ⟨_, ‹_›, ‹_›, (Prod.mk.inj h).2.symm⟩
    · cases h

theorem addAlias_eq_error {s st : Store} {i : ImportationId} {block : BlockId}
    {offset length : UInt64} {e : Error} (h : s.addAlias i block offset length = (.error e, st)) :
    st = s := by
  unfold addAlias at h
  repeat' split at h
  all_goals cases h
  all_goals rfl

end LargeBuffers.Store
