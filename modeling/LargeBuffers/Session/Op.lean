import LargeBuffers.Session

/-! # Operations and answers

The operations of a session. Those that make a handle name it; handles that an operation
works on are named by their slots.
-/

namespace LargeBuffers

inductive MemorySource where
  | nothing
  /-- An array of its own. -/
  | values (c : Contents)
  | array (slot : String)
  | range (slot : String) (start length : UInt64)
  /-- All storage of a manager; its handle stays unless it is taken. -/
  | manager (slot : String) (take : Bool)
  deriving DecidableEq, Repr

inductive BufferForm where
  | shared
  | native
  | owner
  deriving DecidableEq, Repr

inductive Op where
  /-- Bytes at an aligned address that stay to the end. -/
  | storage (name : String) (c : Contents)
  | storageBytes (storage : String)
  | recorder (name : String) (exclusive : Bool)
  | array (name : String) (c : Contents)
  | memory (name : String) (a : Access) (source : MemorySource)
  | narrow (name slot : String)
  | clone (name slot : String)
  | slice (name slot : String) (start length : UInt64)
  | sliceFrom (name slot : String) (start : UInt64)
  | arrayManager (name : String) (c : Contents)
  | nullManager (name : String)
  | nullSingleton (name : String)
  | native (name storage recorder : String) (offset length : UInt64)
  | share (name slot : String)
  | tryAcquire (name slot : String)
  | intoManager (name slot : String)
  | importation (name : String)
  | addAlias (name slot storage : String) (offset length : UInt64)
  | allocator (name : String) (alignment : Option UInt64)
  | defaultAllocator (name : String)
  | meteredAllocator (name : String) (limit pad : UInt64)
  | allocate (name slot : String) (form : BufferForm) (length : UInt64)
  | own (name slot : String)
  | disown (name slot : String)
  | probe (name : String) (c : Contents) (claim : Option UInt64) (state : Lifecycle)
      (exposesArray : Bool)
  | drop (slot : String)
  | dropAll (slots : List String)
  | release (slot : String)
  | dispose (slot : String)
  | unpin (slot : String)
  | intoInner (slot : String)
  | calls (probe : String)
  | sameManager (slot₁ slot₂ : String)
  | equal (slot₁ slot₂ : String)
  | distinct (slots : List String)
  | values (slot : String)
  | getArray (slot : String)
  | span (slot : String) (p : Program)
  | spanMut (slot : String) (p : Program)
  | pin (slot : String) (index : Option UInt64)
  | copy (slot dest : String)
  | tryCopy (slot dest : String)
  /-- The copy of a read-only memory to a span that is resolved before it. -/
  | copyToSpan (slot dest : String)
  | raiseGauge (bytes : UInt64)
  | lowerGauge (bytes : UInt64)
  | info (slot : String)
  | unreadable
  deriving DecidableEq, Repr

/-- Where a pin lies, counted in values from the first one that can be read. -/
structure PinReport where
  position : Option UInt64
  value : Option Value
  pinned : Bool
  deriving DecidableEq, Repr

inductive ManagerDetails where
  | described (text : String)
  | native (released exclusive : Bool) (offset : Option UInt64) (text : String)
  deriving DecidableEq, Repr

inductive Info where
  | array (len : UInt64)
  | memory (m : Memory) (text : String)
  | readOnly (m : Memory) (text : String)
  | owner (m : Memory) (text : String)
  | manager (len : UInt64) (state : Lifecycle) (details : Option ManagerDetails)
  | raw (len : UInt64) (offset : Option UInt64) (consistent : Bool) (text : String)
  | allocator (alignment : UInt64) (text : Option String)
  | importation (references : Int) (tracked : UInt64)
  deriving DecidableEq, Repr

inductive Answer where
  | done
  | flag (b : Bool)
  | number (n : Nat)
  | length (len : UInt64)
  | alignment (alignment : UInt64)
  | contents (c : Option Contents)
  | transcript (t : Transcript)
  | sameManager (same : Option Bool)
  | equality (equal sameHash : Bool)
  | distinct (writable readOnly : Nat)
  | calls (calls : List Call)
  | pin (report : PinReport)
  | info (i : Info)
  deriving DecidableEq, Repr

namespace Session

abbrev Result := Except Failure Answer × Session

def answer (s : Session) (a : Answer) : Result := (.ok a, s)

def refuse (s : Session) (f : Failure) : Result := (.error f, s)

def reply (s : Session) : Except Failure Answer → Result
  | .ok a => s.answer a
  | .error f => s.refuse f

end Session

end LargeBuffers
