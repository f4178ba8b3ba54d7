import LargeBuffers.Directory
import LargeBuffers.Store.Allocate
import LargeBuffers.Store.Release
import LargeBuffers.Store.Resolve

/-! # Sessions

A session holds handles under names. How many handles share a backing is read off the names:
a manager is retired when no handle refers to it any more.
-/

namespace LargeBuffers

inductive Handle where
  | array (block : BlockId)
  | memory (m : Memory)
  | readOnly (m : Memory)
  /-- A memory with a guaranteed release. -/
  | owner (m : Memory)
  /-- One of any number of handles to a manager. -/
  | shared (m : ManagerId)
  /-- The only handle to a manager. -/
  | manager (m : ManagerId)
  /-- A region that a manager handed off. -/
  | raw (r : RegionId)
  | allocator (a : AllocatorId)
  | importation (i : ImportationId)
  deriving DecidableEq, Repr

namespace Handle

def backing : Handle → Backing
  | array b => .array b
  | memory m | readOnly m | owner m => m.backing
  | shared m | manager m => .manager m
  | _ => .nothing

/-- The memory inside a handle, with the access that its copies have. -/
def memory? : Handle → Option (Access × Memory)
  | memory m | owner m => some (.writable, m)
  | readOnly m => some (.readOnly, m)
  | _ => none

def writable? : Handle → Option Memory
  | memory m | owner m => some m
  | _ => none

def manager? : Handle → Option ManagerId
  | shared m | manager m => some m
  | _ => none

def ofMemory : Access → Memory → Handle
  | .writable, m => memory m
  | .readOnly, m => readOnly m

@[simp]
theorem memory?_ofMemory (a : Access) (m : Memory) : (ofMemory a m).memory? = some (a, m) := by
  cases a <;> rfl

/-- Another handle to the same backing. A copy of an owner is a plain memory. -/
def clone? : Handle → Option Handle
  | array b => some (array b)
  | memory m | owner m => some (memory m)
  | readOnly m => some (readOnly m)
  | shared m => some (shared m)
  | _ => none

end Handle

structure Session where
  store : Store
  slots : Directory Handle := []
  storages : Directory BlockId := []
  recorders : Directory RecorderId := []
  importations : Directory ImportationId := []
  /-- The probes made, and how many of the calls to each have been shown. -/
  probes : Directory (ManagerId × Nat) := []
  deriving Repr

namespace Session

def start (e : Element) : Session := { store := { element := e } }

variable (s : Session)

/-- The number of handles to a backing. The null singleton has one outside of every session. -/
def holders (b : Backing) : Nat :=
  s.slots.countP (·.2.backing = b) + if b = .manager nullSingleton then 1 else 0

def sole (b : Backing) : Bool := s.holders b == 1

def withStore (store : Store) : Session := { s with store }

/-- A manager without handles gives up what it holds. -/
def retire (m : ManagerId) : Session :=
  if s.holders (.manager m) = 0 then s.withStore (s.store.giveUp m) else s

/-- The end of a handle that is no longer under any name. -/
def discard (h : Handle) : Session :=
  match h with
  | .raw r => s.withStore (s.store.dropRaw r)
  | .importation i => s.withStore (s.store.dropReference i)
  | _ =>
    match h.backing with
    | .manager m => s.retire m
    | _ => s

def remove (name : String) : Session := { s with slots := s.slots.erase name }

def drop (name : String) : Session :=
  match s.slots.get? name with
  | some h => (s.remove name).discard h
  | none => s

/-- Puts a handle under a name, and drops the one that was there. -/
def put (name : String) (h : Handle) : Session :=
  let s₁ : Session := { s with slots := s.slots.put name h }
  match s.slots.get? name with
  | some old => s₁.discard old
  | none => s₁

def newestManager : ManagerId := s.store.managers.length - 1

end Session

end LargeBuffers
