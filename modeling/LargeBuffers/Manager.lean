import LargeBuffers.Window

/-! # Storage, regions and managers

Everything that holds bytes is a block. A native region is a part of a block together with the
owner that releases it. A manager stands for storage that is not a plain array; it is live,
empty from the start, or released.
-/

namespace LargeBuffers

abbrev BlockId := Nat
abbrev RegionId := Nat
abbrev ManagerId := Nat
abbrev AllocatorId := Nat
abbrev ImportationId := Nat
abbrev RecorderId := Nat

structure Block where
  base : UInt64
  contents : Contents
  deriving DecidableEq, Repr

inductive Owner where
  /-- Keeps a record of the releases and frees nothing. -/
  | recorder (o : RecorderId)
  | allocator (a : AllocatorId)
  | importation (i : ImportationId)
  deriving DecidableEq, Repr

structure Region where
  block : BlockId
  offset : UInt64
  len : UInt64
  owner : Owner
  deriving DecidableEq, Repr

/-- An allocation from outside: its references, and the bytes of all aliases made of it. The
references are a signed word, which stays far from its end: each but the first is held by an alias,
an object of its own in memory, so there is no room for `2 ^ 63` of them. -/
structure Importation where
  references : Int := 1
  tracked : UInt64 := 0
  deriving DecidableEq, Repr

inductive Lifecycle where
  | live
  /-- A valid manager that never had any storage. -/
  | empty
  | released
  deriving DecidableEq, Repr

/-- A manager that reports a length and a state of the caller's choice. -/
structure Probe where
  block : BlockId
  claim : Option UInt64
  state : Lifecycle
  exposesArray : Bool
  deriving DecidableEq, Repr

inductive Manager where
  | null
  | array (block : BlockId) (live : Bool)
  /-- Holds the base of the region until it releases it or hands it off. -/
  | native (region : RegionId) (held : Bool)
  | probe (p : Probe)
  deriving DecidableEq, Repr

/-- A window on a block, or an empty one over no storage. -/
structure View where
  block : Option BlockId
  window : Window
  deriving DecidableEq, Repr

namespace View

def empty (e : Element) : View := ⟨none, Window.empty e⟩

def slice (v : View) (start length : UInt64) : Except Error View := do
  return { v with window := ← v.window.slice start length }

/-- The same part, by an operation that panics where `slice` has an error. -/
def range (v : View) (start length : UInt64) : Except Failure View :=
  match v.slice start length with
  | .ok v' => .ok v'
  | .error _ => .error (.panic none)

end View

/-- A stable place in a block, and the manager that has to be told when it is given up. -/
structure Pin where
  block : Option BlockId
  offset : UInt64
  manager : Option ManagerId
  deriving DecidableEq, Repr

def View.pin (v : View) (index : UInt64) (manager : Option ManagerId) : Pin :=
  ⟨v.block, (v.window.cell index).offset, manager⟩

end LargeBuffers
