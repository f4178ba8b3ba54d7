import LargeBuffers.Manager

/-! # The journal

Events are noted in the order in which they happen. Some of them are logged; addresses and
alignment offsets do not occur in the lines.
-/

namespace LargeBuffers

inductive Event where
  /-- An allocator obtained `size` bytes for a region. -/
  | allocated (a : AllocatorId) (r : RegionId) (size : UInt64)
  /-- A manager gave up its region, of `len` bytes, to the owner. -/
  | releasing (len : UInt64)
  /-- A raw allocation of `len` bytes was dropped by its last holder. -/
  | dropped (len : UInt64)
  /-- The owner of a region received its release, with these bounds. -/
  | released (r : RegionId) (bounds : Region)
  /-- An allocator returned `size` bytes to the platform. -/
  | freed (a : AllocatorId) (size : UInt64)
  /-- An allocator could not form the size to return. -/
  | unfreed (a : AllocatorId) (size : UInt64)
  /-- A manager let its region, of `len` bytes, go to a new holder. -/
  | handedOff (len : UInt64)
  /-- The last reference to an importation went, and `tracked` bytes with it. -/
  | finalRelease (i : ImportationId) (tracked : UInt64)
  | pinned (m : ManagerId) (index : UInt64)
  | unpinned (m : ManagerId)
  | disposed (m : ManagerId)
  deriving DecidableEq, Repr

namespace Event

def line? : Event → Option String
  | allocated _ _ size =>
    some ("TRACE allocated native buffer PTR (" ++ toString size ++ " bytes, offset N)")
  | releasing len =>
    some ("TRACE releasing native buffer PTR (offset N, " ++ toString len ++ " bytes)")
  | dropped len =>
    some ("WARN raw allocation PTR (" ++ toString len ++
      " bytes) dropped without a new owner, releasing")
  | freed _ size => some ("TRACE released native buffer PTR (" ++ toString size ++ " bytes)")
  | unfreed _ size =>
    some ("ERROR cannot release native buffer PTR (" ++ toString size ++
      " bytes): invalid parameters to Layout::from_size_align")
  | handedOff len =>
    some ("DEBUG handing off native buffer PTR (" ++ toString len ++ " bytes) to a new owner")
  | finalRelease _ tracked =>
    some ("DEBUG final release of imported allocation (" ++ toString tracked ++ " tracked bytes)")
  | _ => none

end Event

inductive Call where
  | pin (index : UInt64)
  | unpin
  | dispose
  deriving DecidableEq, Repr

def callsTo (m : ManagerId) (journal : List Event) : List Call :=
  journal.filterMap fun
    | .pinned k i => if k = m then some (.pin i) else none
    | .unpinned k => if k = m then some .unpin else none
    | .disposed k => if k = m then some .dispose else none
    | _ => none

/-- The offset and length of each release that an owner received, in order. -/
def releasesTo (o : Owner) (journal : List Event) : List (UInt64 × UInt64) :=
  journal.filterMap fun
    | .released _ g => if g.owner = o then some (g.offset, g.len) else none
    | _ => none

def finalReleases (i : ImportationId) (journal : List Event) : Nat :=
  journal.countP fun
    | .finalRelease k _ => k = i
    | _ => false

end LargeBuffers
