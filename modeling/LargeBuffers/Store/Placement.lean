import LargeBuffers.Store.Allocate
import LargeBuffers.Store.Resolve

/-! # Placement of buffers

How a fresh buffer of an allocator lies in the memory that the platform granted for it.
-/

namespace LargeBuffers

structure Placement where
  len : UInt64
  /-- The first usable byte has an address of the alignment. -/
  aligned : Bool
  /-- All usable bytes are zero. -/
  cleared : Bool
  /-- There is no aligned address before that of the first usable byte. -/
  minimal : Bool
  /-- The offset is less than the alignment. -/
  within : Bool
  deriving DecidableEq, Repr

namespace Placement

def ofRegion (s : Store) (alignment : UInt64) (g : Region) : Placement :=
  let v := Store.regionView g
  let base := s.baseOf v
  { len := g.len
    aligned := isAligned (base + g.offset) alignment
    cleared := (s.read v).bytes.all (· == 0)
    minimal := g.offset == (alignment - base % alignment) % alignment
    within := g.offset < alignment }

/-- The placement of one buffer from a new allocator. -/
def ofFresh (p : Platform) (alignment length : UInt64) : Except Error (Option Placement) := do
  let alignment ← checkAlignment alignment
  let s : Store := { element := .u8 }
  let s₁ := s.addAllocator (.native alignment)
  match s₁.allocateNative p s.allocators.length alignment length with
  | (.ok _, s) => return (s.regions.getLast?).map (ofRegion s alignment)
  | (.error e, _) => throw e

end Placement

end LargeBuffers
