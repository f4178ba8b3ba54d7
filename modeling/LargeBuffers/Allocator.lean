import LargeBuffers.Range
import LargeBuffers.Window

/-! # Allocators and the platform

An allocator asks the platform for memory and counts what it asked for and gave back. The
platform is a parameter: nothing is known of it but that what it grants is addressable and as
long as requested.
-/

namespace LargeBuffers

/-- Subtraction of words that stops at zero. -/
def monus (a b : UInt64) : UInt64 := if b ≤ a then a - b else 0

theorem toNat_monus (a b : UInt64) : (monus a b).toNat = a.toNat - b.toNat := by
  unfold monus
  split
  · rename_i h
    exact UInt64.toNat_sub_of_le _ _ h
  · rename_i h
    have := UInt64.not_le.mp h
    have := UInt64.lt_iff_toNat_lt.mp this
    simp
    omega

structure Statistics where
  allocations : UInt64 := 0
  bytesAllocated : UInt64 := 0
  releases : UInt64 := 0
  bytesReleased : UInt64 := 0
  deriving DecidableEq, Repr

namespace Statistics

def recordAllocation (t : Statistics) (bytes : UInt64) : Statistics :=
  { t with allocations := t.allocations + 1, bytesAllocated := t.bytesAllocated + bytes }

def recordRelease (t : Statistics) (bytes : UInt64) : Statistics :=
  { t with releases := t.releases + 1, bytesReleased := t.bytesReleased + bytes }

def liveAllocations (t : Statistics) : UInt64 := monus t.allocations t.releases

def liveBytes (t : Statistics) : UInt64 := monus t.bytesAllocated t.bytesReleased

end Statistics

def defaultAlignment : UInt64 := 64

inductive Supply where
  /-- Padded requests to the platform, for buffers at any power of two. -/
  | native (alignment : UInt64)
  /-- Arrays of at most `limit` bytes, each counted with `pad` more. -/
  | metered (limit pad : UInt64)
  deriving DecidableEq, Repr

structure Allocator where
  supply : Supply
  statistics : Statistics := {}
  deriving DecidableEq, Repr

def Supply.alignment : Supply → UInt64
  | native alignment => alignment
  | metered .. => 1

/-- Memory from the platform: where it starts and what happens to be in it. -/
structure Grant where
  base : UInt64
  bytes : List UInt8
  deriving DecidableEq, Repr

/-- Decides each request by its number and its size. -/
structure Platform where
  grant : Nat → UInt64 → Option Grant
  addressable : ∀ {n size g}, grant n size = some g →
    0 < g.base.toNat ∧ g.base.toNat + size.toNat ≤ UInt64.size
  length_eq : ∀ {n size g}, grant n size = some g → g.bytes.length = size.toNat

def capacity : UInt64 := 0x1000000

/-- Grants requests below `capacity`, at addresses of varying alignment. -/
def Platform.bounded : Platform where
  grant n size :=
    if size < capacity then
      some ⟨UInt64.ofNat (65536 + 16 * (n % 256)), List.replicate size.toNat 165⟩
    else none
  addressable {n size g} h := by
    split at h
    · rename_i hs
      cases h
      have hs : size.toNat < 16777216 := by simpa [capacity] using UInt64.lt_iff_toNat_lt.mp hs
      have hb : (UInt64.ofNat (65536 + 16 * (n % 256))).toNat = 65536 + 16 * (n % 256) := by
        rw [UInt64.toNat_ofNat']
        omega
      simp only [hb, UInt64.size]
      omega
    · cases h
  length_eq {n size g} h := by
    split at h
    · cases h
      simp
    · cases h

end LargeBuffers
