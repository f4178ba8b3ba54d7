import LargeBuffers.Manager

/-! # Memories

A memory is a part of an array, of a manager's storage, or of nothing at all. Two memories are
equal when they are the same part of the same backing, whatever its contents.
-/

namespace LargeBuffers

inductive Backing where
  | nothing
  | array (block : BlockId)
  | manager (m : ManagerId)
  deriving DecidableEq, Repr

structure Memory where
  backing : Backing
  start : UInt64
  len : UInt64
  deriving DecidableEq, Repr

namespace Memory

def empty : Memory := ⟨.nothing, 0, 0⟩

def isEmpty (m : Memory) : Bool := m.len == 0

def manager? (m : Memory) : Option ManagerId :=
  match m.backing with
  | .manager k => some k
  | _ => none

/-- The part of `length` values from `start` on, whether there are so many or not. -/
def sub (m : Memory) (start length : UInt64) : Memory :=
  { m with start := m.start + start, len := length }

def slice (m : Memory) (start length : UInt64) : Except Error Memory := do
  checkRange m.len start length
  return m.sub start length

def sliceFrom (m : Memory) (start : UInt64) : Except Error Memory := do
  checkStart m.len start
  return m.sub start (m.len - start)

@[simp]
theorem sub_self (m : Memory) : m.sub 0 m.len = m := by
  simp [sub]

theorem slice_eq_ok_iff {m m' : Memory} {start length : UInt64} :
    m.slice start length = .ok m' ↔
      checkRange m.len start length = .ok () ∧ m.sub start length = m' := by
  constructor
  · intro h
    obtain ⟨⟨⟩, hc, hm⟩ := bind_eq_ok_iff.mp h
    exact ⟨hc, Except.ok.inj hm⟩
  · rintro ⟨hc, rfl⟩
    exact bind_eq_ok_iff.mpr ⟨(), hc, rfl⟩

theorem slice_of_sliceFrom {m m' : Memory} {start : UInt64} (h : m.sliceFrom start = .ok m') :
    m.slice start (m.len - start) = .ok m' := by
  obtain ⟨⟨⟩, hs, hm⟩ := bind_eq_ok_iff.mp h
  exact slice_eq_ok_iff.mpr ⟨checkRange_of_checkStart hs, Except.ok.inj hm⟩

def hashKey (m : Memory) : Option Backing × UInt64 × UInt64 :=
  (if m.backing = .nothing then none else some m.backing, m.start, m.len)

end Memory

end LargeBuffers
