import LargeBuffers.Error
import LargeBuffers.Align

/-! # Guards in 64-bit words

Each guard decides a condition on unbounded numbers without forming a sum or product that
could wrap: a range is compared with what remains after its start.
-/

namespace LargeBuffers

/-- The most bytes that one region can span. -/
def maxBytes : UInt64 := 0x7FFFFFFFFFFFFFFF

def checkRange (len start length : UInt64) : Except Error Unit := do
  verifyRange (start ≤ len) "start" "start <= len"
  verifyRange (length ≤ len - start) "length" "length <= len - start"

theorem checkRange_eq_ok_iff {len start length : UInt64} :
    checkRange len start length = .ok () ↔ start.toNat + length.toNat ≤ len.toNat := by
  by_cases hs : start ≤ len
  · have hsub := UInt64.toNat_sub_of_le _ _ hs
    simp only [checkRange, verifyRange, hs, decide_true, bind, Except.bind, if_true]
    rw [UInt64.le_iff_toNat_le] at hs
    split
    · rename_i h
      rw [decide_eq_true_eq, UInt64.le_iff_toNat_le] at h
      simp only [true_iff]
      omega
    · rename_i h
      rw [decide_eq_true_eq, UInt64.le_iff_toNat_le] at h
      simp only [reduceCtorEq, false_iff]
      omega
  · simp only [checkRange, verifyRange, hs, decide_false, bind, Except.bind, Bool.false_eq_true,
      if_false, reduceCtorEq, false_iff]
    rw [UInt64.le_iff_toNat_le] at hs
    omega

@[simp]
theorem checkRange_whole (len : UInt64) : checkRange len 0 len = .ok () := by
  simp [checkRange_eq_ok_iff]

def checkStart (len start : UInt64) : Except Error Unit :=
  verifyRange (start ≤ len) "start" "start <= self.len"

theorem checkRange_of_checkStart {len start : UInt64} (h : checkStart len start = .ok ()) :
    checkRange len start (len - start) = .ok () := by
  have hs : start ≤ len := by simpa using verifyRange_eq_ok_iff.mp h
  have hsub := UInt64.toNat_sub_of_le _ _ hs
  rw [UInt64.le_iff_toNat_le] at hs
  rw [checkRange_eq_ok_iff]
  omega

def checkIndex (len index : UInt64) : Except Error Unit :=
  verifyRange (index < len) "index" "index < self.len"

/-- A run of `length` entries of `stride` bytes spans at most `maxBytes`. -/
def checkByteLength (stride length : UInt64) : Except Error Unit :=
  verifyRange (length ≤ maxBytes / max stride 1) "length" "length <= max_len"

def checkedEnd (start length limit : UInt64) : Except Error UInt64 := do
  verifyRange (start ≤ limit && length ≤ limit - start) "length"
    "start <= limit && length <= limit - start"
  return start + length

def checkAlignment (alignment : UInt64) : Except Error UInt64 := do
  verifyArgument (isPowerOfTwo alignment) "alignment" "alignment.is_power_of_two()"
  return alignment

/-- The bytes to request for `length` usable bytes at any alignment: the padding covers the
distance to the first aligned byte. -/
def requestSize (alignment length : UInt64) : Except Error UInt64 :=
  let size := length + alignment
  if length ≤ size ∧ size ≤ maxBytes then .ok size
  else .error (.outOfRange "length" (toString length ++ " bytes exceed the addressable range"))

theorem requestSize_eq_ok {alignment length size : UInt64}
    (h : requestSize alignment length = .ok size) :
    size.toNat = length.toNat + alignment.toNat ∧ size ≤ maxBytes := by
  simp only [requestSize] at h
  split at h
  · rename_i hs
    cases h
    refine ⟨?_, hs.2⟩
    have hl := UInt64.le_iff_toNat_le.mp hs.1
    have h1 := length.toNat_lt
    have h2 := alignment.toNat_lt
    rw [UInt64.toNat_add] at hl ⊢
    omega
  · cases h

theorem add_of_requestSize {alignment length size : UInt64}
    (h : requestSize alignment length = .ok size) : length + alignment = size := by
  simp only [requestSize] at h
  split at h
  · cases h
    rfl
  · cases h

end LargeBuffers
