/-! # Alignment of addresses

Addresses and alignments are 64-bit words and an alignment is a power of two. Negating and
masking finds the distance to the next multiple.
-/

namespace LargeBuffers

def isPowerOfTwo (n : UInt64) : Bool :=
  n != 0 && n &&& (n - 1) == 0

/-- The least number of bytes from `address` to a multiple of `alignment`. -/
def alignOffset (address alignment : UInt64) : UInt64 :=
  (0 - address) &&& (alignment - 1)

theorem alignOffset_lt {alignment : UInt64} (address : UInt64)
    (h : isPowerOfTwo alignment = true) :
    (alignOffset address alignment).toNat < alignment.toNat := by
  have hne : alignment ≠ 0 := by
    rintro rfl
    cases h
  have hpos : 1 ≤ alignment := UInt64.le_iff_toNat_le.mpr
    (Nat.pos_of_ne_zero fun hz => hne (UInt64.toNat_inj.mp hz))
  have hle : (alignOffset address alignment).toNat ≤ (alignment - 1).toNat := by
    rw [alignOffset, UInt64.toNat_and]
    exact Nat.and_le_right
  rw [UInt64.toNat_sub_of_le _ _ hpos] at hle
  have h1 : 1 ≤ alignment.toNat := UInt64.le_iff_toNat_le.mp hpos
  have h2 : (1 : UInt64).toNat = 1 := rfl
  omega

def isAligned (address alignment : UInt64) : Bool :=
  address &&& (alignment - 1) == 0

end LargeBuffers
