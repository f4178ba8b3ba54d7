import Mathlib.Data.Nat.Bitwise
import LargeBuffers.Align

/-! # Alignment in unbounded numbers

Masking with one less than a power of two leaves the remainder. So negating and masking an address
finds the least number that leads from it to a multiple of the alignment, and no sum wraps on the
way there but past the last address.
-/

namespace LargeBuffers

variable {alignment : UInt64} {j : ℕ}

theorem exists_eq_two_pow (h : isPowerOfTwo alignment = true) :
    ∃ j < 64, alignment.toNat = 2 ^ j := by
  obtain ⟨hne, hand⟩ : alignment ≠ 0 ∧ alignment &&& (alignment - 1) = 0 := by
    simpa [isPowerOfTwo] using h
  have hn : alignment.toNat ≠ 0 := fun hz => hne (UInt64.toNat_inj.mp hz)
  have hlt := alignment.toNat_lt
  refine ⟨alignment.toNat.log2, (Nat.log2_lt hn).mpr hlt, ?_⟩
  have hlow := Nat.log2_self_le hn
  by_contra hpow
  -- The highest bit is then a bit of the predecessor too.
  have hsub : (alignment - 1).toNat = alignment.toNat - 1 :=
    UInt64.toNat_sub_of_le _ _ (UInt64.le_iff_toNat_le.mpr (Nat.pos_of_ne_zero hn))
  have hbit := Nat.testBit_of_two_pow_le_and_two_pow_add_one_gt hlow Nat.lt_log2_self
  have hbit' : (alignment.toNat - 1).testBit alignment.toNat.log2 = true :=
    Nat.testBit_of_two_pow_le_and_two_pow_add_one_gt (by omega)
      ((Nat.sub_le ..).trans_lt Nat.lt_log2_self)
  have hz := congrArg (fun n => n.toNat.testBit alignment.toNat.log2) hand
  simp only [UInt64.toNat_and, Nat.testBit_and, hsub, hbit, hbit'] at hz
  exact absurd hz (by simp)

theorem toNat_and_sub_one (ha : alignment.toNat = 2 ^ j) (n : UInt64) :
    (n &&& (alignment - 1)).toNat = n.toNat % alignment.toNat := by
  have hpos : 1 ≤ alignment := by
    rw [UInt64.le_iff_toNat_le, ha]
    exact Nat.one_le_two_pow
  rw [UInt64.toNat_and, UInt64.toNat_sub_of_le _ _ hpos, ha]
  exact Nat.and_two_pow_sub_one_eq_mod ..

/-- The powers of two among the words, from one to the highest bit. -/
theorem isPowerOfTwo_iff : isPowerOfTwo alignment = true ↔ ∃ j < 64, alignment.toNat = 2 ^ j := by
  constructor
  · exact exists_eq_two_pow
  · rintro ⟨j, -, ha⟩
    have hne : alignment ≠ 0 := by
      rintro rfl
      exact absurd ha (Nat.two_pow_pos j).ne
    have hand : alignment &&& (alignment - 1) = 0 :=
      UInt64.toNat_inj.mp ((toNat_and_sub_one ha alignment).trans (Nat.mod_self _))
    simp [isPowerOfTwo, hne, hand]

theorem isAligned_iff_dvd (ha : alignment.toNat = 2 ^ j) (address : UInt64) :
    isAligned address alignment = true ↔ alignment.toNat ∣ address.toNat := by
  rw [isAligned, beq_iff_eq, ← UInt64.toNat_inj, toNat_and_sub_one ha]
  exact (Nat.dvd_iff_mod_eq_zero ..).symm

section Offset

variable (h : isPowerOfTwo alignment = true) (address : UInt64)

include h

theorem alignment_dvd_size : alignment.toNat ∣ UInt64.size := by
  obtain ⟨j, hj, ha⟩ := exists_eq_two_pow h
  rw [ha]
  exact Nat.pow_dvd_pow 2 hj.le

theorem dvd_add_alignOffset :
    alignment.toNat ∣ address.toNat + (alignOffset address alignment).toNat := by
  obtain ⟨j, -, ha⟩ := exists_eq_two_pow h
  have hneg : alignment.toNat ∣ address.toNat + (0 - address).toNat := by
    have hlt := address.toNat_lt
    rw [UInt64.toNat_sub, UInt64.toNat_zero, Nat.add_zero]
    obtain hz | hpos := Nat.eq_zero_or_pos address.toNat
    · simp [hz]
    · rw [Nat.mod_eq_of_lt (by omega), Nat.add_sub_of_le hlt.le]
      exact alignment_dvd_size h
  have hdiv := Nat.mod_add_div (0 - address).toNat alignment.toNat
  rw [alignOffset, toNat_and_sub_one ha]
  rw [← hdiv, ← Nat.add_assoc] at hneg
  exact (Nat.dvd_add_left (Nat.dvd_mul_right ..)).mp hneg

/-- Nothing nearer is aligned. -/
theorem alignOffset_le {k : ℕ} (hk : alignment.toNat ∣ address.toNat + k) :
    (alignOffset address alignment).toNat ≤ k := by
  by_contra hlt
  have hsub := Nat.dvd_sub (dvd_add_alignOffset h address) hk
  have hle := Nat.le_of_dvd (by omega) hsub
  have := alignOffset_lt address h
  omega

theorem toNat_alignOffset : (alignOffset address alignment).toNat =
    (alignment.toNat - address.toNat % alignment.toNat) % alignment.toNat := by
  have hlt := alignOffset_lt address h
  have hr := Nat.mod_lt address.toNat (Nat.zero_lt_of_lt hlt)
  have hdvd : alignment.toNat ∣
      address.toNat % alignment.toNat + (alignOffset address alignment).toNat := by
    have hsum := dvd_add_alignOffset h address
    rw [← Nat.mod_add_div address.toNat alignment.toNat, Nat.add_right_comm] at hsum
    exact (Nat.dvd_add_left (Nat.dvd_mul_right ..)).mp hsum
  obtain hz | hpos := Nat.eq_zero_or_pos (address.toNat % alignment.toNat)
  · rw [hz, Nat.zero_add] at hdvd
    rw [hz, Nat.eq_zero_of_dvd_of_lt hdvd hlt, Nat.sub_zero, Nat.mod_self]
  · have hsum := Nat.eq_of_dvd_of_lt_two_mul (by omega) hdvd (by omega)
    rw [Nat.mod_eq_of_lt (by omega)]
    omega

end Offset

theorem dvd_mod_size_iff (h : isPowerOfTwo alignment = true) (n : ℕ) :
    alignment.toNat ∣ n % UInt64.size ↔ alignment.toNat ∣ n :=
  Nat.dvd_mod_iff (alignment_dvd_size h)

/-- Masking is arithmetic modulo the alignment, for every power of two that is a word and every
address. The offset is the least number that leads from the address to a multiple, both as a sum
of numbers and as a sum of words, which may wrap. -/
theorem masking_eq_modular (ha : alignment.toNat = 2 ^ j) (address : UInt64) :
    let offset := alignOffset address alignment
    isPowerOfTwo alignment = true ∧
    (isAligned address alignment = true ↔ alignment.toNat ∣ address.toNat) ∧
    offset < alignment ∧
    alignment.toNat ∣ address.toNat + offset.toNat ∧
    isAligned (address + offset) alignment = true ∧
    (∀ k < offset.toNat, ¬alignment.toNat ∣ address.toNat + k ∧
      isAligned (address + UInt64.ofNat k) alignment = false) ∧
    (offset = 0 ↔ isAligned address alignment = true) ∧
    offset.toNat = (alignment.toNat - address.toNat % alignment.toNat) % alignment.toNat := by
  intro offset
  have hlt : 2 ^ j < 2 ^ 64 := ha ▸ alignment.toNat_lt
  have h : isPowerOfTwo alignment = true :=
    isPowerOfTwo_iff.mpr ⟨j, (Nat.pow_lt_pow_iff_right Nat.one_lt_two).mp hlt, ha⟩
  have hdvd := dvd_add_alignOffset h address
  have hleast : ∀ k < offset.toNat, ¬alignment.toNat ∣ address.toNat + k :=
    fun k hk hd => hk.not_ge (alignOffset_le h address hd)
  have hiff := isAligned_iff_dvd ha
  have hwrap : ∀ n : UInt64, isAligned (address + n) alignment = true ↔
      alignment.toNat ∣ address.toNat + n.toNat := by
    intro n
    rw [hiff, UInt64.toNat_add]
    exact dvd_mod_size_iff h _
  refine ⟨h, hiff address, UInt64.lt_iff_toNat_lt.mpr (alignOffset_lt address h), hdvd,
    (hwrap offset).mpr hdvd, fun k hk => ⟨hleast k hk, ?_⟩, ?_, toNat_alignOffset h address⟩
  · rw [Bool.eq_false_iff, ne_eq, hwrap, UInt64.toNat_ofNat_of_lt' (hk.trans offset.toNat_lt_size)]
    exact hleast k hk
  · rw [← UInt64.toNat_inj, hiff]
    constructor
    · intro hz
      rwa [show offset.toNat = 0 from hz] at hdvd
    · intro hd
      exact Nat.le_zero.mp (alignOffset_le h address hd)

/-- From the second byte of the last page the next multiple is the end of all addresses. -/
theorem masking_eq_modular_of_last_page :
    let address : UInt64 := 0xFFFFFFFFFFFFF001
    let alignment : UInt64 := 4096
    let offset : UInt64 := 4095
    alignment.toNat = 2 ^ 12 ∧ alignOffset address alignment = offset ∧
      alignment.toNat ∣ address.toNat + offset.toNat ∧
      isAligned (address + offset) alignment = true := by
  intro address alignment offset
  have ha : alignment.toNat = 2 ^ 12 := rfl
  have ho : alignOffset address alignment = offset := by decide
  obtain ⟨-, -, -, hdvd, hal, -⟩ := masking_eq_modular ha address
  rw [ho] at hdvd hal
  exact ⟨ha, ho, hdvd, hal⟩

end LargeBuffers
