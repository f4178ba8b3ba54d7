import LargeBuffers.Proofs.Kinds
import LargeBuffers.Proofs.Values

/-! # Windows within their bytes

A window that lies within its bytes stays so when it is sliced or cast, and a program that runs on
it replaces bytes by as many others.
-/

namespace LargeBuffers

theorem splice_nil {α : Type} (start : ℕ) (xs : List α) : splice start [] xs = xs := by
  simp [splice]

namespace Window

/-- The window shows nothing beyond the first `n` bytes. -/
def Within (w : Window) (n : ℕ) : Prop := w.byteLength = 0 ∨ w.offset.toNat + w.byteLength ≤ n

variable {w w' : Window} {n : ℕ} {bytes new : List UInt8}

theorem within_empty (e : Element) (n : ℕ) : (empty e).Within n :=
  .inl (Nat.zero_mul _)

theorem within_whole {c : Contents} (h : c.Sound) : (whole c).Within c.bytes.length :=
  .inr ((Nat.zero_add _).trans h.length.symm).le

theorem sub_self (w : Window) : w.sub 0 w.len = w := by
  simp only [sub, UInt64.zero_mul, UInt64.add_zero]

theorem sub_sub (w : Window) (start length start' length' : UInt64) :
    (w.sub start length).sub start' length' = w.sub (start + start') length' := by
  simp only [sub, UInt64.add_mul, UInt64.add_assoc]

/-- The distance to a value of a window is a word. -/
theorem Within.offset_add_lt {start : UInt64} (h : w.Within n) (hn : n < UInt64.size)
    (hs : start.toNat ≤ w.len.toNat) :
    w.offset.toNat + start.toNat * w.element.size < UInt64.size := by
  have hlt := w.offset.toNat_lt_size
  have hl : start.toNat * w.element.size ≤ w.byteLength := Nat.mul_le_mul_right _ hs
  obtain h | h := h <;> omega

theorem Within.toNat_mul_stride {start : UInt64} (h : w.Within n) (hn : n < UInt64.size)
    (hs : start.toNat ≤ w.len.toNat) :
    (start * w.element.stride).toNat = start.toNat * w.element.size := by
  have hlt := h.offset_add_lt hn hs
  rw [UInt64.toNat_mul, Element.toNat_stride]
  exact Nat.mod_eq_of_lt ((Nat.le_add_left ..).trans_lt hlt)

theorem Within.toNat_offset_sub {start : UInt64} (h : w.Within n) (hn : n < UInt64.size)
    (hs : start.toNat ≤ w.len.toNat) (length : UInt64) :
    (w.sub start length).offset.toNat = w.offset.toNat + start.toNat * w.element.size := by
  change (w.offset + start * w.element.stride).toNat = _
  rw [UInt64.toNat_add, h.toNat_mul_stride hn hs]
  exact Nat.mod_eq_of_lt (h.offset_add_lt hn hs)

theorem add_byteLength_sub_le {start length : UInt64}
    (hr : checkRange w.len start length = .ok ()) :
    start.toNat * w.element.size + (w.sub start length).byteLength ≤ w.byteLength := by
  have hl : (start.toNat + length.toNat) * w.element.size ≤ w.byteLength :=
    Nat.mul_le_mul_right _ (checkRange_eq_ok_iff.mp hr)
  rwa [Nat.add_mul] at hl

theorem Within.toNat_offset_part {start length : UInt64} (h : w.Within n)
    (hn : n < UInt64.size) (hr : checkRange w.len start length = .ok ()) :
    (w.sub start length).offset.toNat = w.offset.toNat + start.toNat * w.element.size :=
  h.toNat_offset_sub hn ((Nat.le_add_right ..).trans (checkRange_eq_ok_iff.mp hr)) length

theorem Within.sub {start length : UInt64} (h : w.Within n) (hn : n < UInt64.size)
    (hr : checkRange w.len start length = .ok ()) : (w.sub start length).Within n := by
  have hl := add_byteLength_sub_le hr
  have ho := h.toNat_offset_part hn hr
  obtain h | h := h
  · exact .inl (by omega)
  · exact .inr (by omega)

theorem Within.cell {i : UInt64} (h : w.Within n) (hn : n < UInt64.size) (hi : i < w.len) :
    (w.cell i).Within n :=
  h.sub hn (checkRange_eq_ok_iff.mpr (UInt64.lt_iff_toNat_lt.mp hi))

theorem slice_eq_ok_iff {start length : UInt64} : w.slice start length = .ok w' ↔
    checkRange w.len start length = .ok () ∧ w.sub start length = w' := by
  constructor
  · intro h
    obtain ⟨⟨⟩, hc, hm⟩ := bind_eq_ok_iff.mp h
    exact ⟨hc, Except.ok.inj hm⟩
  · rintro ⟨hc, rfl⟩
    exact bind_eq_ok_iff.mpr ⟨(), hc, rfl⟩

theorem Within.slice {start length : UInt64} (h : w.Within n) (hn : n < UInt64.size)
    (hs : w.slice start length = .ok w') : w'.Within n := by
  obtain ⟨hr, rfl⟩ := slice_eq_ok_iff.mp hs
  exact h.sub hn hr

theorem sliceFrom_eq_ok_iff {start : UInt64} : w.sliceFrom start = .ok w' ↔
    start ≤ w.len ∧ w.sub start (w.len - start) = w' := by
  have hs : checkStart w.len start = .ok () ↔ start ≤ w.len :=
    verifyRange_eq_ok_iff.trans decide_eq_true_iff
  constructor
  · intro h
    obtain ⟨⟨⟩, hc, hm⟩ := bind_eq_ok_iff.mp h
    exact ⟨hs.mp hc, Except.ok.inj hm⟩
  · rintro ⟨hc, rfl⟩
    exact bind_eq_ok_iff.mpr ⟨(), hs.mpr hc, rfl⟩

theorem slice_of_sliceFrom {start : UInt64} (hs : w.sliceFrom start = .ok w') :
    w.slice start (w.len - start) = .ok w' := by
  obtain ⟨⟨⟩, hc, hm⟩ := bind_eq_ok_iff.mp hs
  exact slice_eq_ok_iff.mpr ⟨checkRange_of_checkStart hc, Except.ok.inj hm⟩

theorem byteLength_cast {base : UInt64} {e : Element} (hu : w.element = .u8)
    (hs : w.cast base e = .ok w') : w'.offset = w.offset ∧ w'.byteLength = w.byteLength := by
  unfold Window.cast at hs
  split at hs
  · split at hs
    · rename_i hm
      obtain rfl := Except.ok.inj hs
      have hmod := congrArg UInt64.toNat hm
      rw [UInt64.toNat_mod, Element.toNat_stride] at hmod
      have hb : w.byteLength = w.len.toNat := by
        rw [byteLength, hu]
        exact Nat.mul_one _
      refine ⟨rfl, ?_⟩
      rw [hb, byteLength]
      dsimp only
      rw [UInt64.toNat_div, Element.toNat_stride]
      exact Nat.div_mul_cancel (Nat.dvd_of_mod_eq_zero hmod)
    · cases hs
  · cases hs

theorem Within.cast {base : UInt64} {e : Element} (h : w.Within n) (hu : w.element = .u8)
    (hs : w.cast base e = .ok w') : w'.Within n := by
  obtain ⟨ho, hl⟩ := byteLength_cast hu hs
  unfold Within
  rwa [ho, hl]

/-- A derivation leaves the window, takes a slice of it or shows its bytes as other values. -/
theorem derive_eq_ok {base : UInt64} {a a' : Access} {d : Derivation}
    (hd : d.apply base a w = .ok (a', w')) :
    w' = w ∨ (∃ start length, w.slice start length = .ok w') ∨
      w.element = .u8 ∧ ∃ e, w.cast base e = .ok w' := by
  cases d with
  | slice start length =>
    rw [Derivation.apply_slice, Access.map_lift_eq_ok_iff] at hd
    exact .inr (.inl ⟨start, length, hd.2⟩)
  | sliceFrom start =>
    rw [Derivation.apply_sliceFrom, Access.map_lift_eq_ok_iff] at hd
    exact .inr (.inl ⟨start, _, slice_of_sliceFrom hd.2⟩)
  | cast e =>
    rw [Derivation.apply_cast] at hd
    split at hd
    · exact .inr (.inr ⟨‹_›, e, (Access.map_lift_eq_ok_iff.mp hd).2⟩)
    · cases hd
  | reborrow | narrow =>
    simp only [Derivation.apply] at hd
    split at hd <;> cases hd
    exact .inl rfl

theorem Within.derive {base : UInt64} {a a' : Access} {d : Derivation} (h : w.Within n)
    (hn : n < UInt64.size) (hd : d.apply base a w = .ok (a', w')) : w'.Within n := by
  obtain rfl | ⟨start, length, hs⟩ | ⟨hu, e, hc⟩ := derive_eq_ok hd
  · exact h
  · exact h.slice hn hs
  · exact h.cast hu hc

theorem length_read_le (w : Window) (bytes : List UInt8) : (w.read bytes).length ≤ w.byteLength :=
  List.length_take_le ..

theorem Within.length_read (h : w.Within bytes.length) : (w.read bytes).length = w.byteLength := by
  rw [read, List.length_take, List.length_drop]
  obtain h | h := h <;> omega

theorem Within.read_sub {start length : UInt64} (h : w.Within bytes.length)
    (hb : bytes.length < UInt64.size) (hr : checkRange w.len start length = .ok ()) :
    (w.sub start length).read bytes =
      ((w.read bytes).drop (start.toNat * w.element.size)).take
        (length.toNat * w.element.size) := by
  have hl := add_byteLength_sub_le hr
  have hs : (w.sub start length).byteLength = length.toNat * w.element.size := rfl
  rw [hs] at hl
  rw [read, read, h.toNat_offset_part hb hr, hs, List.drop_take, List.take_take, List.drop_drop,
    Nat.min_eq_left (by omega)]

theorem Within.length_write (h : w.Within bytes.length) (hn : new.length ≤ w.byteLength) :
    (w.write new bytes).length = bytes.length := by
  obtain h | h := h
  · obtain rfl : new = [] := List.length_eq_zero_iff.mp (by omega)
    rw [write, splice_nil]
  · exact length_splice (by omega)

theorem Within.read_write (h : w.Within bytes.length) (hn : new.length ≤ w.byteLength) :
    w.read (w.write new bytes) = splice 0 new (w.read bytes) := by
  obtain h | h := h
  · obtain rfl : new = [] := List.length_eq_zero_iff.mp (by omega)
    rw [write, splice_nil, splice_nil]
  · have ht : (bytes.take w.offset.toNat).length = w.offset.toNat := by
      rw [List.length_take]
      omega
    rw [read, write, splice, List.append_assoc, List.drop_left' ht, List.take_append,
      List.take_of_length_le hn, ← List.drop_drop, ← List.drop_take, splice, List.take_zero,
      List.nil_append, Nat.zero_add]
    rfl

end Window

/-! ## Updates as writes -/

namespace Update

variable {w x : Window} {n : ℕ} {u : Update} {bytes bytes' : List UInt8}

def target (w : Window) : Update → Except Failure Window
  | set i v =>
    if v.fits w.element then
      match checkIndex w.len i with
      | .ok _ => .ok (w.cell i)
      | .error e => .error (.error e)
    else .error .badInput
  | setIndex i v =>
    if v.fits w.element then
      if i < w.len then .ok (w.cell i) else .error (indexPanic w.len i)
    else .error .badInput
  | fill v => if v.fits w.element then .ok w else .error .badInput
  | clear | reverse => .ok w
  | assign values => if values.fits w.element then .ok w else .error .badInput

def content (w : Window) (bytes : List UInt8) : Update → List UInt8
  | set _ v | setIndex _ v => v.encode
  | fill v => (Contents.repeated v w.len).bytes
  | clear => (Contents.zeros w.element w.len).bytes
  | reverse => (w.contents bytes).reversed.bytes
  | assign values => values.bytes.take w.byteLength

theorem apply_eq_map (u : Update) (w : Window) (bytes : List UInt8) :
    u.apply w bytes = (u.target w).map fun x => x.write (u.content w bytes) bytes := by
  cases u with
  | set i v =>
    simp only [apply, target]
    cases checkIndex w.len i <;> split <;> rfl
  | setIndex i v =>
    simp only [apply, target]
    repeat' split
    all_goals rfl
  | fill v | assign values =>
    simp only [apply, target]
    split <;> rfl
  | clear | reverse => rfl

theorem apply_eq_ok (h : u.apply w bytes = .ok bytes') :
    ∃ x, u.target w = .ok x ∧ x.write (u.content w bytes) bytes = bytes' := by
  rw [apply_eq_map] at h
  cases ht : u.target w with
  | error f =>
    rw [ht] at h
    cases h
  | ok x =>
    rw [ht] at h
    exact ⟨x, rfl, Except.ok.inj h⟩

/-- An update replaces the bytes of the window, or those of one of its values, by no more. -/
theorem target_eq_ok (h : u.target w = .ok x) (bytes : List UInt8) :
    (x = w ∨ ∃ i < w.len, x = w.cell i) ∧ (u.content w bytes).length ≤ x.byteLength := by
  have hcell : ∀ (i : UInt64) {v : Value}, v.fits w.element = true →
      v.encode.length ≤ (w.cell i).byteLength := by
    intro i v hv
    rw [length_encode, Value.element_of_fits hv]
    exact (Nat.one_mul _).ge
  cases u with
  | set i v =>
    simp only [target] at h
    split at h
    · rename_i hv
      split at h
      · rename_i hi
        obtain rfl := Except.ok.inj h
        have hi : i < w.len := by simpa [checkIndex] using verifyRange_eq_ok_iff.mp hi
        exact ⟨.inr ⟨i, hi, rfl⟩, hcell i hv⟩
      · cases h
    · cases h
  | setIndex i v =>
    simp only [target] at h
    split at h
    · rename_i hv
      split at h
      · rename_i hi
        obtain rfl := Except.ok.inj h
        exact ⟨.inr ⟨i, hi, rfl⟩, hcell i hv⟩
      · cases h
    · cases h
  | fill v =>
    simp only [target] at h
    split at h
    · rename_i hv
      obtain rfl := Except.ok.inj h
      refine ⟨.inl rfl, ?_⟩
      rw [content, Contents.length_repeated, Value.element_of_fits hv]
      exact le_rfl
    · cases h
  | clear =>
    obtain rfl := Except.ok.inj h
    exact ⟨.inl rfl, (Contents.length_zeros ..).le⟩
  | reverse =>
    obtain rfl := Except.ok.inj h
    exact ⟨.inl rfl, (Contents.length_reversed_le _).trans (w.length_read_le bytes)⟩
  | assign values =>
    simp only [target] at h
    split at h
    · obtain rfl := Except.ok.inj h
      exact ⟨.inl rfl, List.length_take_le ..⟩
    · cases h

theorem within_target (h : w.Within n) (hn : n < UInt64.size) (ht : u.target w = .ok x) :
    x.Within n := by
  obtain ⟨rfl | ⟨i, hi, rfl⟩, -⟩ := target_eq_ok ht []
  · exact h
  · exact h.cell hn hi

end Update

namespace Window

variable {w : Window} {bytes bytes' : List UInt8}

theorem Within.length_apply {u : Update} (h : w.Within bytes.length)
    (hb : bytes.length < UInt64.size) (hu : u.apply w bytes = .ok bytes') :
    bytes'.length = bytes.length := by
  obtain ⟨x, ht, rfl⟩ := Update.apply_eq_ok hu
  exact (Update.within_target h hb ht).length_write (Update.target_eq_ok ht bytes).2

theorem Within.length_run {base : UInt64} {prog : Program} {a : Access} (h : w.Within bytes.length)
    (hb : bytes.length < UInt64.size) : (prog.run base a w bytes).2.length = bytes.length := by
  induction prog generalizing a w bytes with
  | done => rfl
  | query q rest ih =>
    simp only [Program.run]
    split <;> exact ih h hb
  | update u rest ih =>
    cases a with
    | readOnly => exact ih h hb
    | writable =>
      simp only [Program.run]
      split
      · rename_i hu
        have hl := h.length_apply hb hu
        exact (ih (hl ▸ h) (hl ▸ hb)).trans hl
      · exact ih h hb
  | derive d body rest ihb ihr =>
    simp only [Program.run]
    split
    · rename_i a' w' hd
      have hl := ihb (a := a') (h.derive hb hd) hb
      exact (ihr (hl ▸ h) (hl ▸ hb)).trans hl
    · exact ihr h hb
  | unreadable rest ih => exact ih h hb

end Window

end LargeBuffers
