import LargeBuffers.Proofs.Cast
import LargeBuffers.Proofs.Slicing

/-! # Slices of casts

A slice of a cast is a cast of a slice, with both numbers counted in bytes. So a chain of slices
with a cast in the middle is one slice of the bytes and one cast.
-/

namespace LargeBuffers

/-! ## Numbers of values in bytes -/

namespace Element

variable {e : Element} {n : UInt64}

theorem toNat_mul_stride (h : n.toNat * e.size < UInt64.size) :
    (n * e.stride).toNat = n.toNat * e.size := by
  rw [UInt64.toNat_mul, toNat_stride]
  exact Nat.mod_eq_of_lt h

theorem mul_stride_div (hs : 0 < e.size) (h : n.toNat * e.size < UInt64.size) :
    n * e.stride / e.stride = n := by
  rw [← UInt64.toNat_inj, UInt64.toNat_div, toNat_mul_stride h, toNat_stride]
  exact Nat.mul_div_cancel _ hs

theorem laneSize_dvd_mul_size (e : Element) (n : ℕ) : e.laneSize ∣ n * e.size :=
  (Nat.dvd_mul_left e.laneSize e.lanes).mul_left n

end Element

namespace Window

variable {base : UInt64} {w x u v : Window} {e : Element} {start length : UInt64}

theorem dvd_base_add {k : UInt64} (h : e.laneSize ∣ (base + w.offset).toNat)
    (hk : e.laneSize ∣ k.toNat) : e.laneSize ∣ (base + (w.offset + k)).toNat := by
  obtain ⟨j, hj, hl⟩ := e.exists_laneSize
  have h64 : e.laneSize ∣ 2 ^ 64 := by
    rw [hl]
    exact Nat.pow_dvd_pow 2 (by omega)
  rw [← UInt64.add_assoc, UInt64.toNat_add, Nat.dvd_mod_iff h64]
  exact Nat.dvd_add h hk

theorem toNat_range_cast (hc : w.cast base e = .ok u)
    (hr : start.toNat + length.toNat ≤ u.len.toNat) :
    start.toNat * e.size + length.toNat * e.size ≤ w.len.toNat := by
  obtain ⟨rfl, hd⟩ := cast_eq_ok hc
  have hl : (w.len / e.stride).toNat * e.size = w.len.toNat := by
    rw [UInt64.toNat_div, Element.toNat_stride]
    exact Nat.div_mul_cancel hd
  rw [← Nat.add_mul]
  exact (Nat.mul_le_mul_right e.size hr).trans hl.le

/-- A slice of a cast is the cast of a slice of the bytes. -/
theorem cast_slice (hw : w.element = .u8) (hs : 0 < e.size) (hc : w.cast base e = .ok u)
    (hv : u.slice start length = .ok v) :
    (start * e.stride).toNat = start.toNat * e.size ∧
      (length * e.stride).toNat = length.toNat * e.size ∧
      ∃ x, w.slice (start * e.stride) (length * e.stride) = .ok x ∧ x.cast base e = .ok v := by
  obtain ⟨hr, rfl⟩ := slice_eq_ok_iff.mp hv
  have hle := toNat_range_cast hc (checkRange_eq_ok_iff.mp hr)
  have hlt := w.len.toNat_lt_size
  have hstart : (start * e.stride).toNat = start.toNat * e.size :=
    Element.toNat_mul_stride (by omega)
  have hlength : (length * e.stride).toNat = length.toNat * e.size :=
    Element.toNat_mul_stride (by omega)
  refine ⟨hstart, hlength, _, slice_eq_ok_iff.mpr ⟨?_, rfl⟩, ?_⟩
  · rw [checkRange_eq_ok_iff, hstart, hlength]
    exact hle
  · obtain ⟨⟨ha, -⟩, rfl⟩ := cast_eq_ok_iff.mp hc
    have hoff : (w.sub (start * e.stride) (length * e.stride)).offset =
        w.offset + start * e.stride := by
      change w.offset + start * e.stride * w.element.stride = _
      rw [hw]
      exact congrArg (w.offset + ·) (UInt64.mul_one _)
    rw [cast_eq_ok_iff, hoff]
    refine ⟨⟨dvd_base_add ha ?_, ?_⟩, ?_⟩
    · rw [hstart]
      exact e.laneSize_dvd_mul_size _
    · change e.size ∣ (length * e.stride).toNat
      rw [hlength]
      exact Nat.dvd_mul_left ..
    · change _ = Window.mk e _ (length * e.stride / e.stride)
      rw [Element.mul_stride_div hs (by omega)]
      rfl

/-! ## Chains -/

theorem element_slice (hx : w.slice start length = .ok x) : x.element = w.element := by
  rw [← (slice_eq_ok_iff.mp hx).2]
  rfl

theorem slice_of_applyAll {cs : List Cut} (hx : Cut.applyAll cs w = .ok x) :
    (UInt64.ofNat (Cut.offset cs)).toNat = Cut.offset cs ∧
      w.slice (UInt64.ofNat (Cut.offset cs)) x.len = .ok x := by
  obtain ⟨hcs, rfl⟩ := Cut.applyAll_eq_ok_iff.mp hx
  exact ⟨Cut.toNat_ofNat_offset hcs,
    slice_eq_ok_iff.mpr ⟨Cut.checkRange_of_checkAll hcs, rfl⟩⟩

/-- A chain of slices of the bytes, a cast and a chain of slices of the values are one slice of the
bytes and one cast. -/
theorem cast_applyAll {cs cs' : List Cut} (hw : w.element = .u8) (hs : 0 < e.size)
    (hx : Cut.applyAll cs w = .ok x) (hc : x.cast base e = .ok u)
    (hv : Cut.applyAll cs' u = .ok v) :
    ∃ start length y, start.toNat = Cut.offset cs + Cut.offset cs' * e.size ∧
      length.toNat = v.len.toNat * e.size ∧ w.slice start length = .ok y ∧
      y.cast base e = .ok v := by
  obtain ⟨ho, hx⟩ := slice_of_applyAll hx
  obtain ⟨ho', hv⟩ := slice_of_applyAll hv
  obtain ⟨hstart, hlength, y, hy, hcast⟩ := cast_slice ((element_slice hx).trans hw) hs hc hv
  obtain ⟨hsum, hsl⟩ := Sliceable.slice_slice (x := w) hx hy
  rw [ho, hstart, ho'] at hsum
  exact ⟨_, _, y, hsum, hlength, hsl, hcast⟩

end Window

/-! ## Programs -/

theorem Transcript.within_within (t : Transcript) (m n : ℕ) :
    (t.within n).within m = t.within (m + n) := by
  induction m with
  | zero => rw [Nat.zero_add]; rfl
  | succ m ih =>
    rw [Nat.succ_add]
    exact congrArg (Transcript.derived · .done) ih

namespace Program

variable {base : UInt64} {a : Access} {w x u v : Window} {e : Element} {bytes : List UInt8}
  {start length : UInt64}

theorem run_cast (hw : w.element = .u8) (hc : w.cast base e = .ok u) (prog : Program) :
    (Program.derive (.cast e) prog .done).run base a w bytes =
      ((prog.run base a u bytes).1.within 1, (prog.run base a u bytes).2) := by
  have hd : (Derivation.cast e).apply base a w = .ok (a, u) := by
    rw [Derivation.apply_cast, if_pos hw, hc]
    rfl
  exact run_derive_of_ok hd

theorem run_slice_cast (hw : w.element = .u8) (hx : w.slice start length = .ok x)
    (hc : x.cast base e = .ok v) (prog : Program) :
    (Program.derive (.slice start length) (.derive (.cast e) prog .done) .done).run base a w bytes =
      ((prog.run base a v bytes).1.within 2, (prog.run base a v bytes).2) := by
  have hd : (Derivation.slice start length).apply base a w = .ok (a, x) := by
    rw [Derivation.apply_slice, hx]
    rfl
  rw [run_derive_of_ok hd, run_cast ((Window.element_slice hx).trans hw) hc]
  rfl

theorem run_cast_slice (hw : w.element = .u8) (hc : w.cast base e = .ok u)
    (hv : u.slice start length = .ok v) (prog : Program) :
    (Program.derive (.cast e) (.derive (.slice start length) prog .done) .done).run base a w bytes =
      ((prog.run base a v bytes).1.within 2, (prog.run base a v bytes).2) := by
  have hd : (Derivation.slice start length).apply base a u = .ok (a, v) := by
    rw [Derivation.apply_slice, hv]
    rfl
  rw [run_cast hw hc, run_derive_of_ok hd]
  rfl

theorem run_within_cast {cs cs' : List Cut} (hw : w.element = .u8)
    (hx : Cut.applyAll cs w = .ok x) (hc : x.cast base e = .ok u)
    (hv : Cut.applyAll cs' u = .ok v) (prog : Program) :
    (within cs (.derive (.cast e) (prog.within cs') .done)).run base a w bytes =
      ((prog.run base a v bytes).1.within (cs.length + 1 + cs'.length),
        (prog.run base a v bytes).2) := by
  have hxw := (Window.element_slice (Window.slice_of_applyAll hx).2).trans hw
  rw [run_within _ hx, run_cast hxw hc, run_within _ hv, Transcript.within_within,
    Transcript.within_within]

end Program

/-- On bytes at any address and offset that can be cast, a range of the values is there if it ends
within them. Then the same range counted in bytes does not overflow, it is a slice of the bytes, and
its cast is the same window: whatever a program reads or writes through one, it reads and writes
through the other. So any chain of slices of the bytes, a cast and a chain of slices of the values
leads to where one slice of the bytes and one cast lead to. -/
theorem Window.cast_slice_commute (base : UInt64) (w : Window) (e : Element)
    (hw : w.element = .u8) (hs : 0 < e.size) :
    (∀ u, w.cast base e = .ok u → ∀ start length : UInt64,
      ((∃ v, u.slice start length = .ok v) ↔ start.toNat + length.toNat ≤ u.len.toNat) ∧
      ∀ v, u.slice start length = .ok v →
        (start * e.stride).toNat = start.toNat * e.size ∧
        (length * e.stride).toNat = length.toNat * e.size ∧
        ∃ x, w.slice (start * e.stride) (length * e.stride) = .ok x ∧ x.cast base e = .ok v ∧
          ∀ (a : Access) (prog : Program) (bytes : List UInt8),
            (Program.derive (.slice (start * e.stride) (length * e.stride))
              (.derive (.cast e) prog .done) .done).run base a w bytes =
            (Program.derive (.cast e)
              (.derive (.slice start length) prog .done) .done).run base a w bytes) ∧
    ∀ (cs cs' : List Cut) (x u v : Window), Cut.applyAll cs w = .ok x → x.cast base e = .ok u →
      Cut.applyAll cs' u = .ok v →
      ∃ start length y, start.toNat = Cut.offset cs + Cut.offset cs' * e.size ∧
        length.toNat = v.len.toNat * e.size ∧ w.slice start length = .ok y ∧
        y.cast base e = .ok v ∧
        ∀ (a : Access) (prog : Program) (bytes : List UInt8),
          let r := prog.run base a v bytes
          (Program.within cs (.derive (.cast e) (prog.within cs') .done)).run base a w bytes =
            (r.1.within (cs.length + 1 + cs'.length), r.2) ∧
          (Program.derive (.slice start length)
            (.derive (.cast e) prog .done) .done).run base a w bytes = (r.1.within 2, r.2) := by
  constructor
  · intro u hc start length
    constructor
    · constructor
      · rintro ⟨v, hv⟩
        exact checkRange_eq_ok_iff.mp (slice_eq_ok_iff.mp hv).1
      · intro hr
        exact ⟨_, slice_eq_ok_iff.mpr ⟨checkRange_eq_ok_iff.mpr hr, rfl⟩⟩
    · intro v hv
      obtain ⟨hstart, hlength, x, hx, hcast⟩ := cast_slice hw hs hc hv
      refine ⟨hstart, hlength, x, hx, hcast, fun a prog bytes => ?_⟩
      rw [Program.run_slice_cast hw hx hcast, Program.run_cast_slice hw hc hv]
  · intro cs cs' x u v hx hc hv
    obtain ⟨start, length, y, hstart, hlength, hy, hcast⟩ := cast_applyAll hw hs hx hc hv
    refine ⟨start, length, y, hstart, hlength, hy, hcast, fun a prog bytes => ?_⟩
    exact ⟨Program.run_within_cast hw hx hc hv prog, Program.run_slice_cast hw hy hcast prog⟩

/-- Twenty bytes from address 66 on, of which a slice starts at an even address. The empty slice at
the end of the cast is there too. -/
theorem Window.cast_slice_commute_of_u16x3 :
    let w : Window := ⟨.u8, 2, 20⟩
    let u : Window := ⟨.u16x3, 4, 3⟩
    w.element = .u8 ∧ 0 < Element.u16x3.size ∧
      Cut.applyAll [.tail 2] w = .ok ⟨.u8, 4, 18⟩ ∧
      (Window.mk .u8 4 18).cast 64 .u16x3 = .ok u ∧
      Cut.applyAll [.slice 1 2, .tail 2] u = .ok ⟨.u16x3, 22, 0⟩ ∧
      ∃ start length y, start.toNat = 20 ∧ length.toNat = 0 ∧ w.slice start length = .ok y ∧
        y.cast 64 .u16x3 = .ok ⟨.u16x3, 22, 0⟩ := by
  intro w u
  have hx : Cut.applyAll [.tail 2] w = .ok ⟨.u8, 4, 18⟩ := by decide
  have hc : (Window.mk .u8 4 18).cast 64 .u16x3 = .ok u := by decide
  have hv : Cut.applyAll [.slice 1 2, .tail 2] u = .ok ⟨.u16x3, 22, 0⟩ := by decide
  obtain ⟨-, hchain⟩ := cast_slice_commute 64 w .u16x3 rfl (by decide)
  obtain ⟨start, length, y, hstart, hlength, hy, hcast, -⟩ := hchain _ _ _ _ _ hx hc hv
  exact ⟨rfl, by decide, hx, hc, hv, start, length, y, hstart, hlength, hy, hcast⟩

end LargeBuffers
