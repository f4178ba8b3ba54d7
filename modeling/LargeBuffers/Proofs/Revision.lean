import LargeBuffers.Proofs.Encoding
import LargeBuffers.Proofs.Locality

/-! # What programs make of values

A writable span can be taken as a list of values: an update changes the list, and a program on a
slice or a cast changes the values or bytes that the slice or cast shows. What the program leaves in
the bytes are the values of this list, one after the other (`Program.run_ofValues`).
-/

namespace LargeBuffers

/-! ## Programs on lists -/

def Update.revise (e : Element) (vs : List Value) : Update → List Value
  | set i v | setIndex i v => if v.fits e then vs.set i.toNat v else vs
  | fill v => if v.fits e then List.replicate vs.length v else vs
  | clear => List.replicate vs.length e.zero
  | reverse => vs.reverse
  | assign c => if c.fits e then splice 0 (c.values.take vs.length) vs else vs

/-- The values after a program `inner` on a derived span. The first byte lies at `address`. -/
def Derivation.revise (inner : UInt64 → Element → List Value → List Value) (address : UInt64)
    (e : Element) (vs : List Value) : Derivation → List Value
  | slice start length =>
    if start.toNat + length.toNat ≤ vs.length then
      splice start.toNat (inner (address + start * e.stride) e
        ((vs.drop start.toNat).take length.toNat)) vs
    else vs
  | sliceFrom start =>
    if start.toNat ≤ vs.length then
      splice start.toNat (inner (address + start * e.stride) e (vs.drop start.toNat)) vs
    else vs
  | cast e' =>
    if e = .u8 ∧ e'.laneSize ∣ address.toNat ∧ e'.size ∣ vs.length then
      e.decodeAll vs.length ((inner address e' (e'.decodeAll (vs.length / e'.size)
        (vs.flatMap Value.encode))).flatMap Value.encode)
    else vs
  | reborrow => inner address e vs
  | narrow => vs

def Program.revise : Program → UInt64 → Element → List Value → List Value
  | done, _, _, vs => vs
  | query _ rest, address, e, vs | unreadable rest, address, e, vs => rest.revise address e vs
  | update u rest, address, e, vs => rest.revise address e (u.revise e vs)
  | derive d body rest, address, e, vs =>
    rest.revise address e (d.revise body.revise address e vs)

/-! ## Values that can be stored -/

/-- Values of one type, no more of them and no more bytes than a word can count. -/
structure Storable (e : Element) (vs : List Value) : Prop where
  fits : ∀ v ∈ vs, v.fits e = true
  lt : vs.length < UInt64.size
  bytes_lt : vs.length * e.size < UInt64.size

section Storable

variable {e : Element} {vs vs' : List Value}

theorem Storable.of_le (h : Storable e vs) (hf : ∀ v ∈ vs', v.fits e = true)
    (hl : vs'.length ≤ vs.length) : Storable e vs' :=
  ⟨hf, hl.trans_lt h.lt, (Nat.mul_le_mul_right _ hl).trans_lt h.bytes_lt⟩

theorem Storable.part (h : Storable e vs) (i n : ℕ) : Storable e ((vs.drop i).take n) := by
  refine h.of_le (fun v hv => h.fits v (List.mem_of_mem_drop (List.mem_of_mem_take hv))) ?_
  rw [List.length_take, List.length_drop]
  omega

theorem Storable.sound (h : Storable e vs) : (Contents.ofValues e vs).Sound := by
  apply Contents.sound_ofValues h.fits h.lt
  rw [Contents.ofValues, length_flatMap_encode h.fits]
  exact h.bytes_lt

theorem mem_splice {α : Type} {i : ℕ} {new old : List α} {a : α} (h : a ∈ splice i new old) :
    a ∈ new ∨ a ∈ old := by
  simp only [splice, List.mem_append] at h
  obtain (h | h) | h := h
  · exact .inr (List.mem_of_mem_take h)
  · exact .inl h
  · exact .inr (List.mem_of_mem_drop h)

theorem Storable.replace {new : List Value} {i : ℕ} (h : Storable e vs)
    (hn : ∀ v ∈ new, v.fits e = true) (hi : i + new.length ≤ vs.length) :
    Storable e (splice i new vs) := by
  refine h.of_le (fun v hv => ?_) (length_splice hi).le
  obtain hv | hv := mem_splice hv
  · exact hn v hv
  · exact h.fits v hv

theorem Storable.length_bytes (h : Storable e vs) :
    (vs.flatMap Value.encode).length = vs.length * e.size :=
  length_flatMap_encode h.fits

theorem storable_decodeAll {n : ℕ} {bytes : List UInt8} (hl : bytes.length = n * e.size)
    (hn : n < UInt64.size) (hb : bytes.length < UInt64.size) :
    Storable e (e.decodeAll n bytes) := by
  have hd := Element.length_decodeAll hl
  exact ⟨fun v hv => Element.fits_of_mem_decodeAll hl hv, hd.trans_lt hn, by rwa [hd, ← hl]⟩

theorem Storable.length_cast {e' : Element} (h : Storable .u8 vs) (hd : e'.size ∣ vs.length) :
    (vs.flatMap Value.encode).length = vs.length / e'.size * e'.size := by
  rw [h.length_bytes, Nat.div_mul_cancel hd]
  exact Nat.mul_one _

theorem Storable.cast {e' : Element} (h : Storable .u8 vs) (hd : e'.size ∣ vs.length) :
    Storable e' (e'.decodeAll (vs.length / e'.size) (vs.flatMap Value.encode)) :=
  storable_decodeAll (h.length_cast hd) ((Nat.div_le_self ..).trans_lt h.lt)
    (h.length_bytes.trans_lt h.bytes_lt)

/-- The window on all of some values depends on their number alone. -/
theorem whole_ofValues {n : UInt64} (hl : vs.length = n.toNat) :
    Window.whole (Contents.ofValues e vs) = ⟨e, 0, n⟩ := by
  simp only [Window.whole, Contents.ofValues, hl, UInt64.ofNat_toNat]

theorem whole_ofValues_congr (hl : vs'.length = vs.length) :
    Window.whole (Contents.ofValues e vs') = Window.whole (Contents.ofValues e vs) := by
  simp only [Window.whole, Contents.ofValues, hl]

end Storable

/-- A program that leaves as many values as there were, all of them of the type. -/
def Conserves (inner : UInt64 → Element → List Value → List Value) : Prop :=
  ∀ address e vs, Storable e vs →
    Storable e (inner address e vs) ∧ (inner address e vs).length = vs.length

section Conserves

variable {e : Element} {vs : List Value}

theorem Update.conserves (u : Update) (h : Storable e vs) :
    Storable e (u.revise e vs) ∧ (u.revise e vs).length = vs.length := by
  suffices hf : (∀ v ∈ u.revise e vs, v.fits e = true) ∧ (u.revise e vs).length = vs.length from
    ⟨h.of_le hf.1 hf.2.le, hf.2⟩
  have hsame : (∀ v ∈ vs, v.fits e = true) ∧ vs.length = vs.length := ⟨h.fits, rfl⟩
  have hrep : ∀ {v : Value}, v.fits e = true →
      (∀ x ∈ List.replicate vs.length v, x.fits e = true) ∧
        (List.replicate vs.length v).length = vs.length :=
    fun hv => ⟨fun x hx => List.eq_of_mem_replicate hx ▸ hv, List.length_replicate⟩
  cases u with
  | set i v | setIndex i v =>
    rw [revise]
    split
    · rename_i hv
      refine ⟨fun x hx => ?_, List.length_set⟩
      obtain hx | rfl := List.mem_or_eq_of_mem_set hx
      · exact h.fits x hx
      · exact hv
    · exact hsame
  | fill v =>
    rw [revise]
    split
    · exact hrep ‹_›
    · exact hsame
  | clear => exact hrep e.fits_zero
  | reverse => exact ⟨fun v hv => h.fits v (List.mem_reverse.mp hv), List.length_reverse⟩
  | assign c =>
    rw [revise]
    split
    · rename_i hc
      obtain ⟨hs, rfl⟩ := Contents.sound_of_fits hc
      have hl : 0 + (c.values.take vs.length).length ≤ vs.length := by
        rw [List.length_take]
        omega
      refine ⟨fun v hv => ?_, length_splice hl⟩
      obtain hv | hv := mem_splice hv
      · exact Contents.fits_of_mem_values hs (List.mem_of_mem_take hv)
      · exact h.fits v hv
    · exact hsame

variable {inner : UInt64 → Element → List Value → List Value} (hc : Conserves inner)

include hc

theorem Conserves.replace (address : UInt64) {i n : ℕ} (h : Storable e vs)
    (hr : i + n ≤ vs.length) :
    Storable e (splice i (inner address e ((vs.drop i).take n)) vs) ∧
      (splice i (inner address e ((vs.drop i).take n)) vs).length = vs.length := by
  obtain ⟨hs, hl⟩ := hc address e _ (h.part i n)
  rw [List.length_take, List.length_drop] at hl
  exact ⟨h.replace hs.fits (by omega), length_splice (by omega)⟩

theorem Derivation.length_cast {e' : Element} {vs : List Value} (address : UInt64)
    (h : Storable .u8 vs) (hd : e'.size ∣ vs.length) :
    ((inner address e' (e'.decodeAll (vs.length / e'.size)
      (vs.flatMap Value.encode))).flatMap Value.encode).length = vs.length * Element.u8.size := by
  obtain ⟨hs, hl⟩ := hc address e' _ (h.cast hd)
  rw [hs.length_bytes, hl, Element.length_decodeAll (h.length_cast hd), ← h.length_cast hd,
    h.length_bytes]

theorem Derivation.conserves (d : Derivation) (address : UInt64) (h : Storable e vs) :
    Storable e (d.revise inner address e vs) ∧
      (d.revise inner address e vs).length = vs.length := by
  cases d with
  | slice start length =>
    rw [revise]
    split
    · exact hc.replace _ h ‹_›
    · exact ⟨h, rfl⟩
  | sliceFrom start =>
    rw [revise]
    split
    · rename_i hs
      have ht : (vs.drop start.toNat).take (vs.length - start.toNat) = vs.drop start.toNat :=
        List.take_of_length_le (List.length_drop.le)
      exact ht ▸ hc.replace _ h (by omega)
    · exact ⟨h, rfl⟩
  | cast e' =>
    rw [revise]
    split
    · rename_i hcast
      obtain ⟨rfl, -, hd⟩ := hcast
      have hb := Derivation.length_cast hc address h hd
      exact ⟨storable_decodeAll hb h.lt (hb.trans_lt h.bytes_lt), Element.length_decodeAll hb⟩
    · exact ⟨h, rfl⟩
  | reborrow => exact hc address e vs h
  | narrow => exact ⟨h, rfl⟩

end Conserves

theorem Program.conserves (prog : Program) : Conserves prog.revise := by
  intro address e vs h
  induction prog generalizing address e vs with
  | done => exact ⟨h, rfl⟩
  | query q rest ih => exact ih _ _ _ h
  | unreadable rest ih => exact ih _ _ _ h
  | update u rest ih =>
    obtain ⟨hu, hl⟩ := u.conserves h
    obtain ⟨hr, hl'⟩ := ih address e _ hu
    exact ⟨hr, hl'.trans hl⟩
  | derive d body rest ihb ihr =>
    obtain ⟨hd, hl⟩ := d.conserves ihb address h
    obtain ⟨hr, hl'⟩ := ihr address e _ hd
    exact ⟨hr, hl'.trans hl⟩

/-! ## Updates -/

theorem Window.read_whole {c : Contents} (h : c.Sound) : (whole c).read c.bytes = c.bytes :=
  List.take_of_length_le h.length.le

section Updates

variable {e : Element} {vs : List Value} (h : Storable e vs)

include h

theorem Storable.toNat_len : (Window.whole (Contents.ofValues e vs)).len.toNat = vs.length :=
  Contents.toNat_count_ofValues e h.lt

theorem Storable.checkRange_iff {start length : UInt64} :
    checkRange (Window.whole (Contents.ofValues e vs)).len start length = .ok () ↔
      start.toNat + length.toNat ≤ vs.length := by
  rw [checkRange_eq_ok_iff, h.toNat_len]

theorem Storable.read_sub {start length : UInt64}
    (hr : start.toNat + length.toNat ≤ vs.length) :
    ((Window.whole (Contents.ofValues e vs)).sub start length).read (Contents.ofValues e vs).bytes =
      ((vs.drop start.toNat).take length.toNat).flatMap Value.encode := by
  rw [(Window.within_whole h.sound).read_sub h.sound.lt (h.checkRange_iff.mpr hr),
    Window.read_whole h.sound]
  change ((vs.flatMap Value.encode).drop (start.toNat * e.size)).take (length.toNat * e.size) = _
  rw [drop_flatMap_encode h.fits (by omega),
    take_flatMap_encode fun v hv => h.fits v (List.mem_of_mem_drop hv)]

theorem Storable.write_sub {new : List Value} {start length : UInt64}
    (hr : start.toNat + length.toNat ≤ vs.length) (hn : ∀ v ∈ new, v.fits e = true)
    (hl : new.length ≤ length.toNat) :
    ((Window.whole (Contents.ofValues e vs)).sub start length).write (new.flatMap Value.encode)
        (Contents.ofValues e vs).bytes =
      (splice start.toNat new vs).flatMap Value.encode := by
  have hoff := (Window.within_whole h.sound).toNat_offset_part h.sound.lt
    (h.checkRange_iff.mpr hr)
  rw [Window.write, hoff]
  change splice (0 + _) _ _ = _
  rw [Nat.zero_add]
  exact splice_flatMap_encode h.fits hn (by omega)

theorem Storable.write_front {new : List Value} (hn : ∀ v ∈ new, v.fits e = true)
    (hl : new.length ≤ vs.length) :
    (Window.whole (Contents.ofValues e vs)).write (new.flatMap Value.encode)
        (Contents.ofValues e vs).bytes = (splice 0 new vs).flatMap Value.encode := by
  have hr : (0 : UInt64).toNat + (Contents.ofValues e vs).count.toNat ≤ vs.length :=
    ((Nat.zero_add _).trans h.toNat_len).le
  exact Window.sub_self (Window.whole (Contents.ofValues e vs)) ▸
    h.write_sub hr hn (hl.trans h.toNat_len.ge)

theorem Storable.write_all {new : List Value} (hn : ∀ v ∈ new, v.fits e = true)
    (hl : new.length = vs.length) :
    (Window.whole (Contents.ofValues e vs)).write (new.flatMap Value.encode)
        (Contents.ofValues e vs).bytes = new.flatMap Value.encode := by
  rw [h.write_front hn hl.le, splice_of_length_eq hl]

theorem Storable.set_ofValues {v : Value} {i : UInt64} (hv : v.fits e = true)
    (hi : i < (Contents.ofValues e vs).count) :
    (Window.whole (Contents.ofValues e vs)).set i v (Contents.ofValues e vs).bytes =
      (vs.set i.toNat v).flatMap Value.encode := by
  have hi : i.toNat < vs.length := h.toNat_len ▸ UInt64.lt_iff_toNat_lt.mp hi
  have hr : i.toNat + (1 : UInt64).toNat ≤ vs.length := hi
  have hw := h.write_sub hr (List.forall_mem_singleton.mpr hv) le_rfl
  rw [List.flatMap_singleton, splice_singleton v hi] at hw
  exact hw

theorem Update.apply_ofValues (u : Update) :
    (u.apply (Window.whole (Contents.ofValues e vs)) (Contents.ofValues e vs).bytes).toOption.getD
        (Contents.ofValues e vs).bytes = (u.revise e vs).flatMap Value.encode := by
  have he : (Window.whole (Contents.ofValues e vs)).element = e := rfl
  have hl : (Window.whole (Contents.ofValues e vs)).len = (Contents.ofValues e vs).count := rfl
  have hset : ∀ {i : UInt64}, ¬i < (Contents.ofValues e vs).count → ∀ v, vs.set i.toNat v = vs := by
    intro i hi v
    apply List.set_eq_of_length_le
    rw [UInt64.not_lt, UInt64.le_iff_toNat_le] at hi
    exact h.toNat_len ▸ hi
  have hrep : ∀ {v : Value}, v.fits e = true → ∀ x ∈ List.replicate vs.length v, x.fits e = true :=
    fun hv x hx => List.eq_of_mem_replicate hx ▸ hv
  cases u with
  | set i v | setIndex i v =>
    simp only [apply, revise, he, checkIndex, verifyRange]
    by_cases hv : v.fits e = true
    · rw [if_pos hv, if_pos hv]
      by_cases hi : i < (Contents.ofValues e vs).count
      · simpa [Except.toOption, hl, hi] using h.set_ofValues hv hi
      · rw [hset hi v]
        simp [Except.toOption, hl, hi]
        rfl
    · rw [if_neg hv, if_neg hv]
      rfl
  | fill v =>
    simp only [apply, revise, he]
    split
    · rename_i hv
      rw [bytes_repeated, h.toNat_len]
      exact h.write_all (hrep hv) List.length_replicate
    · rfl
  | clear =>
    simp only [apply, revise, he]
    rw [bytes_zeros, h.toNat_len]
    exact h.write_all (hrep e.fits_zero) List.length_replicate
  | reverse =>
    simp only [apply, revise, Window.contents, Contents.reversed, Window.read_whole h.sound, he]
    rw [show (Contents.ofValues e vs).bytes = vs.flatMap Value.encode from rfl,
      reversePieces_flatMap_encode h.fits]
    exact h.write_all (fun v hv => h.fits v (List.mem_reverse.mp hv)) List.length_reverse
  | assign c =>
    simp only [apply, revise, he]
    split
    · rename_i hc
      obtain ⟨hs, rfl⟩ := Contents.sound_of_fits hc
      have hb : (Window.whole (Contents.ofValues c.element vs)).byteLength =
          vs.length * c.element.size := by
        rw [Window.byteLength, h.toNat_len, he]
      have hf : ∀ v ∈ c.values, v.fits c.element = true := fun v => Contents.fits_of_mem_values hs
      rw [← Contents.flatMap_encode_values hs, hb, take_flatMap_encode hf]
      exact h.write_front (fun v hv => hf v (List.mem_of_mem_take hv)) (List.length_take_le ..)
    · rfl

end Updates

/-! ## Casts -/

theorem Window.cast_eq (base : UInt64) (w : Window) (e : Element) : w.cast base e =
    if e.laneSize ∣ (base + w.offset).toNat then
      if e.size ∣ w.len.toNat then .ok ⟨e, w.offset, w.len / e.stride⟩
      else .error (.arrayTypeMismatch e.name "OutputSliceWouldHaveSlop")
    else .error (.arrayTypeMismatch e.name "TargetAlignmentGreaterAndInputNotAligned") := by
  have hm : w.len % e.stride = 0 ↔ e.size ∣ w.len.toNat := by
    rw [← UInt64.toNat_inj, UInt64.toNat_mod, Element.toNat_stride]
    exact (Nat.dvd_iff_mod_eq_zero ..).symm
  simp only [cast, isAligned_align_iff, hm]

theorem Storable.whole_cast {vs : List Value} {e : Element} (h : Storable .u8 vs)
    (hd : e.size ∣ vs.length) :
    Window.whole (Contents.ofValues e (e.decodeAll (vs.length / e.size)
      (vs.flatMap Value.encode))) =
    ⟨e, 0, (Contents.ofValues .u8 vs).count / e.stride⟩ := by
  apply whole_ofValues
  rw [Element.length_decodeAll (h.length_cast hd), UInt64.toNat_div, Element.toNat_stride,
    Contents.toNat_count_ofValues .u8 h.lt]

/-! ## Programs -/

namespace Program

variable {base : UInt64} {a : Access} {w : Window} {bytes : List UInt8}

theorem run_update_snd (u : Update) (rest : Program) :
    ((update u rest).run base .writable w bytes).2 =
      (rest.run base .writable w ((u.apply w bytes).toOption.getD bytes)).2 := by
  simp only [run]
  cases u.apply w bytes <;> rfl

theorem run_derive_snd (d : Derivation) (body rest : Program) :
    ((derive d body rest).run base a w bytes).2 =
      (rest.run base a w ((derive d body done).run base a w bytes).2).2 := by
  simp only [run]
  cases d.apply base a w <;> rfl

theorem access_of_readOnly {a' : Access} {w' : Window} {d : Derivation}
    (h : d.apply base .readOnly w = .ok (a', w')) : a' = .readOnly := by
  cases d with
  | slice | sliceFrom =>
    rw [Derivation.apply] at h
    exact Access.eq_of_derive h
  | cast e =>
    rw [Derivation.apply] at h
    split at h
    · exact Access.eq_of_derive h
    · cases h
  | reborrow | narrow => simp [Derivation.apply] at h

theorem run_readOnly_snd (prog : Program) (base : UInt64) (w : Window) (bytes : List UInt8) :
    (prog.run base .readOnly w bytes).2 = bytes := by
  induction prog generalizing w bytes with
  | done => rfl
  | query q rest ih =>
    simp only [run]
    split <;> exact ih w bytes
  | update u rest ih | unreadable rest ih => exact ih w bytes
  | derive d body rest ihb ihr =>
    rw [run_derive_snd, ihr]
    simp only [run]
    cases hd : d.apply base .readOnly w with
    | error f => rfl
    | ok x =>
      obtain ⟨a', w'⟩ := x
      obtain rfl : a' = .readOnly := access_of_readOnly hd
      exact ihb w' bytes

section Derived

variable {body : Program} (hrun : ∀ address {e vs}, Storable e vs →
  (body.run address .writable (Window.whole (Contents.ofValues e vs))
    (Contents.ofValues e vs).bytes).2 = (body.revise address e vs).flatMap Value.encode)
  {e : Element} {vs : List Value} (h : Storable e vs) (address : UInt64)

include hrun h

theorem run_sub_ofValues {start length : UInt64} (hr : start.toNat + length.toNat ≤ vs.length) :
    (body.run address .writable ((Window.whole (Contents.ofValues e vs)).sub start length)
        (Contents.ofValues e vs).bytes).2 =
      (splice start.toNat (body.revise (address + start * e.stride) e
        ((vs.drop start.toNat).take length.toNat)) vs).flatMap Value.encode := by
  have hp := h.part start.toNat length.toNat
  have hl : ((vs.drop start.toNat).take length.toNat).length = length.toNat := by
    rw [List.length_take, List.length_drop]
    omega
  have hw := (Window.within_whole h.sound).sub h.sound.lt (h.checkRange_iff.mpr hr)
  have halone : ((Window.whole (Contents.ofValues e vs)).sub start length).alone =
      Window.whole (Contents.ofValues e ((vs.drop start.toNat).take length.toNat)) :=
    (whole_ofValues hl).symm
  have hoff : address + ((Window.whole (Contents.ofValues e vs)).sub start length).offset =
      address + start * e.stride := congrArg (address + ·) (UInt64.zero_add _)
  obtain ⟨hs, hlen⟩ := body.conserves (address + start * e.stride) e _ hp
  rw [run_eq_write .writable body hw h.sound.lt address, h.read_sub hr, halone, hoff]
  rw [show ((vs.drop start.toNat).take length.toNat).flatMap Value.encode =
    (Contents.ofValues e ((vs.drop start.toNat).take length.toNat)).bytes from rfl, hrun _ hp]
  exact h.write_sub hr hs.fits (hlen.trans hl).le

theorem run_derive_ofValues (d : Derivation) :
    ((derive d body done).run address .writable (Window.whole (Contents.ofValues e vs))
        (Contents.ofValues e vs).bytes).2 =
      (d.revise body.revise address e vs).flatMap Value.encode := by
  cases d with
  | slice start length =>
    have hr : checkRange (Window.whole (Contents.ofValues e vs)).len start length = .ok () ↔
        start.toNat + length.toNat ≤ vs.length := h.checkRange_iff
    simp only [run, Derivation.apply_slice, Derivation.revise]
    by_cases hs : start.toNat + length.toNat ≤ vs.length
    · rw [if_pos hs, Window.slice_eq_ok_iff.mpr ⟨hr.mpr hs, rfl⟩]
      exact run_sub_ofValues hrun h address hs
    · rw [if_neg hs]
      cases hx : (Window.whole (Contents.ofValues e vs)).slice start length with
      | error f => rfl
      | ok x => exact absurd (hr.mp (Window.slice_eq_ok_iff.mp hx).1) hs
  | sliceFrom start =>
    have hc : start ≤ (Window.whole (Contents.ofValues e vs)).len ↔ start.toNat ≤ vs.length := by
      rw [UInt64.le_iff_toNat_le, h.toNat_len]
    simp only [run, Derivation.apply_sliceFrom, Derivation.revise]
    by_cases hs : start.toNat ≤ vs.length
    · have hl : ((Window.whole (Contents.ofValues e vs)).len - start).toNat =
          vs.length - start.toNat := by
        rw [UInt64.toNat_sub_of_le _ _ (hc.mpr hs), h.toNat_len]
      have hr : start.toNat + ((Window.whole (Contents.ofValues e vs)).len - start).toNat ≤
          vs.length := by omega
      have hp := run_sub_ofValues hrun h address hr
      rw [hl, List.take_of_length_le List.length_drop.le] at hp
      rw [if_pos hs, Window.sliceFrom_eq_ok_iff.mpr ⟨hc.mpr hs, rfl⟩]
      exact hp
    · rw [if_neg hs]
      cases hx : (Window.whole (Contents.ofValues e vs)).sliceFrom start with
      | error f => rfl
      | ok x => exact absurd (hc.mp (Window.sliceFrom_eq_ok_iff.mp hx).1) hs
  | cast e' =>
    have hd : e'.size ∣ (Window.whole (Contents.ofValues e vs)).len.toNat ↔
        e'.size ∣ vs.length := by
      rw [h.toNat_len]
    have ha : address + (Window.whole (Contents.ofValues e vs)).offset = address :=
      UInt64.add_zero _
    have he : (Window.whole (Contents.ofValues e vs)).element = e := rfl
    simp only [run, Derivation.apply_cast, Window.cast_eq, Derivation.revise, hd, ha, he]
    by_cases hcast : e = .u8 ∧ e'.laneSize ∣ address.toNat ∧ e'.size ∣ vs.length
    · obtain ⟨rfl, hlane, hsize⟩ := hcast
      have hb : (Contents.ofValues e' (e'.decodeAll (vs.length / e'.size)
          (vs.flatMap Value.encode))).bytes = (Contents.ofValues .u8 vs).bytes :=
        Element.flatMap_encode_decodeAll (h.length_cast hsize)
      have hbody := hrun address (h.cast hsize)
      rw [h.whole_cast hsize, hb] at hbody
      have hl := Derivation.length_cast body.conserves address h hsize
      rw [if_pos rfl, if_pos hlane, if_pos hsize, if_pos ⟨rfl, hlane, hsize⟩,
        Element.flatMap_encode_decodeAll hl]
      exact hbody
    · rw [if_neg hcast]
      by_cases hu : e = .u8
      · by_cases hlane : e'.laneSize ∣ address.toNat
        · rw [if_pos hu, if_pos hlane, if_neg fun hs => hcast ⟨hu, hlane, hs⟩]
          rfl
        · rw [if_pos hu, if_neg hlane]
          rfl
      · rw [if_neg hu]
        rfl
  | reborrow => exact hrun address h
  | narrow => exact run_readOnly_snd ..

end Derived

theorem run_ofValues (prog : Program) (address : UInt64) {e : Element} {vs : List Value}
    (h : Storable e vs) :
    (prog.run address .writable (Window.whole (Contents.ofValues e vs))
      (Contents.ofValues e vs).bytes).2 = (prog.revise address e vs).flatMap Value.encode := by
  induction prog generalizing address e vs with
  | done => rfl
  | query q rest ih =>
    simp only [run]
    split <;> exact ih address h
  | unreadable rest ih => exact ih address h
  | update u rest ih =>
    obtain ⟨hu, hl⟩ := u.conserves h
    rw [run_update_snd, Update.apply_ofValues h, ← whole_ofValues_congr hl]
    exact ih address hu
  | derive d body rest ihb ihr =>
    obtain ⟨hd, hl⟩ := d.conserves body.conserves address h
    rw [run_derive_snd, run_derive_ofValues ihb h, ← whole_ofValues_congr hl]
    exact ihr address hd

section Window

variable (hw : w.Within bytes.length) (hb : bytes.length < UInt64.size)

include hw hb

theorem storable_values : Storable w.element (w.contents bytes).values :=
  storable_decodeAll hw.length_read w.len.toNat_lt_size (hw.sound_contents hb).lt

/-- What a program leaves in the bytes of a window, and what the window shows then. -/
theorem run_eq_revise (prog : Program) (base : UInt64) {vs : List Value}
    (hvs : prog.revise (base + w.offset) w.element (w.contents bytes).values = vs) :
    (prog.run base .writable w bytes).2 = w.write (vs.flatMap Value.encode) bytes ∧
      w.read (prog.run base .writable w bytes).2 = vs.flatMap Value.encode ∧
      (w.contents (prog.run base .writable w bytes).2).values = vs := by
  have hs := storable_values hw hb
  have hlen : (w.contents bytes).values.length = w.len.toNat :=
    Contents.length_values hw.length_read
  have hrun := run_ofValues prog (base + w.offset) hs
  obtain ⟨hs', hl⟩ := prog.conserves (base + w.offset) w.element _ hs
  rw [whole_ofValues hlen, hvs] at hrun
  rw [show (Contents.ofValues w.element (w.contents bytes).values).bytes = w.read bytes from
    Contents.flatMap_encode_values (hw.sound_contents hb)] at hrun
  rw [hvs] at hs' hl
  have hbytes : (vs.flatMap Value.encode).length = w.byteLength := by
    rw [hs'.length_bytes, hl, hlen]
    rfl
  have hread : w.read (w.write (vs.flatMap Value.encode) bytes) = vs.flatMap Value.encode := by
    rw [hw.read_write hbytes.le, splice_of_length_eq (hbytes.trans hw.length_read.symm)]
  have hwrite : (prog.run base .writable w bytes).2 = w.write (vs.flatMap Value.encode) bytes := by
    rw [run_eq_write .writable prog hw hb base]
    exact congrArg (w.write · bytes) hrun
  refine ⟨hwrite, hwrite ▸ hread, ?_⟩
  rw [Contents.values_eq_decodeAll, Window.contents, hwrite, hread]
  dsimp only
  rw [← hlen, ← hl]
  exact Element.decodeAll_flatMap_encode hs'.fits

end Window

end Program

end LargeBuffers
