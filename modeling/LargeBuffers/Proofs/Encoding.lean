import Mathlib.Data.List.Basic
import LargeBuffers.Proofs.Window

/-! # Bytes and values

Bytes of the right number are those of exactly one list of values, and every bit pattern stands for
a value: reading and writing back is the identity in both directions (`Value.decode_encode` and
`Element.encode_decode`).
-/

namespace LargeBuffers

theorem flatMap_take_drop {α : Type} (xs : List α) (n size : ℕ) :
    ((List.range n).flatMap fun i => (xs.drop (i * size)).take size) = xs.take (n * size) := by
  induction n with
  | zero => rw [Nat.zero_mul, List.take_zero, List.range_zero, List.flatMap_nil]
  | succ n ih =>
    rw [List.range_succ, List.flatMap_append, ih, List.flatMap_singleton, Nat.succ_mul,
      List.take_add]

theorem length_take_drop {α : Type} {xs : List α} {n size i : ℕ} (h : xs.length = n * size)
    (hi : i < n) : ((xs.drop (i * size)).take size).length = size := by
  have hl : (i + 1) * size ≤ n * size := Nat.mul_le_mul_right _ hi
  rw [Nat.succ_mul] at hl
  rw [List.length_take, List.length_drop, h]
  omega

namespace Element

variable {e : Element} {n : ℕ} {bytes : List UInt8}

/-! ## Lanes -/

theorem laneModulus_pos (e : Element) : 0 < e.laneModulus :=
  Nat.pow_pos (by decide)

theorem two_dvd_laneModulus (e : Element) : 2 ∣ e.laneModulus := by
  obtain ⟨k, hk⟩ : ∃ k, e.laneSize = k + 1 := by
    cases e <;> exact ⟨_, rfl⟩
  rw [laneModulus, hk]
  change 2 ∣ Nat.pow 256 k * 256
  omega

theorem ofLittleEndian_lt_laneModulus (h : bytes.length = e.laneSize) :
    ofLittleEndian bytes < e.laneModulus := by
  have hlt := ofLittleEndian_lt bytes
  rwa [h] at hlt

theorem encodeLane_decodeLane (h : bytes.length = e.laneSize) :
    e.encodeLane (e.decodeLane bytes) = bytes := by
  have hn := ofLittleEndian_lt_laneModulus h
  have hmod : e.decodeLane bytes % e.laneModulus = ofLittleEndian bytes := by
    have hself : (ofLittleEndian bytes : ℤ) % e.laneModulus = ofLittleEndian bytes :=
      Int.emod_eq_of_lt (Int.natCast_nonneg _) (Int.ofNat_lt.mpr hn)
    unfold decodeLane
    split
    · rw [Int.bmod_emod, hself]
    · exact hself
  rw [encodeLane, hmod, Int.toNat_natCast, ← h]
  exact littleEndian_ofLittleEndian bytes

/-- Every bit pattern of a lane stands for a number that the lane can hold. -/
theorem admits_decodeLane (h : bytes.length = e.laneSize) :
    e.admits (e.decodeLane bytes) = true := by
  have hn := ofLittleEndian_lt_laneModulus h
  have hpos := e.laneModulus_pos
  have heven := e.two_dvd_laneModulus
  unfold admits decodeLane
  split
  · have hlo := Int.le_bmod (x := ofLittleEndian bytes) hpos
    have hhi := Int.bmod_lt (x := ofLittleEndian bytes) hpos
    simp only [Bool.and_eq_true, decide_eq_true_eq]
    omega
  · simp only [Bool.and_eq_true, decide_eq_true_eq]
    omega

/-! ## Values -/

theorem encode_decode (h : bytes.length = e.size) : (e.decode bytes).encode = bytes := by
  have hlane : ∀ i ∈ List.range e.lanes, e.encodeLane ((e.decode bytes).lanes.getD i 0) =
      (bytes.drop (i * e.laneSize)).take e.laneSize := by
    intro i hi
    have hi := List.mem_range.mp hi
    simp only [decode, List.getD_eq_getElem?_getD, List.getElem?_map, List.getElem?_range hi,
      Option.map_some, Option.getD_some]
    exact encodeLane_decodeLane (length_take_drop h hi)
  calc (e.decode bytes).encode
      = (List.range e.lanes).flatMap fun i => (bytes.drop (i * e.laneSize)).take e.laneSize :=
        List.flatMap_congr hlane
    _ = bytes.take e.size := flatMap_take_drop ..
    _ = bytes := List.take_of_length_le h.le

theorem fits_decode (h : bytes.length = e.size) : (e.decode bytes).fits e = true := by
  simp only [Value.fits, Value.valid, decode, List.length_map, List.length_range, BEq.rfl,
    Bool.true_and, List.all_map, List.all_eq_true, List.mem_range, Function.comp_apply]
  exact fun i hi => admits_decodeLane (length_take_drop h hi)

def zero (e : Element) : Value := ⟨e, List.replicate e.lanes 0⟩

theorem fits_zero (e : Element) : e.zero.fits e = true := by
  cases e <;> decide

theorem encode_zero (e : Element) : e.zero.encode = List.replicate e.size 0 := by
  cases e <;> decide

/-! ## Runs of values -/

section Runs

variable (h : bytes.length = n * e.size)

include h

theorem getElem_decodeAll {i : ℕ} (hi : i < (e.decodeAll n bytes).length) :
    (e.decodeAll n bytes)[i] = e.decode ((bytes.drop (i * e.size)).take e.size) := by
  have hn : i + 1 ≤ n := (length_decodeAll h).symm ▸ hi
  have hp := decodeAll_part hn h
  rw [Nat.one_mul, decodeAll_one (length_take_drop h hn), List.drop_eq_getElem_cons hi,
    List.take_succ_cons, List.take_zero] at hp
  exact (List.cons.inj hp).1.symm

theorem decodeAll_eq_map_range : e.decodeAll n bytes =
    (List.range n).map fun i => e.decode ((bytes.drop (i * e.size)).take e.size) := by
  apply List.ext_getElem
  · rw [length_decodeAll h, List.length_map, List.length_range]
  · intro i hi _
    rw [getElem_decodeAll h hi, List.getElem_map, List.getElem_range]

theorem fits_of_mem_decodeAll {v : Value} (hv : v ∈ e.decodeAll n bytes) : v.fits e = true := by
  rw [decodeAll_eq_map_range h] at hv
  obtain ⟨i, hi, rfl⟩ := List.mem_map.mp hv
  exact fits_decode (length_take_drop h (List.mem_range.mp hi))

theorem flatMap_encode_decodeAll : (e.decodeAll n bytes).flatMap Value.encode = bytes := by
  calc (e.decodeAll n bytes).flatMap Value.encode
      = (List.range n).flatMap fun i =>
          (e.decode ((bytes.drop (i * e.size)).take e.size)).encode := by
        rw [decodeAll_eq_map_range h, List.flatMap_map]
    _ = (List.range n).flatMap fun i => (bytes.drop (i * e.size)).take e.size :=
        List.flatMap_congr fun i hi => encode_decode (length_take_drop h (List.mem_range.mp hi))
    _ = bytes.take (n * e.size) := flatMap_take_drop ..
    _ = bytes := List.take_of_length_le h.le

end Runs

end Element

namespace Contents

variable {c : Contents} (h : c.Sound)

include h

theorem flatMap_encode_values : c.values.flatMap Value.encode = c.bytes :=
  Element.flatMap_encode_decodeAll h.length

theorem fits_of_mem_values {v : Value} (hv : v ∈ c.values) : v.fits c.element = true :=
  Element.fits_of_mem_decodeAll h.length hv

end Contents

/-! ## Bytes of values -/

section Bytes

variable {e : Element} {vs : List Value} {i : ℕ}

theorem length_flatMap_encode_take (h : ∀ v ∈ vs, v.fits e = true) (hi : i ≤ vs.length) :
    ((vs.take i).flatMap Value.encode).length = i * e.size := by
  rw [length_flatMap_encode fun v hv => h v (List.mem_of_mem_take hv), List.length_take,
    Nat.min_eq_left hi]

theorem take_flatMap_encode (h : ∀ v ∈ vs, v.fits e = true) (i : ℕ) :
    (vs.flatMap Value.encode).take (i * e.size) = (vs.take i).flatMap Value.encode := by
  obtain hi | hi := Nat.le_total i vs.length
  · conv_lhs => rw [← List.take_append_drop i vs, List.flatMap_append]
    exact List.take_left' (length_flatMap_encode_take h hi)
  · rw [List.take_of_length_le hi]
    apply List.take_of_length_le
    rw [length_flatMap_encode h]
    exact Nat.mul_le_mul_right _ hi

theorem drop_flatMap_encode (h : ∀ v ∈ vs, v.fits e = true) (hi : i ≤ vs.length) :
    (vs.flatMap Value.encode).drop (i * e.size) = (vs.drop i).flatMap Value.encode := by
  conv_lhs => rw [← List.take_append_drop i vs, List.flatMap_append]
  exact List.drop_left' (length_flatMap_encode_take h hi)

theorem splice_flatMap_encode {new : List Value} (h : ∀ v ∈ vs, v.fits e = true)
    (hn : ∀ v ∈ new, v.fits e = true) (hi : i + new.length ≤ vs.length) :
    splice (i * e.size) (new.flatMap Value.encode) (vs.flatMap Value.encode) =
      (splice i new vs).flatMap Value.encode := by
  rw [splice, splice, length_flatMap_encode hn, ← Nat.add_mul, take_flatMap_encode h,
    drop_flatMap_encode h hi, List.flatMap_append, List.flatMap_append]

theorem splice_singleton {α : Type} {xs : List α} (a : α) (hi : i < xs.length) :
    splice i [a] xs = xs.set i a := by
  rw [List.set_eq_take_append_cons_drop, if_pos hi, splice, List.append_assoc]
  rfl

theorem splice_of_length_eq {α : Type} {new old : List α} (h : new.length = old.length) :
    splice 0 new old = new := by
  rw [splice, List.take_zero, List.nil_append, Nat.zero_add, h, List.drop_length, List.append_nil]

theorem flatMap_encode_replicate (n : ℕ) (v : Value) :
    (List.replicate n v).flatMap Value.encode = (List.replicate n v.encode).flatten := by
  rw [List.flatMap_def, List.map_replicate]

theorem bytes_repeated (v : Value) (n : UInt64) :
    (Contents.repeated v n).bytes = (List.replicate n.toNat v).flatMap Value.encode := by
  rw [flatMap_encode_replicate, Contents.repeated]
  split
  · rename_i hs
    rw [List.length_eq_zero_iff.mp ((length_encode v).trans hs)]
    simp
  · rfl

theorem bytes_zeros (e : Element) (n : UInt64) :
    (Contents.zeros e n).bytes = (List.replicate n.toNat e.zero).flatMap Value.encode := by
  rw [flatMap_encode_replicate, Element.encode_zero, List.flatten_replicate_replicate]
  rfl

theorem pieces_flatMap_encode (h : ∀ v ∈ vs, v.fits e = true) (hs : 0 < e.size) :
    pieces e.size (vs.flatMap Value.encode) = vs.map Value.encode := by
  induction vs with
  | nil => exact pieces_nil _
  | cons v vs ih =>
    rw [List.forall_mem_cons] at h
    have hv : v.encode.length = e.size := by rw [length_encode, Value.element_of_fits h.1]
    rw [List.flatMap_cons, pieces_append_of_length_eq hs hv, ih h.2, List.map_cons]

theorem reversePieces_flatMap_encode (h : ∀ v ∈ vs, v.fits e = true) :
    reversePieces e.size (vs.flatMap Value.encode) = vs.reverse.flatMap Value.encode := by
  obtain hs | hs := Nat.eq_zero_or_pos e.size
  · have hnil : ∀ {xs : List Value}, (∀ v ∈ xs, v.fits e = true) →
        xs.flatMap Value.encode = [] := by
      intro xs hx
      rw [← List.length_eq_zero_iff, length_flatMap_encode hx, hs, Nat.mul_zero]
    rw [hnil h, hnil fun v hv => h v (List.mem_reverse.mp hv), hs]
    rfl
  · have hp : (pieces e.size (vs.flatMap Value.encode)).reverse.flatten =
        reversePieces e.size (vs.flatMap Value.encode) := by
      rw [pieces, List.reverse_reverse, reversePieces]
    rw [← hp, pieces_flatMap_encode h hs, ← List.map_reverse, List.flatMap_def]

end Bytes

/-! ## Copies -/

theorem Contents.splice_bytes {x y : Contents} (hx : x.Sound) (hy : y.Sound)
    (he : x.element = y.element) (hl : x.count ≤ y.count) :
    splice 0 x.bytes y.bytes =
      (x.values ++ y.values.drop x.count.toNat).flatMap Value.encode := by
  have hlen : x.values.length = x.count.toNat := Contents.length_values hx.length
  have hcount : y.values.length = y.count.toNat := Contents.length_values hy.length
  have hold : ∀ v ∈ y.values, v.fits y.element = true := fun v => Contents.fits_of_mem_values hy
  have hnew : ∀ v ∈ x.values, v.fits y.element = true :=
    fun v hv => he ▸ Contents.fits_of_mem_values hx hv
  have hle : 0 + x.values.length ≤ y.values.length := by
    rw [Nat.zero_add, hlen, hcount]
    exact UInt64.le_iff_toNat_le.mp hl
  have hsplice := splice_flatMap_encode hold hnew hle
  rw [Nat.zero_mul, flatMap_encode_values hx, flatMap_encode_values hy] at hsplice
  rw [hsplice, splice, List.take_zero, List.nil_append, Nat.zero_add, hlen]

namespace Window

variable {w : Window} {bytes : List UInt8}

theorem Within.sound_contents (hw : w.Within bytes.length) (hb : bytes.length < UInt64.size) :
    (w.contents bytes).Sound where
  length := hw.length_read
  lt := by
    refine lt_of_le_of_lt ?_ hb
    rw [contents, read, List.length_take, List.length_drop]
    omega

theorem Within.read_write_bytes {c : Contents} (hw : w.Within bytes.length)
    (hb : bytes.length < UInt64.size) (hc : c.Sound) (he : c.element = w.element)
    (hl : c.count ≤ w.len) : w.read (w.write c.bytes bytes) =
      (c.values ++ (w.contents bytes).values.drop c.count.toNat).flatMap Value.encode := by
  have hle : c.bytes.length ≤ w.byteLength := by
    rw [hc.length, he]
    exact Nat.mul_le_mul_right _ (UInt64.le_iff_toNat_le.mp hl)
  rw [hw.read_write hle]
  exact Contents.splice_bytes hc (hw.sound_contents hb) he hl

theorem Within.values_write_bytes {c : Contents} (hw : w.Within bytes.length)
    (hb : bytes.length < UInt64.size) (hc : c.Sound) (he : c.element = w.element)
    (hl : c.count ≤ w.len) : (w.contents (w.write c.bytes bytes)).values =
      c.values ++ (w.contents bytes).values.drop c.count.toNat := by
  have hs := hw.sound_contents hb
  have hfits : ∀ v ∈ c.values ++ (w.contents bytes).values.drop c.count.toNat,
      v.fits w.element = true := by
    intro v hv
    obtain hv | hv := List.mem_append.mp hv
    · exact he ▸ Contents.fits_of_mem_values hc hv
    · exact Contents.fits_of_mem_values hs (List.mem_of_mem_drop hv)
  have hlen : (c.values ++ (w.contents bytes).values.drop c.count.toNat).length = w.len.toNat := by
    have hle := UInt64.le_iff_toNat_le.mp hl
    rw [List.length_append, List.length_drop, Contents.length_values hc.length,
      Contents.length_values hs.length]
    change c.count.toNat + (w.len.toNat - c.count.toNat) = w.len.toNat
    omega
  rw [Contents.values_eq_decodeAll, contents, hw.read_write_bytes hb hc he hl]
  dsimp only
  rw [← hlen]
  exact Element.decodeAll_flatMap_encode hfits

theorem Within.copyTo_eq_ofValues {dest : Contents} (hw : w.Within bytes.length)
    (hb : bytes.length < UInt64.size) (hd : dest.fits w.element = true) (hl : w.len ≤ dest.count) :
    w.copyTo bytes dest = .ok (Contents.ofValues w.element
      ((w.contents bytes).values ++ dest.values.drop w.len.toNat)) := by
  obtain ⟨hs, he⟩ := Contents.sound_of_fits hd
  have hw := hw.sound_contents hb
  have hle := UInt64.le_iff_toNat_le.mp hl
  have hn : ((w.contents bytes).values ++ dest.values.drop w.len.toNat).length =
      dest.count.toNat := by
    rw [List.length_append, List.length_drop, Contents.length_values hw.length,
      Contents.length_values hs.length]
    change w.len.toNat + (dest.count.toNat - w.len.toNat) = dest.count.toNat
    omega
  have hsplice : splice 0 (w.read bytes) dest.bytes = _ :=
    Contents.splice_bytes hw hs he.symm hl
  rw [copyTo_eq, checkCopy, if_pos hl, Contents.ofValues, hn, UInt64.ofNat_toNat, hsplice, ← he]
  rfl

end Window

end LargeBuffers
