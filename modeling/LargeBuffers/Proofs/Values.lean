import Mathlib.Algebra.Order.Ring.Nat
import LargeBuffers.Contents

/-! # Values of runs

A run is cut between values: the values of its parts are the parts of its values. A stored value is
read back as it was, so every list of values of one type is that of a run.
-/

namespace LargeBuffers

/-! ## Pieces -/

theorem length_flatten_piecesInto {α : Type} {size n : ℕ} {xs : List α} {done : List (List α)}
    (h : n * size ≤ xs.length) :
    (piecesInto size n xs done).flatten.length = n * size + done.flatten.length := by
  induction n generalizing xs done with
  | zero => simp [piecesInto]
  | succ n ih =>
    rw [Nat.succ_mul] at h
    rw [piecesInto, ih (by rw [List.length_drop]; omega), Nat.succ_mul]
    simp only [List.flatten_cons, List.length_append, List.length_take]
    omega

theorem length_reversePieces_le {α : Type} (size : ℕ) (xs : List α) :
    (reversePieces size xs).length ≤ xs.length := by
  have hl := Nat.div_mul_le_self xs.length size
  rw [reversePieces, length_flatten_piecesInto hl]
  simpa using hl

theorem length_piecesInto {α : Type} (size n : ℕ) (xs : List α) (done : List (List α)) :
    (piecesInto size n xs done).length = n + done.length := by
  induction n generalizing xs done with
  | zero => simp [piecesInto]
  | succ n ih =>
    rw [piecesInto, ih, List.length_cons]
    omega

theorem length_pieces {α : Type} (size : ℕ) (xs : List α) :
    (pieces size xs).length = xs.length / size := by
  rw [pieces, List.length_reverse, length_piecesInto, List.length_nil, Nat.add_zero]

theorem piecesInto_eq_append {α : Type} (size n : ℕ) (xs : List α) (done : List (List α)) :
    piecesInto size n xs done = piecesInto size n xs [] ++ done := by
  induction n generalizing xs done with
  | zero => rfl
  | succ n ih =>
    rw [piecesInto, piecesInto, ih, ih _ [_], List.append_assoc]
    rfl

@[simp]
theorem pieces_nil {α : Type} (size : ℕ) : pieces size ([] : List α) = [] := by
  rw [pieces, List.length_nil, Nat.zero_div]
  rfl

theorem pieces_append_of_length_eq {α : Type} {size : ℕ} {xs : List α} (hs : 0 < size)
    (hx : xs.length = size) (ys : List α) : pieces size (xs ++ ys) = xs :: pieces size ys := by
  have hn : (xs ++ ys).length / size = ys.length / size + 1 := by
    rw [List.length_append, hx, Nat.add_div_left _ hs]
  rw [pieces, hn, piecesInto, List.drop_left' hx, List.take_left' hx, piecesInto_eq_append,
    List.reverse_append]
  rfl

theorem pieces_append {α : Type} {size n : ℕ} {xs : List α} (hs : 0 < size)
    (hx : xs.length = n * size) (ys : List α) :
    pieces size (xs ++ ys) = pieces size xs ++ pieces size ys := by
  induction n generalizing xs with
  | zero =>
    obtain rfl : xs = [] := List.length_eq_zero_iff.mp (hx.trans (Nat.zero_mul size))
    rw [pieces_nil]
    rfl
  | succ n ih =>
    rw [Nat.succ_mul] at hx
    have ht : (xs.take size).length = size := by rw [List.length_take]; omega
    have hd : (xs.drop size).length = n * size := by rw [List.length_drop]; omega
    rw [← List.take_append_drop size xs, List.append_assoc, pieces_append_of_length_eq hs ht,
      pieces_append_of_length_eq hs ht, ih hd, List.cons_append]

/-! ## Values from bytes -/

namespace Element

/-- The values that bytes stand for. Their number is needed only if they take no bytes. -/
def decodeAll (e : Element) (n : ℕ) (bytes : List UInt8) : List Value :=
  if e.size = 0 then List.replicate n (e.decode []) else (pieces e.size bytes).map e.decode

variable {e : Element} {m n : ℕ} {xs ys : List UInt8}

theorem length_decodeAll (hx : xs.length = n * e.size) : (e.decodeAll n xs).length = n := by
  unfold decodeAll
  split
  · exact List.length_replicate
  · rename_i hs
    rw [List.length_map, length_pieces, hx, Nat.mul_div_cancel _ (Nat.pos_of_ne_zero hs)]

theorem decodeAll_append (hx : xs.length = m * e.size) (n : ℕ) (ys : List UInt8) :
    e.decodeAll (m + n) (xs ++ ys) = e.decodeAll m xs ++ e.decodeAll n ys := by
  unfold decodeAll
  split
  · exact List.replicate_append_replicate.symm
  · rename_i hs
    rw [pieces_append (Nat.pos_of_ne_zero hs) hx, List.map_append]

theorem decodeAll_one (hx : xs.length = e.size) : e.decodeAll 1 xs = [e.decode xs] := by
  unfold decodeAll
  split
  · rename_i hs
    rw [List.length_eq_zero_iff.mp (hx.trans hs)]
    rfl
  · rename_i hs
    have hp := pieces_append_of_length_eq (Nat.pos_of_ne_zero hs) hx []
    rw [List.append_nil, pieces_nil] at hp
    rw [hp, List.map_singleton]

section Parts

variable {k : ℕ} (hk : k ≤ n) (hx : xs.length = n * e.size)

include hk hx

theorem length_take_values : (xs.take (k * e.size)).length = k * e.size := by
  have := Nat.mul_le_mul_right e.size hk
  rw [List.length_take]
  omega

theorem decodeAll_split : e.decodeAll n xs =
    e.decodeAll k (xs.take (k * e.size)) ++ e.decodeAll (n - k) (xs.drop (k * e.size)) := by
  rw [← decodeAll_append (length_take_values hk hx), List.take_append_drop, Nat.add_sub_cancel' hk]

theorem decodeAll_take : e.decodeAll k (xs.take (k * e.size)) = (e.decodeAll n xs).take k := by
  rw [decodeAll_split hk hx,
    List.take_left' (length_decodeAll (length_take_values hk hx))]

theorem decodeAll_drop :
    e.decodeAll (n - k) (xs.drop (k * e.size)) = (e.decodeAll n xs).drop k := by
  rw [decodeAll_split hk hx,
    List.drop_left' (length_decodeAll (length_take_values hk hx))]

end Parts

theorem decodeAll_part {i k : ℕ} (h : i + k ≤ n) (hx : xs.length = n * e.size) :
    e.decodeAll k ((xs.drop (i * e.size)).take (k * e.size)) =
      ((e.decodeAll n xs).drop i).take k := by
  have hi : i ≤ n := by omega
  have hd : (xs.drop (i * e.size)).length = (n - i) * e.size := by
    rw [List.length_drop, hx, Nat.sub_mul]
  rw [decodeAll_take (by omega) hd, decodeAll_drop hi hx]

/-! ## Reading back -/

theorem length_encodeLane (e : Element) (x : Int) : (e.encodeLane x).length = e.laneSize :=
  length_littleEndian ..

theorem decodeLane_encodeLane {x : Int} (h : e.admits x = true) :
    e.decodeLane (e.encodeLane x) = x := by
  have hm : 0 < e.laneModulus := Nat.pow_pos (by decide)
  have hn : ofLittleEndian (e.encodeLane x) = (x % e.laneModulus).toNat := by
    have hlt : (x % e.laneModulus).toNat < e.laneModulus := by
      have := Int.emod_lt_of_pos x (Int.natCast_pos.mpr hm)
      omega
    rw [encodeLane, ofLittleEndian_littleEndian]
    exact Nat.mod_eq_of_lt hlt
  have hc : ((x % e.laneModulus).toNat : Int) = x % e.laneModulus :=
    Int.toNat_of_nonneg (Int.emod_nonneg _ (by omega))
  unfold admits at h
  simp only [decodeLane, hn, hc]
  split at h
  · rename_i hs
    simp only [Bool.and_eq_true, decide_eq_true_eq] at h
    rw [if_pos hs, Int.emod_bmod]
    exact Int.bmod_eq_of_le (by omega) (by omega)
  · rename_i hs
    simp only [Bool.and_eq_true, decide_eq_true_eq] at h
    rw [if_neg hs]
    exact Int.emod_eq_of_lt h.1 h.2

end Element

theorem take_drop_flatMap {α β : Type} {f : α → List β} {size i : ℕ} {xs : List α}
    (hf : ∀ a, (f a).length = size) (hi : i < xs.length) :
    ((xs.flatMap f).drop (i * size)).take size = f xs[i] := by
  induction xs generalizing i with
  | nil => cases hi
  | cons a xs ih =>
    cases i with
    | zero =>
      rw [Nat.zero_mul, List.drop_zero, List.flatMap_cons, List.take_left' (hf a)]
      rfl
    | succ i =>
      rw [List.flatMap_cons, Nat.succ_mul, Nat.add_comm, ← List.drop_drop, List.drop_left' (hf a)]
      exact ih (Nat.lt_of_succ_lt_succ hi)

namespace Value

variable {v : Value} {e : Element}

theorem element_of_fits (h : v.fits e = true) : v.element = e := by
  simp only [fits, Bool.and_eq_true, beq_iff_eq] at h
  exact h.1

theorem valid_of_fits (h : v.fits e = true) : v.valid = true := by
  simp only [fits, Bool.and_eq_true] at h
  exact h.2

theorem decode_encode (h : v.fits e = true) : e.decode v.encode = v := by
  obtain rfl := element_of_fits h
  have hv := valid_of_fits h
  simp only [valid, Bool.and_eq_true, beq_iff_eq, List.all_eq_true] at hv
  obtain ⟨hl, ha⟩ := hv
  have hlanes : (v.element.decode v.encode).lanes = v.lanes := by
    apply List.ext_getElem
    · simp [Element.decode, hl]
    · intro i hi hi'
      have hr : i < (List.range v.element.lanes).length := by
        rwa [List.length_range, ← hl]
      simp only [Element.decode, List.getElem_map, List.getElem_range, encode]
      rw [take_drop_flatMap (fun _ => Element.length_encodeLane ..) hr, List.getElem_range,
        List.getD_eq_getElem?_getD, List.getElem?_eq_getElem hi', Option.getD_some]
      exact Element.decodeLane_encodeLane (ha _ (List.getElem_mem hi'))
  cases v
  exact congrArg _ hlanes

end Value

theorem length_encode (v : Value) : v.encode.length = v.element.size := by
  simp [Value.encode, Element.encodeLane, Element.size, List.length_flatMap, List.map_const']

theorem length_flatMap_encode {e : Element} {vs : List Value} (h : ∀ v ∈ vs, v.fits e = true) :
    (vs.flatMap Value.encode).length = vs.length * e.size := by
  induction vs with
  | nil => exact (Nat.zero_mul _).symm
  | cons v vs ih =>
    rw [List.forall_mem_cons] at h
    rw [List.flatMap_cons, List.length_append, length_encode, Value.element_of_fits h.1, ih h.2,
      List.length_cons, Nat.succ_mul, Nat.add_comm]

theorem Element.decodeAll_flatMap_encode {e : Element} {vs : List Value}
    (h : ∀ v ∈ vs, v.fits e = true) : e.decodeAll vs.length (vs.flatMap Value.encode) = vs := by
  induction vs with
  | nil =>
    apply List.length_eq_zero_iff.mp
    exact length_decodeAll (Nat.zero_mul _).symm
  | cons v vs ih =>
    rw [List.forall_mem_cons] at h
    have hl : v.encode.length = e.size := by rw [length_encode, Value.element_of_fits h.1]
    rw [List.length_cons, Nat.add_comm, List.flatMap_cons,
      decodeAll_append (hl.trans (Nat.one_mul _).symm), decodeAll_one hl, Value.decode_encode h.1,
      ih h.2]
    rfl

namespace Contents

theorem length_zeros (e : Element) (n : UInt64) : (zeros e n).bytes.length = n.toNat * e.size :=
  List.length_replicate

theorem length_repeated (v : Value) (n : UInt64) :
    (repeated v n).bytes.length = n.toNat * v.element.size := by
  unfold repeated
  split
  · rename_i hs
    simp [hs]
  · simp [length_encode, List.length_flatten]

theorem length_reversed_le (c : Contents) : c.reversed.bytes.length ≤ c.bytes.length :=
  length_reversePieces_le ..

theorem values_eq_decodeAll (c : Contents) :
    c.values = c.element.decodeAll c.count.toNat c.bytes := rfl

/-- The bytes are those of so many values, and words can count them. -/
structure Sound (c : Contents) : Prop where
  length : c.bytes.length = c.count.toNat * c.element.size
  lt : c.bytes.length < UInt64.size

theorem sound_of_fits {c : Contents} {e : Element} (h : c.fits e = true) :
    c.Sound ∧ c.element = e := by
  simp only [fits, Bool.and_eq_true, beq_iff_eq, decide_eq_true_eq] at h
  obtain ⟨⟨he, hl⟩, hm⟩ := h
  exact ⟨⟨by rw [hl, he], hm.trans_lt maxBytes.toNat_lt_size⟩, he⟩

theorem length_values {c : Contents} (h : c.bytes.length = c.count.toNat * c.element.size) :
    c.values.length = c.count.toNat :=
  Element.length_decodeAll h

end Contents

end LargeBuffers
