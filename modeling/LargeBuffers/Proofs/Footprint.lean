import Mathlib.Order.Interval.Set.Basic
import LargeBuffers.Proofs.Window

/-! # What requests touch

The places of a window are those of its values. Every request reads or replaces the bytes of one
window: all of the window that it is made of, or a single value of it.
-/

namespace LargeBuffers

namespace Window

variable {w : Window} {n : ℕ} {bytes bytes' new : List UInt8}

/-- The places of the bytes that a window shows. An empty window has none, wherever it is. -/
def positions (w : Window) : Set ℕ := Set.Ico w.offset.toNat (w.offset.toNat + w.byteLength)

instance (w : Window) (j : ℕ) : Decidable (j ∈ w.positions) :=
  inferInstanceAs (Decidable (w.offset.toNat ≤ j ∧ j < w.offset.toNat + w.byteLength))

theorem positions_eq_empty (h : w.byteLength = 0) : w.positions = ∅ := by
  rw [positions, h, Nat.add_zero, Set.Ico_self]

theorem within_iff : w.Within n ↔ w.positions ⊆ Set.Iio n := by
  constructor
  · rintro h j ⟨hj, hlt⟩
    rw [Set.mem_Iio]
    obtain h | h := h <;> omega
  · intro h
    by_cases hb : w.byteLength = 0
    · exact .inl hb
    · have hlast : w.offset.toNat + (w.byteLength - 1) ∈ w.positions := by
        constructor <;> omega
      have := Set.mem_Iio.mp (h hlast)
      exact .inr (by omega)

theorem getElem?_read (w : Window) (bytes : List UInt8) (j : ℕ) :
    (w.read bytes)[j]? = if j < w.byteLength then bytes[w.offset.toNat + j]? else none := by
  rw [read, List.getElem?_take, List.getElem?_drop]

theorem Within.getElem?_write (h : w.Within bytes.length) (hn : new.length = w.byteLength)
    (j : ℕ) : (w.write new bytes)[j]? =
      if j ∈ w.positions then new[j - w.offset.toNat]? else bytes[j]? := by
  obtain h | h := h
  · have hj : j ∉ w.positions := by
      rw [positions_eq_empty h]
      exact Set.notMem_empty j
    rw [if_neg hj, write, List.length_eq_zero_iff.mp (hn.trans h), splice_nil]
  · have ht : (bytes.take w.offset.toNat).length = w.offset.toNat :=
      List.length_take_of_le (by omega)
    rw [write, splice, List.append_assoc]
    split
    · rename_i hj
      obtain ⟨hj, hlt⟩ := hj
      rw [List.getElem?_append_right (ht.trans_le hj), ht, List.getElem?_append_left (by omega)]
    · rename_i hj
      simp only [positions, Set.mem_Ico, not_and, not_lt] at hj
      obtain hlt | hle := Nat.lt_or_ge j w.offset.toNat
      · rw [List.getElem?_append_left (hlt.trans_eq ht.symm), List.getElem?_take, if_pos hlt]
      · have hge := hj hle
        rw [List.getElem?_append_right (ht.trans_le hle), ht,
          List.getElem?_append_right (by omega), List.getElem?_drop]
        congr 1
        omega

/-! ## Parts of windows -/

theorem Within.positions_sub {start length : UInt64} (h : w.Within n) (hn : n < UInt64.size)
    (hr : checkRange w.len start length = .ok ()) :
    (w.sub start length).positions ⊆ w.positions := by
  have hl := add_byteLength_sub_le hr
  have ho := h.toNat_offset_part hn hr
  rintro j ⟨hj, hlt⟩
  constructor <;> omega

section Cells

variable {i : UInt64}

theorem Within.toNat_offset_cell (h : w.Within n) (hn : n < UInt64.size) (hi : i < w.len) :
    (w.cell i).offset.toNat = w.offset.toNat + i.toNat * w.element.size :=
  h.toNat_offset_sub hn (UInt64.lt_iff_toNat_lt.mp hi).le 1

theorem Within.positions_cell (h : w.Within n) (hn : n < UInt64.size) (hi : i < w.len) :
    (w.cell i).positions ⊆ w.positions :=
  h.positions_sub hn (checkRange_eq_ok_iff.mpr (UInt64.lt_iff_toNat_lt.mp hi))

end Cells

end Window

/-! ## Requests -/

namespace Query

variable {w x : Window} {q : Query} {bytes bytes' : List UInt8}

/-- The window whose bytes an answer is made of, if there is one. -/
def target (w : Window) : Query → Option Window
  | length | describe => none
  | contents | backwards => some w
  | get i | index i => if i < w.len then some (w.cell i) else none
  | copyTo dest | tryCopyTo dest =>
    if dest.fits w.element ∧ w.len ≤ dest.count then some w else none

theorem target_eq_some (h : q.target w = some x) : x = w ∨ ∃ i < w.len, x = w.cell i := by
  cases q with
  | length | describe => cases h
  | contents | backwards => exact .inl (Option.some.inj h).symm
  | get i | index i =>
    simp only [target] at h
    split at h
    · exact .inr ⟨i, ‹_›, (Option.some.inj h).symm⟩
    · cases h
  | copyTo dest | tryCopyTo dest =>
    simp only [target] at h
    split at h
    · exact .inl (Option.some.inj h).symm
    · cases h

/-- Bytes outside of its window make no difference to an answer. -/
theorem answer_congr (a : Access) (h : ∀ x, q.target w = some x → x.read bytes' = x.read bytes) :
    q.answer a w bytes' = q.answer a w bytes := by
  have hcell : ∀ {i}, i < w.len → (∀ x, (if i < w.len then some (w.cell i) else none) = some x →
      x.read bytes' = x.read bytes) → w.get i bytes' = w.get i bytes := by
    intro i hi h
    rw [Window.get, h _ (if_pos hi)]
    rfl
  cases q with
  | length | describe => rfl
  | contents =>
    rw [answer_contents, answer_contents, Window.contents, h w rfl]
    rfl
  | backwards =>
    rw [answer_backwards, answer_backwards, Window.contents, h w rfl]
    rfl
  | get i => rw [answer_get, answer_get, Window.fetch_congr rfl fun hi => hcell hi h]
  | index i => rw [answer_index, answer_index, Window.index_congr rfl fun hi => hcell hi h]
  | copyTo dest =>
    rw [answer_copyTo, answer_copyTo]
    split
    · rw [Window.copyTo_congr rfl fun hle => h w (if_pos ⟨‹_›, hle⟩)]
    · rfl
  | tryCopyTo dest =>
    rw [answer_tryCopyTo, answer_tryCopyTo]
    split
    · rw [Window.tryCopyTo_congr rfl fun hle => h w (if_pos ⟨‹_›, hle⟩)]
    · rfl

end Query

namespace Update

variable {w x : Window} {u : Update} {bytes bytes' : List UInt8}

theorem content_congr (ht : u.target w = .ok x) (h : x.read bytes' = x.read bytes) :
    u.content w bytes' = u.content w bytes := by
  cases u with
  | set | setIndex | fill | clear | assign => rfl
  | reverse =>
    obtain rfl := Except.ok.inj ht
    simp only [content, Window.contents, h]

theorem apply_congr (ht : u.target w = .ok x) (bytes : List UInt8) :
    ∃ new, new.length ≤ x.byteLength ∧
      ∀ bytes', x.read bytes' = x.read bytes → u.apply w bytes' = .ok (x.write new bytes') := by
  refine ⟨_, (target_eq_ok ht bytes).2, fun bytes' h => ?_⟩
  rw [apply_eq_map, ht, content_congr ht h]
  rfl

end Update

end LargeBuffers
