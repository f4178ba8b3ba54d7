import LargeBuffers.Span.Source

/-! # Both kinds of spans

A read-only span and the writable span at its place are made under the same conditions, have the
same answers, and lead to spans at the same place.
-/

namespace LargeBuffers

namespace Window

variable (w : Window) (bytes : List UInt8)

/-! ## Requests -/

theorem contents_asReadOnly : w.asReadOnly.contents bytes = w.contents bytes := rfl

@[simp]
theorem byteLength_cell (i : UInt64) : (w.cell i).byteLength = w.element.size :=
  Nat.one_mul _

theorem get_asReadOnly (i : UInt64) : w.asReadOnly.get i bytes = w.get i bytes := by
  rw [Window.get, read, byteLength_cell]
  rfl

theorem fetch_asReadOnly (i : UInt64) : w.asReadOnly.fetch i bytes = w.fetch i bytes := by
  simp only [ReadOnlySpan.fetch, fetch, checkIndex, get_asReadOnly]
  rfl

theorem index_asReadOnly (i : UInt64) : w.asReadOnly.index i bytes = w.index i bytes := by
  simp only [ReadOnlySpan.index, index, get_asReadOnly]
  rfl

theorem fetch_of_lt {w : Window} {bytes : List UInt8} {i : UInt64} (hi : i < w.len) :
    w.fetch i bytes = .ok (w.get i bytes) := by
  unfold fetch checkIndex verifyRange
  rw [decide_eq_true hi]
  rfl

theorem copyTo_eq (dest : Contents) : w.copyTo bytes dest =
    (checkCopy w.len dest.count).map fun _ =>
      { dest with bytes := splice 0 (w.read bytes) dest.bytes } := by
  have hcopy : w.copyTo bytes dest = w.asReadOnly.copyTo bytes dest := rfl
  have hlen : w.asReadOnly.len = w.len := rfl
  rw [hcopy, ReadOnlySpan.copyTo, hlen]
  cases checkCopy w.len dest.count <;> rfl

theorem tryCopyTo_eq (dest : Contents) : w.tryCopyTo bytes dest =
    ((w.copyTo bytes dest).isOk, (w.copyTo bytes dest).toOption.getD dest) := by
  have htry : w.tryCopyTo bytes dest = w.asReadOnly.tryCopyTo bytes dest := rfl
  have hlen : w.asReadOnly.len = w.len := rfl
  rw [htry, copyTo_eq, checkCopy, ReadOnlySpan.tryCopyTo, hlen]
  by_cases hl : w.len ≤ dest.count
  · rw [if_neg (UInt64.not_lt.mpr hl), if_pos hl]
    rfl
  · rw [if_pos (UInt64.not_le.mp hl), if_neg hl]
    rfl

/-! ## What the outcomes depend on -/

section Congr

variable {w w' : Window} {bytes bytes' : List UInt8} {i : UInt64} {dest : Contents}
  (hl : w'.len = w.len)

include hl

theorem fetch_congr (h : i < w.len → w'.get i bytes' = w.get i bytes) :
    w'.fetch i bytes' = w.fetch i bytes := by
  unfold fetch checkIndex verifyRange
  rw [hl]
  by_cases hi : i < w.len
  · rw [h hi]
  · rw [decide_eq_false hi]
    rfl

theorem index_congr (h : i < w.len → w'.get i bytes' = w.get i bytes) :
    w'.index i bytes' = w.index i bytes := by
  unfold index
  rw [hl]
  by_cases hi : i < w.len
  · rw [h hi]
  · rw [if_neg hi, if_neg hi]

theorem copyTo_congr (h : w.len ≤ dest.count → w'.read bytes' = w.read bytes) :
    w'.copyTo bytes' dest = w.copyTo bytes dest := by
  rw [copyTo_eq, copyTo_eq, hl]
  by_cases hle : w.len ≤ dest.count
  · rw [h hle]
  · rw [checkCopy, if_neg hle]
    rfl

theorem tryCopyTo_congr (h : w.len ≤ dest.count → w'.read bytes' = w.read bytes) :
    w'.tryCopyTo bytes' dest = w.tryCopyTo bytes dest := by
  rw [tryCopyTo_eq, tryCopyTo_eq, copyTo_congr hl h]

end Congr

/-! ## Derived spans -/

theorem slice_asReadOnly (start length : UInt64) :
    (w.asReadOnly.slice start length).map (·.window) = w.slice start length := by
  unfold ReadOnlySpan.slice slice
  have hlen : w.asReadOnly.len = w.len := rfl
  rw [hlen]
  cases checkRange w.len start length <;> rfl

theorem sliceFrom_asReadOnly (start : UInt64) :
    (w.asReadOnly.sliceFrom start).map (·.window) = w.sliceFrom start := by
  unfold ReadOnlySpan.sliceFrom sliceFrom checkStart
  have hlen : w.asReadOnly.len = w.len := rfl
  rw [hlen]
  cases verifyRange (start ≤ w.len) "start" "start <= self.len" <;> rfl

theorem cast_asReadOnly (base : UInt64) (e : Element) :
    (w.asReadOnly.cast base e).map (·.window) = w.cast base e := by
  have hoff : w.asReadOnly.offset = w.offset := rfl
  have hlen : w.asReadOnly.len = w.len := rfl
  unfold ReadOnlySpan.cast cast
  rw [hoff, hlen]
  by_cases ha : isAligned (base + w.offset) e.align = true
  · rw [if_neg (not_not_intro ha), if_pos ha]
    by_cases hm : w.len % e.stride = 0
    · rw [if_neg (not_not_intro hm), if_pos hm]
      rfl
    · rw [if_pos hm, if_neg hm]
      rfl
  · rw [if_pos ha, if_neg ha]
    rfl

end Window

/-! ## Either kind -/

theorem Failure.map_lift {α β : Type} (f : α → β) (x : Except Error α) :
    (Failure.lift x).map f = Failure.lift (x.map f) := by
  cases x <;> rfl

namespace Access

variable {w : Window}

theorem ask_eq {α : Type} {f : ReadOnlySpan → α} {g : Window → α} (h : f w.asReadOnly = g w)
    (a : Access) : a.ask f g w = g w := by
  cases a with
  | readOnly => exact h
  | writable => rfl

theorem derive_eq {f : ReadOnlySpan → Except Error ReadOnlySpan} {g : Window → Except Error Window}
    (h : (f w.asReadOnly).map (·.window) = g w) (a : Access) :
    a.derive f g w = (Failure.lift (g w)).map (Prod.mk a) := by
  cases a with
  | readOnly =>
    rw [← h]
    unfold derive
    cases f w.asReadOnly <;> rfl
  | writable => rfl

theorem eq_of_derive {f : ReadOnlySpan → Except Error ReadOnlySpan}
    {g : Window → Except Error Window} {a a' : Access} {w' : Window}
    (h : a.derive f g w = .ok (a', w')) : a' = a := by
  cases a with
  | readOnly =>
    rcases hs : f w.asReadOnly with e | s <;> rw [derive, hs] at h <;> cases h
    rfl
  | writable =>
    rcases hs : g w with e | s <;> rw [derive, hs] at h <;> cases h
    rfl

theorem map_lift_eq_ok_iff {a a' : Access} {x : Except Error Window} :
    (Failure.lift x).map (Prod.mk a) = .ok (a', w) ↔ a = a' ∧ x = .ok w := by
  cases x with
  | error err =>
    constructor
    · rintro ⟨⟩
    · rintro ⟨-, ⟨⟩⟩
  | ok x =>
    constructor
    · rintro ⟨⟩
      exact ⟨rfl, rfl⟩
    · rintro ⟨rfl, ⟨⟩⟩
      rfl

end Access

namespace Query

variable (a : Access) (w : Window) (bytes : List UInt8)

theorem answer_contents : contents.answer a w bytes = .ok (.contents (w.contents bytes)) := by
  rw [answer, Access.ask_eq (w.contents_asReadOnly bytes)]

theorem answer_backwards :
    backwards.answer a w bytes = .ok (.backwards (w.contents bytes).reversed) := by
  rw [answer, Access.ask_eq (w.contents_asReadOnly bytes)]

theorem answer_get (i : UInt64) :
    (get i).answer a w bytes = (Failure.lift (w.fetch i bytes)).map .value := by
  rw [answer, Access.ask_eq (w.fetch_asReadOnly bytes i)]

theorem answer_index (i : UInt64) :
    (index i).answer a w bytes = (w.index i bytes).map .value := by
  rw [answer, Access.ask_eq (w.index_asReadOnly bytes i)]

theorem answer_copyTo (dest : Contents) : (copyTo dest).answer a w bytes =
    if dest.fits w.element then .ok (.ofCopy dest (w.copyTo bytes dest)) else .error .badInput := by
  cases a <;> rfl

theorem answer_tryCopyTo (dest : Contents) : (tryCopyTo dest).answer a w bytes =
    if dest.fits w.element then .ok (.ofOffer (w.tryCopyTo bytes dest)) else .error .badInput := by
  cases a <;> rfl

/-- Apart from texts, which name the kind, the answers are those of a writable span. -/
theorem answer_eq_writable {q : Query} (hq : q ≠ describe) :
    q.answer a w bytes = q.answer .writable w bytes := by
  cases q with
  | length | contents | backwards | copyTo | tryCopyTo => cases a <;> rfl
  | get i => rw [answer_get, answer_get]
  | index i => rw [answer_index, answer_index]
  | describe => exact absurd rfl hq

end Query

namespace Derivation

variable (base : UInt64) (a : Access) (w : Window)

theorem apply_slice (start length : UInt64) : (slice start length).apply base a w =
    (Failure.lift (w.slice start length)).map (Prod.mk a) := by
  rw [apply, Access.derive_eq (w.slice_asReadOnly start length)]

theorem apply_sliceFrom (start : UInt64) : (sliceFrom start).apply base a w =
    (Failure.lift (w.sliceFrom start)).map (Prod.mk a) := by
  rw [apply, Access.derive_eq (w.sliceFrom_asReadOnly start)]

theorem apply_cast (e : Element) : (cast e).apply base a w =
    if w.element = .u8 then (Failure.lift (w.cast base e)).map (Prod.mk a)
    else .error .badInput := by
  rw [apply, Access.derive_eq (w.cast_asReadOnly base e)]

end Derivation

/-! ## Constructors -/

namespace Window

theorem fromArray_eq (e : Element) (array : Option Contents) (start length : UInt64) :
    (ReadOnlySpan.fromArray e array start length).map (·.window) =
      fromArray e array start length := by
  cases array with
  | none =>
    simp only [ReadOnlySpan.fromArray, fromArray]
    split <;> rfl
  | some c =>
    simp only [ReadOnlySpan.fromArray, fromArray]
    cases checkRange c.count start length <;> rfl

theorem fromRawParts_eq (pointer : Option Contents) (length : UInt64) :
    (ReadOnlySpan.fromRawParts pointer length).map (·.window) = fromRawParts pointer length := by
  cases pointer with
  | none => rfl
  | some c =>
    have hw : (whole c).sub 0 length = ⟨c.element, 0, length⟩ := by
      simp only [sub, whole, UInt64.zero_mul, UInt64.add_zero]
    simp only [ReadOnlySpan.fromRawParts, fromRawParts, hw]
    cases checkByteLength c.element.stride length <;> rfl

end Window

/-- Spans of either kind are made under the same conditions and at the same place. -/
theorem Source.window_eq (e : Element) (a : Access) (src : Source) (array : Option Contents) :
    src.window e a array = src.writableSpan e array := by
  cases a with
  | writable => rfl
  | readOnly =>
    cases src with
    | empty => rfl
    | whole => cases array <;> rfl
    | first =>
      cases array with
      | none => rfl
      | some c =>
        simp only [window, readOnlySpan, writableSpan]
        split <;> rfl
    | range start length =>
      simp only [window, readOnlySpan, writableSpan, Failure.map_lift, Window.fromArray_eq]
    | raw length =>
      simp only [window, readOnlySpan, writableSpan, Failure.map_lift, Window.fromRawParts_eq]

end LargeBuffers
