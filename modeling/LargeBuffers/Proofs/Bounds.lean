import LargeBuffers.Proofs.Extent
import LargeBuffers.Proofs.Footprint

/-! # Spans stay within their storage

A span shows a part of the storage from which it was derived, whatever its type and by however many
steps. Offsets are sums of words that do not wrap, and a request that passes its check touches
nothing but the values of the span.
-/

namespace LargeBuffers

theorem le_of_checkRange {len start length : UInt64} (h : checkRange len start length = .ok ()) :
    start ≤ len ∧ length ≤ len - start := by
  have hsum := checkRange_eq_ok_iff.mp h
  have hle : start ≤ len := UInt64.le_iff_toNat_le.mpr (by omega)
  refine ⟨hle, ?_⟩
  rw [UInt64.le_iff_toNat_le, UInt64.toNat_sub_of_le _ _ hle]
  omega

namespace Window

variable {w w' : Window} {n : ℕ} {base : UInt64} {region : Set ℕ}

inductive Derived (base : UInt64) (w : Window) : Window → Prop
  | refl : Derived base w w
  | step {d : Derivation} {a a' : Access} {x y : Window} : Derived base w x →
      d.apply base a x = .ok (a', y) → Derived base w y

/-- It is safe to reach through a window to storage at these places. The values of the window lie
there and no offset wraps. Requests that pass their checks read and replace only bytes of the
window, and slices that pass theirs are parts of it. -/
structure Safe (w : Window) (region : Set ℕ) : Prop where
  subset : w.positions ⊆ region
  lt : w.offset.toNat + w.byteLength < UInt64.size
  cell : ∀ i < w.len, (w.cell i).offset.toNat = w.offset.toNat + i.toNat * w.element.size ∧
    (w.cell i).positions ⊆ w.positions
  query : ∀ (q : Query) x, q.target w = some x → x.positions ⊆ w.positions
  answer : ∀ (q : Query) a bytes bytes',
    (∀ x, q.target w = some x → x.read bytes' = x.read bytes) →
    q.answer a w bytes' = q.answer a w bytes
  update : ∀ (u : Update) x, u.target w = .ok x → x.positions ⊆ w.positions
  apply : ∀ (u : Update) x bytes, u.target w = .ok x → ∃ new, new.length ≤ x.byteLength ∧
    ∀ bytes', x.read bytes' = x.read bytes → u.apply w bytes' = .ok (x.write new bytes')
  copy : ∀ count, checkCopy count w.len = .ok () → (w.sub 0 count).positions ⊆ w.positions
  slice : ∀ base a start length x, (Derivation.slice start length).apply base a w = .ok (a, x) →
    start ≤ w.len ∧ length ≤ w.len - start ∧ x.len = length ∧
      x.offset.toNat = w.offset.toNat + start.toNat * w.element.size
  sliceFrom : ∀ base a start x, (Derivation.sliceFrom start).apply base a w = .ok (a, x) →
    w.slice start (w.len - start) = .ok x

theorem Within.safe (h : w.Within n) (hn : n < UInt64.size) (hr : w.positions ⊆ region) :
    w.Safe region where
  subset := hr
  lt := by
    have hlt := w.offset.toNat_lt_size
    obtain h | h := h <;> omega
  cell i hi := ⟨h.toNat_offset_cell hn hi, h.positions_cell hn hi⟩
  query q x hx := by
    obtain rfl | ⟨i, hi, rfl⟩ := Query.target_eq_some hx
    · exact subset_rfl
    · exact h.positions_cell hn hi
  answer q a bytes bytes' hr := Query.answer_congr a hr
  update u x hx := by
    obtain ⟨rfl | ⟨i, hi, rfl⟩, -⟩ := Update.target_eq_ok hx []
    · exact subset_rfl
    · exact h.positions_cell hn hi
  apply u x bytes hx := Update.apply_congr hx bytes
  copy count hc := by
    refine h.positions_sub hn (checkRange_eq_ok_iff.mpr ?_)
    unfold checkCopy at hc
    split at hc
    · exact (Nat.zero_add _).trans_le (UInt64.le_iff_toNat_le.mp ‹_›)
    · cases hc
  slice base a start length x hx := by
    rw [Derivation.apply_slice, Access.map_lift_eq_ok_iff] at hx
    obtain ⟨hc, rfl⟩ := slice_eq_ok_iff.mp hx.2
    obtain ⟨hs, hl⟩ := le_of_checkRange hc
    exact ⟨hs, hl, rfl, h.toNat_offset_sub hn (UInt64.le_iff_toNat_le.mp hs) length⟩
  sliceFrom base a start x hx := by
    rw [Derivation.apply_sliceFrom, Access.map_lift_eq_ok_iff] at hx
    exact slice_of_sliceFrom hx.2

theorem Within.positions_derive {d : Derivation} {a a' : Access} (h : w.Within n)
    (hn : n < UInt64.size) (hd : d.apply base a w = .ok (a', w')) :
    w'.positions ⊆ w.positions := by
  obtain rfl | ⟨start, length, hs⟩ | ⟨hu, e, hc⟩ := derive_eq_ok hd
  · exact subset_rfl
  · obtain ⟨hr, rfl⟩ := slice_eq_ok_iff.mp hs
    exact h.positions_sub hn hr
  · obtain ⟨ho, hl⟩ := byteLength_cast hu hc
    rw [positions, ho, hl]
    exact subset_rfl

theorem Derived.within (hd : w.Derived base w') (h : w.Within n) (hn : n < UInt64.size) :
    w'.Within n ∧ w'.positions ⊆ w.positions := by
  induction hd with
  | refl => exact ⟨h, subset_rfl⟩
  | step _ hd ih =>
    obtain ⟨hx, hp⟩ := ih
    exact ⟨hx.derive hn hd, (hx.positions_derive hn hd).trans hp⟩

theorem Derived.safe (hd : w.Derived base w') (h : w.Within n) (hn : n < UInt64.size)
    (hr : w.positions ⊆ region) : w'.Safe region := by
  obtain ⟨h', hp⟩ := hd.within h hn
  exact h'.safe hn (hp.trans hr)

end Window

/-! ## Spans over arrays -/

namespace Source

def byteCount (array : Option Contents) : ℕ := array.elim 0 (·.bytes.length)

theorem byteCount_lt {e : Element} {array : Option Contents}
    (hf : ∀ c, array = some c → c.fits e = true) : byteCount array < UInt64.size := by
  cases array with
  | none => exact Nat.zero_lt_succ _
  | some c => exact (Contents.sound_of_fits (hf c rfl)).1.lt

theorem within_window {e : Element} {a : Access} {src : Source} {array : Option Contents}
    {w : Window} (hf : ∀ c, array = some c → c.fits e = true) (hr : ∀ n, src ≠ .raw n)
    (hw : src.window e a array = .ok w) : w.Within (byteCount array) := by
  rw [window_eq] at hw
  cases src with
  | empty =>
    obtain rfl := Except.ok.inj hw
    exact Window.within_empty ..
  | whole =>
    cases array with
    | none => cases hw
    | some c =>
      obtain rfl := Except.ok.inj hw
      exact Window.within_whole (Contents.sound_of_fits (hf c rfl)).1
  | first =>
    cases array with
    | none => cases hw
    | some c =>
      simp only [writableSpan] at hw
      split at hw
      · rename_i hc
        obtain rfl := Except.ok.inj hw
        obtain ⟨hs, -⟩ := Contents.sound_of_fits (hf c rfl)
        exact (Window.within_whole hs).sub hs.lt
          (checkRange_eq_ok_iff.mpr (UInt64.lt_iff_toNat_lt.mp hc))
      · cases hw
  | range start length =>
    cases array with
    | none =>
      simp only [writableSpan, lift_eq_ok_iff, Window.fromArray] at hw
      split at hw
      · obtain rfl := Except.ok.inj hw
        exact Window.within_empty ..
      · cases hw
    | some c =>
      obtain ⟨hs, -⟩ := Contents.sound_of_fits (hf c rfl)
      exact (Window.within_whole hs).slice hs.lt (lift_eq_ok_iff.mp hw)
  | raw n => exact absurd rfl (hr n)

end Source

/-! ## Spans of handles -/

theorem View.PartOf.positions_subset {v w : View} {n : ℕ} (hp : v.PartOf w)
    (h : w.window.Within n) (hn : n < UInt64.size) : v.window.positions ⊆ w.window.positions := by
  obtain rfl | ⟨start, length, hs⟩ := hp
  · exact subset_rfl
  · obtain ⟨hr, rfl⟩ := View.slice_eq_ok_iff.mp hs
    exact h.positions_sub hn hr

/-- The places in a block at which the storage of a backing lies. -/
def Store.reach (st : Store) (b : Backing) (block : Option BlockId) : Set ℕ :=
  {j | ∃ w, st.storageOf b = .ok w ∧ w.block = block ∧ j ∈ w.window.positions}

namespace Session

/-- A handle leads to a view, as all storage of its backing or by one of its own spans. -/
inductive Resolves (s : Session) (h : Handle) : View → Prop
  | storage {v : View} : s.store.storageOf h.backing = .ok v → Resolves s h v
  | span {v : View} : s.viewOf h = .ok v → Resolves s h v
  | spanMut {v : View} : s.viewMutOf h = .ok v → Resolves s h v

variable {s : Session} {h : Handle} {v : View} {roles : List Role}

theorem Resolves.part (hv : s.Resolves h v) :
    v = .empty s.store.element ∨ ∃ w, s.store.storageOf h.backing = .ok w ∧ v.PartOf w := by
  cases hv with
  | storage hv => exact .inr ⟨v, hv, .inl rfl⟩
  | span hv =>
    unfold viewOf at hv
    split at hv
    · rename_i a m hm
      rw [Handle.backing_of_memory? hm]
      exact (Store.view_eq_ok hv).imp_right fun ⟨w, hw, hs⟩ => ⟨w, hw, .inr ⟨_, _, hs⟩⟩
    · rename_i k hk _
      rw [Handle.backing_of_manager? hk]
      exact .inr ⟨v, lift_eq_ok_iff.mp hv, .inl rfl⟩
    · cases hv
  | spanMut hv =>
    rw [viewMutOf_eq] at hv
    exact (Estate.viewMutOf_eq_ok hv).imp_right fun ⟨_, hw⟩ => hw

theorem Resolves.shows (hv : s.Resolves h v) (hl : s.estate.Layout roles)
    (hx : h ∈ s.estate.handles) :
    s.store.Shows v ∧ v.window.positions ⊆ s.store.reach h.backing v.block := by
  obtain rfl | ⟨w, hw, hp⟩ := hv.part
  · refine ⟨Store.shows_empty _, ?_⟩
    rw [Window.positions_eq_empty (Nat.zero_mul _)]
    exact Set.empty_subset _
  · have hs := hl.shows_storageOf (hl.handle hx) hw
    refine ⟨hs.part hp, fun j hj => ⟨w, hw, hp.block_eq.symm, ?_⟩⟩
    exact hp.positions_subset hs.within hs.lt hj

theorem reach_subset (hl : s.estate.Layout roles) (hx : h ∈ s.estate.handles) (v : View) :
    s.store.reach h.backing v.block ⊆ Set.Iio (s.store.bytesOf v).length := by
  rintro j ⟨w, hw, hb, hj⟩
  have hbytes : s.store.bytesOf w = s.store.bytesOf v := by rw [Store.bytesOf, Store.bytesOf, hb]
  rw [← hbytes]
  exact Window.within_iff.mp (hl.shows_storageOf (hl.handle hx) hw).within hj

/-- No span reaches beyond what it is a part of. Windows derived from a span of either kind over an
array are safe to use on the bytes of the array, and those derived from what a handle leads to are
safe to use on the storage of its backing, which lies within the bytes of a block. The offset of a
memory does not wrap either, nor does that of a slice of it. -/
theorem spans_in_bounds (p : Platform) (e : Element) :
    (∀ (src : Source) (a : Access) (array : Option Contents) (w w' : Window),
      (∀ c, array = some c → c.fits e = true) → (∀ n, src ≠ .raw n) →
      src.window e a array = .ok w → w.Derived placement w' →
      w'.Safe (Set.Iio (Source.byteCount array))) ∧
    (∀ (a : Access) (c : Contents) (start length : UInt64) (w : Window),
      (Source.range start length).window e a (some c) = .ok w →
      start ≤ c.count ∧ length ≤ c.count - start) ∧
    ∀ (ops : List Op) (name : String) (h : Handle),
      let s := (start e).after p ops
      s.slots.get? name = some h →
      (∀ v w', s.Resolves h v → v.window.Derived (s.store.baseOf v) w' →
        w'.Safe (s.store.reach h.backing v.block) ∧
        s.store.reach h.backing v.block ⊆ Set.Iio (s.store.bytesOf v).length) ∧
      ∀ a m, h.memory? = some (a, m) →
        m.start.toNat + m.len.toNat < UInt64.size ∧
        ∀ start length m', m.slice start length = .ok m' →
          m'.start.toNat = m.start.toNat + start.toNat := by
  refine ⟨?_, ?_, ?_⟩
  · intro src a array w w' hf hr hw hd
    have h := Source.within_window hf hr hw
    exact hd.safe h (Source.byteCount_lt hf) (Window.within_iff.mp h)
  · intro a c start length w hw
    rw [Source.window_eq] at hw
    obtain ⟨⟨⟩, hc, -⟩ := bind_eq_ok_iff.mp (lift_eq_ok_iff.mp hw)
    exact le_of_checkRange hc
  · intro ops name h s hs
    have hr : s.estate.Regular := regular_run p e ops
    obtain ⟨roles, hl⟩ := hr.layout
    have hx := mem_handles hs
    refine ⟨fun v w' hv hd => ?_, fun a m hm => ?_⟩
    · obtain ⟨hsh, hp⟩ := hv.shows hl hx
      exact ⟨hd.safe hsh.within hsh.lt hp, reach_subset hl hx v⟩
    · have hb : s.store.Bounds m := hr.bounded hx hm
      refine ⟨hb.lt, fun start length m' hsl => ?_⟩
      obtain ⟨hc, rfl⟩ := Memory.slice_eq_ok_iff.mp hsl
      exact hb.toNat_start_sub ((Nat.le_add_right ..).trans (checkRange_eq_ok_iff.mp hc)) length

/-- A slice of as many values without bytes as a word can count, and a cast of a part of a native
manager. -/
theorem spans_in_bounds_of_cast :
    let c : Contents := ⟨.unit, 0xFFFFFFFFFFFFFFFF, []⟩
    let w : Window := ⟨.unit, 0, 0xFFFFFFFFFFFFFFFE⟩
    let ops : List Op := [.storage "b" (.zeros .u8 32), .recorder "r" false,
      .native "n" "b" "r" 16 8, .share "s" "n", .memory "m" .writable (.manager "s" false),
      .slice "h" "m" 4 4]
    let m : Memory := ⟨.manager 1, 4, 4⟩
    let v : View := ⟨some 0, ⟨.u8, 20, 4⟩⟩
    let s := (start .u8).after .bounded ops
    (Source.range 1 0xFFFFFFFFFFFFFFFE).window .unit .readOnly (some c) = .ok w ∧
      w.Safe (Set.Iio 0) ∧
      s.slots.get? "h" = some (.memory m) ∧ s.viewOf (.memory m) = .ok v ∧
      Window.Safe ⟨.u32, 20, 1⟩ (s.store.reach (.manager 1) (some 0)) := by
  intro c w ops m v s
  have hw : (Source.range 1 0xFFFFFFFFFFFFFFFE).window .unit .readOnly (some c) = .ok w := by
    decide +kernel
  have hs : s.slots.get? "h" = some (.memory m) := by decide +kernel
  have hv : s.viewOf (.memory m) = .ok v := by decide +kernel
  have hd : (Derivation.cast .u32).apply (s.store.baseOf v) .readOnly v.window =
      .ok (.readOnly, ⟨.u32, 20, 1⟩) := by decide +kernel
  have hf : ∀ c', some c = some c' → c'.fits .unit = true := by
    rintro c' ⟨⟩
    decide +kernel
  refine ⟨hw, ?_, hs, hv, ?_⟩
  · exact (spans_in_bounds .bounded .unit).1 _ _ (some c) w w hf (by simp) hw .refl
  · exact (((spans_in_bounds .bounded .u8).2.2 ops "h" _ hs).1 v _ (.span hv) (.step .refl hd)).1

end Session

end LargeBuffers
