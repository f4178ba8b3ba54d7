import LargeBuffers.Proofs.Coherence
import LargeBuffers.Proofs.Contract
import LargeBuffers.Proofs.Exclusive

/-! # Ways to resolve a memory

A memory is resolved for a span, for a copy of its values, for a pin of its first place and for the
array behind it. Each way asks the backing anew and checks in an order of its own. They lead to the
same part of the same storage, or all of them to the same error.
-/

namespace LargeBuffers

/-- There is an array behind the backing, and it has not been released. -/
def Store.HasArray (st : Store) (b : Backing) : Prop :=
  (∃ j, b = .array j) ∨ ∃ k j, b = .manager k ∧ st.managers[k]? = some (.array j true)

theorem Store.managerArray_cases {st : Store} {k : ManagerId} (hh : st.Honest (.manager k)) :
    (∃ j, st.HasArray (.manager k) ∧ st.managerArray k = some (st.blockView j) ∧
      st.managerView k = .ok (st.blockView j)) ∨
    ¬st.HasArray (.manager k) ∧ st.managerArray k = none := by
  by_cases ha : st.HasArray (.manager k)
  · obtain ⟨_, hj⟩ | ⟨_, j, ⟨⟩, hk⟩ := ha
    · cases hj
    · exact .inl ⟨j, .inr ⟨k, j, rfl, hk⟩, by simp only [managerArray, hk],
        by simp only [managerView, hk]⟩
  · refine .inr ⟨ha, ?_⟩
    unfold managerArray
    split
    · exact absurd (.inr ⟨k, _, rfl, ‹_›⟩) ha
    · exact absurd ‹_› (hh k _ rfl)
    · rfl

theorem Store.arrayOf_of_view {st : Store} {m : Memory} {v : View} (hh : st.Honest m.backing)
    (hv : st.view m = .ok v) :
    (st.HasArray m.backing → st.arrayOf m = .ok (some v)) ∧
      (¬st.HasArray m.backing → st.arrayOf m = .ok none) := by
  obtain ⟨_ | b | k, start, len⟩ := m
  · refine ⟨?_, fun _ => rfl⟩
    rintro (⟨j, hj⟩ | ⟨k, j, hk, -⟩)
    · cases hj
    · cases hk
  · have hv : (st.blockView b).range start len = .ok v := hv
    refine ⟨fun _ => ?_, fun hn => absurd (.inl ⟨b, rfl⟩) hn⟩
    simp only [arrayOf, hv]
    rfl
  · obtain ⟨j, ha, harr, hview⟩ | ⟨hn, harr⟩ := managerArray_cases hh
    · obtain ⟨w, hw, hsl⟩ := bind_eq_ok_iff.mp (lift_eq_ok_iff.mp hv)
      obtain rfl := Except.ok.inj (hview.symm.trans hw)
      refine ⟨fun _ => ?_, fun hn => absurd ha hn⟩
      simp only [arrayOf, harr, View.range_eq_ok_iff.mpr hsl]
      rfl
    · exact ⟨fun ha => absurd ha hn, fun _ => by simp only [arrayOf, harr]⟩

theorem View.pin_sub (w : View) (start length : UInt64) (j : Option ManagerId) :
    View.pin { w with window := w.window.sub start length } 0 j = w.pin start j := by
  simp only [View.pin, Window.cell, Window.sub, UInt64.zero_mul, UInt64.add_zero]

namespace Estate

variable {e : Estate} {roles : List Role} {m : Memory} {v w : View}

theorem Layout.pin_of_storageOf (h : e.Layout roles) (ht : ∀ {k}, m.backing = .manager k →
    k < e.store.managers.length) (hh : e.store.Honest m.backing) (hb : e.store.Bounds m)
    (hw : e.store.storageOf m.backing = .ok w) :
    ∃ j journal, e.store.pin m = (.ok (w.pin m.start j), { e.store with journal }) := by
  obtain ⟨_ | b | k, start, len⟩ := m
  · obtain rfl := Except.ok.inj hw
    have hz : start.toNat + len.toNat ≤ 0 := hb
    obtain rfl : start = 0 := UInt64.toNat_inj.mp (Nat.le_zero.mp ((Nat.le_add_right ..).trans hz))
    exact ⟨_, _, rfl⟩
  · obtain rfl := Except.ok.inj hw
    exact ⟨_, _, rfl⟩
  · exact (h.stage (ht rfl) hh).pin_eq_ok hw
      (UInt64.le_iff_toNat_le.mpr ((Nat.le_add_right ..).trans hb))

end Estate

namespace Session

/-- All ways lead to one view. -/
structure Resolved (s : Session) (slot : String) (h : Handle) (m : Memory) (v : View) : Prop where
  span : ∀ prog, s.span slot prog = .ok (.transcript (s.store.runOn v .readOnly prog).1)
  contents : s.span slot (.query .contents .done) =
    .ok (.transcript (.answered (.contents (s.store.read v)) .done))
  values : s.values slot = .ok (.contents (some (s.store.read v)))
  /-- The pin has the address of the first place of the span. -/
  place : ∃ j journal, s.store.pin m = (.ok (v.pin 0 j), { s.store with journal })
  /-- That place is in the storage of the backing, or one past its end. -/
  within : ∃ w, s.store.storageOf m.backing = .ok w ∧ v.block = w.block ∧
    v.window.offset.toNat = w.window.offset.toNat + m.start.toNat * w.window.element.size ∧
    m.start.toNat + m.len.toNat ≤ w.window.len.toNat ∧ v.window.len = m.len
  pin : ∀ index, ∃ report, (s.pin slot index).1 = .ok (.pin report) ∧ report.position = some 0
  array : s.store.HasArray m.backing →
    s.store.arrayOf m = .ok (some v) ∧ s.getArray slot = s.values slot
  no_array : ¬s.store.HasArray m.backing →
    s.store.arrayOf m = .ok none ∧ s.getArray slot = .ok (.contents none)
  spanMut : ∀ u, s.viewMutOf h = .ok u → u.window.len ≠ 0 → u = v

/-- All ways are refused on account of the release. -/
structure Lost (s : Session) (slot : String) (h : Handle) (m : Memory) : Prop where
  span : ∀ prog, s.span slot prog = .error (.error .released)
  values : s.values slot = .error (.error .released)
  place : s.store.pin m = (.error .released, s.store)
  pin : ∀ index, s.pin slot index = s.refuse (.error .released)
  array : s.store.arrayOf m = .ok none ∧ s.getArray slot = .ok (.contents none)
  spanMut : ∀ u, s.viewMutOf h ≠ .ok u

variable {s : Session} {slot : String} {h : Handle} {a : Access} {m : Memory} {v : View}

section Memory

variable (hs : s.slots.get? slot = some h) (hm : h.memory? = some (a, m))

include hs hm

theorem getArray_memory {array : Option View} (ha : s.store.arrayOf m = .ok array) :
    s.getArray slot = .ok (.contents (array.map s.store.read)) := by
  simp only [getArray, hs, hm, ha]
  rfl

/-- What the answer to a pin tells of its place. -/
theorem pin_memory {j : Option ManagerId} {journal : List Event} (hv : s.store.view m = .ok v)
    (hp : s.store.pin m = (.ok (v.pin 0 j), { s.store with journal })) (index : Option UInt64) :
    ∃ report, (s.pin slot index).1 = .ok (.pin report) ∧ report.position = some 0 := by
  have hview : (s.withStore { s.store with journal }).viewOf h = .ok v := by
    refine (viewOf_congr (s := s) rfl).trans ?_
    simp only [viewOf, hm, hv]
  simp only [Session.pin, pinThrough, hs, hm, hp, hview]
  refine ⟨_, rfl, ?_⟩
  simp only [pinReport, View.pin, Window.cell, Window.sub, UInt64.zero_mul, UInt64.add_zero,
    UInt64.sub_self, UInt64.zero_div]

theorem resolved (hr : s.estate.Regular) (hh : s.store.Honest m.backing)
    (hlive : s.store.backingState m.backing ≠ .released) : ∃ v, s.Resolved slot h m v := by
  have hmem := mem_handles hs
  have hb : s.store.Bounds m := hr.bounded hmem hm
  have hbk := Handle.backing_of_memory? hm
  obtain ⟨roles, hl⟩ := hr.layout
  obtain ⟨w, hw, hlen⟩ := hl.storageOf_of_live hh hlive
  have hrange : checkRange w.window.len m.start m.len = .ok () := hl.checkRange_of_bounds hh hb hw
  have hv : s.store.view m = .ok { w with window := w.window.sub m.start m.len } :=
    hl.view_of_storageOf hh hb hw
  have hsh : s.store.Shows w := hl.shows_storageOf (hl.handle hmem) (hbk ▸ hw)
  obtain ⟨j, journal, hp⟩ := hl.pin_of_storageOf
    (fun hk => hr.order.tenure.known hmem (hbk.trans hk)) hh hb hw
  rw [← View.pin_sub w m.start m.len] at hp
  obtain ⟨hval, hspan⟩ := values_of_view hs hm hv
  obtain ⟨harr, hno⟩ := Store.arrayOf_of_view hh hv
  refine
    ⟨_,
    { span := hspan
      contents := hspan _
      values := hval
      place := ⟨j, journal, hp⟩
      within := ⟨w, hw, rfl, hsh.within.toNat_offset_part hsh.lt hrange,
        checkRange_eq_ok_iff.mp hrange, rfl⟩
      pin := pin_memory hs hm hv hp
      array := fun ha => ⟨harr ha, ?_⟩
      no_array := fun ha => ⟨hno ha, ?_⟩
      spanMut := fun u hu hne => ?_ }⟩
  · rw [getArray_memory hs hm (harr ha), hval]
    rfl
  · rw [getArray_memory hs hm (hno ha)]
    rfl
  · have hvu := (viewOf_of_viewMutOf hu).resolve_left hne
    simp only [viewOf, hm] at hvu
    exact Except.ok.inj (hvu.symm.trans hv)

theorem lost (hr : s.estate.Regular) (hh : s.store.Honest m.backing)
    (hrel : s.store.backingState m.backing = .released) : s.Lost slot h m := by
  have hb : s.store.Bounds m := hr.bounded (mem_handles hs) hm
  have hv := Store.view_of_released hh hrel
  have hp := Store.pin_of_released hh hrel hb
  obtain ⟨hval, hspan⟩ := values_of_error hs hm hv
  have harr : s.store.arrayOf m = .ok none := by
    rcases hm : m.backing with _ | j | k
    · rw [hm] at hrel
      cases hrel
    · rw [hm] at hrel
      cases hrel
    · have hw := Store.storageOf_of_released hh hrel
      rw [hm] at hh hw
      obtain ⟨j, -, -, hview⟩ | ⟨-, hnone⟩ := Store.managerArray_cases hh
      · cases hw.symm.trans hview
      · simp only [Store.arrayOf, hm, hnone]
  refine
    { span := hspan
      values := hval
      place := hp
      pin := pin_of_error hs hm hp
      array := ⟨harr, getArray_memory hs hm harr⟩
      spanMut := fun u hu => ?_ }
  cases hw : h.writable? with
  | none =>
    cases h <;> cases hm <;> cases hw
    cases hu
  | some m' =>
    obtain ⟨-, rfl⟩ := Prod.mk.inj (Option.some.inj
      (hm.symm.trans (Handle.memory?_of_writable? hw)))
    rw [viewMutOf_of_writable? hw, Store.viewMut_of_released hrel] at hu
    cases hu

end Memory

/-- Resolving a memory over nothing, an array or a manager that is not a probe, in any session: if
its backing has not been released then all ways lead to one view, and the pin to the first place of
it; if it has then all of them are refused, for that reason and for no other. -/
theorem resolutions_agree (p : Platform) (e : Element) (ops : List Op) (slot : String) (h : Handle)
    (a : Access) (m : Memory) (hs : ((start e).after p ops).slots.get? slot = some h)
    (hm : h.memory? = some (a, m)) (hh : ((start e).after p ops).store.Honest m.backing) :
    let s := (start e).after p ops
    s.store.backingState m.backing ≠ .released ∧ (∃ v, s.Resolved slot h m v) ∨
      s.store.backingState m.backing = .released ∧ s.Lost slot h m := by
  intro s
  have hr : s.estate.Regular := regular_run p e ops
  by_cases hrel : s.store.backingState m.backing = .released
  · exact .inr ⟨hrel, lost hs hm hr hh hrel⟩
  · exact .inl ⟨hrel, resolved hs hm hr hh hrel⟩

/-- The empty tail of a memory over a native manager is pinned one past the end of the region. -/
theorem resolutions_agree_of_tail :
    let ops : List Op := [.storage "b" ⟨.u8, 4, [1, 2, 3, 4]⟩, .recorder "o" true,
      .native "m" "b" "o" 1 2, .share "t" "m", .memory "h" .readOnly (.manager "t" false),
      .sliceFrom "n" "h" 2]
    let m : Memory := ⟨.manager 1, 2, 0⟩
    let s := (start .u8).after .bounded ops
    s.slots.get? "n" = some (.readOnly m) ∧ s.store.Honest m.backing ∧
      ∃ v, s.Resolved "n" (.readOnly m) m v ∧ v.window.offset.toNat = 3 ∧ v.window.len = 0 := by
  intro ops m s
  have hs : s.slots.get? "n" = some (.readOnly m) := by decide +kernel
  have hk : s.store.managers[1]? = some (.native 0 true) := by decide +kernel
  have hh : s.store.Honest m.backing := Store.honest_of_getElem? hk (by simp)
  have hw : s.store.storageOf m.backing = .ok ⟨some 0, ⟨.u8, 1, 2⟩⟩ := by decide +kernel
  have hlive : s.store.backingState m.backing ≠ .released := by decide +kernel
  obtain ⟨-, v, hv⟩ | ⟨hrel, -⟩ :=
    resolutions_agree .bounded .u8 ops "n" (.readOnly m) .readOnly m hs rfl hh
  · obtain ⟨w, hw', -, ho, -, hl⟩ := hv.within
    obtain rfl := Except.ok.inj (hw.symm.trans hw')
    exact ⟨hs, hh, v, hv, ho, hl⟩
  · exact absurd hrel hlive

end Session

end LargeBuffers
