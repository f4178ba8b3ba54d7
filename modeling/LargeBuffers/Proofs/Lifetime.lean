import LargeBuffers.Proofs.Extent

/-! # Storage outlives handles

As long as a memory is there, the state and the length of its backing stay as they are. If the
backing was not released when the memory was made, then all values of the memory can be read
whatever else happens, and if it was, then none of them ever can.
-/

namespace LargeBuffers

/-- The memory is not over a manager with a length of the caller's choice. -/
def Store.Honest (st : Store) (b : Backing) : Prop :=
  ∀ k pr, b = .manager k → st.managers[k]? ≠ some (.probe pr)

namespace Store

variable {st : Store} {b : Backing} {m : Memory}

theorem honest_of_getElem? {k : ManagerId} {manager : Manager}
    (hk : st.managers[k]? = some manager) (hn : ∀ pr, manager ≠ .probe pr) :
    st.Honest (.manager k) := by
  rintro j pr ⟨⟩ hp
  exact hn pr (Option.some.inj (hk.symm.trans hp))

theorem storageOf_of_released (hb : st.Honest b) (hs : st.backingState b = .released) :
    st.storageOf b = .error .released := by
  rcases b with _ | j | k
  · cases hs
  · cases hs
  · change st.managerState k = .released at hs
    change st.managerView k = .error .released
    unfold managerState at hs
    unfold managerView
    rcases hk : st.managers[k]? with _ | _ | ⟨j, live⟩ | ⟨r, held⟩ | pr
    · rfl
    · simp [hk] at hs
    · cases live with
      | false => rfl
      | true => simp [hk] at hs
    · cases held with
      | false => rfl
      | true => simp [hk] at hs
    · exact absurd hk (hb k pr rfl)

theorem view_of_released (hb : st.Honest m.backing) (hs : st.backingState m.backing = .released) :
    st.view m = .error (.error .released) := by
  have hw := storageOf_of_released hb hs
  rcases hm : m.backing with _ | j | k
  · rw [hm] at hs
    cases hs
  · rw [hm] at hs
    cases hs
  · rw [hm] at hw
    change st.managerView k = .error .released at hw
    simp only [view, hm, hw]
    rfl

theorem viewMut_of_released (hs : st.backingState m.backing = .released) (sole : Bool) :
    st.viewMut m sole = .error (.error .released) := by
  rcases hm : m.backing with _ | j | k
  · rw [hm] at hs
    cases hs
  · rw [hm] at hs
    cases hs
  · rw [hm] at hs
    simp only [viewMut, hm]
    exact if_pos hs

/-- Pinning a memory over a released manager reports the release, not the range. -/
theorem pin_of_released (hb : st.Honest m.backing) (hs : st.backingState m.backing = .released)
    (hbo : st.Bounds m) : st.pin m = (.error .released, st) := by
  rcases hm : m.backing with _ | j | k
  · rw [hm] at hs
    cases hs
  · rw [hm] at hs
    cases hs
  · rw [hm] at hs hb
    change st.managerState k = .released at hs
    have hle : m.start.toNat ≤ (st.managerLength k).toNat := by
      unfold Bounds at hbo
      rw [hm] at hbo
      exact (Nat.le_add_right ..).trans hbo
    simp only [pin, hm]
    unfold managerState at hs
    unfold managerLength at hle
    unfold pinManager
    rcases hk : st.managers[k]? with _ | _ | ⟨j, live⟩ | ⟨r, held⟩ | pr
    · rfl
    · simp [hk] at hs
    · cases live with
      | false => rfl
      | true => simp [hk] at hs
    · cases held with
      | false =>
        cases hg : st.regions[r]? with
        | none => simp only [hg]
        | some g =>
          have hi : m.start ≤ g.len := by
            simpa [hk, hg, UInt64.le_iff_toNat_le] using hle
          simp [hg, verifyRange, hi]
      | true => simp [hk] at hs
    · exact absurd hk (hb k pr rfl)

end Store

namespace Estate

variable {e : Estate} {roles : List Role} {b : Backing} {m : Memory} {v w : View}

theorem Layout.storageOf_of_live (h : e.Layout roles) (hb : e.store.Honest b)
    (hs : e.store.backingState b ≠ .released) :
    ∃ w, e.store.storageOf b = .ok w ∧ w.window.len = e.store.backingLength b := by
  rcases b with _ | j | k
  · exact ⟨_, rfl, rfl⟩
  · exact ⟨_, rfl, rfl⟩
  · change e.store.managerState k ≠ .released at hs
    change ∃ w, e.store.managerView k = .ok w ∧ w.window.len = e.store.managerLength k
    unfold Store.managerState at hs
    unfold Store.managerView Store.managerLength
    rcases hk : e.store.managers[k]? with _ | _ | ⟨j, live⟩ | ⟨r, held⟩ | pr
    · simp [hk] at hs
    · exact ⟨_, rfl, rfl⟩
    · cases live with
      | false => simp [hk] at hs
      | true => exact ⟨_, rfl, rfl⟩
    · cases held with
      | false => simp [hk] at hs
      | true =>
        have hr := List.getElem?_eq_getElem (h.native hk)
        simp only [hr]
        exact ⟨_, rfl, rfl⟩
    · exact absurd hk (hb k pr rfl)

theorem Layout.checkRange_of_bounds (h : e.Layout roles) (hh : e.store.Honest m.backing)
    (hb : e.store.Bounds m) (hw : e.store.storageOf m.backing = .ok w) :
    checkRange w.window.len m.start m.len = .ok () := by
  have hs : e.store.backingState m.backing ≠ .released := by
    intro hs
    rw [Store.storageOf_of_released hh hs] at hw
    cases hw
  obtain ⟨w', hw', hl⟩ := h.storageOf_of_live hh hs
  obtain rfl := Except.ok.inj (hw.symm.trans hw')
  rw [checkRange_eq_ok_iff, hl]
  exact hb

theorem Layout.view_of_storageOf (h : e.Layout roles) (hh : e.store.Honest m.backing)
    (hb : e.store.Bounds m) (hw : e.store.storageOf m.backing = .ok w) :
    e.store.view m = .ok { w with window := w.window.sub m.start m.len } := by
  have hsl := View.slice_eq_ok_iff.mpr ⟨h.checkRange_of_bounds hh hb hw, rfl⟩
  obtain ⟨_ | j | k, start, len⟩ := m
  · obtain rfl := Except.ok.inj hw
    have hz : start.toNat + len.toNat ≤ 0 := hb
    obtain rfl : start = 0 := UInt64.toNat_inj.mp (Nat.le_zero.mp ((Nat.le_add_right ..).trans hz))
    obtain rfl : len = 0 := UInt64.toNat_inj.mp (Nat.le_zero.mp ((Nat.le_add_left ..).trans hz))
    exact congrArg Except.ok (congrArg (View.mk none) (Window.sub_self _).symm)
  · obtain rfl := Except.ok.inj hw
    exact View.range_eq_ok_iff.mpr hsl
  · exact lift_eq_ok_iff.mpr (bind_eq_ok_iff.mpr ⟨w, hw, hsl⟩)

theorem Layout.view_of_live (h : e.Layout roles) (hh : e.store.Honest m.backing)
    (hb : e.store.Bounds m) (hs : e.store.backingState m.backing ≠ .released) :
    ∃ v, e.store.view m = .ok v ∧ v.window.len = m.len := by
  obtain ⟨w, hw, -⟩ := h.storageOf_of_live hh hs
  exact ⟨_, h.view_of_storageOf hh hb hw, rfl⟩

end Estate

namespace Session

variable {p : Platform} {s : Session} {name : String} {h : Handle} {a : Access} {m : Memory}
  {ops : List Op}

/-- A handle stays under a name at the start and after each of some operations. -/
def Keeps (p : Platform) (name : String) (h : Handle) : Session → List Op → Prop
  | s, [] => s.slots.get? name = some h
  | s, op :: ops => s.slots.get? name = some h ∧ Keeps p name h (s.step p op).2 ops

instance decidableKeeps (p : Platform) (name : String) (h : Handle) :
    (s : Session) → (ops : List Op) → Decidable (Keeps p name h s ops)
  | s, [] => inferInstanceAs (Decidable (s.slots.get? name = some h))
  | s, op :: ops =>
    have := decidableKeeps p name h (s.step p op).2 ops
    inferInstanceAs (Decidable (s.slots.get? name = some h ∧ Keeps p name h (s.step p op).2 ops))

theorem Keeps.first (hk : s.Keeps p name h ops) : s.slots.get? name = some h := by
  cases ops with
  | nil => exact hk
  | cons op ops => exact hk.1

theorem Keeps.last (hk : s.Keeps p name h ops) : (s.after p ops).slots.get? name = some h := by
  induction ops generalizing s with
  | nil => exact hk
  | cons op ops ih => exact ih hk.2

section Kept

variable (hk : s.Keeps p name h ops) (hd : s.slots.Distinct) (hr : s.estate.Regular)
  (hm : h.memory? = some (a, m))

include hk hd hr hm

/-- As long as a memory stays, the manager behind it stays as it is. -/
theorem Keeps.managers {k : ManagerId} (hb : m.backing = .manager k) :
    (s.after p ops).store.managers[k]? = s.store.managers[k]? := by
  have hhb := (Handle.backing_of_memory? hm).trans hb
  induction ops generalizing s with
  | nil => rfl
  | cons op ops ih =>
    have hstep := managers_step hd hr.order.tenure op hk.1 hk.2.first
      (Handle.manager?_of_memory? hm) hhb
    have hr' := (Estate.stable_regular p).step hd hr op
    exact (ih hk.2 (distinct_step hd op) hr').trans hstep

theorem Keeps.backingLength :
    (s.after p ops).store.backingLength m.backing = s.store.backingLength m.backing := by
  obtain ⟨roles, hl⟩ := hr.layout
  refine hl.backingLength_eq (grows_after hd ops) (fun hb => ?_) fun hb => hk.managers hd hr hm hb
  exact hl.handle (mem_handles hk.first) ((Handle.backing_of_memory? hm).trans hb)

theorem Keeps.backingState :
    (s.after p ops).store.backingState m.backing = s.store.backingState m.backing := by
  rcases hb : m.backing with _ | j | k
  · rfl
  · rfl
  · change (s.after p ops).store.managerState k = s.store.managerState k
    unfold Store.managerState
    rw [hk.managers hd hr hm hb]

theorem Keeps.honest (hh : s.store.Honest m.backing) :
    (s.after p ops).store.Honest m.backing := by
  intro k pr hb
  rw [hk.managers hd hr hm hb]
  exact hh k pr hb

end Kept

theorem values_of_view {v : View} (hs : s.slots.get? name = some h) (hm : h.memory? = some (a, m))
    (hv : s.store.view m = .ok v) :
    s.values name = .ok (.contents (some (s.store.read v))) ∧
      ∀ prog, s.span name prog = .ok (.transcript (s.store.runOn v .readOnly prog).1) := by
  constructor
  · simp only [values, hs, Option.bind_some, hm, hv]
    rfl
  · intro prog
    simp only [span, hs, viewOf, hm, hv]
    rfl

theorem values_of_error {f : Failure} (hs : s.slots.get? name = some h)
    (hm : h.memory? = some (a, m)) (hv : s.store.view m = .error f) :
    s.values name = .error f ∧ ∀ prog, s.span name prog = .error f := by
  constructor
  · simp only [values, hs, Option.bind_some, hm, hv]
    rfl
  · intro prog
    simp only [span, hs, viewOf, hm, hv]
    rfl

theorem spanMut_of_view {v : View} (hs : s.slots.get? name = some h) (hv : s.viewMutOf h = .ok v)
    (prog : Program) : s.spanMut name prog =
      (s.withStore (s.store.write v (s.store.runOn v .writable prog).2)).answer
        (.transcript (s.store.runOn v .writable prog).1) := by
  simp only [spanMut, hs, hv]

theorem spanMut_of_refused {f : Failure} (hs : s.slots.get? name = some h)
    (hv : s.viewMutOf h = .error f) (prog : Program) : s.spanMut name prog = s.refuse f := by
  simp only [spanMut, hs, hv]

theorem spanMut_of_error {f : Failure} (hs : s.slots.get? name = some h)
    (hm : h.writable? = some m) (hv : ∀ sole, s.store.viewMut m sole = .error f)
    (prog : Program) : s.spanMut name prog = (.error f, s) := by
  refine spanMut_of_refused hs ?_ prog
  unfold viewMutOf
  simp only [hm]
  exact hv _

theorem pin_of_error {c : Error} (hs : s.slots.get? name = some h)
    (hm : h.memory? = some (a, m)) (hp : s.store.pin m = (.error c, s.store))
    (index : Option UInt64) : s.pin name index = (.error (.error c), s) := by
  simp only [pin, pinThrough, hs, hm, hp]
  rfl

/-- A memory over nothing, an array or a manager that is not a probe lies within its backing, and
while it stays the state and the length of the backing do not change, whatever operations run. If
the backing was not released, all values of the memory can be read after them; if it was, nothing
can be read, written or pinned. The range of the memory is never refused. -/
theorem storage_outlives_handle (p : Platform) (e : Element) (ops ops' : List Op) (name : String)
    (h : Handle) (a : Access) (m : Memory) (hk : ((start e).after p ops).Keeps p name h ops')
    (hm : h.memory? = some (a, m)) (hh : ((start e).after p ops).store.Honest m.backing) :
    let s := (start e).after p ops
    let s' := s.after p ops'
    m.start.toNat + m.len.toNat ≤ (s'.store.backingLength m.backing).toNat ∧
    s'.store.backingLength m.backing = s.store.backingLength m.backing ∧
    s'.store.backingState m.backing = s.store.backingState m.backing ∧
    (∀ w, s'.store.storageOf m.backing = .ok w →
      checkRange w.window.len m.start m.len = .ok ()) ∧
    (s.store.backingState m.backing ≠ .released →
      ∃ v, s'.store.view m = .ok v ∧ v.window.len = m.len ∧
        s'.values name = .ok (.contents (some (s'.store.read v))) ∧
        (s'.store.read v).values.length = m.len.toNat ∧
        ∀ prog, s'.span name prog = .ok (.transcript (s'.store.runOn v .readOnly prog).1)) ∧
    (s.store.backingState m.backing = .released →
      s'.values name = .error (.error .released) ∧
      (∀ prog, s'.span name prog = .error (.error .released)) ∧
      (∀ prog, h.writable? = some m → s'.spanMut name prog = (.error (.error .released), s')) ∧
      ∀ index, s'.pin name index = (.error (.error .released), s')) := by
  intro s s'
  have hd : s.slots.Distinct := distinct_run p e ops
  have hr : s.estate.Regular := regular_run p e ops
  have hr' : s'.estate.Regular := regular_after hd hr ops'
  obtain ⟨roles, hl⟩ := hr'.layout
  have hmem : h ∈ s'.estate.handles := mem_handles hk.last
  have hb : s'.store.Bounds m := hr'.bounded hmem hm
  have hst := hk.backingState hd hr hm
  have hh' := hk.honest hd hr hm hh
  refine ⟨hb, hk.backingLength hd hr hm, hst, ?_, ?_, ?_⟩
  · intro w hw
    exact hl.checkRange_of_bounds hh' hb hw
  · intro hlive
    obtain ⟨v, hv, hvl⟩ := hl.view_of_live hh' hb (hst ▸ hlive)
    obtain ⟨hval, hspan⟩ := values_of_view hk.last hm hv
    have hsh := hl.shows_view hmem hm hv
    have hc : (s'.store.read v).bytes.length =
        (s'.store.read v).count.toNat * (s'.store.read v).element.size := hsh.within.length_read
    refine ⟨v, hv, hvl, hval, ?_, hspan⟩
    rw [Contents.length_values hc]
    exact congrArg UInt64.toNat hvl
  · intro hrel
    have hrel' := hst.trans hrel
    obtain ⟨hval, hspan⟩ := values_of_error hk.last hm (Store.view_of_released hh' hrel')
    refine ⟨hval, hspan, ?_, ?_⟩
    · intro prog hw
      exact spanMut_of_error hk.last hw (Store.viewMut_of_released hrel') prog
    · intro index
      exact pin_of_error hk.last hm (Store.pin_of_released hh' hrel' hb) index

/-- An array manager that is shared, disposed of in vain and dropped under a memory. -/
theorem storage_outlives_handle_of_array :
    let ops : List Op := [.arrayManager "m" ⟨.u8, 2, [7, 9]⟩, .share "s" "m",
      .memory "h" .writable (.manager "s" false)]
    let ops' : List Op := [.dispose "s", .clone "h'" "h", .drop "s", .drop "h'"]
    let m : Memory := ⟨.manager 1, 0, 2⟩
    let s := (start .u8).after .bounded ops
    let s' := s.after .bounded ops'
    s.Keeps .bounded "h" (.memory m) ops' ∧ s.store.Honest m.backing ∧
      s.store.backingState m.backing ≠ .released ∧
      ∃ v, s'.store.view m = .ok v ∧ (s'.store.read v).values.length = 2 := by
  intro ops ops' m s s'
  have hk : s.Keeps .bounded "h" (.memory m) ops' := by decide +kernel
  have hh : s.store.Honest m.backing := by
    rintro k pr ⟨⟩ hp
    have hm : s.store.managers[1]? = some (.array 0 true) := by decide +kernel
    cases hm.symm.trans hp
  have hl : s.store.backingState m.backing ≠ .released := by decide +kernel
  obtain ⟨-, -, -, -, hv, -⟩ :=
    storage_outlives_handle .bounded .u8 ops ops' "h" (.memory m) .writable m hk rfl hh
  obtain ⟨v, hv, -, -, hlen, -⟩ := hv hl
  exact ⟨hk, hh, hl, v, hv, hlen⟩

end Session

end LargeBuffers
