import LargeBuffers.Proofs.Lifetime

/-! # The contract of managers

There are three kinds of managers, each with its own mark of a release: a null manager is never
released, one of an array is told that its array is gone, and one of a region no longer holds it.
They agree on what they answer before and after, up to the order of the checks of a pin.
-/

namespace LargeBuffers

namespace Store

/-- The manager stands for a region, whether it still holds it or not. -/
def Native (st : Store) (k : ManagerId) : Prop :=
  ∃ r held, st.managers[k]? = some (.native r held)

/-- The manager stands for an array, whether it still has it or not. -/
def OfArray (st : Store) (k : ManagerId) : Prop :=
  ∃ b live, st.managers[k]? = some (.array b live)

inductive Stage (st : Store) (k : ManagerId) : Prop
  | null : st.managers[k]? = some .null → Stage st k
  | array {b : BlockId} : st.managers[k]? = some (.array b true) → Stage st k
  | arrayReleased {b : BlockId} : st.managers[k]? = some (.array b false) → Stage st k
  | native {r : RegionId} {g : Region} : st.managers[k]? = some (.native r true) →
      st.regions[r]? = some g → Stage st k
  | nativeReleased {r : RegionId} {g : Region} : st.managers[k]? = some (.native r false) →
      st.regions[r]? = some g → Stage st k

variable {st st' : Store} {k : ManagerId} {i : UInt64} {v : View}

theorem not_native_of_empty (hs : st.managerState k = .empty) : ¬st.Native k := by
  rintro ⟨r, held, hr⟩
  cases held <;> simp [managerState, hr] at hs

namespace Stage

theorem length_eq_zero (h : st.Stage k) (hn : ¬st.Native k) (hs : st.managerState k ≠ .live) :
    st.managerLength k = 0 := by
  cases h with
  | null hk => simp only [managerLength, hk]
  | arrayReleased hk => simp only [managerLength, hk, Bool.false_eq_true, if_false]
  | array hk => simp [managerState, hk] at hs
  | native hk | nativeReleased hk => exact absurd ⟨_, _, hk⟩ hn

theorem pin_eq_ok (h : st.Stage k) (hv : st.managerView k = .ok v) (hi : i ≤ st.managerLength k) :
    ∃ j journal, st.pinManager k i = (.ok (v.pin i j), { st with journal }) := by
  cases h with
  | null hk =>
    obtain rfl : i = 0 := by simpa [managerLength, hk] using hi
    simp only [managerView, hk, Except.ok.injEq] at hv
    subst hv
    simp only [pinManager, hk]
    exact ⟨_, _, rfl⟩
  | array hk =>
    simp only [managerView, hk, Except.ok.injEq] at hv
    subst hv
    simp only [managerLength, hk, if_true] at hi
    simp only [pinManager, hk, verifyRange, hi, decide_true, if_true]
    exact ⟨_, _, rfl⟩
  | native hk hg =>
    simp only [managerView, hk, hg, Except.ok.injEq] at hv
    subst hv
    simp only [managerLength, hk, hg] at hi
    simp only [pinManager, hk, hg, verifyRange, hi, decide_true, if_true]
    exact ⟨_, _, rfl⟩
  | arrayReleased hk | nativeReleased hk => simp [managerView, hk] at hv

/-- Native managers check the range of a pin before anything else. -/
theorem pin_outside (h : st.Stage k) (hs : st.managerState k = .released → st.Native k)
    (hi : st.managerLength k < i) :
    ∃ condition, st.pinManager k i = (.error (.outOfRange "element_index" condition), st) := by
  have hn := UInt64.not_le.mpr hi
  cases h with
  | null hk =>
    have h0 : i ≠ 0 := by
      rintro rfl
      exact hn UInt64.zero_le
    simp only [pinManager, hk, verifyRange, h0, decide_false, Bool.false_eq_true, if_false]
    exact ⟨_, rfl⟩
  | array hk =>
    simp only [managerLength, hk, if_true] at hn
    simp only [pinManager, hk, verifyRange, hn, decide_false, Bool.false_eq_true, if_false]
    exact ⟨_, rfl⟩
  | arrayReleased hk =>
    obtain ⟨r, held, hr⟩ := hs (by simp [managerState, hk])
    cases hk.symm.trans hr
  | native hk hg | nativeReleased hk hg =>
    simp only [managerLength, hk, hg] at hn
    simp only [pinManager, hk, hg, verifyRange, hn, decide_false, Bool.false_eq_true, if_false]
    exact ⟨_, rfl⟩

/-- Other managers check first whether they have been released. -/
theorem pin_released (h : st.Stage k) (hs : st.managerState k = .released)
    (hi : st.Native k → i ≤ st.managerLength k) :
    st.pinManager k i = (.error .released, st) := by
  cases h with
  | arrayReleased hk => simp only [pinManager, hk]
  | nativeReleased hk hg =>
    replace hi := hi ⟨_, _, hk⟩
    simp only [managerLength, hk, hg] at hi
    simp only [pinManager, hk, hg, verifyRange, hi, decide_true, if_true, Bool.false_eq_true,
      if_false]
  | null hk | array hk | native hk => simp [managerState, hk] at hs

theorem managerArray_eq_some_iff (h : st.Stage k) : st.managerArray k = some v ↔
    st.OfArray k ∧ st.managerView k = .ok v := by
  constructor
  · intro ha
    cases h with
    | array hk =>
      simp only [managerArray, hk, Option.some.injEq] at ha
      exact ⟨⟨_, _, hk⟩, by simp only [managerView, hk, ha]⟩
    | null hk | arrayReleased hk | native hk | nativeReleased hk => simp [managerArray, hk] at ha
  · rintro ⟨⟨b, live, hk⟩, hv⟩
    cases live with
    | true =>
      simp only [managerView, hk, Except.ok.injEq] at hv
      simp only [managerArray, hk, hv]
    | false => simp [managerView, hk] at hv

theorem dispose_eq_self (h : st.Stage k) (hs : st.managerState k ≠ .live) : st.dispose k = st := by
  cases h with
  | null hk => simp only [Store.dispose, hk]
  | arrayReleased hk =>
    obtain ⟨hl, hg⟩ := List.getElem?_eq_some_iff.mp hk
    simp only [Store.dispose, hk, setManager]
    rw [← hg, List.set_getElem_self]
  | nativeReleased hk => simp only [Store.dispose, giveUp, hk]
  | array hk | native hk => simp [managerState, hk] at hs

theorem dispose (h : st.Stage k) (hs : st.managerState k = .live) :
    (st.dispose k).Stage k ∧ (st.dispose k).managerState k = .released := by
  cases h with
  | @array b hk =>
    have hl := (List.getElem?_eq_some_iff.mp hk).1
    have hk' : (st.dispose k).managers[k]? = some (.array b false) := by
      simp only [Store.dispose, hk, setManager, List.getElem?_set_self hl]
    exact ⟨.arrayReleased hk', by simp [managerState, hk']⟩
  | @native r g hk hg =>
    have hl := (List.getElem?_eq_some_iff.mp hk).1
    have hk' : (st.dispose k).managers[k]? = some (.native r false) := by
      simp only [Store.dispose, giveUp, hk, hg, managers_release, note, setManager,
        List.getElem?_set_self hl]
    have hg' : (st.dispose k).regions[r]? = some g := by
      simp only [Store.dispose, giveUp, hk, hg, regions_release, note, setManager]
    exact ⟨.nativeReleased hk' hg', by simp [managerState, hk']⟩
  | null hk | arrayReleased hk | nativeReleased hk => simp [managerState, hk] at hs

theorem dispose_dispose (h : st.Stage k) : (st.dispose k).dispose k = st.dispose k := by
  by_cases hs : st.managerState k = .live
  · obtain ⟨hg, hrel⟩ := h.dispose hs
    exact hg.dispose_eq_self (hrel ▸ nofun)
  · rw [h.dispose_eq_self hs, h.dispose_eq_self hs]

end Stage

/-- The state of a manager goes from live to released, or stays as it is. -/
theorem Grows.managerState (hg : st.Grows st') (hk : k < st.managers.length)
    (hh : st.Honest (.manager k)) : st'.managerState k = st.managerState k ∨
      st.managerState k = .live ∧ st'.managerState k = .released := by
  have hold := List.getElem?_eq_getElem hk
  obtain ⟨m, hm, hb⟩ := hg.managers hold
  simp only [Store.managerState, hold, hm]
  generalize st.managers[k] = m₀ at hold hb
  cases hb with
  | refl => exact .inl rfl
  | array b live | native r live =>
    cases live with
    | true => exact .inr ⟨rfl, rfl⟩
    | false => exact .inl rfl
  | probe pr => exact absurd hold (hh k pr rfl)

theorem Grows.managerLength (hg : st.Grows st') (h : st.Stage k) (hn : st.Native k) :
    st'.managerLength k = st.managerLength k := by
  have hnat : ∀ {r g held}, st.managers[k]? = some (.native r held) → st.regions[r]? = some g →
      st'.managerLength k = st.managerLength k := by
    intro r g held hk hr
    obtain ⟨m, hm, hb⟩ := hg.managers hk
    have hr' := getElem?_of_extension hg.regions hr
    cases hb <;> simp only [Store.managerLength, hk, hm, hr, hr']
  obtain ⟨r, held, hr⟩ := hn
  cases h with
  | native hk hg | nativeReleased hk hg => exact hnat hk hg
  | null hk | array hk | arrayReleased hk => cases hk.symm.trans hr

end Store

theorem Estate.Layout.stage {e : Estate} {roles : List Role} {k : ManagerId} (h : e.Layout roles)
    (hk : k < e.store.managers.length) (hh : e.store.Honest (.manager k)) : e.store.Stage k := by
  have hm := List.getElem?_eq_getElem hk
  rcases hk : e.store.managers[k] with _ | ⟨b, live⟩ | ⟨r, held⟩ | pr
  · exact .null (hk ▸ hm)
  · cases live with
    | true => exact .array (hk ▸ hm)
    | false => exact .arrayReleased (hk ▸ hm)
  · have hr := List.getElem?_eq_getElem (h.native (hk ▸ hm))
    cases held with
    | true => exact .native (hk ▸ hm) hr
    | false => exact .nativeReleased (hk ▸ hm) hr
  · exact absurd (hk ▸ hm) (hh k pr rfl)

namespace Session

/-- The handle gives access to the operations that change a manager: it is a handle of its own, or
the only one there is. -/
def Commands (s : Session) (h : Handle) (k : ManagerId) : Prop :=
  h = .manager k ∨ h = .shared k ∧ s.sole (.manager k) = true

/-- What a handle to a manager gives before the manager is released. -/
structure Serves (s : Session) (slot : String) (h : Handle) (k : ManagerId) (v : View) : Prop where
  span : ∀ prog, s.span slot prog = .ok (.transcript (s.store.runOn v .readOnly prog).1)
  spanMut : s.Commands h k → ∀ prog, s.spanMut slot prog =
    (s.withStore (s.store.write v (s.store.runOn v .writable prog).2)).answer
      (.transcript (s.store.runOn v .writable prog).1)
  len : v.window.len = s.store.managerLength k
  values : (s.store.read v).values.length = (s.store.managerLength k).toNat
  pin : ∀ i ≤ s.store.managerLength k,
    (∃ j journal, s.store.pinManager k i = (.ok (v.pin i j), { s.store with journal })) ∧
      ∃ report, (s.pin slot (some i)).1 = .ok (.pin report)
  pin_outside : ∀ i, s.store.managerLength k < i → ∃ condition,
    s.pin slot (some i) = s.refuse (.error (.outOfRange "element_index" condition))
  array : s.store.OfArray k → s.getArray slot = .ok (.contents (some (s.store.read v)))
  no_array : ¬s.store.OfArray k → s.getArray slot = .ok (.contents none)

structure Withholds (s : Session) (slot : String) (h : Handle) (k : ManagerId) : Prop where
  span : ∀ prog, s.span slot prog = .error (.error .released)
  spanMut : s.Commands h k → ∀ prog, s.spanMut slot prog = s.refuse (.error .released)
  pin : ∀ i, (s.store.Native k → i ≤ s.store.managerLength k) →
    s.pin slot (some i) = s.refuse (.error .released)
  pin_outside : ∀ i, s.store.Native k → s.store.managerLength k < i → ∃ condition,
    s.pin slot (some i) = s.refuse (.error (.outOfRange "element_index" condition))
  array : s.getArray slot = .ok (.contents none)

variable {p : Platform} {s : Session} {slot : String} {h : Handle} {k : ManagerId}

section Manager

variable (hs : s.slots.get? slot = some h) (hk : h.manager? = some k)

include hk in
theorem viewOf_manager : s.viewOf h = Failure.lift (s.store.managerView k) := by
  cases h <;> cases hk <;> rfl

theorem viewMutOf_manager (hc : s.Commands h k) :
    s.viewMutOf h = Failure.lift (s.store.managerView k) := by
  obtain rfl | ⟨rfl, hx⟩ := hc
  · rfl
  · simp only [viewMutOf, Handle.writable?, hx, if_true]

include hs hk

theorem pin_manager_of_ok {i : UInt64} {pin : Pin} {st : Store}
    (hp : s.store.pinManager k i = (.ok pin, st)) :
    ∃ report, (s.pin slot (some i)).1 = .ok (.pin report) := by
  have hm : h.memory? = none := by cases h <;> cases hk <;> rfl
  simp only [Session.pin, pinThrough, hs, hm, hk, hp]
  exact ⟨_, rfl⟩

theorem pin_manager_of_error {i : UInt64} {c : Error}
    (hp : s.store.pinManager k i = (.error c, s.store)) :
    s.pin slot (some i) = s.refuse (.error c) := by
  have hm : h.memory? = none := by cases h <;> cases hk <;> rfl
  simp only [Session.pin, pinThrough, hs, hm, hk, hp]
  rfl

theorem getArray_manager :
    s.getArray slot = .ok (.contents ((s.store.managerArray k).map s.store.read)) := by
  have hm : h.memory? = none := by cases h <;> cases hk <;> rfl
  simp only [getArray, hs, hm, hk]

omit hk in
theorem dispose_of_commands (hc : s.Commands h k) :
    s.dispose slot = (s.withStore (s.store.dispose k)).answer .done := by
  obtain rfl | ⟨rfl, hx⟩ := hc
  · simp only [dispose, hs]
  · simp only [dispose, hs, hx, if_true]

theorem dispose_of_not_commands (hc : ¬s.Commands h k) : s.dispose slot = s.refuse .shared := by
  obtain ⟨h₁, h₂⟩ := not_or.mp hc
  cases h <;> cases hk
  · have hx : s.sole (.manager k) = false := Bool.eq_false_iff.mpr fun hx => h₂ ⟨rfl, hx⟩
    simp only [dispose, hs, hx, Bool.false_eq_true, if_false]
  · exact absurd rfl h₁

theorem stage (hr : s.estate.Regular) (hh : s.store.Honest (.manager k)) : s.store.Stage k := by
  obtain ⟨roles, hl⟩ := hr.layout
  exact hl.stage (hr.order.tenure.known (mem_handles hs) (Handle.backing_of_manager? hk)) hh

theorem serves (hr : s.estate.Regular) (hh : s.store.Honest (.manager k))
    (hlive : s.store.managerState k ≠ .released) : ∃ v, s.Serves slot h k v := by
  have hb := Handle.backing_of_manager? hk
  have hmem := mem_handles hs
  have hg := stage hs hk hr hh
  obtain ⟨roles, hl⟩ := hr.layout
  obtain ⟨v, hv, hlen⟩ := hl.storageOf_of_live (b := .manager k) hh hlive
  change s.store.managerView k = .ok v at hv
  change v.window.len = s.store.managerLength k at hlen
  have hsh : s.store.Shows v := hl.shows_storageOf (hl.handle hmem) (by rw [hb]; exact hv)
  have hcount : (s.store.read v).bytes.length =
      (s.store.read v).count.toNat * (s.store.read v).element.size := hsh.within.length_read
  refine
    ⟨v,
    { span := fun prog => ?_
      spanMut := fun hc prog => ?_
      len := hlen
      values := (Contents.length_values hcount).trans (congrArg UInt64.toNat hlen)
      pin := fun i hi => ?_
      pin_outside := fun i hi => ?_
      array := fun ha => ?_
      no_array := fun ha => ?_ }⟩
  · simp only [span, hs, viewOf_manager hk, hv]
    rfl
  · refine spanMut_of_view hs ?_ prog
    rw [viewMutOf_manager hc, hv]
    rfl
  · obtain ⟨j, journal, hp⟩ := hg.pin_eq_ok hv hi
    exact ⟨⟨j, journal, hp⟩, pin_manager_of_ok hs hk hp⟩
  · obtain ⟨condition, hp⟩ := hg.pin_outside (absurd · hlive) hi
    exact ⟨condition, pin_manager_of_error hs hk hp⟩
  · rw [getArray_manager hs hk, hg.managerArray_eq_some_iff.mpr ⟨ha, hv⟩]
    rfl
  · have hnone : s.store.managerArray k = none :=
      Option.eq_none_iff_forall_ne_some.mpr fun u hu => ha (hg.managerArray_eq_some_iff.mp hu).1
    rw [getArray_manager hs hk, hnone]
    rfl

theorem withholds (hr : s.estate.Regular) (hh : s.store.Honest (.manager k))
    (hrel : s.store.managerState k = .released) : s.Withholds slot h k := by
  have hg := stage hs hk hr hh
  have hv : s.store.managerView k = .error .released :=
    Store.storageOf_of_released (b := .manager k) hh hrel
  refine
    { span := fun prog => ?_
      spanMut := fun hc prog => ?_
      pin := fun i hi => pin_manager_of_error hs hk (hg.pin_released hrel hi)
      pin_outside := fun i hn hi => ?_
      array := ?_ }
  · simp only [span, hs, viewOf_manager hk, hv]
    rfl
  · refine spanMut_of_refused hs ?_ prog
    rw [viewMutOf_manager hc, hv]
    rfl
  · obtain ⟨condition, hp⟩ := hg.pin_outside (fun _ => hn) hi
    exact ⟨condition, pin_manager_of_error hs hk hp⟩
  · have hnone : s.store.managerArray k = none := by
      refine Option.eq_none_iff_forall_ne_some.mpr fun u hu => ?_
      cases hv.symm.trans (hg.managerArray_eq_some_iff.mp hu).2
    rw [getArray_manager hs hk, hnone]
    rfl

theorem dispose_manager (hg : s.store.Stage k) :
    (s.Commands h k → s.dispose slot = (s.dispose slot).2.answer .done ∧
      (s.dispose slot).2.store.managerState k =
        if s.store.managerState k = .live then .released else s.store.managerState k) ∧
    (s.store.managerState k ≠ .live → (s.dispose slot).2 = s) ∧
    (s.dispose slot).2.dispose slot = s.dispose slot := by
  by_cases hc : s.Commands h k
  · have hd := dispose_of_commands hs hc
    have hd' : (s.withStore (s.store.dispose k)).dispose slot =
        (s.withStore ((s.store.dispose k).dispose k)).answer .done :=
      dispose_of_commands (s := s.withStore (s.store.dispose k)) hs hc
    rw [hd]
    refine ⟨fun _ => ⟨rfl, ?_⟩, fun hn => ?_, ?_⟩
    · split
      · exact (hg.dispose ‹_›).2
      · exact congrArg (Store.managerState · k) (hg.dispose_eq_self ‹_›)
    · exact congrArg s.withStore (hg.dispose_eq_self hn)
    · change (s.withStore (s.store.dispose k)).dispose slot = _
      rw [hd', hg.dispose_dispose]
  · have hd := dispose_of_not_commands hs hk hc
    rw [hd]
    exact ⟨fun hx => absurd hx hc, fun _ => rfl, hd⟩

end Manager

/-- A manager that is not a probe, under a handle in any session. Whatever happens to it, its state
goes from live to released or stays as it is; a native manager keeps its length, and any other one
has no values unless it is live. Before its release it serves all its values, and afterwards it
withholds them. Disposing of it releases what is live, and nothing else; a second time changes
nothing. -/
theorem manager_contract (p : Platform) (e : Element) (ops : List Op) (slot : String) (h : Handle)
    (k : ManagerId) (hs : ((start e).after p ops).slots.get? slot = some h)
    (hk : h.manager? = some k) (hh : ((start e).after p ops).store.Honest (.manager k)) :
    let s := (start e).after p ops
    let state := s.store.managerState k
    let disposed := s.step p (.dispose slot)
    (∀ ops', let st := (s.after p ops').store
      (st.managerState k = state ∨ state = .live ∧ st.managerState k = .released) ∧
        (s.store.Native k → st.managerLength k = s.store.managerLength k)) ∧
    (state = .empty ∨ state = .released ∧ ¬s.store.Native k → s.store.managerLength k = 0) ∧
    (state ≠ .released → ∃ v, s.Serves slot h k v) ∧
    (state = .released → s.Withholds slot h k) ∧
    (s.Commands h k → disposed = disposed.2.answer .done ∧
      disposed.2.store.managerState k = if state = .live then .released else state) ∧
    (state ≠ .live → disposed.2 = s) ∧
    disposed.2.step p (.dispose slot) = disposed := by
  intro s state disposed
  have hd : s.slots.Distinct := distinct_run p e ops
  have hr : s.estate.Regular := regular_run p e ops
  have hlt := hr.order.tenure.known (mem_handles hs) (Handle.backing_of_manager? hk)
  have hg : s.store.Stage k := stage hs hk hr hh
  refine ⟨fun ops' => ?_, ?_, serves hs hk hr hh, withholds hs hk hr hh, dispose_manager hs hk hg⟩
  · have hgr : s.store.Grows (s.after p ops').store := grows_after hd ops'
    exact ⟨hgr.managerState hlt hh, hgr.managerLength hg⟩
  · rintro (he | ⟨hrel, hn⟩)
    · exact hg.length_eq_zero (Store.not_native_of_empty he) fun hs => by cases he.symm.trans hs
    · exact hg.length_eq_zero hn fun hs => by cases hrel.symm.trans hs

/-- A native manager of two bytes that has been disposed of still knows its length. -/
theorem manager_contract_of_disposed :
    let ops : List Op := [.storage "b" ⟨.u8, 4, [1, 2, 3, 4]⟩, .recorder "o" true,
      .native "m" "b" "o" 1 2, .dispose "m"]
    let s := (start .u8).after .bounded ops
    s.slots.get? "m" = some (.manager 1) ∧ s.store.Honest (.manager 1) ∧
      s.pin "m" (some 2) = s.refuse (.error .released) ∧
      ∃ condition, s.pin "m" (some 3) =
        s.refuse (.error (.outOfRange "element_index" condition)) := by
  intro ops s
  have hs : s.slots.get? "m" = some (.manager 1) := by decide +kernel
  have hk : s.store.managers[1]? = some (.native 0 false) := by decide +kernel
  have hlen : s.store.managerLength 1 = 2 := by decide +kernel
  have hh : s.store.Honest (.manager 1) := Store.honest_of_getElem? hk (by simp)
  obtain ⟨-, -, -, hrel, -⟩ := manager_contract .bounded .u8 ops "m" (.manager 1) 1 hs rfl hh
  have hw : s.Withholds "m" (.manager 1) 1 := hrel (by decide +kernel)
  exact ⟨hs, hh, hw.pin 2 fun _ => hlen.symm ▸ UInt64.le_refl 2,
    hw.pin_outside 3 ⟨_, _, hk⟩ (hlen.symm ▸ by decide)⟩

end Session

end LargeBuffers
