import LargeBuffers.Proofs.Unreferenced

/-! # Using handles beside an entry without handles

What is read, written, pinned or given back through a handle is not in the entry of a manager to
which no handle refers.
-/

namespace LargeBuffers.Session

variable {s : Session} {k j : ManagerId} {m : Manager} {slot : String} {x : Handle}

theorem calls_withManager (probe : String) :
    (s.withManager k m).calls probe = overlay k m (s.calls probe) := by
  have hp : (s.withManager k m).probes = s.probes := rfl
  simp only [calls, hp]
  split <;> rfl

section Operations

variable (h : s.Unreferenced k)

include h

theorem viewOf_withManager (hs : s.slots.get? slot = some x) :
    (s.withManager k m).viewOf x = s.viewOf x := by
  unfold viewOf
  rcases hm : x.memory? with _ | ⟨a, mem⟩
  · rcases hj : x.manager? with _ | j
    · rfl
    · exact congrArg Failure.lift (Store.managerView_setManager (h.manager hs hj))
  · exact Store.view_setManager (h.memory hs hm)

theorem viewMutOf_withManager (hs : s.slots.get? slot = some x) :
    (s.withManager k m).viewMutOf x = s.viewMutOf x := by
  cases x with
  | memory mem | owner mem => exact Store.viewMut_setManager (h.memory hs rfl) _
  | manager j => exact congrArg Failure.lift (Store.managerView_setManager (h.manager hs rfl))
  | shared j =>
    have hv : (s.withManager k m).store.managerView j = s.store.managerView j :=
      Store.managerView_setManager (h.manager hs rfl)
    simp only [viewMutOf, Handle.writable?, hv]
    rfl
  | _ => rfl

theorem spanMut_withManager (slot : String) (prog : Program) :
    (s.withManager k m).spanMut slot prog = overlay k m (s.spanMut slot prog) := by
  simp only [spanMut, slots_withManager]
  split
  · rename_i hs
    rw [viewMutOf_withManager h hs]
    split
    · exact congrArg (fun st => (s.withStore st).answer (.transcript _))
        (s.store.setManager_write k m _ _)
    · rfl
  · rfl

omit h in
theorem copyView_withManager (u v : View) :
    (s.withManager k m).copyView u v = (s.copyView u v).map (·.withManager k m) := by
  simp only [copyView]
  rcases checkCopy u.window.len v.window.len with e | _
  · rfl
  · exact congrArg (fun st => Except.ok (s.withStore st)) (s.store.setManager_write k m _ _)

theorem copyViews_withManager (slot dest : String) :
    (s.withManager k m).copyViews slot dest = s.copyViews slot dest := by
  have he : (s.withManager k m).copyEnds slot dest = s.copyEnds slot dest := rfl
  unfold copyViews
  rw [he]
  rcases hc : s.copyEnds slot dest with f | ⟨m₁, m₂⟩
  · rfl
  · obtain ⟨⟨x, a, hx, hm₁⟩, y, hy, hm₂⟩ := copyEnds_eq_ok hc
    have hv₁ : (s.withManager k m).store.view m₁ = s.store.view m₁ :=
      Store.view_setManager (h.memory hx hm₁)
    have hv₂ : (s.withManager k m).store.viewMut m₂ (s.sole m₂.backing) = _ :=
      Store.viewMut_setManager (h.memory hy (Handle.memory?_of_writable? hm₂)) _
    change ((s.withManager k m).store.view m₁ >>= fun v₁ =>
      (s.withManager k m).store.viewMut m₂ (s.sole m₂.backing) >>= fun v₂ => .ok (v₁, v₂)) = _
    rw [hv₁, hv₂]
    rfl

theorem copy_withManager (slot dest : String) :
    (s.withManager k m).copy slot dest = overlay k m (s.copy slot dest) := by
  simp only [copy, copyViews_withManager h]
  split
  · rw [copyView_withManager]
    rcases s.copyView _ _ with e | s' <;> rfl
  · rfl

theorem tryCopy_withManager (slot dest : String) :
    (s.withManager k m).tryCopy slot dest = overlay k m (s.tryCopy slot dest) := by
  simp only [tryCopy, copyViews_withManager h]
  split
  · rw [copyView_withManager]
    rcases s.copyView _ _ with e | s' <;> rfl
  · rfl

theorem copyToSpan_withManager (slot dest : String) :
    (s.withManager k m).copyToSpan slot dest = overlay k m (s.copyToSpan slot dest) := by
  simp only [copyToSpan, slots_withManager]
  split
  · rename_i m₁ m₂ hs hs'
    obtain ⟨y, hy, hm₂⟩ := Option.bind_eq_some_iff.mp hs'
    have hv₁ : (s.withManager k m).store.view m₁ = s.store.view m₁ :=
      Store.view_setManager (h.memory hs rfl)
    have hv₂ : (s.withManager k m).store.viewMut m₂ ((s.withManager k m).sole m₂.backing) =
        s.store.viewMut m₂ (s.sole m₂.backing) :=
      Store.viewMut_setManager (h.memory hy (Handle.memory?_of_writable? hm₂)) _
    rw [hv₁, hv₂]
    split
    · rfl
    · rfl
    · rw [copyView_withManager]
      rcases s.copyView _ _ with e | s' <;> rfl
  · rfl

theorem pinned_withManager {pin : Pin} {st : Store} (hs : s.slots.get? slot = some x)
    (hn : Noted s.store st) (hp : pin.manager ≠ some k) :
    let t := (s.withStore st).withManager k m
    (t.withStore ((st.setManager k m).unpin pin)).answer (.pin (t.pinReport pin (t.viewOf x))) =
      overlay k m (((s.withStore st).withStore (st.unpin pin)).answer
        (.pin ((s.withStore st).pinReport pin ((s.withStore st).viewOf x)))) := by
  obtain ⟨es, -, rfl⟩ := hn
  have hu : (s.withStore { s.store with journal := s.store.journal ++ es }).Unreferenced k :=
    ⟨h.lt, h.ne_null, h.slots⟩
  intro t
  rw [viewOf_withManager hu hs, Store.unpin_setManager hp]
  rfl

theorem pin_withManager (slot : String) (index : Option UInt64) :
    (s.withManager k m).pin slot index = overlay k m (s.pin slot index) := by
  simp only [pin, pinThrough, slots_withManager]
  split
  · rfl
  · rename_i x hs
    rcases hm : x.memory? with _ | ⟨a, mem⟩
    · rcases hj : x.manager? with _ | j
      · rfl
      · cases index with
        | none => rfl
        | some i =>
          have hp : (s.withManager k m).store.pinManager j i = _ :=
            Store.pinManager_setManager (h.manager hs hj) i
          simp only [hp]
          have hn := noted_pinManager s.store j i
          rcases hst : s.store.pinManager j i with ⟨e | pin, st⟩
          · rfl
          · rw [hst] at hn
            refine pinned_withManager h hs hn ?_
            obtain hnone | hsome := Store.manager_of_pinManager hst
            · simp [hnone]
            · exact hsome ▸ fun he => h.manager hs hj (Option.some.inj he)
    · have hp : (s.withManager k m).store.pin mem = _ := Store.pin_setManager (h.memory hs hm)
      simp only [hp]
      have hn := noted_pin s.store mem
      rcases hst : s.store.pin mem with ⟨e | pin, st⟩
      · rfl
      · rw [hst] at hn
        refine pinned_withManager h hs hn ?_
        obtain hnone | hsome := Store.manager_of_pin hst
        · simp [hnone]
        · exact hsome ▸ fun he => h.memory hs hm (Memory.manager?_eq_some_iff.mp he)

theorem unpin_withManager (slot : String) :
    (s.withManager k m).unpin slot = overlay k m (s.unpin slot) := by
  simp only [unpin, slots_withManager]
  split
  · rename_i j hj
    obtain ⟨x, hx, hj⟩ := Option.bind_eq_some_iff.mp hj
    exact congrArg (fun st => (s.withStore st).answer .done)
      (Store.unpinManager_setManager (h.manager hx hj))
  · rfl

omit h in
theorem disposeBacking_withManager {mem : Memory} (hb : mem.backing ≠ .manager k) :
    (s.withManager k m).disposeBacking mem = (s.disposeBacking mem).withManager k m := by
  obtain ⟨_ | b | j, start, len⟩ := mem
  · rfl
  · rfl
  · have hd : (s.withManager k m).store.dispose j = _ :=
      Store.dispose_setManager (ne_of_apply_ne Backing.manager hb)
    simp only [disposeBacking, hd]
    change (if s.sole (.manager j) then _ else _) = _
    split <;> rfl

omit h in
theorem releases_withManager {mem : Memory} (hb : mem.backing ≠ .manager k) :
    (s.withManager k m).releases mem = s.releases mem := by
  obtain ⟨_ | b | j, start, len⟩ := mem
  · rfl
  · rfl
  · have hst : (s.withManager k m).store.managerState j = s.store.managerState j :=
      Store.managerState_setManager (ne_of_apply_ne Backing.manager hb)
    simp only [releases, hst]
    rfl

theorem Unreferenced.disposeBacking (mem : Memory) : (s.disposeBacking mem).Unreferenced k := by
  unfold Session.disposeBacking
  split
  · split
    · exact ⟨(s.store.length_managers_dispose _).symm ▸ h.lt, h.ne_null, h.slots⟩
    · exact h
  · exact h

theorem dispose_withManager (slot : String) :
    (s.withManager k m).dispose slot = overlay k m (s.dispose slot) := by
  simp only [dispose, slots_withManager]
  split
  · rename_i mem hs
    have hb : mem.backing ≠ .manager k := h.memory hs rfl
    rw [disposeBacking_withManager hb, releases_withManager hb,
      drop_withManager (h.disposeBacking mem)]
    rfl
  · rename_i j hs
    exact congrArg (fun st => (s.withStore st).answer .done)
      (Store.dispose_setManager (h.manager hs rfl))
  · rename_i j hs
    have hd : (s.withManager k m).store.dispose j = _ :=
      Store.dispose_setManager (h.manager hs rfl)
    rw [hd]
    change (if s.sole (.manager j) then _ else _) = _
    split <;> rfl
  · rfl

theorem Unreferenced.drop (slot : String) : (s.drop slot).Unreferenced k := by
  have hr := h.remove slot
  unfold Session.drop
  split
  · rw [discard_eq]
    exact ⟨(Estate.length_managers_discard _ _).symm ▸ hr.lt, hr.ne_null, hr.slots⟩
  · exact h

theorem dropSlot_withManager (slot : String) :
    (s.withManager k m).dropSlot slot = overlay k m (s.dropSlot slot) := by
  simp only [dropSlot, slots_withManager]
  split
  · exact congrArg (answer · .done) (drop_withManager h slot)
  · rfl

theorem release_withManager (slot : String) :
    (s.withManager k m).release slot = overlay k m (s.release slot) := by
  simp only [release, slots_withManager]
  split
  · exact congrArg (answer · .done) (drop_withManager h slot)
  · rfl

theorem foldl_withManager (slots : List String) (n : ℕ) :
    slots.foldl (fun (x : ℕ × Session) slot =>
        if (x.2.slots.get? slot).isSome then (x.1 + 1, x.2.drop slot) else x)
        (n, s.withManager k m) =
      Prod.map id (withManager · k m) (slots.foldl (fun (x : ℕ × Session) slot =>
        if (x.2.slots.get? slot).isSome then (x.1 + 1, x.2.drop slot) else x) (n, s)) := by
  induction slots generalizing s n with
  | nil => rfl
  | cons slot slots ih =>
    simp only [List.foldl_cons, slots_withManager, drop_withManager h]
    split
    · exact ih (h.drop slot) _
    · exact ih h _

theorem dropAll_withManager (slots : List String) :
    (s.withManager k m).dropAll slots = overlay k m (s.dropAll slots) :=
  congrArg (fun x : ℕ × Session => x.2.answer (.number x.1)) (foldl_withManager h slots 0)

theorem intoInner_withManager (slot : String) :
    (s.withManager k m).intoInner slot = overlay k m (s.intoInner slot) := by
  simp only [intoInner, slots_withManager]
  split
  · rename_i j hs
    have hj := h.manager hs rfl
    have hk : (s.withManager k m).store.managers[j]? = s.store.managers[j]? :=
      Store.getElem?_setManager hj
    have ha : (s.withManager k m).store.managerArray j = s.store.managerArray j :=
      Store.managerArray_setManager hj
    rw [hk, ha]
    split <;> rfl
  · rfl

/-! ## Looking at handles -/

theorem values_withManager (slot : String) : (s.withManager k m).values slot = s.values slot := by
  simp only [values, slots_withManager]
  split
  · rename_i a mem hs
    obtain ⟨x, hx, hm⟩ := Option.bind_eq_some_iff.mp hs
    have hv : (s.withManager k m).store.view mem = s.store.view mem :=
      Store.view_setManager (h.memory hx hm)
    rw [hv]
    rfl
  · rfl

theorem getArray_withManager (slot : String) :
    (s.withManager k m).getArray slot = s.getArray slot := by
  simp only [getArray, slots_withManager]
  split
  · rename_i x hs
    split
    · rename_i a mem hm
      have ha : (s.withManager k m).store.arrayOf mem = s.store.arrayOf mem :=
        Store.arrayOf_setManager (h.memory hs hm)
      rw [ha]
      rfl
    · rename_i j hj _
      have ha : (s.withManager k m).store.managerArray j = s.store.managerArray j :=
        Store.managerArray_setManager (h.manager hs hj)
      rw [ha]
      rfl
    · rfl
  · rfl

theorem span_withManager (slot : String) (prog : Program) :
    (s.withManager k m).span slot prog = s.span slot prog := by
  simp only [span, slots_withManager]
  split
  · rw [viewOf_withManager h ‹_›]
    rfl
  · rfl

theorem info_withManager (slot : String) : (s.withManager k m).info slot = s.info slot := by
  simp only [info, slots_withManager]
  split
  · rename_i x hs
    have hd : (s.withManager k m).describe x = s.describe x := by
      have hj : ∀ {j}, x.manager? = some j →
          (s.withManager k m).store.managers[j]? = s.store.managers[j]? :=
        fun hj => Store.getElem?_setManager (h.manager hs hj)
      cases x with
      | shared j =>
        simp only [describe, Store.managerLength, Store.managerState, hj rfl]
        rfl
      | manager j =>
        simp only [describe, managerDetails, Store.managerLength, Store.managerState, hj rfl]
        rfl
      | _ => rfl
    rw [hd]
  · rfl

end Operations

end LargeBuffers.Session
