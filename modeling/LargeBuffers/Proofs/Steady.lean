import LargeBuffers.Proofs.Tenure

/-! # Managers behind memories

Only the sole holder of a manager can change it. So as long as a memory over a manager stays, the
manager stays as it is.
-/

namespace LargeBuffers

namespace Store

variable {st : Store} {k k' : ManagerId}

theorem getElem?_giveUp_of_ne (h : k' ≠ k) : (st.giveUp k').managers[k]? = st.managers[k]? := by
  obtain ⟨r, g, -, -, he⟩ | ⟨he, -⟩ := st.giveUp_cases k'
  · rw [he]
    simpa using List.getElem?_set_ne h
  · rw [he]

theorem getElem?_dispose_of_ne (h : k' ≠ k) : (st.dispose k').managers[k]? = st.managers[k]? := by
  obtain he | ⟨m, m', events, -, -, -, -, he⟩ := st.dispose_cases k'
  · rw [he]
    exact getElem?_giveUp_of_ne h
  · rw [he]
    exact List.getElem?_set_ne h

end Store

namespace Estate

variable {p : Platform} {e e' : Estate} {x : Handle} {k : ManagerId}

theorem Makes.managers_extend {st : Store} (h : e.Makes p st) :
    e.store.managers <+: st.managers := by
  cases h with
  | null | array | probe | native => exact List.prefix_append ..
  | imported _ _ _ _ h =>
    obtain ⟨imp, -, -, rfl⟩ := Store.addAlias_eq_ok h
    exact List.prefix_append ..
  | buffer _ _ h =>
    obtain ⟨al, -, ⟨alignment, -, h⟩ | ⟨limit, pad, -, -, rfl⟩⟩ := Store.allocate_eq_ok h
    · obtain ⟨size, g, -, -, rfl⟩ := Store.allocateNative_eq_ok h
      rw [Store.managers_countAllocation]
      exact List.prefix_append ..
    · rw [Store.managers_countAllocation]
      exact List.prefix_append ..

theorem Deed.steady (h : e.Tenure) (hd : e.Deed p e') (hx : x ∈ e.handles) (hx' : x ∈ e'.handles)
    (hm : x.manager? = none) (hb : x.backing = .manager k) :
    e'.store.managers[k]? = e.store.managers[k]? := by
  have hk := List.getElem?_eq_getElem (h.known hx hb)
  have hp : ∀ {managers : List Manager}, e.store.managers <+: managers →
      managers[k]? = e.store.managers[k]? := by
    intro managers hp
    rw [Store.getElem?_of_extension hp hk, hk]
  have hno : .manager k ∉ e.handles := by
    refine h.not_mem hx hb ?_
    rintro rfl
    cases hm
  cases hd with
  | nothing | derive | convert | standing | array | storage | recorder | importation => rfl
  | allocator | calls => rfl
  | manager hm _ => exact hp hm.managers_extend
  | @handOff k' r st hk' ho =>
    obtain ⟨g, -, -, -, rfl⟩ := Store.handOff_eq_some ho
    refine List.getElem?_set_ne ?_
    rintro rfl
    exact hno hk'
  | rewrap => exact hp (List.prefix_append ..)
  | @dispose y k' hy hyk hs =>
    refine Store.getElem?_dispose_of_ne ?_
    rintro rfl
    have hyb : y.backing = .manager k' := by cases y <;> cases hyk <;> rfl
    obtain rfl | hs := hs
    · exact hno hy
    · obtain rfl := eq_of_holders_eq_one (eq_of_beq hs) hx hb hy hyb
      cases hm.symm.trans hyk
  | @disposeOwner m k' hs he hmb hso =>
    refine Store.getElem?_dispose_of_ne ?_
    rintro rfl
    have hz := holders_eq_zero_of_cons (eq_of_beq hso) he hmb
    have hpos : 0 < { e with handles := hs }.holders (.manager k') := holders_pos hx' hb
    omega

theorem Loss.steady (hl : e.Loss e') (hx' : x ∈ e'.handles) (hb : x.backing = .manager k) :
    e'.store.managers[k]? = e.store.managers[k]? := by
  obtain @⟨y, hs, he⟩ := hl
  by_cases hy : y.plain = true
  · obtain ⟨k', hk', hz, hd⟩ | ⟨hd, -⟩ := discard_cases { e with handles := hs } hy
    · rw [hd]
      refine Store.getElem?_giveUp_of_ne ?_
      rintro rfl
      have hpos : 0 < { e with handles := hs }.holders (.manager k') := holders_pos hx' hb
      omega
    · rw [hd]
  · cases y with
    | raw r => exact congrArg (·[k]?) (e.store.managers_dropRaw r)
    | importation i => exact congrArg (·[k]?) (e.store.managers_dropReference i)
    | _ => exact absurd rfl hy

theorem Loss.mem (hl : e.Loss e') (hx' : x ∈ e'.handles) : x ∈ e.handles := by
  obtain @⟨y, hs, he⟩ := hl
  exact he ▸ Multiset.mem_cons_of_mem hx'

theorem Losses.mem (hl : Losses e e') (hx' : x ∈ e'.handles) : x ∈ e.handles := by
  induction hl with
  | refl => exact hx'
  | tail _ hl ih => exact ih (hl.mem hx')

theorem Losses.steady (hl : Losses e e') (hx' : x ∈ e'.handles) (hb : x.backing = .manager k) :
    e'.store.managers[k]? = e.store.managers[k]? := by
  induction hl with
  | refl => rfl
  | tail _ hl ih => exact (hl.steady hx' hb).trans (ih (hl.mem hx'))

end Estate

namespace Session

variable {p : Platform} {s : Session} {name : String} {x : Handle} {k : ManagerId}

/-- In a step that leaves a handle under its name, the manager behind it stays as it is. -/
theorem managers_step (hd : s.slots.Distinct) (ht : s.estate.Tenure) (op : Op)
    (hx : s.slots.get? name = some x) (hx' : (s.step p op).2.slots.get? name = some x)
    (hm : x.manager? = none) (hb : x.backing = .manager k) :
    (s.step p op).2.store.managers[k]? = s.store.managers[k]? := by
  have hmem : x ∈ (s.step p op).2.estate.handles := mem_handles hx'
  obtain ⟨-, m, hdeed, hl⟩ | ⟨dest, -, -, y, -, hw⟩ | ⟨-, gauge, hg⟩ :=
    s.step_course (p := p) hd op
  · exact (hl.steady hmem hb).trans (hdeed.steady ht (mem_handles hx) (hl.mem hmem) hm hb)
  · obtain ⟨blocks, he⟩ := hw.frame
    exact congrArg (fun e : Estate => e.store.managers[k]?) he
  · rw [hg]
    rfl

end Session

end LargeBuffers
