import LargeBuffers.Proofs.Coherence
import LargeBuffers.Proofs.Exclusive
import LargeBuffers.Proofs.ReleasedOnce

/-! # The last handle to a backing

As long as one of several handles to a backing stays, what it shows is not touched by the end of
the others. A region whose manager has no handle of its own is never handed off, so it is released
exactly once, and before the last handle to the manager is gone.
-/

namespace LargeBuffers

namespace Store

variable {st st' : Store} {k j : ManagerId} {r : RegionId} {g : Region}

theorem storageOf_of_stock {b : Backing} (h : st'.stock = st.stock)
    (hk : ∀ {k}, b = .manager k → st'.managers[k]? = st.managers[k]?) :
    st'.storageOf b = st.storageOf b := by
  obtain ⟨he, h⟩ := Prod.mk.inj h
  obtain ⟨hb, h⟩ := Prod.mk.inj h
  have hr := (Prod.mk.inj h).1
  have hv : st'.blockView = st.blockView := by
    funext i
    simp only [blockView, contentsOf, hb, he]
  rcases b with _ | i | k
  · exact congrArg (Except.ok ∘ View.empty) he
  · exact congrArg Except.ok (congrFun hv i)
  · simp only [storageOf, managerView, hk rfl, he, hr, hv]

theorem held_giveUp (hk : st.managers[k]? = some (.native r true)) (hg : st.regions[r]? = some g)
    (j : ManagerId) : (st.giveUp j).managers[k]? = some (.native r true) ∨
      releaseCalls r (st.giveUp j).journal ≠ [] := by
  by_cases hj : j = k
  · right
    rw [hj, releaseCalls_giveUp r hk hg, if_pos rfl]
    exact List.append_ne_nil_of_right_ne_nil _ (List.cons_ne_nil _ _)
  · left
    rw [getElem?_giveUp_of_ne hj, hk]

theorem held_dispose (hk : st.managers[k]? = some (.native r true)) (hg : st.regions[r]? = some g)
    (j : ManagerId) : (st.dispose j).managers[k]? = some (.native r true) ∨
      releaseCalls r (st.dispose j).journal ≠ [] := by
  by_cases hj : j = k
  · have he : st.dispose j = st.giveUp j := by simp only [dispose, hj, hk]
    rw [he]
    exact held_giveUp hk hg j
  · left
    rw [getElem?_dispose_of_ne hj, hk]

end Store

namespace Estate

variable {p : Platform} {e e' : Estate} {k : ManagerId} {r : RegionId} {g : Region} {x : Handle}

/-- A region that was with a manager without a handle of its own. -/
structure Entrusted (k : ManagerId) (r : RegionId) (g : Region) (e : Estate) : Prop where
  region : e.store.regions[r]? = some g
  lt : k < e.store.managers.length
  shared : .manager k ∉ e.handles
  held : e.store.managers[k]? = some (.native r true) ∨ releaseCalls r e.store.journal ≠ []

/-- What was released stays so; what was not has to be looked at. -/
theorem Entrusted.of_grows (h : e.Entrusted k r g) (hg : e.store.Grows e'.store)
    (hs : .manager k ∉ e'.handles)
    (hh : e.store.managers[k]? = some (.native r true) →
      e'.store.managers[k]? = some (.native r true) ∨ releaseCalls r e'.store.journal ≠ []) :
    e'.Entrusted k r g where
  region := Store.getElem?_of_extension hg.regions h.region
  lt := by
    obtain ⟨m, hm, -⟩ := hg.managers (List.getElem?_eq_getElem h.lt)
    exact (List.getElem?_eq_some_iff.mp hm).1
  shared := hs
  held := by
    obtain hk | hr := h.held
    · exact hh hk
    · obtain ⟨events, he⟩ := hg.journal
      rw [← he, releaseCalls_append]
      exact .inr (List.append_ne_nil_of_left_ne_nil hr _)

theorem Deed.not_mem_manager (hd : e.Deed p e') (hk : k < e.store.managers.length)
    (h : .manager k ∉ e.handles) : .manager k ∉ e'.handles := by
  have hcons : ∀ {y : Handle} {hs : Multiset Handle}, y ≠ .manager k →
      (∀ x ∈ hs, x ∈ e.handles) → .manager k ∉ y ::ₘ hs := by
    intro y hs hy hsub hx
    obtain hx | hx := Multiset.mem_cons.mp hx
    · exact hy hx.symm
    · exact h (hsub _ hx)
  cases hd with
  | nothing | storage | recorder | dispose | calls => exact h
  | derive _ _ hd => exact hcons (hd.ne_manager k) fun _ => id
  | convert he hd => exact hcons (hd.ne_manager k) fun x hx => he ▸ Multiset.mem_cons_of_mem hx
  | standing hs => exact hcons (hs.ne_manager k) fun _ => id
  | array _ hx =>
    refine hcons ?_ fun _ => id
    rintro rfl
    obtain hx | ⟨a, hm⟩ := hx
    · cases hx
    · cases hm
  | importation | allocator | handOff => exact hcons nofun fun _ => id
  | manager _ hw =>
    refine hcons ?_ fun _ => id
    rintro rfl
    exact hk.ne (Backing.manager.inj hw.backing_eq)
  | rewrap he =>
    refine hcons ?_ fun x hx => he ▸ Multiset.mem_cons_of_mem hx
    rintro ⟨⟩
    exact lt_irrefl _ hk
  | disposeOwner he => exact fun hx => h (he ▸ Multiset.mem_cons_of_mem hx)

theorem Deed.entrusted (hd : e.Deed p e') (h : e.Entrusted k r g) : e'.Entrusted k r g := by
  refine h.of_grows hd.grows (hd.not_mem_manager h.lt h.shared) fun hk => ?_
  cases hd with
  | nothing | derive | convert | standing | array | storage | recorder => exact .inl hk
  | importation | allocator | calls => exact .inl hk
  | manager hm => exact .inl (Store.getElem?_of_extension hm.managers_extend hk)
  | @handOff j _ _ hj ho =>
    obtain ⟨g', -, -, -, rfl⟩ := Store.handOff_eq_some ho
    have hne : j ≠ k := by
      rintro rfl
      exact h.shared hj
    exact .inl ((List.getElem?_set_ne hne).trans hk)
  | rewrap => exact .inl (Store.getElem?_of_extension (List.prefix_append ..) hk)
  | dispose | disposeOwner => exact Store.held_dispose hk h.region _

theorem Loss.entrusted (hl : e.Loss e') (h : e.Entrusted k r g) : e'.Entrusted k r g := by
  refine h.of_grows hl.grows (fun hm => h.shared (hl.mem hm)) fun hk => ?_
  obtain @⟨y, hs, he⟩ := hl
  by_cases hy : y.plain = true
  · obtain ⟨j, -, -, hd⟩ | ⟨hd, -⟩ := discard_cases { e with handles := hs } hy
    · exact hd ▸ Store.held_giveUp hk h.region j
    · exact .inl ((congrArg (·.managers[k]?) hd).trans hk)
  · cases y with
    | raw r' => exact .inl ((congrArg (·[k]?) (e.store.managers_dropRaw r')).trans hk)
    | importation i => exact .inl ((congrArg (·[k]?) (e.store.managers_dropReference i)).trans hk)
    | _ => exact absurd rfl hy

theorem stable_entrusted (p : Platform) (k : ManagerId) (r : RegionId) (g : Region) :
    Stable p (Entrusted k r g) where
  deed h hd := hd.entrusted h
  loss h hl := hl.entrusted h
  writing h hw := by
    have hg := hw.grows
    obtain ⟨blocks, rfl⟩ := hw.frame
    exact h.of_grows hg h.shared .inl
  gauge h := h.of_grows (Store.grows_gauge ..) h.shared .inl

end Estate

namespace Session

variable {p : Platform} {s s' : Session} {name : String} {x : Handle} {k : ManagerId}
  {r : RegionId} {g : Region}

/-- A region is released with the last handle to its manager, if not before. -/
theorem releaseCalls_of_last (hd : s.slots.Distinct) (ho : s.estate.InOrder)
    (h : s.estate.Entrusted k r g)
    (hn : ∀ other x, s.slots.get? other = some x → x.backing ≠ .manager k) :
    releaseCalls r s.store.journal = [g] := by
  obtain ⟨-, hheld, hfree⟩ := releaseCalls_eq hd ho h.region
  have hr : releaseCalls r s.store.journal ≠ [] := by
    refine h.held.resolve_left fun hk => ?_
    obtain ⟨x, hx, hb⟩ := ho.tenure.held hk
    obtain ⟨other, hs⟩ := Directory.exists_get?_of_mem_entries hd hx
    exact hn other x hs hb
  exact hfree fun hh => hr (hheld hh)

theorem losses_drops (hd : s.slots.Distinct) (names : List String) :
    Estate.Losses s.estate (s.drops names).estate := by
  induction names generalizing s with
  | nil => exact .refl
  | cons name names ih =>
    have hd' : (s.drop name).slots.Distinct := by
      rw [slots_drop]
      exact hd.erase name
    exact (losses_drop hd name).trans (ih hd')

/-- A handle is as it was: its backing is in the same state, and it shows the same values. -/
structure Preserves (s s' : Session) (name : String) (x : Handle) : Prop where
  slot : s'.slots.get? name = some x
  state : s'.store.backingState x.backing = s.store.backingState x.backing
  values : s'.values name = s.values name
  span : ∀ prog, s'.span name prog = s.span name prog

theorem preserves_drops (hd : s.slots.Distinct) {names : List String} (hn : name ∉ names)
    (hs : s.slots.get? name = some x) : s.Preserves (s.drops names) name x := by
  have hl := losses_drops hd names
  have hs' : (s.drops names).slots.get? name = some x := by
    rw [get?_drops, if_neg hn, hs]
  have hst : (s.drops names).store.stock = s.store.stock := hl.stock_eq
  have hk : ∀ {k}, x.backing = .manager k →
      (s.drops names).store.managers[k]? = s.store.managers[k]? :=
    fun hb => hl.steady (mem_handles hs') hb
  have hv := Store.storageOf_of_stock hst hk
  have hbl := Store.blocks_eq_of_stock hst
  have hel : (s.drops names).store.element = s.store.element := congrArg (·.1) hst
  have hc : (s.drops names).store.contentsOf = s.store.contentsOf := by
    funext b
    simp only [Store.contentsOf, hbl, hel]
  constructor
  · exact hs'
  · rcases hb : x.backing with _ | b | k
    · rfl
    · rfl
    · simp only [Store.backingState, Store.managerState, hk hb]
  · have hread : (s.drops names).store.read = s.store.read :=
      funext fun v => Store.read_congr fun _ => congrFun hc _
    simp only [Session.values, hs, hs', Option.bind_some, hread]
    rcases hm : x.memory? with _ | ⟨a, m⟩
    · rfl
    · rw [Handle.backing_of_memory? hm] at hv
      simp only [Store.view_congr hv]
  · intro prog
    have hrun : (s.drops names).store.runOn = s.store.runOn := by
      funext v a prog
      simp only [Store.runOn, Store.baseOf, Store.bytesOf, hbl, hc]
    simp only [Session.span, hs, hs', viewOf_congr hv, hrun]

theorem releaseCalls_drops (hd : s.slots.Distinct) (ho : s.estate.InOrder) {names : List String}
    (hn : name ∉ names) (hs : s.slots.get? name = some x) (hb : x.backing = .manager k)
    (hk : s.store.managers[k]? = some (.native r true)) (hg : s.store.regions[r]? = some g) :
    releaseCalls r (s.drops names).store.journal = [] := by
  have hs' : (s.drops names).slots.get? name = some x := (preserves_drops hd hn hs).slot
  have hk' := ((losses_drops hd names).steady (mem_handles hs') hb).trans hk
  have hp := after_drops .bounded s names
  have hd' : (s.drops names).slots.Distinct := hp ▸ distinct_after hd _
  have ho' : (s.drops names).estate.InOrder :=
    hp ▸ (Estate.stable_inOrder .bounded).after hd ho _
  have hg' := Store.getElem?_of_extension (hp ▸ grows_after hd (names.map .drop)).regions hg
  exact (releaseCalls_eq hd' ho' hg').2.1 (.inl ⟨k, hk'⟩)

end Session

end LargeBuffers
