import LargeBuffers.Proofs.Custody

/-! # Who may act on a manager

A handle of its own is the only one to its manager, and a manager that holds a region has a
handle. So whoever releases a manager with such a handle takes nothing from anyone else.
-/

namespace LargeBuffers

namespace Estate

variable {p : Platform} {e e' : Estate} {x : Handle} {hs : Multiset Handle} {k : ManagerId}

theorem holders_cons (e : Estate) (x : Handle) (hs : Multiset Handle) (b : Backing) :
    { e with handles := x ::ₘ hs }.holders b =
      { e with handles := hs }.holders b + if x.backing = b then 1 else 0 := by
  simp only [holders, Multiset.countP_cons]
  exact Nat.add_right_comm ..

theorem holders_pos {b : Backing} (hx : x ∈ e.handles) (hb : x.backing = b) : 0 < e.holders b :=
  Nat.lt_of_lt_of_le (Multiset.countP_pos.mpr ⟨x, hx, hb⟩) (Nat.le_add_right ..)

theorem holders_eq_zero_of_cons {b : Backing} (h : e.holders b = 1) (he : e.handles = x ::ₘ hs)
    (hb : x.backing = b) : { e with handles := hs }.holders b = 0 := by
  have hc : e.holders b = { e with handles := hs }.holders b + 1 := by
    have hc := holders_cons e x hs b
    rw [if_pos hb, ← he] at hc
    exact hc
  omega

theorem eq_of_holders_eq_one {y : Handle} {b : Backing} (h : e.holders b = 1) (hx : x ∈ e.handles)
    (hxb : x.backing = b) (hy : y ∈ e.handles) (hyb : y.backing = b) : x = y := by
  by_contra hne
  obtain ⟨hs, he⟩ := Multiset.exists_cons_of_mem hx
  rw [he, Multiset.mem_cons] at hy
  have hz := holders_eq_zero_of_cons h he hxb
  have hp : 0 < { e with handles := hs }.holders b :=
    holders_pos (hy.resolve_left (Ne.symm hne)) hyb
  omega

structure Tenure (e : Estate) : Prop where
  null : e.store.managers[nullSingleton]? = some .null
  held : ∀ {k r}, e.store.managers[k]? = some (.native r true) →
    ∃ x ∈ e.handles, x.backing = .manager k
  known : ∀ {x k}, x ∈ e.handles → x.backing = .manager k → k < e.store.managers.length
  sole : ∀ {k}, .manager k ∈ e.handles → e.holders (.manager k) = 1

/-- Handles of its own and others do not occur together. -/
theorem Tenure.not_mem (h : e.Tenure) (hx : x ∈ e.handles) (hb : x.backing = .manager k)
    (hm : x ≠ .manager k) : .manager k ∉ e.handles :=
  fun hk => hm (eq_of_holders_eq_one (h.sole hk) hx hb hk rfl)

theorem Tenure.not_mem_null (h : e.Tenure) : .manager nullSingleton ∉ e.handles := by
  intro hk
  have hp : 0 < e.handles.countP (·.backing = .manager nullSingleton) :=
    Multiset.countP_pos.mpr ⟨_, hk, rfl⟩
  have hs := h.sole hk
  rw [holders, if_pos rfl] at hs
  omega

theorem Tenure.managerState_null (h : e.Tenure) :
    e.store.managerState nullSingleton = .empty := by
  simp only [Store.managerState, h.null]

theorem Tenure.null_lt (h : e.Tenure) : nullSingleton < e.store.managers.length :=
  (List.getElem?_eq_some_iff.mp h.null).1

theorem Tenure.of_grows (h : e.Tenure) (hg : e.store.Grows e'.store)
    (hl : e'.store.managers.length = e.store.managers.length)
    (hh : e'.handles = e.handles) : e'.Tenure where
  null := by
    obtain ⟨m, hm, hb⟩ := hg.managers h.null
    cases hb
    exact hm
  held hk := by
    rw [hh]
    exact h.held (hg.held hk (hl ▸ (List.getElem?_eq_some_iff.mp hk).1))
  known hx hb := by
    rw [hl]
    exact h.known (hh ▸ hx) hb
  sole hk := by
    rw [holders, hh]
    exact h.sole (hh ▸ hk)

theorem Tenure.cons (h : e.Tenure) (hm : ∀ k, x ≠ .manager k)
    (hx : ∀ k, x.backing = .manager k → k < e.store.managers.length ∧ .manager k ∉ e.handles) :
    { e with handles := x ::ₘ e.handles }.Tenure where
  null := h.null
  held hk := by
    obtain ⟨y, hy, hb⟩ := h.held hk
    exact ⟨y, Multiset.mem_cons_of_mem hy, hb⟩
  known {y k} hy hb := by
    obtain rfl | hy := Multiset.mem_cons.mp hy
    · exact (hx k hb).1
    · exact h.known hy hb
  sole {k} hk := by
    obtain hk | hk := Multiset.mem_cons.mp hk
    · exact absurd hk.symm (hm k)
    · rw [holders_cons, if_neg fun hb => (hx k hb).2 hk]
      exact h.sole hk

theorem Tenure.erase (h : e.Tenure) (he : e.handles = x ::ₘ hs)
    (hd : ∀ {k r}, x.backing = .manager k → e.store.managers[k]? = some (.native r true) →
      ∃ y ∈ hs, y.backing = .manager k) :
    { e with handles := hs }.Tenure where
  null := h.null
  held hk := by
    obtain ⟨y, hy, hb⟩ := h.held hk
    rw [he] at hy
    obtain rfl | hy := Multiset.mem_cons.mp hy
    · exact hd hb hk
    · exact ⟨y, hy, hb⟩
  known hy hb := h.known (he ▸ Multiset.mem_cons_of_mem hy) hb
  sole {k} hk := by
    have ho := h.sole (he ▸ Multiset.mem_cons_of_mem hk)
    have hp : 0 < { e with handles := hs }.holders (.manager k) := holders_pos hk rfl
    have hc := holders_cons e x hs (.manager k)
    rw [← he] at hc
    have hle : { e with handles := hs }.holders (.manager k) ≤ e.holders (.manager k) :=
      hc ▸ Nat.le_add_right ..
    omega

theorem Tenure.addManager (h : e.Tenure) (hg : e.store.Grows e'.store)
    (hl : e'.store.managers.length = e.store.managers.length + 1)
    (hh : e'.handles = x ::ₘ e.handles) (hx : x.backing = .manager e.store.managers.length) :
    e'.Tenure where
  null := by
    obtain ⟨m, hm, hb⟩ := hg.managers h.null
    cases hb
    exact hm
  held {k r} hk := by
    rw [hh]
    by_cases hkl : k < e.store.managers.length
    · obtain ⟨y, hy, hb⟩ := h.held (hg.held hk hkl)
      exact ⟨y, Multiset.mem_cons_of_mem hy, hb⟩
    · obtain ⟨hk', -⟩ := List.getElem?_eq_some_iff.mp hk
      rw [hl] at hk'
      obtain rfl : k = e.store.managers.length := Nat.eq_of_lt_succ_of_not_lt hk' hkl
      exact ⟨x, Multiset.mem_cons_self .., hx⟩
  known {y k} hy hb := by
    rw [hh] at hy
    rw [hl]
    obtain rfl | hy := Multiset.mem_cons.mp hy
    · obtain rfl := Backing.manager.inj (hb.symm.trans hx)
      exact Nat.lt_succ_self _
    · exact Nat.lt_succ_of_lt (h.known hy hb)
  sole {k} hk := by
    have hc : e'.holders (.manager k) =
        e.holders (.manager k) + if x.backing = .manager k then 1 else 0 := by
      rw [holders, hh]
      exact holders_cons e x e.handles _
    rw [hh] at hk
    obtain rfl | hk := Multiset.mem_cons.mp hk
    · have hz : e.holders (.manager k) = 0 := by
        obtain rfl := Backing.manager.inj hx
        have hn : e.store.managers.length ≠ nullSingleton := h.null_lt.ne'
        rw [holders, if_neg (by simpa using hn), Nat.add_zero, Multiset.countP_eq_zero]
        intro y hy hb
        exact lt_irrefl _ (h.known hy hb)
      simp [hc, hz, Handle.backing]
    · have hne : x.backing ≠ .manager k := by
        rw [hx]
        rintro ⟨⟩
        exact lt_irrefl _ (h.known hk rfl)
      rw [hc, if_neg hne]
      exact h.sole hk

theorem Tenure.replace {y : Handle} (h : e.Tenure) (he : e.handles = x ::ₘ hs)
    (hb : y.backing = x.backing) (hm : ∀ k, y ≠ .manager k) :
    { e with handles := y ::ₘ hs }.Tenure where
  null := h.null
  held hk := by
    obtain ⟨z, hz, hzb⟩ := h.held hk
    rw [he] at hz
    obtain rfl | hz := Multiset.mem_cons.mp hz
    · exact ⟨y, Multiset.mem_cons_self .., hb.trans hzb⟩
    · exact ⟨z, Multiset.mem_cons_of_mem hz, hzb⟩
  known {z k} hz hzb := by
    obtain rfl | hz := Multiset.mem_cons.mp hz
    · exact h.known (he ▸ Multiset.mem_cons_self ..) (hb.symm.trans hzb)
    · exact h.known (he ▸ Multiset.mem_cons_of_mem hz) hzb
  sole {k} hk := by
    obtain hk | hk := Multiset.mem_cons.mp hk
    · exact absurd hk.symm (hm k)
    · have hc := holders_cons e x hs (.manager k)
      rw [← he] at hc
      rw [holders_cons, hb, ← hc]
      exact h.sole (he ▸ Multiset.mem_cons_of_mem hk)

theorem Custody.not_held_giveUp (hc : e.Custody) (k : ManagerId) (r : RegionId) :
    (e.store.giveUp k).managers[k]? ≠ some (.native r true) := by
  intro hk
  obtain ⟨r', g, hk', -, he⟩ | ⟨he, hn⟩ := e.store.giveUp_cases k
  · obtain ⟨hl, -⟩ := List.getElem?_eq_some_iff.mp hk'
    simp [he, hl] at hk
  · rw [he] at hk
    have hb := Store.bearers_pos (q := (· = r)) hk (decide_eq_true rfl)
    obtain ⟨g, hg⟩ := hc.registered (r := r) (by unfold tally Store.tally; omega)
    rw [hn r hk] at hg
    cases hg

theorem Custody.not_held_dispose (hc : e.Custody) (k : ManagerId) (r : RegionId) :
    (e.store.dispose k).managers[k]? ≠ some (.native r true) := by
  rw [← Store.giveUp_dispose]
  exact (hc.dispose k).not_held_giveUp k r

/-! ## All operations -/

theorem Deed.tenure (hc : e.Custody) (h : e.Tenure) (hd : e.Deed p e') : e'.Tenure := by
  have hg := hd.grows
  have hnew : ∀ {y : Handle} {st : Store}, (∀ k, y.backing ≠ .manager k) → e.store.Grows st →
      st.managers.length = e.store.managers.length →
      { e with store := st, handles := y ::ₘ e.handles }.Tenure := by
    intro y st hy hg hl
    have ht : { e with store := st }.Tenure := h.of_grows hg hl rfl
    refine ht.cons ?_ fun k hb => absurd hb (hy k)
    rintro k rfl
    exact hy k rfl
  cases hd with
  | nothing => exact h
  | derive hx hm hd =>
    refine h.cons hd.ne_manager fun k hb => ?_
    rw [hd.backing_eq] at hb
    exact ⟨h.known hx hb, h.not_mem hx hb (hm k)⟩
  | convert he hd => exact h.replace he hd.backing_eq hd.ne_manager
  | standing hs =>
    refine h.cons hs.ne_manager fun k hb => ?_
    obtain hn | hn := hs.backing_eq
    · rw [hn] at hb
      cases hb
    · obtain rfl := Backing.manager.inj (hn.symm.trans hb)
      exact ⟨h.null_lt, h.not_mem_null⟩
  | array _ hx =>
    refine hnew (fun k hb => ?_) hg rfl
    obtain rfl | ⟨a, ha⟩ := hx
    · cases hb
    · rw [Handle.backing_of_memory? ha] at hb
      cases hb
  | storage | recorder => exact h.of_grows hg rfl rfl
  | importation | allocator => exact hnew nofun hg rfl
  | manager hm hw => exact h.addManager hg hm.length_managers rfl hw.backing_eq
  | handOff _ ho =>
    obtain ⟨g, -, -, -, rfl⟩ := Store.handOff_eq_some ho
    exact hnew nofun hg (by simp)
  | @rewrap r hs he =>
    have ht : { e with handles := hs }.Tenure := h.erase he nofun
    exact ht.addManager hg (by simp) rfl rfl
  | dispose => exact h.of_grows hg (by simp) rfl
  | @disposeOwner m k hs he hb =>
    have ht : { e with store := e.store.dispose k }.Tenure := h.of_grows hg (by simp) rfl
    refine ht.erase he fun {k' r} hk' hr => ?_
    obtain rfl := Backing.manager.inj (hb.symm.trans hk')
    exact absurd hr (hc.not_held_dispose k r)
  | calls => exact h.of_grows hg rfl rfl

theorem Loss.tenure (hc : e.Custody) (h : e.Tenure) (hl : e.Loss e') : e'.Tenure := by
  have hg := hl.grows
  obtain @⟨x, hs, he⟩ := hl
  have hlen := length_managers_discard { e with handles := hs } x
  have ht : { e with store := { e with handles := hs }.discard x }.Tenure := h.of_grows hg hlen rfl
  refine ht.erase he fun {k r} hb hr => ?_
  have hx : x.plain = true := by
    cases x with
    | raw | importation => cases hb
    | _ => rfl
  obtain ⟨k', hk', -, hd⟩ | ⟨hd, hn⟩ := discard_cases { e with handles := hs } hx
  · obtain rfl := Backing.manager.inj (hk'.symm.trans hb)
    exact absurd hr (hd ▸ hc.not_held_giveUp k' r)
  · have hz := hn k hb
    rw [hd] at hr
    have hne : k ≠ nullSingleton := by
      rintro rfl
      cases hr.symm.trans h.null
    rw [holders, if_neg (by simpa using hne), Nat.add_zero, ← Nat.pos_iff_ne_zero,
      Multiset.countP_pos] at hz
    exact hz

theorem Writing.tenure (h : e.Tenure) (hw : e.Writing x e') : e'.Tenure := by
  have hg := hw.grows
  obtain ⟨blocks, rfl⟩ := hw.frame
  exact h.of_grows hg rfl rfl

/-- Regions are in custody and handles in tenure. -/
structure InOrder (e : Estate) : Prop where
  custody : e.Custody
  tenure : e.Tenure

theorem stable_inOrder (p : Platform) : Stable p InOrder where
  deed h hd := ⟨hd.custody h.custody, hd.tenure h.custody h.tenure⟩
  loss h hl := ⟨hl.custody h.custody, hl.tenure h.custody h.tenure⟩
  writing h hw := ⟨hw.custody h.custody, hw.tenure h.tenure⟩
  gauge h := ⟨h.custody.frame rfl rfl (fun _ => rfl) fun _ => rfl,
    h.tenure.of_grows (Store.grows_gauge ..) rfl rfl⟩

theorem inOrder_start (e : Element) : (Session.start e).estate.InOrder where
  custody :=
    { once := fun r => by simp [tally, Store.tally, Store.bearers, Session.start, Session.estate,
        Manager.bears, releaseCalls, Directory.entries]
      calls := nofun }
  tenure :=
    { null := rfl
      held := by
        rintro (_ | k) r hk
        · cases hk
        · cases hk
      known := nofun
      sole := nofun }

end Estate

theorem Session.inOrder_run (p : Platform) (e : Element) (ops : List Op) :
    ((start e).after p ops).estate.InOrder :=
  (Estate.stable_inOrder p).after Directory.distinct_nil (Estate.inOrder_start e) ops

end LargeBuffers
