import LargeBuffers.Proofs.Bearers

/-! # Custody of native regions

A region is carried by one manager or by one raw allocation, or its owner has received its
release: every operation keeps the number of carriers and releases of each region together.
-/

namespace LargeBuffers

/-- The releases of a region that its owner received, each with the bounds that came with it. -/
def releaseCalls (r : RegionId) (journal : List Event) : List Region :=
  journal.filterMap fun
    | .released r' g => if r' = r then some g else none
    | _ => none

theorem releaseCalls_append (r : RegionId) (j j' : List Event) :
    releaseCalls r (j ++ j') = releaseCalls r j ++ releaseCalls r j' :=
  List.filterMap_append

theorem releaseCalls_concat {r : RegionId} {x : Event} (hx : releaseCalls r [x] = [])
    (j : List Event) : releaseCalls r (j ++ [x]) = releaseCalls r j := by
  rw [releaseCalls_append, hx, List.append_nil]

theorem releaseCalls_append_others {r : RegionId} {j' : List Event}
    (h : ∀ x ∈ j', releaseCalls r [x] = []) (j : List Event) :
    releaseCalls r (j ++ j') = releaseCalls r j := by
  induction j' using List.reverseRecOn with
  | nil => rw [List.append_nil]
  | append_singleton j' x ih =>
    rw [← List.append_assoc, releaseCalls_concat (h x (by simp))]
    exact ih fun y hy => h y (by simp [hy])

namespace Store

variable (st : Store) (r : RegionId)

theorem releaseCalls_free (a : AllocatorId) (len : UInt64) :
    releaseCalls r (st.free a len).journal = releaseCalls r st.journal := by
  simp only [free]
  repeat' split
  · rfl
  · exact releaseCalls_concat rfl _
  · exact releaseCalls_concat rfl _

theorem releaseCalls_dropReference (i : ImportationId) :
    releaseCalls r (st.dropReference i).journal = releaseCalls r st.journal := by
  simp only [dropReference]
  repeat' split
  · rfl
  · exact releaseCalls_concat rfl _
  · rfl

theorem releaseCalls_release (r' : RegionId) (g : Region) :
    releaseCalls r (st.release r' g).journal =
      releaseCalls r st.journal ++ if r' = r then [g] else [] := by
  have hn : releaseCalls r (st.note (.released r' g)).journal =
      releaseCalls r st.journal ++ if r' = r then [g] else [] := by
    rw [note, releaseCalls_append]
    by_cases hr : r' = r <;> simp [releaseCalls, hr]
  unfold release
  split
  · exact hn
  · rw [releaseCalls_free, hn]
  · rw [releaseCalls_dropReference, hn]

def tally : ℕ := st.bearers (· = r) + (releaseCalls r st.journal).length

variable {st r} {st' : Store} {k : ManagerId}

theorem tally_congr (hm : st'.managers = st.managers)
    (hj : releaseCalls r st'.journal = releaseCalls r st.journal) : st'.tally r = st.tally r := by
  rw [tally, tally, bearers_congr hm, hj]

theorem releaseCalls_giveUp {r' : RegionId} {g : Region} (r : RegionId)
    (hk : st.managers[k]? = some (.native r' true)) (hg : st.regions[r']? = some g) :
    releaseCalls r (st.giveUp k).journal =
      releaseCalls r st.journal ++ if r' = r then [g] else [] := by
  obtain ⟨r₁, g₁, hk₁, hg₁, he⟩ | ⟨-, hn⟩ := st.giveUp_cases k
  · obtain ⟨rfl, -⟩ := Manager.native.inj (Option.some.inj (hk.symm.trans hk₁))
    obtain rfl : g = g₁ := Option.some.inj (hg.symm.trans hg₁)
    rw [he, releaseCalls_release]
    congr 1
    exact releaseCalls_concat rfl _
  · rw [hn r' hk] at hg
    cases hg

theorem tally_giveUp (st : Store) (k : ManagerId) (r : RegionId) :
    (st.giveUp k).tally r = st.tally r := by
  obtain ⟨r', g, hk, hg, -⟩ | ⟨he, -⟩ := st.giveUp_cases k
  · have hb := bearers_giveUp (· = r) hk hg
    have hc := congrArg List.length (releaseCalls_giveUp r hk hg)
    rw [List.length_append] at hc
    unfold tally
    by_cases hr : r' = r
    · simp only [hr, decide_true, if_true, List.length_singleton] at hb hc
      omega
    · simp only [hr, decide_false, Bool.false_eq_true, if_false, List.length_nil] at hb hc
      omega
  · rw [he]

theorem mem_releaseCalls_giveUp {g : Region} (h : g ∈ releaseCalls r (st.giveUp k).journal) :
    g ∈ releaseCalls r st.journal ∨ st.regions[r]? = some g := by
  obtain ⟨r', g', hk, hg, -⟩ | ⟨he, -⟩ := st.giveUp_cases k
  · rw [releaseCalls_giveUp r hk hg, List.mem_append] at h
    refine h.imp_right fun hm => ?_
    split at hm
    · rename_i hr
      rw [← hr, List.mem_singleton.mp hm]
      exact hg
    · cases hm
  · rw [he] at h
    exact .inl h

@[simp]
theorem regions_giveUp (st : Store) (k : ManagerId) : (st.giveUp k).regions = st.regions := by
  obtain ⟨r, g, -, -, he⟩ | ⟨he, -⟩ := st.giveUp_cases k
  · simp [he]
  · rw [he]

theorem tally_addManager (st : Store) (m : Manager) (r : RegionId) :
    (st.addManager m).tally r = st.tally r + if m.bears (· = r) then 1 else 0 := by
  have hb := bearers_addManager st m (· = r)
  unfold tally
  rw [hb]
  exact Nat.add_right_comm ..

theorem tally_handOff {r' : RegionId} (h : st.handOff k = (some r', st')) (r : RegionId) :
    st'.tally r + (if r' = r then 1 else 0) = st.tally r := by
  obtain ⟨g, hk, -, -, rfl⟩ := handOff_eq_some h
  have hb := bearers_setManager (q := (· = r)) (.native r' false) hk
  have hj : releaseCalls r ((st.setManager k (.native r' false)).note (.handedOff g.len)).journal =
      releaseCalls r st.journal := releaseCalls_concat rfl _
  have hm : ((st.setManager k (.native r' false)).note (.handedOff g.len)).bearers (· = r) =
      (st.setManager k (.native r' false)).bearers (· = r) := bearers_congr rfl _
  unfold tally
  rw [hj, hm]
  simp only [Manager.bears, decide_eq_true_eq, Bool.false_eq_true, if_false] at hb
  omega

theorem releaseCalls_dropRaw {r' : RegionId} {g : Region} (hg : st.regions[r']? = some g)
    (r : RegionId) : releaseCalls r (st.dropRaw r').journal =
      releaseCalls r st.journal ++ if r' = r then [g] else [] := by
  simp only [dropRaw, hg, releaseCalls_release]
  congr 1
  exact releaseCalls_concat rfl _

theorem tally_dropRaw {r' : RegionId} {g : Region} (hg : st.regions[r']? = some g) (r : RegionId) :
    (st.dropRaw r').tally r = st.tally r + if r' = r then 1 else 0 := by
  have hm : (st.dropRaw r').managers = st.managers := by simp [dropRaw, hg]
  unfold tally
  rw [releaseCalls_dropRaw hg, bearers_congr hm, List.length_append]
  split <;> rfl

end Store

namespace Estate

/-- The carriers of a region, and the releases of it. -/
def tally (e : Estate) (r : RegionId) : ℕ := e.store.tally r + e.handles.count (.raw r)

/-- Each region has one carrier or has been released once, as it is registered. -/
structure Custody (e : Estate) : Prop where
  once : ∀ r, e.tally r = if r < e.store.regions.length then 1 else 0
  calls : ∀ {r g}, g ∈ releaseCalls r e.store.journal → e.store.regions[r]? = some g

variable {p : Platform} {e e' : Estate}

theorem Custody.of_tally (h : e.Custody) (hr : e'.store.regions = e.store.regions)
    (hc : ∀ {r g}, g ∈ releaseCalls r e'.store.journal →
      g ∈ releaseCalls r e.store.journal ∨ e.store.regions[r]? = some g)
    (ht : ∀ r, e'.tally r = e.tally r) : e'.Custody where
  once r := by
    rw [ht, hr]
    exact h.once r
  calls hg := by
    rw [hr]
    exact (hc hg).elim h.calls id

theorem Custody.frame (h : e.Custody) (hm : e'.store.managers = e.store.managers)
    (hr : e'.store.regions = e.store.regions)
    (hj : ∀ r, releaseCalls r e'.store.journal = releaseCalls r e.store.journal)
    (hh : ∀ r, e'.handles.count (.raw r) = e.handles.count (.raw r)) : e'.Custody := by
  refine h.of_tally hr (fun {r g} hg => .inl ?_) fun r => ?_
  · rwa [hj] at hg
  · rw [tally, tally, Store.tally_congr hm (hj r), hh]

theorem Custody.addManager {m : Manager} (h : e.Custody)
    (hm : e'.store.managers = e.store.managers ++ [m]) (hn : ∀ r held, m ≠ .native r held)
    (hr : e'.store.regions = e.store.regions) (hj : e'.store.journal = e.store.journal)
    (hh : ∀ r, e'.handles.count (.raw r) = e.handles.count (.raw r)) : e'.Custody := by
  refine h.of_tally hr (fun {r g} hg => .inl ?_) fun r => ?_
  · rwa [hj] at hg
  · have ht : e'.store.tally r = (e.store.addManager m).tally r :=
      Store.tally_congr hm (congrArg _ hj)
    rw [tally, tally, ht, Store.tally_addManager, Manager.bears_of_not_native hn, hh]
    rfl

theorem Custody.addNative {g : Region} (h : e.Custody)
    (hm : e'.store.managers = e.store.managers ++ [.native e.store.regions.length true])
    (hr : e'.store.regions = e.store.regions ++ [g])
    (hj : ∀ r, releaseCalls r e'.store.journal = releaseCalls r e.store.journal)
    (hh : ∀ r, e'.handles.count (.raw r) = e.handles.count (.raw r)) : e'.Custody where
  once r := by
    have ht : e'.store.tally r =
        (e.store.addManager (.native e.store.regions.length true)).tally r :=
      Store.tally_congr hm (hj r)
    have ho := h.once r
    rw [tally] at ho
    rw [tally, ht, Store.tally_addManager, hh, hr, List.length_append, List.length_singleton]
    simp only [Manager.bears, decide_eq_true_eq]
    rcases lt_trichotomy e.store.regions.length r with hl | hl | hl
    · rw [if_neg hl.le.not_gt] at ho
      rw [if_neg hl.ne, if_neg (Nat.not_lt.mpr hl)]
      exact ho
    · rw [if_neg hl.le.not_gt] at ho
      rw [if_pos hl, if_pos (Nat.lt_succ_of_le hl.ge)]
      omega
    · rw [if_pos hl] at ho
      rw [if_neg hl.ne', if_pos (Nat.lt_succ_of_lt hl)]
      exact ho
  calls {r g'} hg := by
    rw [hj] at hg
    rw [hr]
    exact Store.getElem?_of_extension (List.prefix_append ..) (h.calls hg)

theorem Custody.giveUp (h : e.Custody) (k : ManagerId) :
    { e with store := e.store.giveUp k }.Custody := by
  refine h.of_tally (Store.regions_giveUp ..) Store.mem_releaseCalls_giveUp fun r => ?_
  rw [tally, tally, Store.tally_giveUp]

theorem Custody.dispose (h : e.Custody) (k : ManagerId) :
    { e with store := e.store.dispose k }.Custody := by
  obtain he | ⟨m, m', events, hk, hm, hm', hx, he⟩ := e.store.dispose_cases k
  · rw [he]
    exact h.giveUp k
  · have hj : ∀ r, releaseCalls r (e.store.journal ++ events) = releaseCalls r e.store.journal := by
      intro r
      refine releaseCalls_append_others (fun x hx' => ?_) _
      rw [hx x hx']
      rfl
    rw [he]
    refine h.of_tally rfl (fun {r g} hg => .inl (hj r ▸ hg)) fun r => ?_
    have hb : (e.store.setManager k m').bearers (· = r) = e.store.bearers (· = r) :=
      Store.bearers_setManager_of_not hk (Manager.bears_of_not_native hm)
        (Manager.bears_of_not_native hm')
    have ht : Store.tally { e.store.setManager k m' with journal := e.store.journal ++ events } r =
        e.store.tally r := by
      unfold Store.tally
      rw [hj, ← hb]
      rfl
    rw [tally, tally, ht]

theorem Custody.registered {r : RegionId} (h : e.Custody) (ht : 0 < e.tally r) :
    ∃ g, e.store.regions[r]? = some g := by
  have ho := h.once r
  by_cases hr : r < e.store.regions.length
  · exact ⟨_, List.getElem?_eq_getElem hr⟩
  · rw [if_neg hr] at ho
    omega

theorem Custody.registered_of_raw {r : RegionId} (h : e.Custody) (hr : .raw r ∈ e.handles) :
    ∃ g, e.store.regions[r]? = some g :=
  h.registered (Nat.lt_of_lt_of_le (Multiset.count_pos.mpr hr) (Nat.le_add_left ..))

theorem Custody.eq_of_held {r : RegionId} {k k' : ManagerId} (h : e.Custody)
    (hk : e.store.managers[k]? = some (.native r true))
    (hk' : e.store.managers[k']? = some (.native r true)) : k = k' := by
  by_contra hne
  have hb := Store.two_le_bearers (q := (· = r)) hk hk' hne (decide_eq_true rfl)
    (decide_eq_true rfl)
  have ho := h.once r
  unfold tally Store.tally at ho
  split at ho <;> omega

theorem Custody.dropRaw {r : RegionId} {hs : Multiset Handle} (h : e.Custody)
    (hh : e.handles = .raw r ::ₘ hs) :
    { e with store := e.store.dropRaw r, handles := hs }.Custody := by
  have hc : ∀ r', e.handles.count (.raw r') = hs.count (.raw r') + if r = r' then 1 else 0 := by
    intro r'
    rw [hh, Multiset.count_cons]
    simp [eq_comm]
  obtain ⟨g, hg⟩ := h.registered_of_raw (hh ▸ Multiset.mem_cons_self ..)
  refine h.of_tally (by simp [Store.dropRaw, hg]) (fun {r' g'} hg' => ?_) fun r' => ?_
  · rw [Store.releaseCalls_dropRaw hg, List.mem_append] at hg'
    refine hg'.imp_right fun hm => ?_
    split at hm
    · rename_i hr'
      rw [← hr', List.mem_singleton.mp hm]
      exact hg
    · cases hm
  · rw [tally, tally, Store.tally_dropRaw hg, hc r']
    dsimp only
    omega

/-! ## All operations -/

theorem Makes.custody {st : Store} {x : Handle} (h : e.Custody) (hm : e.Makes p st)
    (hx : x.plain = true) : { e with store := st, handles := x ::ₘ e.handles }.Custody := by
  have hh := fun r => count_raw_cons hx r e.handles
  cases hm with
  | null | array | probe => exact h.addManager rfl nofun rfl rfl hh
  | native => exact h.addNative rfl rfl (fun _ => rfl) hh
  | imported _ _ _ _ hm =>
    obtain ⟨imp, -, -, rfl⟩ := Store.addAlias_eq_ok hm
    exact h.addNative rfl rfl (fun _ => rfl) hh
  | buffer _ _ hm =>
    obtain ⟨al, -, ⟨alignment, -, hm⟩ | ⟨limit, pad, -, -, rfl⟩⟩ := Store.allocate_eq_ok hm
    · obtain ⟨size, g, -, -, rfl⟩ := Store.allocateNative_eq_ok hm
      refine h.addNative (by simp) (by simp; rfl) (fun r => ?_) hh
      rw [Store.journal_countAllocation]
      exact releaseCalls_concat rfl _
    · exact h.addManager (Store.managers_countAllocation ..) nofun (by simp) (by simp) hh

theorem Deed.custody (h : e.Custody) (hd : e.Deed p e') : e'.Custody := by
  cases hd with
  | nothing => exact h
  | derive _ _ hd => exact h.frame rfl rfl (fun _ => rfl) fun r => count_raw_cons hd.plain.2 r _
  | @convert x x' hs he hd =>
    refine h.frame rfl rfl (fun _ => rfl) fun r => ?_
    rw [he, count_raw_cons hd.plain.1, count_raw_cons hd.plain.2]
  | standing hs => exact h.frame rfl rfl (fun _ => rfl) fun r => count_raw_cons hs.plain r _
  | array _ hx =>
    have hp := hx.elim (fun hx => hx ▸ rfl) fun ⟨a, ha⟩ => Handle.plain_of_memory? ha
    exact h.frame rfl rfl (fun _ => rfl) fun r => count_raw_cons hp r _
  | storage | recorder => exact h.frame rfl rfl (fun _ => rfl) fun _ => rfl
  | importation =>
    exact h.frame rfl rfl (fun _ => rfl) fun r => Multiset.count_cons_of_ne (by simp) _
  | allocator => exact h.frame rfl rfl (fun _ => rfl) fun r => count_raw_cons rfl r _
  | manager hm hw => exact hm.custody h hw.plain
  | @handOff k r st hk ho =>
    obtain ⟨g, -, -, -, rfl⟩ := Store.handOff_eq_some ho
    have hj : ∀ r, releaseCalls r (e.store.journal ++ [.handedOff g.len]) =
        releaseCalls r e.store.journal := fun _ => releaseCalls_concat rfl _
    refine h.of_tally rfl (fun {r g} hg => .inl (hj r ▸ hg)) fun r' => ?_
    have ht := Store.tally_handOff ho r'
    rw [tally, tally, ← ht, Multiset.count_cons]
    simp only [Handle.raw.injEq, eq_comm (a := r')]
    omega
  | @rewrap r hs he =>
    refine h.of_tally rfl (fun {r g} hg => .inl hg) fun r' => ?_
    rw [tally, tally, Store.tally_addManager, he, count_raw_cons rfl, Multiset.count_cons]
    simp only [Manager.bears, decide_eq_true_eq, Handle.raw.injEq, eq_comm (a := r')]
    omega
  | dispose => exact h.dispose _
  | disposeOwner he =>
    refine (h.dispose _).frame rfl rfl (fun _ => rfl) fun r => ?_
    dsimp only
    rw [he]
    exact (count_raw_cons rfl r _).symm
  | @calls events hx =>
    refine h.frame rfl rfl (fun r => releaseCalls_append_others (fun x hx' => ?_) _) fun _ => rfl
    obtain ⟨k, i, rfl⟩ | ⟨k, rfl⟩ := hx x hx'
    · rfl
    · rfl

theorem Loss.custody (h : e.Custody) (hl : e.Loss e') : e'.Custody := by
  obtain @⟨x, hs, he⟩ := hl
  by_cases hx : x.plain = true
  · have hc : { e with handles := hs }.Custody :=
      h.frame rfl rfl (fun _ => rfl) fun r => by rw [he, count_raw_cons hx]
    obtain ⟨k, -, -, hd⟩ | ⟨hd, -⟩ := discard_cases { e with handles := hs } hx
    · rw [hd]
      exact hc.giveUp k
    · rw [hd]
      exact hc
  · cases x with
    | raw r => exact h.dropRaw he
    | importation i =>
      refine h.frame (e.store.managers_dropReference i) (e.store.regions_dropReference i)
        (fun r => e.store.releaseCalls_dropReference r i) fun r => ?_
      rw [he]
      exact (Multiset.count_cons_of_ne (by simp) _).symm
    | _ => exact absurd rfl hx

theorem Writing.custody {x : Handle} (h : e.Custody) (hw : e.Writing x e') : e'.Custody := by
  obtain ⟨blocks, rfl⟩ := hw.frame
  exact h.frame rfl rfl (fun _ => rfl) fun _ => rfl

end Estate

end LargeBuffers
