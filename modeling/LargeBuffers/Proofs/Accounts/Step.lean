import LargeBuffers.Proofs.Accounts

/-! # Accounts through the steps of a run

A new part of an importation is one more reference to it. What else is made leaves the accounts as
they are, and what goes takes its reference with it.
-/

namespace LargeBuffers

namespace Estate

variable {p : Platform} {e e' : Estate} {i : ImportationId}

/-! ## New managers -/

theorem Custody.getElem?_of_raw {r : RegionId} {g : Region} {regions : List Region}
    (hc : e.Custody) (hr : .raw r ∈ e.handles) (hp : e.store.regions <+: regions)
    (hg : regions[r]? = some g) : e.store.regions[r]? = some g := by
  obtain ⟨g', hg'⟩ := hc.registered_of_raw hr
  rw [Store.getElem?_of_extension hp hg'] at hg
  rw [hg', hg]

theorem Custody.aliases_addNative (hc : e.Custody) (g : Region) (i : ImportationId) :
    (e.store.addNative g).aliases i =
      e.store.aliases i + if g.owner = .importation i then 1 else 0 := by
  have hq : (e.store.addRegion g).bearers ((e.store.addNative g).isPart i) = e.store.aliases i := by
    refine List.countP_congr fun m hm => ?_
    unfold Manager.bears
    split
    · rename_i r
      have hb : 0 < e.store.bearers (· = r) :=
        List.countP_pos_iff.mpr ⟨_, hm, decide_eq_true rfl⟩
      obtain ⟨g', hg'⟩ := hc.registered (r := r) (by unfold tally Store.tally; omega)
      have hn : (e.store.addNative g).regions[r]? = some g' :=
        Store.getElem?_of_extension (List.prefix_append ..) hg'
      rw [Store.isPart_of_getElem? hg', Store.isPart_of_getElem? hn]
    · rfl
  have hl : (e.store.addNative g).regions[e.store.regions.length]? = some g := by simp
  have hb := Store.bearers_addManager (e.store.addRegion g) (.native e.store.regions.length true)
    ((e.store.addNative g).isPart i)
  rw [hq] at hb
  refine hb.trans ?_
  simp only [Manager.bears, Store.isPart_of_getElem? hl, decide_eq_true_eq]

theorem imported_addNative (st : Store) (g : Region) (i : ImportationId) :
    (st.addNative g).imported i =
      st.imported i + if g.owner = .importation i then g.len.toNat else 0 := by
  simp only [Store.imported, Store.addNative, Store.addRegion, Store.addManager,
    List.filter_append, List.map_append, List.sum_append]
  by_cases ho : g.owner = .importation i <;> simp [ho]

theorem Accounts.addManager {m : Manager} (h : e.Accounts none)
    (hm : e'.store.managers = e.store.managers ++ [m]) (hn : ∀ r held, m ≠ .native r held)
    (hi : e'.store.importations = e.store.importations)
    (hr : e'.store.regions = e.store.regions) (hj : e'.store.journal = e.store.journal)
    (hc : ∀ i, e'.handles.count (.importation i) = e.handles.count (.importation i))
    (hw : ∀ {r}, .raw r ∈ e'.handles → .raw r ∈ e.handles) : e'.Accounts none := by
  refine h.frame hi (fun i => ?_) (Store.imported_congr hr) (fun _ => by rw [hj]) hc
    (fun hg _ => hr ▸ hg) fun hx hg => h.raw (hw hx) (hr ▸ hg)
  have ha : e'.store.aliases i = (e.store.addManager m).aliases i := by
    refine Store.aliases_congr ?_ ?_ i
    · exact hm
    · exact hr
  rw [ha]
  refine (Store.bearers_addManager e.store m _).trans ?_
  rw [Manager.bears_of_not_native hn]
  rfl

theorem Accounts.addNative {g : Region} (h : e.Accounts none) (hcu : e.Custody)
    (hm : e'.store.managers = (e.store.addNative g).managers)
    (hr : e'.store.regions = (e.store.addNative g).regions) (ho : ∀ i, g.owner ≠ .importation i)
    (hi : e'.store.importations = e.store.importations)
    (hf : ∀ i, finalReleases i e'.store.journal = finalReleases i e.store.journal)
    (hc : ∀ i, e'.handles.count (.importation i) = e.handles.count (.importation i))
    (hw : ∀ {r}, .raw r ∈ e'.handles → .raw r ∈ e.handles) : e'.Accounts none := by
  refine h.frame hi (fun i => ?_) (fun i => ?_) hf hc (fun {g' i} hg ho' => ?_) fun hx hg => ?_
  · rw [Store.aliases_congr hm hr, hcu.aliases_addNative, if_neg (ho i), Nat.add_zero]
  · rw [Store.imported_congr hr, imported_addNative, if_neg (ho i), Nat.add_zero]
  · rw [hr] at hg
    obtain hg | hg := List.mem_append.mp hg
    · exact hg
    · rw [List.mem_singleton.mp hg] at ho'
      exact absurd ho' (ho i)
  · rw [hr] at hg
    exact h.raw (hw hx) (hcu.getElem?_of_raw (hw hx) (List.prefix_append ..) hg)

theorem Accounts.addAlias {b : BlockId} {offset length : UInt64} {st : Store}
    (h : e.Accounts none) (hcu : e.Custody)
    (ha : e.store.addAlias i b offset length = (.ok (), st))
    (hc : ∀ i, e'.handles.count (.importation i) = e.handles.count (.importation i))
    (hw : ∀ {r}, .raw r ∈ e'.handles → .raw r ∈ e.handles) (hs : e'.store = st) :
    e'.Accounts none := by
  obtain ⟨imp, himp, hp, hst⟩ := Store.addAlias_eq_ok ha
  obtain ⟨hl, -⟩ := List.getElem?_eq_some_iff.mp himp
  have hi : e'.store.importations = e.store.importations.set i
      ⟨imp.references + 1, imp.tracked + length⟩ := by rw [hs, hst]; rfl
  have hm : e'.store.managers =
      (e.store.addNative ⟨b, offset, length, .importation i⟩).managers := by rw [hs, hst]; rfl
  have hr : e'.store.regions =
      (e.store.addNative ⟨b, offset, length, .importation i⟩).regions := by rw [hs, hst]; rfl
  have hj : e'.store.journal = e.store.journal := by rw [hs, hst]; rfl
  have href : ∀ j, e'.store.references j =
      if i = j then imp.references + 1 else e.store.references j := by
    intro j
    have hs := Store.references_setImportation (j := j)
      ⟨imp.references + 1, imp.tracked + length⟩ himp
    rw [Store.references, hi]
    exact hs
  refine
    { references := fun j => ?_
      single := fun j => hc j ▸ h.single j
      final := fun j => ?_
      tracked := fun {j imp'} hj' => ?_
      part := fun {g j} hg ho => ?_
      raw := fun hx hg => ?_ }
  · have hej := h.references j
    rw [href, hc, Store.aliases_congr hm hr, hcu.aliases_addNative]
    simp only [reduceCtorEq, if_false, Owner.importation.injEq] at hej ⊢
    by_cases hij : i = j
    · subst hij
      rw [Store.references_eq himp] at hej
      rw [if_pos rfl, if_pos rfl]
      omega
    · rw [if_neg hij, if_neg hij]
      omega
  · rw [hj, href, h.final j, hi, List.length_set]
    by_cases hij : i = j
    · subst hij
      rw [Store.references_eq himp, if_pos rfl, if_neg (by omega), if_neg (by omega)]
    · rw [if_neg hij]
  · rw [hi] at hj'
    rw [Store.imported_congr hr, imported_addNative]
    by_cases hij : i = j
    · subst hij
      obtain rfl : ⟨imp.references + 1, imp.tracked + length⟩ = imp' := by simpa [hl] using hj'
      have ht := h.tracked himp
      rw [if_pos hp] at ht
      rw [if_pos rfl, if_pos (by dsimp only; omega), ht, UInt64.ofNat_add, UInt64.ofNat_toNat]
    · rw [List.getElem?_set_ne hij] at hj'
      have hne : Owner.importation i ≠ .importation j := fun he => hij (Owner.importation.inj he)
      rw [if_neg hne, Nat.add_zero]
      exact h.tracked hj'
  · rw [hi, List.length_set]
    rw [hr] at hg
    obtain hg | hg := List.mem_append.mp hg
    · exact h.part hg ho
    · rw [List.mem_singleton.mp hg] at ho
      obtain rfl := Owner.importation.inj ho
      exact hl
  · rw [hr] at hg
    exact h.raw (hw hx) (hcu.getElem?_of_raw (hw hx) (List.prefix_append ..) hg)

theorem references_addImportation (st : Store) (i : ImportationId) :
    st.addImportation.references i =
      st.references i + if st.importations.length = i then 1 else 0 := by
  unfold Store.references Store.addImportation
  dsimp only
  rcases lt_trichotomy st.importations.length i with hl | hl | hl
  · rw [if_neg hl.ne, List.getElem?_eq_none hl.le, List.getElem?_eq_none]
    · rfl
    · simpa using Nat.succ_le_of_lt hl
  · subst hl
    simp
  · rw [if_neg hl.ne', List.getElem?_append_left hl, Int.add_zero]

theorem Accounts.addImportation (h : e.Accounts none) :
    { e with
      store := e.store.addImportation
      handles := .importation e.store.importations.length ::ₘ e.handles }.Accounts none := by
  have hz : e.store.references e.store.importations.length = 0 := by
    simp [Store.references]
  have hn := h.references e.store.importations.length
  simp only [hz, reduceCtorEq, if_false] at hn
  have hc : ∀ i, (Handle.importation e.store.importations.length ::ₘ e.handles).count
      (.importation i) = e.handles.count (.importation i) +
        if e.store.importations.length = i then 1 else 0 := by
    intro i
    rw [Multiset.count_cons]
    simp [eq_comm]
  have hi : e.store.imported e.store.importations.length = 0 := by
    have hf : e.store.regions.filter
        (·.owner = .importation e.store.importations.length) = [] := by
      rw [List.filter_eq_nil_iff]
      intro g hg ho
      exact lt_irrefl _ (h.part hg (of_decide_eq_true ho))
    rw [Store.imported, hf]
    rfl
  refine
    { references := fun i => ?_
      single := fun i => ?_
      final := fun i => ?_
      tracked := fun {i imp} him => ?_
      part := fun hg ho => ?_
      raw := fun hx hg => ?_ }
  · have hr := h.references i
    have ha : e.store.addImportation.aliases i = e.store.aliases i :=
      Store.aliases_congr rfl rfl i
    simp only [reduceCtorEq, if_false] at hr ⊢
    rw [references_addImportation, hc, ha, hr]
    split <;> omega
  · have hs := h.single i
    dsimp only
    rw [hc]
    split
    · rename_i hl
      subst hl
      omega
    · exact hs
  · have hf := h.final i
    refine hf.trans ?_
    rw [references_addImportation]
    simp only [Store.addImportation, List.length_append, List.length_singleton]
    rcases lt_trichotomy e.store.importations.length i with hl | hl | hl
    · have hl' : ¬ i < e.store.importations.length + 1 := Nat.not_lt.mpr hl
      simp only [hl.not_gt, hl', false_and]
    · subst hl
      simp [hz]
    · rw [if_neg hl.ne', Int.add_zero]
      simp only [hl, Nat.lt_succ_of_lt hl, true_and]
  · rcases lt_trichotomy e.store.importations.length i with hl | hl | hl
    · simp only [Store.addImportation] at him
      rw [List.getElem?_eq_none (by simpa using Nat.succ_le_of_lt hl)] at him
      cases him
    · subst hl
      obtain rfl : { } = imp := by simpa using him
      change _ = if (0 : ℤ) < 1 then UInt64.ofNat (e.store.imported _) else 0
      rw [hi]
      rfl
    · simp only [Store.addImportation] at him
      rw [List.getElem?_append_left hl] at him
      exact h.tracked him
  · exact Nat.lt_of_lt_of_le (h.part hg ho) (by simp)
  · obtain hx | hx := Multiset.mem_cons.mp hx
    · cases hx
    · exact h.raw hx hg

/-! ## All operations -/

theorem Makes.accounts {st : Store} {x : Handle} (hcu : e.Custody) (h : e.Accounts none)
    (hm : e.Makes p st) (hx : x.plain = true) :
    { e with store := st, handles := x ::ₘ e.handles }.Accounts none := by
  have hc := fun i => count_importation_cons hx i e.handles
  have hw : ∀ {r}, .raw r ∈ x ::ₘ e.handles → .raw r ∈ e.handles := mem_of_raw_mem_cons hx
  cases hm with
  | null | array | probe => exact h.addManager rfl nofun rfl rfl rfl hc hw
  | native => exact h.addNative hcu rfl rfl nofun rfl (fun _ => rfl) hc hw
  | imported _ _ _ _ hm => exact h.addAlias hcu hm hc hw rfl
  | buffer _ _ hm =>
    obtain ⟨al, -, ⟨alignment, -, hm⟩ | ⟨limit, pad, -, -, rfl⟩⟩ := Store.allocate_eq_ok hm
    · obtain ⟨size, g, -, -, rfl⟩ := Store.allocateNative_eq_ok hm
      refine h.addNative hcu (Store.managers_countAllocation ..) (Store.regions_countAllocation ..)
        nofun (Store.importations_countAllocation ..) (fun i => ?_) hc hw
      · rw [Store.journal_countAllocation]
        exact finalReleases_append ..
    · exact h.addManager (Store.managers_countAllocation ..) nofun (by simp) (by simp) (by simp)
        hc hw

theorem Deed.accounts (hcu : e.Custody) (h : e.Accounts none) (hd : e.Deed p e') :
    e'.Accounts none := by
  cases hd with
  | nothing => exact h
  | derive _ _ hd =>
    exact h.frame_handles rfl rfl rfl (fun _ => rfl)
      (fun i => count_importation_cons hd.plain.2 i _) (mem_of_raw_mem_cons hd.plain.2)
  | @convert x x' hs he hd =>
    refine h.frame_handles rfl rfl rfl (fun _ => rfl) (fun i => ?_) fun {r} hr => ?_
    · rw [he, count_importation_cons hd.plain.1, count_importation_cons hd.plain.2]
    · rw [he]
      exact Multiset.mem_cons_of_mem (mem_of_raw_mem_cons hd.plain.2 hr)
  | standing hs =>
    exact h.frame_handles rfl rfl rfl (fun _ => rfl)
      (fun i => count_importation_cons hs.plain i _) (mem_of_raw_mem_cons hs.plain)
  | array _ hx =>
    have hp := hx.elim (fun hx => hx ▸ rfl) fun ⟨a, ha⟩ => Handle.plain_of_memory? ha
    exact h.frame_handles rfl rfl rfl (fun _ => rfl)
      (fun i => count_importation_cons hp i _) (mem_of_raw_mem_cons hp)
  | storage | recorder => exact h.frame_handles rfl rfl rfl (fun _ => rfl) (fun _ => rfl) id
  | importation => exact h.addImportation
  | allocator =>
    exact h.frame_handles rfl rfl rfl (fun _ => rfl)
      (fun i => count_importation_cons rfl i _) (mem_of_raw_mem_cons rfl)
  | manager hm hw => exact hm.accounts hcu h hw.plain
  | @handOff k r st hk ho =>
    obtain ⟨g, hm, hg, hx, rfl⟩ := Store.handOff_eq_some ho
    have hn : ∀ i, g.owner ≠ .importation i := by
      intro i hi
      rw [hi] at hx
      cases hx
    refine h.frame rfl (fun i => ?_) (fun _ => rfl) (fun _ => finalReleases_append ..)
      (fun i => Multiset.count_cons_of_ne (by simp) _) (fun hg _ => hg) fun {r' g' i} hr hg' => ?_
    · have hb := Store.bearers_setManager (q := e.store.isPart i) (.native r false) hm
      have hq : (Manager.native r true).bears (e.store.isPart i) = false :=
        (Store.isPart_of_getElem? hg).trans (decide_eq_false (hn i))
      rw [hq] at hb
      exact hb
    · obtain hr | hr := Multiset.mem_cons.mp hr
      · obtain rfl := Handle.raw.inj hr
        obtain rfl := Option.some.inj (hg.symm.trans hg')
        exact hn i
      · exact h.raw hr hg'
  | @rewrap r hs he =>
    have hr : .raw r ∈ e.handles := he ▸ Multiset.mem_cons_self ..
    obtain ⟨g, hg⟩ := hcu.registered_of_raw hr
    refine h.frame rfl (fun i => ?_) (fun _ => rfl) (fun _ => rfl) (fun i => ?_) (fun hg _ => hg)
      fun {r' g' i} hr hg' => ?_
    · have hb := Store.bearers_addManager e.store (.native r true) (e.store.isPart i)
      have hq : (Manager.native r true).bears (e.store.isPart i) = false :=
        (Store.isPart_of_getElem? hg).trans (decide_eq_false (h.raw hr hg))
      rw [hq] at hb
      exact hb
    · dsimp only
      rw [he, count_importation_cons rfl]
      exact (Multiset.count_cons_of_ne (by simp) _).symm
    · exact h.raw (he ▸ Multiset.mem_cons_of_mem (mem_of_raw_mem_cons rfl hr)) hg'
  | dispose => exact h.dispose _
  | disposeOwner he =>
    refine (h.dispose _).frame_handles rfl rfl rfl (fun _ => rfl) (fun i => ?_) fun {r} hr => ?_
    · dsimp only
      rw [he]
      exact (count_importation_cons rfl i _).symm
    · dsimp only
      rw [he]
      exact Multiset.mem_cons_of_mem hr
  | @calls events hx =>
    refine h.frame_handles rfl rfl rfl (fun i => ?_) (fun _ => rfl) id
    have hz : finalReleases i events = 0 := by
      rw [finalReleases, List.countP_eq_zero]
      intro x hx'
      obtain ⟨k, j, rfl⟩ | ⟨k, rfl⟩ := hx x hx' <;> exact Bool.false_ne_true
    dsimp only
    rw [finalReleases_append, hz, Nat.add_zero]

theorem Loss.accounts (h : e.Accounts none) (hl : e.Loss e') : e'.Accounts none := by
  obtain @⟨x, hs, he⟩ := hl
  by_cases hx : x.plain = true
  · have hc : { e with handles := hs }.Accounts none :=
      h.frame_handles rfl rfl rfl (fun _ => rfl)
        (fun i => by rw [he, count_importation_cons hx]) fun hr => he ▸ Multiset.mem_cons_of_mem hr
    obtain ⟨k, -, -, hd⟩ | ⟨hd, -⟩ := discard_cases { e with handles := hs } hx
    · rw [hd]
      exact hc.giveUp k
    · rw [hd]
      exact hc
  · cases x with
    | raw r => exact h.dropRaw he
    | importation i =>
      have hc : ∀ j, e.handles.count (.importation j) =
          hs.count (.importation j) + if some i = some j then 1 else 0 := by
        intro j
        rw [he, Multiset.count_cons]
        simp [eq_comm]
      have hg : { e with handles := hs }.Accounts (some i) := by
        refine h.shift rfl rfl (fun _ => rfl) (fun j => ?_) (fun j => ?_) fun hr => ?_
        · rw [hc j]
          exact Nat.add_right_comm ..
        · exact hc j ▸ Nat.le_add_right ..
        · exact he ▸ Multiset.mem_cons_of_mem hr
      exact hg.dropReference
    | _ => exact absurd rfl hx

theorem Writing.accounts {x : Handle} (h : e.Accounts none) (hw : e.Writing x e') :
    e'.Accounts none := by
  obtain ⟨blocks, rfl⟩ := hw.frame
  exact h.frame_handles rfl rfl rfl (fun _ => rfl) (fun _ => rfl) id

theorem stable_accounts (p : Platform) : Stable p fun e => e.InOrder ∧ e.Accounts none where
  deed := fun ⟨ho, h⟩ hd => ⟨(stable_inOrder p).deed ho hd, hd.accounts ho.custody h⟩
  loss := fun ⟨ho, h⟩ hl => ⟨(stable_inOrder p).loss ho hl, hl.accounts h⟩
  writing := fun ⟨ho, h⟩ hw => ⟨(stable_inOrder p).writing ho hw, hw.accounts h⟩
  gauge := fun ⟨ho, h⟩ => ⟨(stable_inOrder p).gauge ho,
    h.frame_handles rfl rfl rfl (fun _ => rfl) (fun _ => rfl) id⟩

theorem accounts_start (e : Element) : (Session.start e).estate.Accounts none where
  references _ := rfl
  single _ := Nat.zero_le _
  final _ := rfl
  tracked := nofun
  part := nofun
  raw := nofun

end Estate

end LargeBuffers
