import LargeBuffers.Proofs.Lifetime

/-! # Contents of isolated memories

Arrays, array managers and buffers from allocators lie on blocks that no other backing reaches,
and only the sole handle to a backing is written through. So the values of a memory over one of
them change only when its own handle is written through.
-/

namespace LargeBuffers

/-- Backings that are nothing, an array, an array manager, or a buffer from an allocator. -/
inductive Store.Isolated (st : Store) : Backing → Prop
  | nothing : Isolated st .nothing
  | array {b : BlockId} : Isolated st (.array b)
  | null {k : ManagerId} : st.managers[k]? = some .null → Isolated st (.manager k)
  | arrayManager {k : ManagerId} {b : BlockId} {live : Bool} :
      st.managers[k]? = some (.array b live) → Isolated st (.manager k)
  | buffer {k : ManagerId} {r : RegionId} {held : Bool} {g : Region} {a : AllocatorId} :
      st.managers[k]? = some (.native r held) → st.regions[r]? = some g →
      g.owner = .allocator a → Isolated st (.manager k)

theorem Region.role_eq_region_iff {g : Region} {r r' : RegionId} :
    g.role r = .region r' ↔ (∃ a, g.owner = .allocator a) ∧ r = r' := by
  unfold role
  constructor
  · intro h
    split at h
    · exact ⟨⟨_, ‹_›⟩, Role.region.inj h⟩
    · cases h
  · rintro ⟨⟨a, ha⟩, rfl⟩
    rw [ha]

theorem Region.role_ne_array (g : Region) (r : RegionId) : g.role r ≠ .array := by
  unfold role
  split <;> nofun

theorem Region.role_ne_manager (g : Region) (r : RegionId) (k : ManagerId) :
    g.role r ≠ .manager k := by
  unfold role
  split <;> nofun

namespace Estate

variable {p : Platform} {e e' : Estate} {roles : List Role} {x : Handle} {b b' : Backing}
  {m : Memory} {v w w' : View}

theorem Layout.role_of_storageOf {j : BlockId} (h : e.Layout roles)
    (hb : ∀ {j}, b = .array j → roles[j]? = some .array) (hw : e.store.storageOf b = .ok w)
    (hj : w.block = some j) :
    (b = .array j ∧ roles[j]? = some .array) ∨
    (∃ k, b = .manager k ∧ roles[j]? = some (.manager k)) ∨
    ∃ k r g, b = .manager k ∧ e.store.managers[k]? = some (.native r true) ∧
      e.store.regions[r]? = some g ∧ roles[j]? = some (g.role r) := by
  rcases b with _ | i | k
  · obtain rfl := Except.ok.inj hw
    cases hj
  · obtain rfl := Except.ok.inj hw
    obtain rfl := Option.some.inj hj
    exact .inl ⟨rfl, hb rfl⟩
  · obtain rfl | ⟨i, rfl, hk | ⟨pr, hk, rfl⟩⟩ | ⟨r, g, hk, hg, rfl⟩ := Store.managerView_eq_ok hw
    · cases hj
    · obtain rfl := Option.some.inj hj
      exact .inr (.inl ⟨k, rfl, h.array hk⟩)
    · obtain rfl := Option.some.inj hj
      exact .inr (.inl ⟨k, rfl, h.probe hk⟩)
    · obtain rfl := Option.some.inj hj
      exact .inr (.inr ⟨k, r, g, rfl, hk, hg, (h.region hg).1⟩)

theorem Layout.eq_of_isolated {j : BlockId} (hc : e.Custody) (h : e.Layout roles)
    (hb : ∀ {j}, b = .array j → roles[j]? = some .array)
    (hb' : ∀ {j}, b' = .array j → roles[j]? = some .array) (hi : e.store.Isolated b)
    (hw : e.store.storageOf b = .ok w) (hw' : e.store.storageOf b' = .ok w')
    (hj : w.block = some j) (hj' : w'.block = some j) : b' = b := by
  have hcase := h.role_of_storageOf hb' hw' hj'
  obtain ⟨rfl, hr⟩ | ⟨k, rfl, hr⟩ | ⟨k, r, g, rfl, hk, hg, hr⟩ := h.role_of_storageOf hb hw hj
  · obtain ⟨rfl, -⟩ | ⟨k', rfl, hr'⟩ | ⟨k', r', g', rfl, -, -, hr'⟩ := hcase
    · rfl
    · cases hr.symm.trans hr'
    · exact absurd (Option.some.inj (hr'.symm.trans hr)) (g'.role_ne_array r')
  · obtain ⟨rfl, hr'⟩ | ⟨k', rfl, hr'⟩ | ⟨k', r', g', rfl, -, -, hr'⟩ := hcase
    · cases hr.symm.trans hr'
    · obtain rfl := Role.manager.inj (Option.some.inj (hr.symm.trans hr'))
      rfl
    · exact absurd (Option.some.inj (hr'.symm.trans hr)) (g'.role_ne_manager r' k)
  · have ha : ∃ a, g.owner = .allocator a := by
      cases hi with
      | null hm | arrayManager hm => cases hk.symm.trans hm
      | buffer hm hg₁ ha =>
        obtain ⟨rfl, -⟩ := Manager.native.inj (Option.some.inj (hk.symm.trans hm))
        obtain rfl := Option.some.inj (hg.symm.trans hg₁)
        exact ⟨_, ha⟩
    rw [Region.role_eq_region_iff.mpr ⟨ha, rfl⟩] at hr
    obtain ⟨rfl, hr'⟩ | ⟨k', rfl, hr'⟩ | ⟨k', r', g', rfl, hk', -, hr'⟩ := hcase
    · cases hr.symm.trans hr'
    · cases hr.symm.trans hr'
    · obtain ⟨-, rfl⟩ := Region.role_eq_region_iff.mp (Option.some.inj (hr'.symm.trans hr))
      rw [hc.eq_of_held hk hk']

/-! ## What is shown from where -/

theorem Layout.storageOf_eq {st : Store} (h : e.Layout roles) (hg : e.store.Grows st)
    (hb : ∀ {j}, b = .array j → roles[j]? = some .array)
    (hk : ∀ {k : ManagerId}, b = .manager k → st.managers[k]? = e.store.managers[k]?) :
    st.storageOf b = e.store.storageOf b := by
  have hc : ∀ {j role}, roles[j]? = some role → st.blockView j = e.store.blockView j := by
    intro j role hr
    obtain ⟨⟨block, hblock, -⟩, -⟩ := h.of_getElem? hr
    exact hg.blockView_eq hblock
  rcases b with _ | j | k
  · exact congrArg (fun c => Except.ok (View.empty c)) hg.element
  · exact congrArg Except.ok (hc (hb rfl))
  · change st.managerView k = e.store.managerView k
    unfold Store.managerView
    rw [hk rfl]
    split
    · rw [hg.element]
    · rename_i j hm
      rw [hc (h.array hm)]
    · rename_i r hm
      have hr := List.getElem?_eq_getElem (h.native hm)
      rw [hr, Store.getElem?_of_extension hg.regions hr]
    · rename_i pr hm
      rw [hc (h.probe hm)]
    · rfl

end Estate

namespace Store

variable {st st' : Store} {b : Backing} {m : Memory}

theorem view_congr (h : st'.storageOf m.backing = st.storageOf m.backing) :
    st'.view m = st.view m := by
  unfold view
  rcases hb : m.backing with _ | j | k
  · rw [hb] at h
    exact congrArg Except.ok (Except.ok.inj h)
  · rw [hb] at h
    have hj : st'.blockView j = st.blockView j := Except.ok.inj h
    simp only [hj]
  · rw [hb] at h
    have hk : st'.managerView k = st.managerView k := h
    simp only [hk]

theorem bytesOf_congr {v : View}
    (h : ∀ {j}, v.block = some j → st'.contentsOf j = st.contentsOf j) :
    st'.bytesOf v = st.bytesOf v := by
  unfold bytesOf
  split
  · rw [h ‹_›]
  · rfl

theorem read_congr {v : View} (h : ∀ {j}, v.block = some j → st'.contentsOf j = st.contentsOf j) :
    st'.read v = st.read v :=
  congrArg v.window.contents (bytesOf_congr h)

theorem getElem?_blocks_write_of_ne {v : View} {j : BlockId} (h : v.block ≠ some j)
    (bytes : List UInt8) : (st.write v bytes).blocks[j]? = st.blocks[j]? := by
  unfold write
  split
  · rename_i i hi
    have hij : i ≠ j := fun hij => h (hi.trans (congrArg some hij))
    simp only [setBytes, List.getElem?_modify, hij, if_false, Option.map_eq_map, Option.map_id']
  · rfl

theorem contentsOf_write_of_ne {v : View} {j : BlockId} (h : v.block ≠ some j)
    (bytes : List UInt8) : (st.write v bytes).contentsOf j = st.contentsOf j := by
  obtain ⟨blocks, hw⟩ := st.write_frame v bytes
  have hb : (st.write v bytes).blocks[j]? = st.blocks[j]? :=
    getElem?_blocks_write_of_ne h bytes
  rw [hw] at hb ⊢
  simp only [contentsOf, hb]

theorem contentsOf_of_extension {j : BlockId} (h : st.blocks <+: st'.blocks)
    (hj : j < st.blocks.length) : st'.contentsOf j = st.contentsOf j := by
  have hb := List.getElem?_eq_getElem hj
  simp only [contentsOf, hb, getElem?_of_extension h hb]

theorem Isolated.of_grows (hi : st.Isolated b) (hg : st.Grows st')
    (hk : ∀ {k : ManagerId}, b = .manager k → st'.managers[k]? = st.managers[k]?) :
    st'.Isolated b := by
  cases hi with
  | nothing => exact .nothing
  | array => exact .array
  | null hm => exact .null ((hk rfl).trans hm)
  | arrayManager hm => exact .arrayManager ((hk rfl).trans hm)
  | buffer hm hr ha =>
    exact .buffer ((hk rfl).trans hm) (getElem?_of_extension hg.regions hr) ha

theorem blocks_eq_of_stock (h : st'.stock = st.stock) : st'.blocks = st.blocks :=
  congrArg (·.2.1) h

end Store

namespace Estate

variable {p : Platform} {e e' : Estate} {roles : List Role} {x : Handle} {b : Backing} {w : View}

/-! ## Blocks that are not written -/

theorem Makes.blocks_extend {st : Store} (h : e.Makes p st) : e.store.blocks <+: st.blocks := by
  cases h with
  | null | native => exact List.prefix_rfl
  | array | probe => exact List.prefix_append ..
  | imported _ _ _ _ h =>
    obtain ⟨imp, -, -, rfl⟩ := Store.addAlias_eq_ok h
    exact List.prefix_rfl
  | buffer _ _ h =>
    obtain ⟨al, -, ⟨alignment, -, h⟩ | ⟨limit, pad, -, -, rfl⟩⟩ := Store.allocate_eq_ok h
    · obtain ⟨size, g, -, -, rfl⟩ := Store.allocateNative_eq_ok h
      rw [Store.blocks_eq_of_stock (Store.stock_countAllocation ..)]
      exact List.prefix_append ..
    · rw [Store.blocks_eq_of_stock (Store.stock_countAllocation ..)]
      exact List.prefix_append ..

theorem Deed.blocks_extend (hd : e.Deed p e') : e.store.blocks <+: e'.store.blocks := by
  cases hd with
  | nothing | derive | convert | standing | recorder | importation => exact List.prefix_rfl
  | allocator | rewrap | calls => exact List.prefix_rfl
  | array | storage => exact List.prefix_append ..
  | manager hm => exact hm.blocks_extend
  | handOff _ ho =>
    obtain ⟨g, -, -, -, rfl⟩ := Store.handOff_eq_some ho
    exact List.prefix_rfl
  | dispose | disposeOwner =>
    exact Store.blocks_eq_of_stock (e.store.stock_dispose ‹_›) ▸ List.prefix_rfl

theorem Losses.blocks_eq (hl : Losses e e') : e'.store.blocks = e.store.blocks :=
  Store.blocks_eq_of_stock hl.stock_eq

theorem Writing.exists_write {y : Handle} (hw : e.Writing y e') :
    ∃ v bytes, y ∈ e.handles ∧ e.viewMutOf y = .ok v ∧
      e' = { e with store := e.store.write v bytes } := by
  cases hw with
  | program hy hv => exact ⟨_, _, hy, hv, rfl⟩
  | copy hy hv => exact ⟨_, _, hy, hv, rfl⟩

theorem Writing.ne_readOnly (hw : e.Writing x e') (m : Memory) : x ≠ .readOnly m := by
  rintro rfl
  obtain ⟨v, bytes, -, hv, -⟩ := hw.exists_write
  cases hv

theorem Layout.lt_of_storageOf {j : BlockId} (h : e.Layout roles)
    (hb : ∀ {j}, b = .array j → roles[j]? = some .array) (hw : e.store.storageOf b = .ok w)
    (hj : w.block = some j) : j < e.store.blocks.length := by
  have hlt : ∀ {role : Role}, roles[j]? = some role → j < e.store.blocks.length :=
    fun hr => h.size ▸ (List.getElem?_eq_some_iff.mp hr).1
  obtain ⟨-, hr⟩ | ⟨k, -, hr⟩ | ⟨k, r, g, -, -, -, hr⟩ := h.role_of_storageOf hb hw hj
  · exact hlt hr
  · exact hlt hr
  · exact hlt hr

theorem two_le_holders {y : Handle} (h : x ::ₘ {y} ≤ e.handles) (hb : y.backing = x.backing) :
    2 ≤ e.holders x.backing := by
  have hc := Multiset.countP_le_of_le (·.backing = x.backing) h
  simp only [Multiset.countP_cons, ← Multiset.cons_zero, Multiset.countP_zero, hb, if_true] at hc
  exact hc.trans (Nat.le_add_right ..)

/-- Writing through one handle does not reach the isolated backing of another one. -/
theorem Layout.contentsOf_writing {y : Handle} {j : BlockId} (ho : e.InOrder) (h : e.Layout roles)
    (hxy : x ::ₘ {y} ≤ e.handles) (hi : e.store.Isolated x.backing) (hw : e.Writing y e')
    (hs : e.store.storageOf x.backing = .ok w) (hj : w.block = some j) :
    e'.store.contentsOf j = e.store.contentsOf j := by
  have hx : x ∈ e.handles := Multiset.mem_of_le hxy (Multiset.mem_cons_self ..)
  obtain ⟨v, bytes, hy, hv, rfl⟩ := hw.exists_write
  refine Store.contentsOf_write_of_ne (fun hvj => ?_) bytes
  obtain rfl | ⟨hsole, w', hw', hp⟩ := viewMutOf_eq_ok hv
  · cases hvj
  · have hyx : y.backing = x.backing := h.eq_of_isolated ho.custody (h.handle hx) (h.handle hy) hi
      hs hw' hj (hp.block_eq.symm.trans hvj)
    have hone : e.holders y.backing = 1 := by
      obtain ⟨k, rfl⟩ | hsole := hsole
      · exact ho.tenure.sole hy
      · exact eq_of_beq hsole
    have htwo := two_le_holders hxy hyx
    rw [← hyx] at htwo
    omega

end Estate

namespace Session

variable {p : Platform} {s s' : Session} {name : String} {h : Handle} {a : Access} {m : Memory}
  {ops : List Op}

theorem values_congr (hs : s.slots.get? name = some h) (hs' : s'.slots.get? name = some h)
    (hm : h.memory? = some (a, m)) (hv : s'.store.view m = s.store.view m)
    (hr : ∀ {v}, s.store.view m = .ok v → s'.store.read v = s.store.read v) :
    s'.values name = s.values name := by
  rcases hx : s.store.view m with f | v
  · rw [(values_of_error hs hm hx).1, (values_of_error hs' hm (hv.trans hx)).1]
  · rw [(values_of_view hs hm hx).1, (values_of_view hs' hm (hv.trans hx)).1, hr hx]

/-- A step that leaves a memory under its name leaves its values or writes through its handle. -/
theorem values_step (hd : s.slots.Distinct) (hr : s.estate.Regular) (op : Op)
    (hs : s.slots.get? name = some h) (hs' : (s.step p op).2.slots.get? name = some h)
    (hm : h.memory? = some (a, m)) (hi : s.store.Isolated m.backing) :
    (s.step p op).2.values name = s.values name ∨
      op.writesThrough name = true ∧ s.Writes name (s.step p op).2 := by
  obtain ⟨roles, hl⟩ := hr.layout
  have hx : h ∈ s.estate.handles := mem_handles hs
  have hmb := Handle.backing_of_memory? hm
  have hmn := Handle.manager?_of_memory? hm
  have hst : (s.step p op).2.store.storageOf h.backing = s.store.storageOf h.backing :=
    hl.storageOf_eq (grows_step hd op) (hl.handle hx)
      fun hk => managers_step hd hr.order.tenure op hs hs' hmn hk
  -- Nothing else matters but the contents of the block that the memory shows.
  have hkeep : (∀ {w j}, s.store.storageOf h.backing = .ok w → w.block = some j →
      (s.step p op).2.store.contentsOf j = s.store.contentsOf j) →
      (s.step p op).2.values name = s.values name := by
    intro hc
    refine values_congr hs hs' hm (Store.view_congr (hmb ▸ hst)) fun {v} hv => ?_
    refine Store.read_congr fun hj => ?_
    obtain rfl | ⟨w, hw, hp⟩ := Store.view_eq_ok hv
    · cases hj
    · have hvw : v.PartOf w := .inr ⟨_, _, hp⟩
      exact hc (hmb ▸ hw) (hvw.block_eq.symm.trans hj)
  obtain ⟨-, e, hdeed, hloss⟩ | ⟨dest, hop, hsl, y, hy, hw⟩ | ⟨-, gauge, hg⟩ :=
    s.step_course (p := p) hd op
  · refine .inl (hkeep fun hw hj => ?_)
    have hb : s.store.blocks <+: (s.step p op).2.store.blocks :=
      hdeed.blocks_extend.trans (hloss.blocks_eq ▸ List.prefix_rfl)
    exact Store.contentsOf_of_extension hb (hl.lt_of_storageOf (hl.handle hx) hw hj)
  · by_cases hn : dest = name
    · subst hn
      exact .inr ⟨hop, hsl, y, hy, hw⟩
    · have hxy := Directory.pair_le_entries hd hs hy (Ne.symm hn)
      exact .inl (hkeep (hl.contentsOf_writing hr.order hxy (hmb.symm ▸ hi) hw))
  · refine .inl (hkeep fun _ _ => ?_)
    rw [hg]
    rfl

/-- As long as a memory over an isolated backing stays and nothing is written through it, it shows
the same values. Through read-only memories nothing ever is. -/
theorem Keeps.values (hk : s.Keeps p name h ops) (hd : s.slots.Distinct) (hr : s.estate.Regular)
    (hm : h.memory? = some (a, m)) (hi : s.store.Isolated m.backing)
    (hn : a = .readOnly ∨ ∀ op ∈ ops, op.writesThrough name = false) :
    (s.after p ops).values name = s.values name := by
  induction ops generalizing s with
  | nil => rfl
  | cons op ops ih =>
    have hs := hk.1
    have hs' := hk.2.first
    have hmn := Handle.manager?_of_memory? hm
    have hi' : (s.step p op).2.store.Isolated m.backing :=
      hi.of_grows (grows_step hd op) fun hb => managers_step hd hr.order.tenure op hs hs' hmn
        ((Handle.backing_of_memory? hm).trans hb)
    have hr' := (Estate.stable_regular p).step hd hr op
    have hn' : a = .readOnly ∨ ∀ op ∈ ops, op.writesThrough name = false :=
      hn.imp_right fun hn op' hop => hn op' (List.mem_cons_of_mem _ hop)
    refine (ih hk.2 (distinct_step hd op) hr' hi' hn').trans ?_
    obtain hv | ⟨hop, -, y, hy, hw⟩ := values_step hd hr op hs hs' hm hi
    · exact hv
    · obtain rfl | hn := hn
      · obtain rfl := Option.some.inj (hs.symm.trans hy)
        cases h with
        | readOnly m' => exact absurd rfl (hw.ne_readOnly m')
        | _ => cases hm
      · cases hop.symm.trans (hn op (List.mem_cons_self ..))

/-- A memory is over an array, an array manager or a buffer from an allocator. A step in which it
stays changes its values only by writing through its own handle, whatever other handles to the
backing there are. So over any operations that do not write through it, it shows the same values,
and a read-only memory shows the same values as long as it is there. -/
theorem contents_isolated (p : Platform) (e : Element) (ops : List Op) (name : String) (h : Handle)
    (a : Access) (m : Memory) (hs : ((start e).after p ops).slots.get? name = some h)
    (hm : h.memory? = some (a, m)) (hi : ((start e).after p ops).store.Isolated m.backing) :
    let s := (start e).after p ops
    (∀ op, (s.step p op).2.slots.get? name = some h →
      (s.step p op).2.values name ≠ s.values name →
      op.writesThrough name = true ∧ s.Writes name (s.step p op).2) ∧
    ∀ ops', s.Keeps p name h ops' →
      (a = .readOnly ∨ ∀ op ∈ ops', op.writesThrough name = false) →
      (s.after p ops').values name = s.values name := by
  intro s
  have hd : s.slots.Distinct := distinct_run p e ops
  have hr : s.estate.Regular := regular_run p e ops
  constructor
  · intro op hs' hv
    exact (values_step hd hr op hs hs' hm hi).resolve_left hv
  · intro ops' hk hn
    exact hk.values hd hr hm hi hn

/-- A buffer of an allocator under a read-only memory. The program that is to write through the
shared manager is refused, since the manager has another handle. -/
theorem contents_isolated_of_buffer :
    let ops : List Op := [.defaultAllocator "a", .allocate "b" "a" .shared 2,
      .memory "h" .readOnly (.manager "b" false)]
    let ops' : List Op := [.spanMut "b" (.update (.fill ⟨.u8, [5]⟩) .done), .clone "c" "h",
      .spanMut "h" .done, .drop "b"]
    let m : Memory := ⟨.manager 1, 0, 2⟩
    let s := (start .u8).after .bounded ops
    s.slots.get? "h" = some (.readOnly m) ∧ s.store.Isolated m.backing ∧
      s.Keeps .bounded "h" (.readOnly m) ops' ∧
      (s.after .bounded ops').values "h" = s.values "h" ∧
      s.values "h" = .ok (.contents (some ⟨.u8, 2, [0, 0]⟩)) := by
  intro ops ops' m s
  have hs : s.slots.get? "h" = some (.readOnly m) := by decide +kernel
  have hi : s.store.Isolated m.backing := by
    have hk : s.store.managers[1]? = some (.native 0 true) := by decide +kernel
    have hg : s.store.regions[0]? = some ⟨0, 0, 2, .allocator 0⟩ := by decide +kernel
    exact .buffer hk hg rfl
  have hk : s.Keeps .bounded "h" (.readOnly m) ops' := by decide +kernel
  have hv : s.values "h" = .ok (.contents (some ⟨.u8, 2, [0, 0]⟩)) := by decide +kernel
  have hc := contents_isolated .bounded .u8 ops "h" (.readOnly m) .readOnly m hs rfl hi
  exact ⟨hs, hi, hk, hc.2 ops' hk (.inl rfl), hv⟩

end Session

end LargeBuffers
