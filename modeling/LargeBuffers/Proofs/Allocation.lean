import LargeBuffers.Proofs.Alignment
import LargeBuffers.Proofs.Coherence
import LargeBuffers.Proofs.Exclusive
import LargeBuffers.Proofs.Leaks

/-! # New buffers

A request to an allocator is refused before the platform is asked, or by the platform, or has a
buffer of zero bytes at the first aligned address of what was granted. Nothing else leads to its
block, so what is written to a buffer is seen nowhere else.
-/

namespace LargeBuffers

/-! ## Requests -/

def unaddressable (length : UInt64) : Error :=
  .outOfRange "length" (toString length ++ " bytes exceed the addressable range")

section Request

variable {alignment length : UInt64}

theorem requestSize_of_le (h : length.toNat + alignment.toNat ≤ maxBytes.toNat) :
    (length + alignment).toNat = length.toNat + alignment.toNat ∧
      requestSize alignment length = .ok (length + alignment) := by
  have hm := maxBytes.toNat_lt
  have hsum : (length + alignment).toNat = length.toNat + alignment.toNat := by
    rw [UInt64.toNat_add]
    exact Nat.mod_eq_of_lt (h.trans_lt hm)
  refine ⟨hsum, if_pos ⟨?_, ?_⟩⟩
  · rw [UInt64.le_iff_toNat_le, hsum]
    exact Nat.le_add_right ..
  · rwa [UInt64.le_iff_toNat_le, hsum]

/-- A sum that wraps is less than either part. -/
theorem requestSize_of_lt (h : maxBytes.toNat < length.toNat + alignment.toNat) :
    requestSize alignment length = .error (unaddressable length) := by
  refine if_neg ?_
  rintro ⟨hle, hmax⟩
  have hl := length.toNat_lt
  have ha := alignment.toNat_lt
  rw [UInt64.le_iff_toNat_le, UInt64.toNat_add] at hle hmax
  omega

end Request

/-- Where `length` usable bytes lie in what the platform granted for them. -/
structure Grant.Places (g : Grant) (alignment length size offset : UInt64) : Prop where
  nonnull : 0 < g.base.toNat
  addressable : g.base.toNat + size.toNat ≤ UInt64.size
  /-- The address of the first usable byte does not wrap. -/
  address : (g.base + offset).toNat = g.base.toNat + offset.toNat
  aligned : alignment.toNat ∣ (g.base + offset).toNat
  least : ∀ k, alignment.toNat ∣ g.base.toNat + k → offset.toNat ≤ k
  lt : offset.toNat < alignment.toNat
  inside : offset.toNat + length.toNat ≤ size.toNat

theorem Platform.places {p : Platform} {n : ℕ} {g : Grant} {alignment length size : UInt64}
    (ha : isPowerOfTwo alignment = true) (hs : size.toNat = length.toNat + alignment.toNat)
    (hg : p.grant n size = some g) :
    g.Places alignment length size (alignOffset g.base alignment) := by
  obtain ⟨hpos, haddr⟩ := p.addressable hg
  have hlt := alignOffset_lt g.base ha
  have hsum : (g.base + alignOffset g.base alignment).toNat =
      g.base.toNat + (alignOffset g.base alignment).toNat := by
    rw [UInt64.toNat_add]
    refine Nat.mod_eq_of_lt ?_
    have hsize : UInt64.size = 2 ^ 64 := rfl
    omega
  constructor
  · exact hpos
  · exact haddr
  · exact hsum
  · rw [hsum]
    exact dvd_add_alignOffset ha g.base
  · exact fun k hk => alignOffset_le ha g.base hk
  · exact hlt
  · omega

namespace Store

variable {p : Platform} {st : Store} {a : AllocatorId} {al : Allocator} {g : Grant}
  {alignment length : UInt64}

def withBuffer (st : Store) (a : AllocatorId) (al : Allocator) (alignment length : UInt64)
    (g : Grant) : Store :=
  let size := length + alignment
  let offset := alignOffset g.base alignment
  { st with
    blocks := st.blocks ++ [clearedBlock g size offset length]
    regions := st.regions ++ [⟨st.blocks.length, offset, length, .allocator a⟩]
    managers := st.managers ++ [.native st.regions.length true]
    allocators := st.allocators.set a { al with statistics := al.statistics.recordAllocation size }
    gauge := st.gauge + size
    journal := st.journal ++ [.allocated a st.regions.length size] }

section Requests

variable (ha : st.allocators[a]? = some al) (hal : al.supply = .native alignment)

include ha hal

theorem allocate_of_lt (h : maxBytes.toNat < length.toNat + alignment.toNat) :
    st.allocate p a length = (.error (unaddressable length), st) := by
  simp only [allocate, ha, hal, allocateNative, requestSize_of_lt h]

theorem allocate_of_none (h : length.toNat + alignment.toNat ≤ maxBytes.toNat)
    (hg : p.grant st.blocks.length (length + alignment) = none) :
    st.allocate p a length = (.error (.allocationFailed (length + alignment)), st) := by
  simp only [allocate, ha, hal, allocateNative, (requestSize_of_le h).2, hg]

theorem allocate_of_some (h : length.toNat + alignment.toNat ≤ maxBytes.toNat)
    (hg : p.grant st.blocks.length (length + alignment) = some g) :
    st.allocate p a length = (.ok (), st.withBuffer a al alignment length g) := by
  simp only [allocate, ha, hal, allocateNative, (requestSize_of_le h).2, hg]
  refine Prod.ext rfl ?_
  simp [countAllocation, ha, withBuffer]

end Requests

theorem read_clearedBlock {size offset : UInt64} (hl : g.bytes.length = size.toNat)
    (hin : offset.toNat + length.toNat ≤ size.toNat) :
    (Window.mk .u8 offset length).contents (clearedBlock g size offset length).contents.bytes =
      .zeros .u8 length := by
  have hb : (Window.mk .u8 offset length).byteLength = length.toNat := Nat.mul_one _
  have hz : (Contents.zeros .u8 length).bytes.length = length.toNat :=
    (Contents.length_zeros ..).trans (Nat.mul_one _)
  have hw : (Window.mk .u8 offset length).Within g.bytes.length := .inr (by rw [hb, hl]; exact hin)
  have hr := hw.read_write (hz.trans hb.symm).le
  have hd : ((Window.mk .u8 offset length).read g.bytes).drop (0 + length.toNat) = [] :=
    List.drop_eq_nil_of_le (by rw [hw.length_read, hb, Nat.zero_add])
  rw [splice, hz, hd, List.append_nil, List.take_zero, List.nil_append] at hr
  exact congrArg (Contents.mk .u8 length) hr

/-! ## Writes seen from elsewhere -/

variable {u v : View} {k : ManagerId} {bytes : List UInt8}

theorem bytesOf_write_of_ne (h : u.block ≠ v.block) :
    (st.write v bytes).bytesOf u = st.bytesOf u :=
  bytesOf_congr fun hj => contentsOf_write_of_ne (fun hv => h (hj.trans hv.symm)) bytes

theorem runOn_write_of_ne (h : u.block ≠ v.block) (ac : Access) (prog : Program) :
    (st.write v bytes).runOn u ac prog = st.runOn u ac prog := by
  simp only [runOn, baseOf_write, bytesOf_write_of_ne h]

theorem read_write_of_ne (h : u.block ≠ v.block) : (st.write v bytes).read u = st.read u :=
  congrArg u.window.contents (bytesOf_write_of_ne h)

end Store

namespace Estate

variable {e : Estate} {roles : List Role} {r : RegionId} {v w : View} {b : BlockId} {m : Memory}
  {k : ManagerId} {bytes : List UInt8}

/-! ## Arrays beside a buffer -/

theorem Layout.block_ne_of_managerArray (h : e.Layout roles) (hb : roles[b]? = some (.region r))
    (hw : e.store.managerArray k = some w) : w.block ≠ some b := by
  have hne : ∀ {j : BlockId}, roles[j]? = some (.manager k) → some j ≠ some b := by
    rintro j hj ⟨⟩
    cases hj.symm.trans hb
  unfold Store.managerArray at hw
  split at hw
  · cases hw
    exact hne (h.array ‹_›)
  · split at hw
    · cases hw
      exact hne (h.probe ‹_›)
    · cases hw
  · cases hw

theorem Layout.block_ne_of_arrayOf (h : e.Layout roles)
    (hm : ∀ {j}, m.backing = .array j → roles[j]? = some .array)
    (hb : roles[b]? = some (.region r)) (hw : e.store.arrayOf m = .ok (some w)) :
    w.block ≠ some b := by
  have hpart : ∀ {u : View}, u.range m.start m.len = .ok w → w.block = u.block := by
    intro u hu
    exact View.PartOf.block_eq (.inr ⟨_, _, View.range_eq_ok_iff.mp hu⟩)
  unfold Store.arrayOf at hw
  rcases hmb : m.backing with _ | j | k
  · simp only [hmb] at hw
    cases hw
  · simp only [hmb] at hw
    obtain ⟨u, hu, ⟨⟩⟩ := bind_eq_ok_iff.mp hw
    rw [hpart hu]
    rintro ⟨⟩
    cases (hm hmb).symm.trans hb
  · simp only [hmb] at hw
    split at hw
    · obtain ⟨u, hu, ⟨⟩⟩ := bind_eq_ok_iff.mp hw
      rw [hpart hu]
      exact h.block_ne_of_managerArray hb ‹_›
    · cases hw

theorem Layout.blockView_write {role : Role} (h : e.Layout roles) (hb : roles[b]? = some role) :
    (e.store.write v bytes).blockView b = e.store.blockView b := by
  obtain ⟨⟨block, hblock, -⟩, -⟩ := h.of_getElem? hb
  exact (e.store.grows_write v bytes).blockView_eq hblock

theorem Layout.managerArray_write (h : e.Layout roles) (k : ManagerId) :
    (e.store.write v bytes).managerArray k = e.store.managerArray k := by
  have hm : (e.store.write v bytes).managers = e.store.managers := by
    obtain ⟨blocks, hw⟩ := e.store.write_frame v bytes
    rw [hw]
  unfold Store.managerArray
  rw [hm]
  split
  · rw [h.blockView_write (h.array ‹_›)]
  · rw [h.blockView_write (h.probe ‹_›)]
  · rfl

theorem Layout.arrayOf_write (h : e.Layout roles)
    (hm : ∀ {j}, m.backing = .array j → roles[j]? = some .array) :
    (e.store.write v bytes).arrayOf m = e.store.arrayOf m := by
  unfold Store.arrayOf
  rcases hmb : m.backing with _ | j | k
  · rfl
  · simp only [h.blockView_write (hm hmb)]
  · simp only [h.managerArray_write]

end Estate

def BufferForm.handle (form : BufferForm) (k : ManagerId) (length : UInt64) : Handle :=
  match form with
  | .shared => .shared k
  | .native => .manager k
  | .owner => .owner ⟨.manager k, 0, length⟩

namespace BufferForm

variable {form : BufferForm} {k : ManagerId} {length : UInt64}

@[simp]
theorem backing_handle : (form.handle k length).backing = .manager k := by
  cases form <;> rfl

theorem extent_handle : (form.handle k length).extent length = (0, length) := by
  cases form <;> rfl

theorem whole_handle {st : Store} (h : st.managerLength k = length) :
    st.Whole k (form.handle k length) := by
  subst h
  cases form with
  | shared => exact .shared
  | native => exact .manager
  | owner => exact .owner

end BufferForm

namespace Session

variable {p : Platform} {s s' : Session} {name slot : String} {form : BufferForm}
  {length : UInt64} {a : AllocatorId} {al : Allocator} {st : Store}

section Allocate

variable (hu : s.store.element = .u8) (hs : s.slots.get? slot = some (.allocator a))
  (ha : s.store.allocators[a]? = some al) (hal : ∃ alignment, al.supply = .native alignment)
  (hne : length ≠ 0 ∨ form = .native)

include hu hs ha hal hne

theorem allocate_of_error {err : Error}
    (h : s.store.allocate p a length = (.error err, s.store)) :
    s.allocate p name slot form length = s.refuse (.error err) := by
  obtain ⟨alignment, hal⟩ := hal
  have hz : ¬(length = 0 ∧ form ≠ .native) := fun hz => hne.elim (absurd hz.1) (absurd · hz.2)
  simp only [allocate, ofBytes, if_pos hu, hs, ha, Option.map_some, hal, if_neg hz, h]
  rfl

theorem allocate_of_ok (h : s.store.allocate p a length = (.ok (), st)) :
    s.allocate p name slot form length = ((s.withStore st).put name
      (form.handle s.store.managers.length (st.managerLength s.store.managers.length))).answer
        .done := by
  obtain ⟨alignment, hal⟩ := hal
  have hz : ¬(length = 0 ∧ form ≠ .native) := fun hz => hne.elim (absurd hz.1) (absurd · hz.2)
  have hk : (s.withStore st).newestManager = s.store.managers.length := by
    have hl := Store.length_managers_allocate h
    simp [newestManager, withStore, hl]
  simp only [allocate, ofBytes, if_pos hu, hs, ha, Option.map_some, hal, if_neg hz, h, hk]
  cases form <;> rfl

end Allocate

/-! ## What is read elsewhere -/

/-- All that is read through other names than this one, and of the storages, is the same. -/
structure SameElsewhere (s s' : Session) (name : String) : Prop where
  span : ∀ other, other ≠ name → ∀ prog, s'.span other prog = s.span other prog
  values : ∀ other, other ≠ name → s'.values other = s.values other
  array : ∀ other, other ≠ name → s'.getArray other = s.getArray other
  storage : ∀ storage, s'.storageBytes storage = s.storageBytes storage

section Elsewhere

variable {x : Handle} {v : View} {bytes : List UInt8} {roles : List Role} {b : BlockId}
  {r : RegionId}

/-- Of a handle that leads to other blocks everything is read as it was. -/
theorem span_write (hr : s.estate.Regular) (hv : v.block = some b)
    (hx : s.slots.get? slot = some x)
    (hne : ∀ w, s.store.storageOf x.backing = .ok w → w.block ≠ some b) (prog : Program) :
    (s.withStore (s.store.write v bytes)).span slot prog = s.span slot prog := by
  have hview : (s.withStore (s.store.write v bytes)).viewOf x = s.viewOf x :=
    viewOf_congr (storageOf_write hr (mem_handles hx) v bytes)
  have hx' : (s.withStore (s.store.write v bytes)).slots.get? slot = some x := hx
  simp only [span, hx, hx', hview]
  rcases hu : s.viewOf x with f | u
  · rfl
  · have hub : u.block ≠ v.block := by
      rw [hv]
      obtain rfl | ⟨w, hw, hp⟩ := (Resolves.span hu).part
      · rintro ⟨⟩
      · exact hp.block_eq ▸ hne w hw
    exact congrArg (fun t => Except.ok (Answer.transcript t.1))
      (Store.runOn_write_of_ne hub .readOnly prog)

theorem values_write (hr : s.estate.Regular) (hv : v.block = some b)
    (hx : s.slots.get? slot = some x)
    (hne : ∀ w, s.store.storageOf x.backing = .ok w → w.block ≠ some b) :
    (s.withStore (s.store.write v bytes)).values slot = s.values slot := by
  rcases hm : x.memory? with _ | ⟨ac, m⟩
  · have hx' : (s.withStore (s.store.write v bytes)).slots.get? slot = some x := hx
    simp only [values, hx, hx', Option.bind_some, hm]
  · have hmb := Handle.backing_of_memory? hm
    have hst := storageOf_write hr (mem_handles hx) v bytes
    rw [hmb] at hst
    refine values_congr hx hx hm (Store.view_congr hst) fun {u} hu => ?_
    refine Store.read_write_of_ne ?_
    rw [hv]
    obtain rfl | ⟨w, hw, hs⟩ := Store.view_eq_ok hu
    · rintro ⟨⟩
    · have hp : u.PartOf w := .inr ⟨_, _, hs⟩
      exact hp.block_eq ▸ hne w (hmb ▸ hw)

theorem getArray_write (hl : s.estate.Layout roles) (hb : roles[b]? = some (.region r))
    (hv : v.block = some b) (hx : s.slots.get? slot = some x) :
    (s.withStore (s.store.write v bytes)).getArray slot = s.getArray slot := by
  have hx' : (s.withStore (s.store.write v bytes)).slots.get? slot = some x := hx
  have hread : ∀ {w : View}, w.block ≠ some b →
      (s.store.write v bytes).read w = s.store.read w :=
    fun hw => Store.read_write_of_ne (hv ▸ hw)
  simp only [getArray, hx, hx']
  rcases hm : x.memory? with _ | ⟨ac, m⟩
  · rcases x.manager? with _ | k
    · rfl
    · have harr : (s.store.write v bytes).managerArray k = s.store.managerArray k :=
        hl.managerArray_write k
      simp only [withStore, harr]
      rcases hw : s.store.managerArray k with _ | w
      · rfl
      · simp only [Option.map_some, hread (hl.block_ne_of_managerArray hb hw)]
  · have hmr : ∀ {j : BlockId}, m.backing = .array j → roles[j]? = some .array := fun hj =>
      hl.handle (mem_handles hx) ((Handle.backing_of_memory? hm).trans hj)
    have harr : (s.store.write v bytes).arrayOf m = s.store.arrayOf m := hl.arrayOf_write hmr
    simp only [withStore, harr]
    rcases hw : s.store.arrayOf m with f | _ | w
    · rfl
    · rfl
    · have hwr := hread (hl.block_ne_of_arrayOf hmr hb hw)
      exact congrArg (fun c => Except.ok (Answer.contents (some c))) hwr

end Elsewhere

/-- A region under a handle of its own: it is live, all its bytes are zero, and it lies in a block
to which nothing else leads. -/
structure Fresh (s : Session) (name : String) (h : Handle) (k : ManagerId) (r : RegionId)
    (g : Region) : Prop where
  handle : s.slots.get? name = some h
  state : s.store.managerState k = .live
  length : s.store.managerLength k = g.len
  view : s.viewOf h = .ok (Store.regionView g)
  writable : s.viewMutOf h = .ok (Store.regionView g)
  cleared : s.store.read (Store.regionView g) = .zeros .u8 g.len
  registered : s.store.regions[r]? = some g
  regions : ∀ r' g', s.store.regions[r']? = some g' → g'.block = g.block → r' = r
  handles : ∀ other x w, other ≠ name → s.slots.get? other = some x →
    s.store.storageOf x.backing = .ok w → w.block ≠ some g.block
  storages : ∀ storage b, s.storages.get? storage = some b → b ≠ g.block

theorem Fresh.sameElsewhere {h : Handle} {k : ManagerId} {r : RegionId} {g : Region}
    (hf : s.Fresh name h k r g) (hr : s.estate.Regular) (ho : g.owner = .allocator a)
    (prog : Program) : s.SameElsewhere (s.step p (.spanMut name prog)).2 name := by
  obtain ⟨roles, hl⟩ := hr.layout
  have hb : roles[g.block]? = some (.region r) := by
    obtain ⟨hro, -⟩ := hl.region hf.registered
    rw [hro, Region.role_eq_region_iff.mpr ⟨⟨a, ho⟩, rfl⟩]
  rw [step_spanMut hf.handle hf.writable]
  refine ⟨fun other hn prog' => ?_, fun other hn => ?_, fun other hn => ?_, fun storage => ?_⟩
  · rcases hx : s.slots.get? other with _ | x
    · simp only [span, withStore, hx]
    · exact span_write hr rfl hx (fun w => hf.handles other x w hn hx) prog'
  · rcases hx : s.slots.get? other with _ | x
    · simp only [values, withStore, hx, Option.bind_none]
    · exact values_write hr rfl hx fun w => hf.handles other x w hn hx
  · rcases hx : s.slots.get? other with _ | x
    · simp only [getArray, withStore, hx]
    · exact getArray_write hl hb rfl hx
  · simp only [storageBytes, withStore]
    split
    · rename_i b hs
      have hne : (Store.regionView g).block ≠ some b :=
        fun hg => hf.storages storage b hs (Option.some.inj hg).symm
      rw [Store.contentsOf_write_of_ne hne]
    · rfl

/-! ## Putting a buffer under a name -/

theorem viewMutOf_of_last {k : ManagerId} {r : RegionId} (hd : s.slots.Distinct)
    (hr : s.estate.Regular) (hs : s.slots.get? name = some (form.handle k length))
    (hk : s.store.managers[k]? = some (.native r true)) (hsh : ¬s.Shares name (.manager k))
    (hne : length ≠ 0 ∨ form = .native) :
    s.viewMutOf (form.handle k length) = s.viewOf (form.handle k length) := by
  cases form with
  | shared =>
    have hone : s.sole (.manager k) = true := by
      refine (sole_iff hd hs rfl fun hn => ?_).mpr hsh
      have hnull : s.store.managers[nullSingleton]? = some .null := hr.order.tenure.null
      rw [Backing.manager.inj hn, hnull] at hk
      cases hk
    exact if_pos hone
  | native => rfl
  | owner =>
    have hl : length ≠ 0 := hne.resolve_right (by rintro ⟨⟩)
    have hlive : s.store.backingState (.manager k) ≠ .released := by
      simp only [Store.backingState, Store.managerState, hk, if_true]
      rintro ⟨⟩
    exact viewMut_of_not_shares hd hr hs rfl hlive hl hsh

section Put

variable {g : Region} (hd : s.slots.Distinct) (hr : s.estate.Regular) (hm : s.estate.Makes p st)
  (hk : st.managers = s.store.managers ++ [.native s.store.regions.length true])
  (hg : st.regions = s.store.regions ++ [g]) (form : BufferForm) (name : String)

include hd hr hm hk hg

/-- The session in which the buffer is under its name, with the estate that leads there. -/
theorem put_buffer :
    let h := form.handle s.store.managers.length g.len
    let s' := (s.withStore st).put name h
    s'.slots.Distinct ∧ s'.estate.Regular ∧ s'.slots.get? name = some h ∧
      s'.store.managers[s.store.managers.length]? = some (.native s.store.regions.length true) ∧
      s'.store.regions = st.regions ∧ s'.store.blocks = st.blocks ∧
      ¬s'.Shares name (.manager s.store.managers.length) := by
  intro h s'
  have hslots : s'.slots = s.slots.put name h := slots_put ..
  have hget : s'.slots.get? name = some h := get?_put_self ..
  have hkm : st.managers[s.store.managers.length]? =
      some (.native s.store.regions.length true) := by
    rw [hk, List.getElem?_concat_length]
  have hlen : st.managerLength s.store.managers.length = g.len := by
    simp only [Store.managerLength, hkm, hg, List.getElem?_concat_length]
  have hl := losses_put (s := s.withStore st) hd name h
  have hdeed : s.estate.Deed p { s.estate with store := st, handles := h ::ₘ s.estate.handles } :=
    .manager hm (BufferForm.whole_handle hlen)
  refine ⟨?_, ?_, hget, ?_, ?_, hl.blocks_eq, ?_⟩
  · rw [hslots]
    exact hd.put ..
  · exact (Estate.stable_regular p).losses ((Estate.stable_regular p).deed hr hdeed) hl
  · exact (hl.steady (mem_handles hget) BufferForm.backing_handle).trans hkm
  · exact congrArg (·.2.2.1) hl.stock_eq
  · -- Older handles refer to older managers.
    rintro ⟨other, x, ho, hx, hxb⟩
    have hx' : s.slots.get? other = some x := ((s.withStore st).get?_put_of_ne h ho).symm.trans hx
    exact lt_irrefl _ (hr.order.tenure.known (mem_handles hx') hxb)

theorem fresh_put (ho : g.owner = .allocator a)
    (hz : st.read (Store.regionView g) = .zeros .u8 g.len) (hne : g.len ≠ 0 ∨ form = .native) :
    let h := form.handle s.store.managers.length g.len
    ((s.withStore st).put name h).Fresh name h s.store.managers.length
      s.store.regions.length g := by
  intro h
  obtain ⟨hd', hr', hget, hkm, hregs, hblocks, hsh⟩ := put_buffer hd hr hm hk hg form name
  generalize (s.withStore st).put name h = s' at *
  obtain ⟨roles, hl⟩ := hr'.layout
  have hreg : s'.store.regions[s.store.regions.length]? = some g := by
    rw [hregs, hg, List.getElem?_concat_length]
  have hro : ∀ {r' : RegionId} {g' : Region}, s'.store.regions[r']? = some g' →
      roles[g'.block]? = some (g'.role r') := fun hg' => (hl.region hg').1
  have hrole : g.role s.store.regions.length = .region s.store.regions.length :=
    Region.role_eq_region_iff.mpr ⟨⟨a, ho⟩, rfl⟩
  have hb : h.backing = .manager s.store.managers.length := BufferForm.backing_handle
  have hw : s'.store.storageOf h.backing = .ok (Store.regionView g) := by
    rw [hb]
    exact Store.managerView_of_held hkm hreg
  have hview : s'.viewOf h = .ok (Store.regionView g) := by
    have hv := (viewOf_native hr' (mem_handles hget) hb hkm hreg).2
    rw [show h.extent g.len = (0, g.len) from BufferForm.extent_handle] at hv
    exact hv.trans (congrArg (fun w => Except.ok (View.mk _ w)) (Window.sub_self _))
  constructor
  · exact hget
  · simp only [Store.managerState, hkm, if_true]
  · simp only [Store.managerLength, hkm, hreg]
  · exact hview
  · exact (viewMutOf_of_last hd' hr' hget hkm hsh hne).trans hview
  · obtain ⟨⟨block, hblock, -⟩, -⟩ := hl.of_getElem? (hro hreg)
    have hlt : g.block < st.blocks.length := hblocks ▸ (List.getElem?_eq_some_iff.mp hblock).1
    rw [← hz]
    refine Store.read_congr ?_
    rintro j ⟨⟩
    exact Store.contentsOf_of_extension (hblocks ▸ List.prefix_rfl) hlt
  · exact hreg
  · intro r' g' hg' hgb
    have hr₁ := hro hg'
    rw [hgb, hro hreg, hrole] at hr₁
    exact (Region.role_eq_region_iff.mp (Option.some.inj hr₁).symm).2
  · intro other x w hn hx hxw hwb
    have hi : s'.store.Isolated h.backing := hb ▸ .buffer hkm hreg ho
    have hxb := hl.eq_of_isolated hr'.order.custody (hl.handle (mem_handles hget))
      (hl.handle (mem_handles hx)) hi hw hxw rfl hwb
    exact hsh ⟨other, x, hn, hx, hxb.trans hb⟩
  · rintro storage _ hs rfl
    have hr₁ := hl.storage (mem_storages hs)
    rw [hro hreg, hrole] at hr₁
    cases hr₁

end Put

/-- A request to an allocator for a native manager, or for some bytes in any form. If the exact sum
of the length and the alignment is more than one region can span, it is refused on account of the
length; else the platform is asked for just that sum, and if it has nothing, the request has failed
with that size. Nothing has changed then. If it grants memory, wherever that starts, there is one
more buffer, and the counters and the gauge go up by the sum. The first usable byte has the first
aligned address, all usable bytes are zero and lie within what was granted, and a live manager of
the length asked for is under the name. No other buffer, storage or handle leads there, so whatever
is written to the buffer is not seen elsewhere. -/
theorem allocation_end_to_end (p : Platform) (ops : List Op) (name slot : String)
    (form : BufferForm) (length : UInt64) (a : AllocatorId) (al : Allocator) (alignment : UInt64)
    (hs : ((start .u8).after p ops).slots.get? slot = some (.allocator a))
    (ha : ((start .u8).after p ops).store.allocators[a]? = some al)
    (hal : al.supply = .native alignment) (hne : length ≠ 0 ∨ form = .native) :
    let s := (start .u8).after p ops
    let r := s.step p (.allocate name slot form length)
    let size := length + alignment
    isPowerOfTwo alignment = true ∧
    ((∃ text, r.1 = .error (.error (.outOfRange "length" text))) ↔
      maxBytes.toNat < length.toNat + alignment.toNat) ∧
    (maxBytes.toNat < length.toNat + alignment.toNat →
      r = s.refuse (.error (unaddressable length))) ∧
    (length.toNat + alignment.toNat ≤ maxBytes.toNat →
      size.toNat = length.toNat + alignment.toNat ∧
      (p.grant s.store.blocks.length size = none →
        r = s.refuse (.error (.allocationFailed size))) ∧
      ∀ g, p.grant s.store.blocks.length size = some g →
        let st := s.store.withBuffer a al alignment length g
        let k := s.store.managers.length
        let h := form.handle k length
        let region : Region :=
          ⟨s.store.blocks.length, alignOffset g.base alignment, length, .allocator a⟩
        r = ((s.withStore st).put name h).answer .done ∧
        (s.slots.get? name = none → r.2.store = st) ∧
        g.Places alignment length size region.offset ∧
        r.2.Fresh name h k s.store.regions.length region ∧
        ∀ prog, r.2.SameElsewhere (r.2.step p (.spanMut name prog)).2 name) := by
  intro s r size
  have hd : s.slots.Distinct := distinct_run p .u8 ops
  have hr : s.estate.Regular := regular_run p .u8 ops
  have hu : s.store.element = .u8 := (grows_after Directory.distinct_nil ops).element
  have hp : isPowerOfTwo alignment = true := by
    obtain ⟨roles, hl⟩ := hr.layout
    have hsup : al.supply.Proper := hl.supply (List.mem_map_of_mem (List.mem_of_getElem? ha))
    rwa [hal] at hsup
  have hfar : maxBytes.toNat < length.toNat + alignment.toNat →
      r = s.refuse (.error (unaddressable length)) := fun h =>
    allocate_of_error hu hs ha ⟨alignment, hal⟩ hne (Store.allocate_of_lt ha hal h)
  have hnone : length.toNat + alignment.toNat ≤ maxBytes.toNat →
      p.grant s.store.blocks.length size = none →
        r = s.refuse (.error (.allocationFailed size)) := fun h hg =>
    allocate_of_error hu hs ha ⟨alignment, hal⟩ hne (Store.allocate_of_none ha hal h hg)
  have hsome : length.toNat + alignment.toNat ≤ maxBytes.toNat → ∀ g,
      p.grant s.store.blocks.length size = some g →
        r = ((s.withStore (s.store.withBuffer a al alignment length g)).put name
          (form.handle s.store.managers.length length)).answer .done := by
    intro h g hg
    have hb := Store.allocate_of_some ha hal h hg
    have hlen : (s.store.withBuffer a al alignment length g).managerLength
        s.store.managers.length = length := by
      simp [Store.managerLength, Store.withBuffer]
    have hr₁ : s.allocate p name slot form length = _ :=
      allocate_of_ok hu hs ha ⟨alignment, hal⟩ hne hb
    rwa [hlen] at hr₁
  refine ⟨hp, ⟨?_, ?_⟩, hfar, fun hle => ⟨(requestSize_of_le hle).1, hnone hle, ?_⟩⟩
  · rintro ⟨text, htext⟩
    by_contra hle
    rw [not_lt] at hle
    rcases hg : p.grant s.store.blocks.length size with _ | g
    · rw [hnone hle hg] at htext
      cases htext
    · rw [hsome hle g hg] at htext
      cases htext
  · intro h
    rw [hfar h]
    exact ⟨_, rfl⟩
  · intro g hg st k h region
    have hb := Store.allocate_of_some ha hal hle hg
    have hsz := (requestSize_of_le hle).1
    have hpl : g.Places alignment length size region.offset := Platform.places hp hsz hg
    have hm : s.estate.Makes p st := .buffer hu (mem_handles hs) hb
    have hz : st.read (Store.regionView region) = .zeros .u8 length := by
      have hc : st.contentsOf s.store.blocks.length =
          (Store.clearedBlock g size region.offset length).contents := by
        simp only [Store.contentsOf, st, Store.withBuffer, List.getElem?_concat_length]
        rfl
      have hz : (Window.mk .u8 region.offset length).contents _ = .zeros .u8 length :=
        Store.read_clearedBlock (p.length_eq hg) hpl.inside
      rwa [← hc] at hz
    obtain ⟨hd', hr', -⟩ := put_buffer (g := region) hd hr hm rfl rfl form name
    have hf := fresh_put (g := region) hd hr hm rfl rfl form name rfl hz hne
    rw [hsome hle g hg]
    exact ⟨rfl, fun hn => store_put_of_free (s := s.withStore st) h hn, hpl, hf,
      fun prog => hf.sameElsewhere hr' rfl prog⟩

/-- A second buffer of the default allocator, 16 bytes off its alignment. -/
theorem allocation_end_to_end_of_offset :
    let ops : List Op := [.defaultAllocator "d", .allocate "x" "d" .shared 5]
    let prog : Program := .update (.fill ⟨.u8, [7]⟩) .done
    let region : Region := ⟨1, 48, 10, .allocator 0⟩
    let s := (start .u8).after .bounded ops
    let r := s.step .bounded (.allocate "m" "d" .owner 10)
    s.slots.get? "d" = some (.allocator 0) ∧ r.1 = .ok .done ∧
      r.2.Fresh "m" (.owner ⟨.manager 2, 0, 10⟩) 2 1 region ∧ r.2.store.gauge = 143 ∧
      (Grant.mk 65552 (List.replicate 74 165)).Places 64 10 74 48 ∧
      r.2.SameElsewhere (r.2.step .bounded (.spanMut "m" prog)).2 "m" := by
  intro ops prog region s r
  let al : Allocator := { supply := .native 64, statistics := ⟨1, 69, 0, 0⟩ }
  have hs : s.slots.get? "d" = some (.allocator 0) := by decide +kernel
  have ha : s.store.allocators[0]? = some al := by decide +kernel
  have hk : s.store.managers.length = 2 := by decide +kernel
  have hreg : s.store.regions.length = 1 := by decide +kernel
  have hb : s.store.blocks.length = 1 := by decide +kernel
  have hg : Platform.bounded.grant s.store.blocks.length (10 + 64) =
      some ⟨65552, List.replicate 74 165⟩ := by decide +kernel
  have ho : alignOffset 65552 64 = 48 := by decide
  obtain ⟨-, -, -, hfits⟩ := allocation_end_to_end .bounded ops "m" "d" .owner 10 0 al 64 hs ha rfl
    (.inl (by decide))
  obtain ⟨-, -, hsome⟩ := hfits (by decide)
  obtain ⟨hr, hst, hpl, hf, helse⟩ := hsome _ hg
  rw [hk, hreg, hb, ho] at hf
  rw [ho] at hpl
  refine ⟨hs, congrArg Prod.fst hr, hf, ?_, hpl, helse prog⟩
  rw [hst (by decide +kernel)]
  decide +kernel

end Session

end LargeBuffers
