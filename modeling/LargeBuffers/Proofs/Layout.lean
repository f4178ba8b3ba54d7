import LargeBuffers.Proofs.Growth
import LargeBuffers.Proofs.Window

/-! # The layout of blocks

Each block has a role: it is a plain array, a storage, the array of one manager or the buffer of
one region. All that refers to a block agrees with its role, so whoever reaches a block that is not
a storage reaches it in the one way that its role allows.
-/

namespace LargeBuffers

namespace Store

/-- What operations leave alone that make no new objects and write nothing. -/
def stock (st : Store) : Element × List Block × List Region × List Supply :=
  (st.element, st.blocks, st.regions, st.allocators.map (·.supply))

variable (st : Store)

theorem stock_setAllocator {a : AllocatorId} {al al' : Allocator}
    (ha : st.allocators[a]? = some al) (hs : al'.supply = al.supply) :
    (st.setAllocator a al').stock = st.stock := by
  obtain ⟨hl, rfl⟩ := List.getElem?_eq_some_iff.mp ha
  have hm : (st.allocators.set a al').map (·.supply) = st.allocators.map (·.supply) := by
    rw [List.map_set, hs]
    exact List.ext_getElem (by simp) fun i h₁ h₂ => by
      rw [List.getElem_set]
      split
      · rename_i hi
        subst hi
        simp
      · rfl
  rw [stock, stock, ← hm]
  rfl

theorem stock_countAllocation (a : AllocatorId) (bytes : UInt64) :
    (st.countAllocation a bytes).stock = st.stock := by
  unfold countAllocation
  split
  · rename_i al ha
    exact st.stock_setAllocator ha rfl
  · rfl

theorem stock_free (a : AllocatorId) (len : UInt64) : (st.free a len).stock = st.stock := by
  simp only [free]
  split
  · rfl
  · rename_i al ha
    split
    · change (st.setAllocator a { al with statistics := _ }).stock = _
      exact st.stock_setAllocator ha rfl
    · rfl

theorem stock_dropReference (i : ImportationId) : (st.dropReference i).stock = st.stock := by
  obtain ⟨_, _, _, h⟩ := st.dropReference_frame i
  rw [h]
  rfl

theorem stock_release (r : RegionId) (g : Region) : (st.release r g).stock = st.stock := by
  unfold release
  split
  · rfl
  · exact stock_free ..
  · exact stock_dropReference ..

theorem stock_giveUp (k : ManagerId) : (st.giveUp k).stock = st.stock := by
  obtain ⟨r, g, -, -, he⟩ | ⟨he, -⟩ := st.giveUp_cases k
  · rw [he]
    exact stock_release ..
  · rw [he]

theorem stock_dispose (k : ManagerId) : (st.dispose k).stock = st.stock := by
  obtain he | ⟨m, m', events, -, -, -, -, he⟩ := st.dispose_cases k
  · rw [he]
    exact stock_giveUp ..
  · rw [he]
    rfl

theorem stock_dropRaw (r : RegionId) : (st.dropRaw r).stock = st.stock := by
  unfold dropRaw
  split
  · exact stock_release ..
  · rfl

end Store

theorem Estate.stock_discard (e : Estate) (x : Handle) : (e.discard x).stock = e.store.stock := by
  have hr : ∀ k, (e.retire k).stock = e.store.stock := by
    intro k
    unfold retire
    split
    · exact Store.stock_giveUp ..
    · rfl
  unfold discard
  split
  · exact Store.stock_dropRaw ..
  · exact Store.stock_dropReference ..
  · split
    · exact hr _
    · rfl

theorem Estate.Losses.stock_eq {e e' : Estate} (hl : Losses e e') :
    e'.store.stock = e.store.stock := by
  induction hl with
  | refl => rfl
  | @tail e₁ e₂ _ hl ih =>
    obtain @⟨x, hs, -⟩ := hl
    exact (stock_discard { e₁ with handles := hs } x).trans ih

inductive Role where
  | array
  /-- Bytes on which several regions can lie. -/
  | storage
  | manager (k : ManagerId)
  | region (r : RegionId)
  deriving DecidableEq

def Role.element (e : Element) : Role → Element
  | storage => .u8
  | _ => e

/-- Buffers from allocators have blocks of their own. -/
def Region.role (g : Region) (r : RegionId) : Role :=
  match g.owner with
  | .allocator _ => .region r
  | _ => .storage

namespace Estate

/-- Everything agrees with the roles of the blocks. -/
structure Layout (roles : List Role) (e : Estate) : Prop where
  size : roles.length = e.store.blocks.length
  sound : ∀ {b : BlockId} {block : Block}, e.store.blocks[b]? = some block → block.contents.Sound
  element : ∀ {b : BlockId} {block : Block} {role : Role}, e.store.blocks[b]? = some block →
    roles[b]? = some role → block.contents.element = role.element e.store.element
  handle : ∀ {x b}, x ∈ e.handles → x.backing = .array b → roles[b]? = some .array
  array : ∀ {k b : Nat} {live}, e.store.managers[k]? = some (.array b live) →
    roles[b]? = some (.manager k)
  probe : ∀ {k : ManagerId} {pr : Probe}, e.store.managers[k]? = some (.probe pr) →
    roles[pr.block]? = some (.manager k)
  native : ∀ {k r : Nat} {held}, e.store.managers[k]? = some (.native r held) →
    r < e.store.regions.length
  region : ∀ {r : RegionId} {g : Region}, e.store.regions[r]? = some g →
    roles[g.block]? = some (g.role r) ∧ e.store.element = .u8 ∧
      g.offset.toNat + g.len.toNat ≤ (e.store.contentsOf g.block).count.toNat
  storage : ∀ {b}, b ∈ e.storages → roles[b]? = some .storage
  supply : ∀ {a}, a ∈ e.store.allocators.map (·.supply) → a.Proper

variable {p : Platform} {e e' : Estate} {roles : List Role} {x : Handle} {b : BlockId} {role : Role}

theorem Layout.of_getElem? (h : e.Layout roles) (hr : roles[b]? = some role) :
    (∃ block, e.store.blocks[b]? = some block ∧ e.store.contentsOf b = block.contents) ∧
      (e.store.contentsOf b).Sound ∧
      (e.store.contentsOf b).element = role.element e.store.element := by
  have hl : b < e.store.blocks.length := h.size ▸ (List.getElem?_eq_some_iff.mp hr).1
  have hb := List.getElem?_eq_getElem hl
  have hc : e.store.contentsOf b = e.store.blocks[b].contents := by
    simp only [Store.contentsOf, hb]
  rw [hc]
  exact ⟨⟨_, hb, rfl⟩, h.sound hb, h.element hb hr⟩

theorem Layout.of_stock (h : e.Layout roles) (hg : e.store.Grows e'.store)
    (hk : e'.store.stock = e.store.stock)
    (hl : e'.store.managers.length = e.store.managers.length)
    (hh : ∀ {x b}, x ∈ e'.handles → x.backing = .array b → roles[b]? = some .array)
    (hs : ∀ {b}, b ∈ e'.storages → roles[b]? = some .storage) : e'.Layout roles := by
  obtain ⟨he, hk⟩ := Prod.mk.inj hk
  obtain ⟨hb, hk⟩ := Prod.mk.inj hk
  obtain ⟨hr, ha⟩ := Prod.mk.inj hk
  have hm : ∀ {k : ManagerId} {m' : Manager}, e'.store.managers[k]? = some m' →
      ∃ m, e.store.managers[k]? = some m ∧ m.Becomes m' := by
    intro k m' hk
    obtain ⟨hlt, -⟩ := List.getElem?_eq_some_iff.mp hk
    have hold := List.getElem?_eq_getElem (hl ▸ hlt)
    obtain ⟨m'', hnew, hbec⟩ := hg.managers hold
    obtain rfl := Option.some.inj (hk.symm.trans hnew)
    exact ⟨_, hold, hbec⟩
  refine
    { size := hb ▸ h.size
      sound := fun hbl => h.sound (hb ▸ hbl)
      element := fun hbl hro => he ▸ h.element (hb ▸ hbl) hro
      handle := hh
      array := fun hk => ?_
      probe := fun hk => ?_
      native := fun hk => ?_
      region := fun hg' => ?_
      storage := hs
      supply := fun hsu => h.supply (ha ▸ hsu) }
  · obtain ⟨m, hold, hbec⟩ := hm hk
    cases hbec <;> exact h.array hold
  · obtain ⟨m, hold, hbec⟩ := hm hk
    cases hbec with
    | refl => exact h.probe hold
    | probe pr =>
      have hpr := h.probe hold
      exact hpr
  · obtain ⟨m, hold, hbec⟩ := hm hk
    rw [hr]
    cases hbec <;> exact h.native hold
  · obtain ⟨hro, hu, hle⟩ := h.region (hr ▸ hg')
    refine ⟨hro, he.trans hu, hle.trans ?_⟩
    unfold Store.contentsOf
    rw [hb, he]

theorem Layout.set_handles (h : e.Layout roles) (hs : Multiset Handle)
    (hh : ∀ {x b}, x ∈ hs → x.backing = .array b → roles[b]? = some .array) :
    { e with handles := hs }.Layout roles :=
  h.of_stock (.refl _) rfl rfl hh h.storage

theorem Layout.cons (h : e.Layout roles)
    (hx : ∀ {b}, x.backing = .array b → roles[b]? = some .array) :
    { e with handles := x ::ₘ e.handles }.Layout roles := by
  refine h.set_handles _ fun hy hb => ?_
  obtain rfl | hy := Multiset.mem_cons.mp hy
  · exact hx hb
  · exact h.handle hy hb

/-! ## New objects -/

theorem Layout.addBlock (h : e.Layout roles) (block : Block) (role : Role)
    (hs : block.contents.Sound)
    (he : block.contents.element = role.element e.store.element) :
    { e with store := e.store.addBlock block }.Layout (roles ++ [role]) := by
  have hx : ∀ {b : BlockId} {role' : Role}, roles[b]? = some role' →
      (roles ++ [role])[b]? = some role' :=
    fun hb => Store.getElem?_of_extension (List.prefix_append ..) hb
  refine
    { size := by simp [h.size]
      sound := fun hb => ?_
      element := fun {b block' role'} hb hr => ?_
      handle := fun hy hb => hx (h.handle hy hb)
      array := fun hk => hx (h.array hk)
      probe := fun hk => hx (h.probe hk)
      native := h.native
      region := fun hg => ?_
      storage := fun hb => hx (h.storage hb)
      supply := h.supply }
  · obtain hb | ⟨-, rfl⟩ := Store.getElem?_concat hb
    · exact h.sound hb
    · exact hs
  · obtain hb | ⟨rfl, rfl⟩ := Store.getElem?_concat hb
    · have hl : b < roles.length := h.size ▸ (List.getElem?_eq_some_iff.mp hb).1
      rw [List.getElem?_append_left hl] at hr
      exact h.element hb hr
    · rw [← h.size, List.getElem?_concat_length] at hr
      obtain rfl := Option.some.inj hr
      exact he
  · obtain ⟨hr, hu, hle⟩ := h.region hg
    refine ⟨hx hr, hu, hle.trans ?_⟩
    obtain ⟨⟨block', hb, hc⟩, -⟩ := h.of_getElem? hr
    have hb' := Store.getElem?_of_extension (List.prefix_append e.store.blocks [block]) hb
    simp only [Store.contentsOf, Store.addBlock, hb', hb]
    exact le_rfl

theorem Layout.addManager {m : Manager} (h : e.Layout roles)
    (ha : ∀ {b live}, m = .array b live → roles[b]? = some (.manager e.store.managers.length))
    (hp : ∀ {pr}, m = .probe pr → roles[pr.block]? = some (.manager e.store.managers.length))
    (hn : ∀ {r held}, m = .native r held → r < e.store.regions.length) :
    { e with store := e.store.addManager m }.Layout roles := by
  refine
    { h with
      array := fun hk => ?_
      probe := fun hk => ?_
      native := fun hk => ?_
      region := h.region }
  · obtain hk | ⟨rfl, hm⟩ := Store.getElem?_concat hk
    · exact h.array hk
    · exact ha hm
  · obtain hk | ⟨rfl, hm⟩ := Store.getElem?_concat hk
    · exact h.probe hk
    · exact hp hm
  · obtain hk | ⟨rfl, hm⟩ := Store.getElem?_concat hk
    · exact h.native hk
    · exact hn hm

theorem Layout.addNative {g : Region} (h : e.Layout roles) (hu : e.store.element = .u8)
    (hr : roles[g.block]? = some (g.role e.store.regions.length))
    (hb : g.offset.toNat + g.len.toNat ≤ (e.store.contentsOf g.block).count.toNat) :
    { e with store := e.store.addNative g }.Layout roles := by
  have hreg : { e with store := e.store.addRegion g }.Layout roles := by
    refine { h with native := fun hk => ?_, region := fun {r g'} hg => ?_ }
    · exact (h.native hk).trans_le (by simp)
    · obtain hg | ⟨rfl, rfl⟩ := Store.getElem?_concat hg
      · exact h.region hg
      · exact ⟨hr, hu, hb⟩
  refine hreg.addManager nofun nofun ?_
  rintro r held ⟨⟩
  simp

end Estate

end LargeBuffers
