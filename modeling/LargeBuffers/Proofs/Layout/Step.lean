import LargeBuffers.Proofs.Tenure
import LargeBuffers.Proofs.View

/-! # Layouts through the steps of a run

New objects extend the roles, and writing through a handle keeps the length of the block that it
reaches.
-/

namespace LargeBuffers

theorem Store.sound_clearedBlock {p : Platform} {n : ℕ} {g : Grant} {size alignment length : UInt64}
    (hp : isPowerOfTwo alignment = true) (hs : requestSize alignment length = .ok size)
    (hg : p.grant n size = some g) :
    (clearedBlock g size (alignOffset g.base alignment) length).contents.Sound ∧
      (alignOffset g.base alignment).toNat + length.toNat ≤ size.toNat := by
  obtain ⟨hsize, -⟩ := requestSize_eq_ok hs
  have ha := alignOffset_lt g.base hp
  have hle : (alignOffset g.base alignment).toNat + length.toNat ≤ size.toNat := by omega
  have hl := p.length_eq hg
  have hb : (Window.mk .u8 (alignOffset g.base alignment) length).byteLength = length.toNat :=
    Nat.mul_one _
  have hw : (Window.mk .u8 (alignOffset g.base alignment) length).Within g.bytes.length := by
    refine .inr ?_
    rw [hb, hl]
    exact hle
  have hz : (Contents.zeros .u8 length).bytes.length = length.toNat :=
    (Contents.length_zeros ..).trans (Nat.mul_one _)
  have hwr := hw.length_write (hz.trans hb.symm).le
  refine ⟨⟨?_, ?_⟩, hle⟩
  · exact (hwr.trans hl).trans (Nat.mul_one _).symm
  · exact (hwr.trans hl).trans_lt size.toNat_lt_size

theorem Contents.sound_zeros {n : UInt64} : (zeros .u8 n).Sound where
  length := length_zeros ..
  lt := by
    rw [length_zeros]
    exact (Nat.mul_one _).trans_lt n.toNat_lt_size

namespace Estate

variable {p : Platform} {e e' : Estate} {roles : List Role} {x : Handle}

theorem Layout.getElem?_size (h : e.Layout roles) (role : Role) :
    (roles ++ [role])[e.store.blocks.length]? = some role := by
  rw [← h.size, List.getElem?_concat_length]

theorem Layout.arrayManager {c : Contents} (h : e.Layout roles) (hs : c.Sound)
    (he : c.element = e.store.element) :
    { e with store := e.store.addArrayManager c }.Layout
      (roles ++ [Role.manager e.store.managers.length]) := by
  refine (h.addBlock ⟨placement, c⟩ (.manager _) hs he).addManager ?_ nofun nofun
  rintro b live ⟨⟩
  exact h.getElem?_size _

theorem Layout.storageRegion {b : BlockId} {offset length : UInt64} {o : Owner} (h : e.Layout roles)
    (hu : e.store.element = .u8) (hb : b ∈ e.storages)
    (hr : checkRange (e.store.contentsOf b).count offset length = .ok ())
    (ho : ∀ a, o ≠ .allocator a) :
    { e with store := e.store.addNative ⟨b, offset, length, o⟩ }.Layout roles := by
  refine h.addNative hu ?_ (checkRange_eq_ok_iff.mp hr)
  have hro : (Region.mk b offset length o).role e.store.regions.length = .storage := by
    cases o with
    | allocator a => exact absurd rfl (ho a)
    | _ => rfl
  rw [hro]
  exact h.storage hb

theorem Makes.layout {st : Store} (h : e.Layout roles) (hm : e.Makes p st) :
    ∃ roles', { e with store := st }.Layout roles' := by
  cases hm with
  | null => exact ⟨_, h.addManager nofun nofun nofun⟩
  | array hc =>
    obtain ⟨hs, he⟩ := Contents.sound_of_fits hc
    exact ⟨_, h.arrayManager hs he⟩
  | @probe c claim state exposesArray hc =>
    obtain ⟨hs, he⟩ := Contents.sound_of_fits hc
    refine ⟨_, (h.addBlock ⟨placement, c⟩ (.manager e.store.managers.length) hs he).addManager
      nofun ?_ nofun⟩
    rintro pr ⟨⟩
    exact h.getElem?_size _
  | native hu hb _ hr => exact ⟨_, h.storageRegion hu hb hr nofun⟩
  | @imported b i offset length _ hu hb _ hr hm =>
    obtain ⟨imp, -, -, rfl⟩ := Store.addAlias_eq_ok hm
    have hn := h.storageRegion (o := .importation i) hu hb hr nofun
    refine ⟨roles, hn.of_stock ?_ rfl rfl hn.handle hn.storage⟩
    exact { Store.Grows.refl _ with importations := by simp }
  | @buffer a length _ hu _ hm =>
    obtain ⟨al, ha, ⟨alignment, hal, hm⟩ | ⟨limit, pad, -, -, rfl⟩⟩ := Store.allocate_eq_ok hm
    · obtain ⟨size, g, hsz, hg, rfl⟩ := Store.allocateNative_eq_ok hm
      have hp : isPowerOfTwo alignment = true := by
        have hsup := h.supply (List.mem_map_of_mem (List.mem_of_getElem? ha))
        rwa [hal] at hsup
      obtain ⟨hs, hle⟩ := Store.sound_clearedBlock hp hsz hg
      have hb := h.addBlock _ (.region e.store.regions.length) hs hu.symm
      have hc : ((e.store.addBlock (Store.clearedBlock g size (alignOffset g.base alignment)
          length)).contentsOf e.store.blocks.length).count = size := by
        simp [Store.contentsOf, Store.clearedBlock]
      have hn := hb.addNative
        (g := ⟨e.store.blocks.length, alignOffset g.base alignment, length, .allocator a⟩) hu
        (h.getElem?_size _) (by rw [hc]; exact hle)
      refine ⟨_, hn.of_stock ?_ ?_ (by simp) hn.handle hn.storage⟩
      · exact ((Store.grows_gauge ..).trans (Store.grows_note ..)).trans
          (Store.grows_countAllocation ..)
      · exact Store.stock_countAllocation ..
    · have hn := h.arrayManager (c := .zeros .u8 length) Contents.sound_zeros hu.symm
      refine ⟨_, hn.of_stock (Store.grows_countAllocation ..) (Store.stock_countAllocation ..)
        (by simp) hn.handle hn.storage⟩

theorem Deed.layout (hcu : e.Custody) (h : e.Layout roles) (hd : e.Deed p e') :
    ∃ roles', e'.Layout roles' := by
  have hg := hd.grows
  cases hd with
  | nothing => exact ⟨_, h⟩
  | derive hx _ hd => exact ⟨_, h.cons fun hb => h.handle hx (hd.backing_eq ▸ hb)⟩
  | @convert y y' hs he hd =>
    refine ⟨_, h.set_handles _ fun hx hb => ?_⟩
    obtain rfl | hx := Multiset.mem_cons.mp hx
    · exact h.handle (he ▸ Multiset.mem_cons_self ..) (hd.backing_eq ▸ hb)
    · exact h.handle (he ▸ Multiset.mem_cons_of_mem hx) hb
  | standing hs =>
    refine ⟨_, h.cons fun hb => ?_⟩
    obtain hn | hn := hs.backing_eq
    · cases hn.symm.trans hb
    · cases hn.symm.trans hb
  | @array c y hc hy =>
    obtain ⟨hs, he⟩ := Contents.sound_of_fits hc
    refine ⟨_, (h.addBlock ⟨placement, c⟩ .array hs he).cons fun {b} hb => ?_⟩
    have hyb : y.backing = .array e.store.blocks.length := by
      obtain rfl | ⟨a, ha⟩ := hy
      · rfl
      · exact Handle.backing_of_memory? ha
    obtain rfl := Backing.array.inj (hyb.symm.trans hb)
    exact h.getElem?_size _
  | @storage c storages hc hst =>
    obtain ⟨hs, he⟩ := Contents.sound_of_fits hc
    have hb := h.addBlock ⟨placement, c⟩ .storage hs he
    refine ⟨_, hb.of_stock (.refl _) rfl rfl hb.handle fun hm => ?_⟩
    obtain hm | rfl := hst _ hm
    · exact hb.storage hm
    · exact h.getElem?_size _
  | recorder => exact ⟨_, h.of_stock hg rfl rfl h.handle h.storage⟩
  | importation =>
    have hn := h.cons (x := .importation e.store.importations.length) nofun
    exact ⟨_, hn.of_stock hg rfl rfl hn.handle hn.storage⟩
  | @allocator supply _ hs =>
    have hn := h.cons (x := .allocator e.store.allocators.length) nofun
    refine ⟨roles, { hn with supply := fun {a} ha => ?_, region := hn.region }⟩
    rw [Store.addAllocator, List.map_append, List.mem_append] at ha
    obtain ha | ha := ha
    · exact h.supply ha
    · obtain rfl := List.mem_singleton.mp ha
      exact hs
  | manager hm hw =>
    obtain ⟨roles', hl⟩ := hm.layout h
    exact ⟨_, hl.cons fun hb => nomatch hw.backing_eq.symm.trans hb⟩
  | @handOff k r st _ ho =>
    obtain ⟨g, -, -, -, rfl⟩ := Store.handOff_eq_some ho
    have hn := h.cons (x := .raw r) nofun
    exact ⟨_, hn.of_stock hg rfl (by simp) hn.handle hn.storage⟩
  | @rewrap r hs he =>
    have hn := h.set_handles hs fun hx hb => h.handle (he ▸ Multiset.mem_cons_of_mem hx) hb
    obtain ⟨g, hg'⟩ := hcu.registered_of_raw (he ▸ Multiset.mem_cons_self ..)
    have hl := (List.getElem?_eq_some_iff.mp hg').1
    refine ⟨_, (hn.addManager (m := .native r true) nofun nofun ?_).cons nofun⟩
    rintro r' held ⟨⟩
    exact hl
  | dispose =>
    exact ⟨_, h.of_stock hg (Store.stock_dispose ..) (by simp) h.handle h.storage⟩
  | disposeOwner he =>
    exact ⟨_, h.of_stock hg (Store.stock_dispose ..) (by simp)
      (fun hx hb => h.handle (he ▸ Multiset.mem_cons_of_mem hx) hb) h.storage⟩
  | calls => exact ⟨_, h.of_stock hg rfl rfl h.handle h.storage⟩

theorem Loss.layout (h : e.Layout roles) (hl : e.Loss e') : e'.Layout roles := by
  have hg := hl.grows
  obtain @⟨x, hs, he⟩ := hl
  exact h.of_stock hg (stock_discard { e with handles := hs } x)
    (length_managers_discard { e with handles := hs } x)
    (fun hy hb => h.handle (he ▸ Multiset.mem_cons_of_mem hy) hb) h.storage

theorem Layout.write {v : View} {bytes : List UInt8} (h : e.Layout roles)
    (hl : bytes.length = (e.store.bytesOf v).length) :
    { e with store := e.store.write v bytes }.Layout roles := by
  have hg := e.store.grows_write v bytes
  rcases hv : v.block with _ | b
  · simpa only [Store.write, hv] using h
  · have hw : e.store.write v bytes = e.store.setBytes b bytes := by simp only [Store.write, hv]
    have hc : e.store.bytesOf v = (e.store.contentsOf b).bytes := by
      simp only [Store.bytesOf, hv]
    rw [hw] at hg ⊢
    have hb : ∀ {j : BlockId} {block' : Block},
        (e.store.setBytes b bytes).blocks[j]? = some block' →
        ∃ block, e.store.blocks[j]? = some block ∧
          block'.contents.element = block.contents.element ∧
          block'.contents.count = block.contents.count ∧
          block'.contents.bytes.length = block.contents.bytes.length := by
      intro j block' hj
      simp only [Store.setBytes, List.getElem?_modify, Option.map_eq_map,
        Option.map_eq_some_iff] at hj
      obtain ⟨block, hj, rfl⟩ := hj
      refine ⟨block, hj, ?_⟩
      split
      · rename_i hbj
        subst hbj
        refine ⟨rfl, rfl, ?_⟩
        rw [hc] at hl
        simpa only [Store.contentsOf, hj] using hl
      · exact ⟨rfl, rfl, rfl⟩
    refine
      { h with
        size := by simp [Store.setBytes, h.size]
        sound := fun hj => ?_
        element := fun hj hr => ?_
        region := fun hr => ?_ }
    · obtain ⟨block, hj, he, hco, hbl⟩ := hb hj
      have hs := h.sound hj
      exact ⟨by rw [hbl, he, hco, hs.length], hbl ▸ hs.lt⟩
    · obtain ⟨block, hj, he, -, -⟩ := hb hj
      exact he.trans (h.element hj hr)
    · obtain ⟨hro, hu, hle⟩ := h.region hr
      obtain ⟨⟨block, hblock, -⟩, -⟩ := h.of_getElem? hro
      exact ⟨hro, hu, hle.trans (congrArg UInt64.toNat (hg.count_contentsOf hblock)).ge⟩

theorem Writing.layout (h : e.Layout roles) (hw : e.Writing x e') : e'.Layout roles := by
  cases hw with
  | program hx hv =>
    have hs := h.shows_viewMutOf hx hv
    exact h.write (hs.within.length_run hs.lt)
  | @copy v v' y a m hx hv hy hm hv' hc =>
    have hs := h.shows_viewMutOf hx hv
    have hs' := h.shows_view hy hm hv'
    have hle : v.window.len ≤ v'.window.len := by
      unfold checkCopy at hc
      split at hc
      · assumption
      · cases hc
    refine h.write (hs.within.length_write ?_)
    refine (v.window.length_read_le _).trans ?_
    rw [Window.byteLength, Window.byteLength, hs.element, hs'.element]
    exact Nat.mul_le_mul_right _ (UInt64.le_iff_toNat_le.mp hle)

theorem layout_start (e : Element) : (Session.start e).estate.Layout [] where
  size := rfl
  sound := nofun
  element := nofun
  handle := nofun
  array := by
    rintro (_ | k) b live hk
    · cases hk
    · cases hk
  probe := by
    rintro (_ | k) pr hk
    · cases hk
    · cases hk
  native := by
    rintro (_ | k) r held hk
    · cases hk
    · cases hk
  region := nofun
  storage := nofun
  supply := by
    intro a ha
    obtain rfl := List.mem_singleton.mp ha
    exact show isPowerOfTwo defaultAlignment = true by decide

end Estate

end LargeBuffers
