import LargeBuffers.Proofs.Bounds
import LargeBuffers.Proofs.Isolation
import LargeBuffers.Proofs.Locality

/-! # Storage under several windows

Native managers show parts of blocks, and different ones may show the same bytes. What is read
through any of them are the bytes of the block at the offset of the region, so what is written
through one is read through all that cover it, and nothing else changes.
-/

namespace LargeBuffers

/-- The part of a backing of `len` values that a handle stands for. -/
def Handle.extent (h : Handle) (len : UInt64) : UInt64 × UInt64 :=
  match h.memory? with
  | some (_, m) => (m.start, m.len)
  | none => (0, len)

def Op.nativePart? : Op → Option (String × String × UInt64 × UInt64)
  | .native name source _ offset length
  | .addAlias name _ source offset length => some (name, source, offset, length)
  | _ => none

namespace Store

/-- The bytes that a program leaves in a view, made of those that are there. -/
def outcome (st : Store) (v : View) (prog : Program) : List UInt8 :=
  (prog.run (st.baseOf v + v.window.offset) .writable v.window.alone (st.read v).bytes).2

variable {st : Store} {u v : View} {m : Memory} {k : ManagerId} {r : RegionId} {g : Region}

theorem Shows.length_outcome (h : st.Shows v) (prog : Program) :
    (st.outcome v prog).length = v.window.byteLength :=
  Program.length_run_alone .writable prog h.within h.lt _

theorem Shows.runOn_eq_write (h : st.Shows v) (prog : Program) :
    (st.runOn v .writable prog).2 = v.window.write (st.outcome v prog) (st.bytesOf v) :=
  Program.run_eq_write .writable prog h.within h.lt _

theorem getElem?_bytesOf {j : ℕ} (hu : u.block = v.block) (hj : j ∈ v.window.positions) :
    (st.bytesOf u)[j]? = (st.read v).bytes[j - v.window.offset.toNat]? := by
  obtain ⟨hle, hlt⟩ := hj
  have hsame : st.bytesOf u = st.bytesOf v := by rw [bytesOf, bytesOf, hu]
  refine Eq.symm ((Window.getElem?_read v.window (st.bytesOf v) _).trans ?_)
  rw [if_pos (Nat.sub_lt_left_of_lt_add hle hlt), Nat.add_sub_cancel' hle, hsame]

theorem managerView_of_held (hk : st.managers[k]? = some (.native r true))
    (hg : st.regions[r]? = some g) : st.managerView k = .ok (regionView g) := by
  simp only [managerView, hk, hg]

/-- A memory that is written shows what it shows when it is read, unless it is empty. -/
theorem view_of_viewMut {sole : Bool} (h : st.viewMut m sole = .ok v) :
    m.isEmpty = true ∧ v = .empty st.element ∨ st.view m = .ok v := by
  unfold viewMut at h
  unfold view
  rcases hb : m.backing with _ | j | k
  · simp only [hb] at h
    exact .inr h
  · simp only [hb] at h
    split at h
    · exact .inl ⟨‹_›, (Except.ok.inj h).symm⟩
    · split at h
      · exact .inr h
      · cases h
  · simp only [hb] at h
    split at h
    · cases h
    · split at h
      · exact .inl ⟨‹_›, (Except.ok.inj h).symm⟩
      · split at h
        · exact .inr h
        · cases h

theorem bytesOf_write {bytes : List UInt8} (hu : u.block = v.block)
    (hb : ∀ {b}, v.block = some b → b < st.blocks.length) (hn : v.block = none → bytes = []) :
    (st.write v bytes).bytesOf u = bytes := by
  rcases hv : v.block with _ | b
  · simp only [bytesOf, hu, hv, hn hv]
  · have hbl := List.getElem?_eq_getElem (hb hv)
    simp only [bytesOf, hu, hv, write, setBytes, contentsOf, List.getElem?_modify, hbl, if_true,
      Option.map_eq_map, Option.map_some]

theorem baseOf_write (st : Store) (u v : View) (bytes : List UInt8) :
    (st.write v bytes).baseOf u = st.baseOf u := by
  rcases hv : v.block with _ | b
  · simp only [write, hv]
  · rcases hu : u.block with _ | j
    · simp only [baseOf, hu, Option.bind_none]
    · simp only [baseOf, hu, write, hv, setBytes, Option.bind_some, List.getElem?_modify]
      rcases st.blocks[j]? with _ | block
      · rfl
      · by_cases hj : b = j
        · simp only [hj, if_true, Option.map_eq_map, Option.map_some]
        · simp only [hj, if_false, Option.map_eq_map, Option.map_some]

end Store

namespace Session

variable {p : Platform} {s s' : Session} {name slot : String} {h x : Handle} {u v : View}
  {roles : List Role} {k : ManagerId} {r : RegionId} {g : Region}

/-! ## What is read -/

theorem viewOf_of_viewMutOf (hv : s.viewMutOf h = .ok v) :
    v.window.len = 0 ∨ s.viewOf h = .ok v := by
  cases h with
  | memory m | owner m =>
    obtain ⟨-, rfl⟩ | hv := Store.view_of_viewMut hv
    · exact .inl rfl
    · exact .inr hv
  | manager k => exact .inr hv
  | shared k =>
    simp only [viewMutOf, Handle.writable?] at hv
    split at hv
    · exact .inr hv
    · cases hv
  | _ => cases hv

/-- What a handle shows depends on the storage of its backing only. -/
theorem viewOf_congr (hs : s'.store.storageOf h.backing = s.store.storageOf h.backing) :
    s'.viewOf h = s.viewOf h := by
  unfold viewOf
  rcases hm : h.memory? with _ | ⟨a, m⟩
  · rcases hk : h.manager? with _ | k
    · rfl
    · rw [Handle.backing_of_manager? hk] at hs
      exact congrArg Failure.lift hs
  · rw [Handle.backing_of_memory? hm] at hs
    exact Store.view_congr hs

theorem viewOf_native (hr : s.estate.Regular) (hx : h ∈ s.estate.handles)
    (hb : h.backing = .manager k) (hk : s.store.managers[k]? = some (.native r true))
    (hg : s.store.regions[r]? = some g) :
    checkRange g.len (h.extent g.len).1 (h.extent g.len).2 = .ok () ∧
      s.viewOf h = .ok ⟨some g.block,
        (Store.regionView g).window.sub (h.extent g.len).1 (h.extent g.len).2⟩ := by
  obtain ⟨roles, hl⟩ := hr.layout
  have hw := Store.managerView_of_held hk hg
  unfold Handle.extent viewOf
  rcases hm : h.memory? with _ | ⟨a, m⟩
  · have hmk : h.manager? = some k := by
      cases h with
      | shared j | manager j => exact congrArg some (Backing.manager.inj hb)
      | memory | readOnly | owner => cases hm
      | array | raw | allocator | importation => cases hb
    have hwhole : (Store.regionView g).window.sub 0 g.len = (Store.regionView g).window :=
      Window.sub_self _
    refine ⟨checkRange_whole _, ?_⟩
    rw [hwhole]
    simp only [hmk]
    exact lift_eq_ok_iff.mpr hw
  · have hmb := (Handle.backing_of_memory? hm).symm.trans hb
    have hh : s.store.Honest m.backing := by
      rintro k' pr hk' hp
      obtain rfl := Backing.manager.inj (hmb.symm.trans hk')
      cases hk.symm.trans hp
    have hst : s.store.storageOf m.backing = .ok (Store.regionView g) := by
      rw [hmb]
      exact hw
    have hb := hr.bounded hx hm
    exact ⟨hl.checkRange_of_bounds hh hb hst, hl.view_of_storageOf hh hb hst⟩

/-- The bytes that such a handle shows are those of the block, at the offsets of the region and of
the handle. -/
theorem bytes_native (hr : s.estate.Regular) (hx : h ∈ s.estate.handles)
    (hb : h.backing = .manager k) (hk : s.store.managers[k]? = some (.native r true))
    (hg : s.store.regions[r]? = some g) :
    ∃ v, s.viewOf h = .ok v ∧ v.block = some g.block ∧ v.window.element = .u8 ∧
      v.window.len = (h.extent g.len).2 ∧
      v.window.offset.toNat = g.offset.toNat + (h.extent g.len).1.toNat ∧
      ∀ i < v.window.len.toNat, ∃ byte, (s.store.read v).bytes[i]? = some byte ∧
        (s.store.contentsOf g.block).bytes[g.offset.toNat + (h.extent g.len).1.toNat + i]? =
          some byte := by
  obtain ⟨roles, hl⟩ := hr.layout
  obtain ⟨hc, hv⟩ := viewOf_native hr hx hb hk hg
  generalize h.extent g.len = part at hc hv ⊢
  obtain ⟨start, length⟩ := part
  have hw := hl.shows_region hg
  have ho := hw.within.toNat_offset_part hw.lt hc
  rw [show (Store.regionView g).window.element.size = 1 from rfl, Nat.mul_one] at ho
  refine ⟨_, hv, rfl, rfl, rfl, ho, fun i hi => ?_⟩
  have hi' : i < ((Store.regionView g).window.sub start length).byteLength :=
    hi.trans_eq (Nat.mul_one _).symm
  have hlt : g.offset.toNat + start.toNat + i < (s.store.contentsOf g.block).bytes.length := by
    have hin : ((Store.regionView g).window.sub start length).Within _ := hw.within.sub hw.lt hc
    obtain hz | hin := hin
    · exact absurd (hi'.trans_eq hz) (Nat.not_lt_zero i)
    · rw [ho] at hin
      exact lt_of_lt_of_le (Nat.add_lt_add_left hi' _) hin
  have hbyte := List.getElem?_eq_getElem hlt
  refine ⟨_, ?_, hbyte⟩
  change (Window.read _ (s.store.contentsOf g.block).bytes)[i]? = _
  rw [Window.getElem?_read, if_pos hi', ho]
  exact hbyte

/-! ## What is written -/

theorem storageOf_write (hr : s.estate.Regular) {y : Handle} (hy : y ∈ s.estate.handles)
    (v : View) (bytes : List UInt8) :
    (s.store.write v bytes).storageOf y.backing = s.store.storageOf y.backing := by
  obtain ⟨roles, hl⟩ := hr.layout
  refine hl.storageOf_eq (s.store.grows_write v bytes) (hl.handle hy) fun {k} _ => ?_
  obtain ⟨blocks, hb⟩ := s.store.write_frame v bytes
  rw [hb]
  rfl

theorem bytesOf_write_window (hr : s.estate.Regular) (hx : x ∈ s.estate.handles)
    (hv : s.viewMutOf x = .ok v) (hu : u.block = v.block) {new : List UInt8}
    (hn : new.length ≤ v.window.byteLength) :
    (s.store.write v (v.window.write new (s.store.bytesOf v))).bytesOf u =
      v.window.write new (s.store.bytesOf v) := by
  obtain ⟨roles, hl⟩ := hr.layout
  have hsh := ((Resolves.spanMut hv).shows hl hx).1
  refine Store.bytesOf_write hu ?_ ?_
  · intro b hvb
    obtain rfl | ⟨w, hw, hp⟩ := (Resolves.spanMut hv).part
    · cases hvb
    · exact hl.lt_of_storageOf (hl.handle hx) hw (hp.block_eq.symm.trans hvb)
  · intro hvb
    have hnil : s.store.bytesOf v = [] := by rw [Store.bytesOf, hvb]
    have hlw := hsh.within.length_write hn
    exact List.length_eq_zero_iff.mp (hlw.trans (congrArg List.length hnil))

section Written

variable (hs : s.slots.get? slot = some x) (hv : s.viewMutOf x = .ok v) (prog : Program)

include hs hv

theorem step_spanMut : (s.step p (.spanMut slot prog)).2 =
    s.withStore (s.store.write v (s.store.runOn v .writable prog).2) :=
  congrArg Prod.snd (spanMut_of_view hs hv prog)

/-- What a program writes depends on the bytes of its view only, and changes no others. -/
theorem bytesOf_spanMut (hr : s.estate.Regular) (u : View) (j : ℕ) :
    ((s.step p (.spanMut slot prog)).2.store.bytesOf u)[j]? =
      if u.block = v.block ∧ j ∈ v.window.positions then
        (s.store.outcome v prog)[j - v.window.offset.toNat]?
      else (s.store.bytesOf u)[j]? := by
  obtain ⟨roles, hl⟩ := hr.layout
  have hx := mem_handles hs
  have hsh := ((Resolves.spanMut hv).shows hl hx).1
  have hlen := hsh.length_outcome prog
  rw [step_spanMut hs hv, hsh.runOn_eq_write prog]
  by_cases hb : u.block = v.block
  · have hbytes : s.store.bytesOf u = s.store.bytesOf v := by
      rw [Store.bytesOf, Store.bytesOf, hb]
    simp only [hb, hbytes, true_and]
    refine Eq.trans ?_ (hsh.within.getElem?_write hlen j)
    exact congrArg (·[j]?) (bytesOf_write_window hr hx hv hb hlen.le)
  · rw [if_neg fun h => hb h.1]
    refine congrArg (·[j]?) (Store.bytesOf_congr fun hj => ?_)
    exact Store.contentsOf_write_of_ne (fun hvj => hb (hj.trans hvj.symm)) _

theorem storageOf_spanMut (hr : s.estate.Regular) {y : Handle} (hy : s.slots.get? name = some y) :
    (s.step p (.spanMut slot prog)).2.store.storageOf y.backing =
      s.store.storageOf y.backing := by
  rw [step_spanMut hs hv]
  exact storageOf_write hr (mem_handles hy) _ _

/-- A write leaves all views as they are, and shows in each of them where it covers what is
written. -/
theorem read_spanMut (hr : s.estate.Regular) (u : View) {i : ℕ} (hi : i < u.window.byteLength) :
    ((s.step p (.spanMut slot prog)).2.store.read u).bytes[i]? =
      if u.block = v.block ∧ u.window.offset.toNat + i ∈ v.window.positions then
        (s.store.outcome v prog)[u.window.offset.toNat + i - v.window.offset.toNat]?
      else (s.store.read u).bytes[i]? := by
  have hread : ∀ st : Store, (st.read u).bytes[i]? =
      (st.bytesOf u)[u.window.offset.toNat + i]? := by
    intro st
    exact (Window.getElem?_read ..).trans (if_pos hi)
  rw [hread, hread]
  exact bytesOf_spanMut hs hv prog hr u _

theorem read_spanMut_self (hr : s.estate.Regular) :
    ((s.step p (.spanMut slot prog)).2.store.read v).bytes = s.store.outcome v prog := by
  obtain ⟨roles, hl⟩ := hr.layout
  have hlen := (((Resolves.spanMut hv).shows hl (mem_handles hs)).1).length_outcome prog
  refine List.ext_getElem? fun i => ?_
  by_cases hi : i < v.window.byteLength
  · have hin : v.window.offset.toNat + i ∈ v.window.positions := by constructor <;> omega
    rw [read_spanMut hs hv prog hr v hi, if_pos ⟨rfl, hin⟩, Nat.add_sub_cancel_left]
  · refine (Window.getElem?_read ..).trans ?_
    rw [if_neg hi, List.getElem?_eq_none (hlen.trans_le (not_lt.mp hi))]

theorem read_spanMut_of_isolated (hd : s.slots.Distinct) (hr : s.estate.Regular) {y : Handle}
    {w : View} (hn : name ≠ slot) (hy : s.slots.get? name = some y)
    (hi : s.store.Isolated y.backing) (hw : s.store.storageOf y.backing = .ok w) :
    (s.step p (.spanMut slot prog)).2.store.read w = s.store.read w := by
  obtain ⟨roles, hl⟩ := hr.layout
  have hwr : s.estate.Writing x (s.step p (.spanMut slot prog)).2.estate := by
    rw [step_spanMut hs hv]
    rw [viewMutOf_eq] at hv
    exact .program (mem_handles hs) hv
  have hyx := Directory.pair_le_entries hd hy hs hn
  exact Store.read_congr fun hj => hl.contentsOf_writing hr.order hyx hi hwr hw hj

end Written

/-! ## What is not written -/

/-- Unless it writes through a handle, an operation changes no byte and moves no region. -/
theorem contentsOf_step (hd : s.slots.Distinct) (op : Op)
    (hw : ∀ name, op.writesThrough name = false) {b : BlockId} (hb : b < s.store.blocks.length) :
    (s.step p op).2.store.contentsOf b = s.store.contentsOf b := by
  obtain ⟨-, e, hdeed, hloss⟩ | ⟨dest, hop, -⟩ | ⟨-, gauge, hg⟩ := s.step_course (p := p) hd op
  · exact Store.contentsOf_of_extension
      (hdeed.blocks_extend.trans (hloss.blocks_eq ▸ List.prefix_rfl)) hb
  · exact absurd (hop.symm.trans (hw dest)) nofun
  · rw [hg]
    rfl

/-! ## New native managers -/

theorem native_of_makeManager (hd : s.slots.Distinct) (name : String) {st : Store}
    (hk : st.managers = s.store.managers ++ [.native r true]) (hg : st.regions[r]? = some g) :
    ∃ k, (s.makeManager name st).2.slots.get? name = some (.manager k) ∧
      (s.makeManager name st).2.store.managers[k]? = some (.native r true) ∧
      (s.makeManager name st).2.store.regions[r]? = some g := by
  have hn : (s.withStore st).newestManager = s.store.managers.length := by
    change st.managers.length - 1 = _
    rw [hk, List.length_append]
    rfl
  have hl := losses_put (s := s.withStore st) hd name (.manager s.store.managers.length)
  have hslots : ((s.withStore st).put name (.manager s.store.managers.length)).slots.get? name =
      some (.manager s.store.managers.length) := get?_put_self ..
  have hs' : (s.makeManager name st).2 =
      (s.withStore st).put name (.manager s.store.managers.length) := by
    rw [← hn]
    rfl
  rw [hs']
  refine ⟨_, hslots, ?_, Store.getElem?_of_extension hl.grows.regions hg⟩
  refine (hl.steady (mem_handles hslots) rfl).trans ?_
  change st.managers[s.store.managers.length]? = _
  rw [hk, List.getElem?_concat_length]

theorem step_nativePart? {op : Op} {source : String} {offset length : UInt64}
    (ho : op.nativePart? = some (name, source, offset, length))
    (ha : (s.step p op).1 = .ok .done) :
    ∃ b g st, s.storagePart source offset length = .ok b ∧ s.step p op = s.makeManager name st ∧
      st.managers = s.store.managers ++ [.native s.store.regions.length true] ∧
      st.regions = s.store.regions ++ [g] ∧ g.block = b ∧ g.offset = offset ∧ g.len = length := by
  cases op with
  | native =>
    cases ho
    simp only [step, makeNative, ofBytes] at ha ⊢
    split at ha
    · rw [if_pos ‹_›]
      split at ha
      · cases ha
      · rename_i b o hb ho
        simp only [hb]
        exact ⟨b, _, _, rfl, rfl, rfl, rfl, rfl, rfl, rfl⟩
      · cases ha
    · cases ha
  | addAlias =>
    cases ho
    simp only [step, makeAlias, ofBytes] at ha ⊢
    split at ha
    · rw [if_pos ‹_›]
      split at ha
      · cases ha
      · rename_i b i hb hi
        simp only [hb]
        split at ha
        · rename_i st hal
          obtain ⟨imp, -, -, rfl⟩ := Store.addAlias_eq_ok hal
          exact ⟨b, _, _, rfl, rfl, rfl, rfl, rfl, rfl, rfl⟩
        · cases ha
      · cases ha
    · cases ha
  | _ => cases ho

/-- An operation that makes a native manager over a part of a storage puts it under its name, with
the offset and the length that were asked for. -/
theorem native_of_nativePart? (hd : s.slots.Distinct) {op : Op} {source : String}
    {offset length : UInt64} (ho : op.nativePart? = some (name, source, offset, length))
    (ha : (s.step p op).1 = .ok .done) :
    ∃ b k r g, s.storages.get? source = some b ∧
      offset.toNat + length.toNat ≤ (s.store.contentsOf b).count.toNat ∧
      (s.step p op).2.slots.get? name = some (.manager k) ∧
      (s.step p op).2.store.managers[k]? = some (.native r true) ∧
      (s.step p op).2.store.regions[r]? = some g ∧
      g.block = b ∧ g.offset = offset ∧ g.len = length := by
  obtain ⟨b, g, st, hb, hs, hk, hr, hg⟩ := step_nativePart? ho ha
  obtain ⟨hsb, hc⟩ := storagePart_eq_ok hb
  have hg' : st.regions[s.store.regions.length]? = some g := by
    rw [hr, List.getElem?_concat_length]
  obtain ⟨k, hn, hm, hreg⟩ := native_of_makeManager hd name hk hg'
  rw [hs]
  exact ⟨b, k, _, g, hsb, checkRange_eq_ok_iff.mp hc, hn, hm, hreg, hg⟩

/-- Native managers may show the same bytes. Each is made with the offset and the length that were
asked for, and keeps them. What is read through it or a memory of it, as long as it is not released,
are the bytes of the storage at its offset, and that of the memory. When a program has written
through one handle, these bytes are as the program has left them, wherever they are shown, all
others are as they were, and arrays and buffers of allocators are not affected. No other operation
changes a byte, be it the release of a manager. -/
theorem aliases_coherent (p : Platform) (e : Element) (ops : List Op) :
    let s := (start e).after p ops
    (∀ op name source offset length, op.nativePart? = some (name, source, offset, length) →
      (s.step p op).1 = .ok .done →
      ∃ b k r g, s.storages.get? source = some b ∧
        offset.toNat + length.toNat ≤ (s.store.contentsOf b).count.toNat ∧
        (s.step p op).2.slots.get? name = some (.manager k) ∧
        (s.step p op).2.store.managers[k]? = some (.native r true) ∧
        (s.step p op).2.store.regions[r]? = some g ∧
        g.block = b ∧ g.offset = offset ∧ g.len = length) ∧
    (∀ op, s.store.regions <+: (s.step p op).2.store.regions) ∧
    (∀ name h k r g, s.slots.get? name = some h → h.backing = .manager k →
      s.store.managers[k]? = some (.native r true) → s.store.regions[r]? = some g →
      ∃ v, s.viewOf h = .ok v ∧ v.block = some g.block ∧ v.window.element = .u8 ∧
        v.window.len = (h.extent g.len).2 ∧
        v.window.offset.toNat = g.offset.toNat + (h.extent g.len).1.toNat ∧
        (∀ i < v.window.len.toNat, ∃ byte, (s.store.read v).bytes[i]? = some byte ∧
          (s.store.contentsOf g.block).bytes[g.offset.toNat + (h.extent g.len).1.toNat + i]? =
            some byte) ∧
        ∀ u, s.viewMutOf h = .ok u → u.window.len = 0 ∨ u = v) ∧
    (∀ slot x v prog, s.slots.get? slot = some x → s.viewMutOf x = .ok v →
      let s' := (s.step p (.spanMut slot prog)).2
      let new := s.store.outcome v prog
      s'.slots = s.slots ∧ new.length = v.window.byteLength ∧
      (∀ b j, (s'.store.contentsOf b).bytes[j]? =
        if v.block = some b ∧ j ∈ v.window.positions then new[j - v.window.offset.toNat]?
        else (s.store.contentsOf b).bytes[j]?) ∧
      (∀ name y, s.slots.get? name = some y → s'.viewOf y = s.viewOf y ∧
        ∀ u, s.viewOf y = .ok u → ∀ i < u.window.byteLength, (s'.store.read u).bytes[i]? =
          if u.block = v.block ∧ u.window.offset.toNat + i ∈ v.window.positions then
            new[u.window.offset.toNat + i - v.window.offset.toNat]?
          else (s.store.read u).bytes[i]?) ∧
      ∀ name y w, name ≠ slot → s.slots.get? name = some y → s.store.Isolated y.backing →
        s.store.storageOf y.backing = .ok w →
        s'.store.storageOf y.backing = .ok w ∧ s'.store.read w = s.store.read w) ∧
    ∀ op, (∀ name, op.writesThrough name = false) → ∀ b < s.store.blocks.length,
      (s.step p op).2.store.contentsOf b = s.store.contentsOf b := by
  intro s
  have hd : s.slots.Distinct := distinct_run p e ops
  have hr : s.estate.Regular := regular_run p e ops
  obtain ⟨roles, hl⟩ := hr.layout
  refine ⟨?_, ?_, ?_, ?_, ?_⟩
  · intro op name source offset length ho ha
    exact native_of_nativePart? hd ho ha
  · intro op
    exact (grows_step hd op).regions
  · intro name h k r g hs hb hk hg
    obtain ⟨v, hv, hblock, hel, hlen, hoff, hbytes⟩ := bytes_native hr (mem_handles hs) hb hk hg
    refine ⟨v, hv, hblock, hel, hlen, hoff, hbytes, fun u hu => ?_⟩
    refine (viewOf_of_viewMutOf hu).imp_right fun hu => ?_
    exact Except.ok.inj (hu.symm.trans hv)
  · intro slot x v prog hs hv s' new
    have hsh := ((Resolves.spanMut hv).shows hl (mem_handles hs)).1
    refine ⟨?_, hsh.length_outcome prog, ?_, ?_, ?_⟩
    · exact congrArg (·.slots) (step_spanMut hs hv prog)
    · intro b j
      exact (bytesOf_spanMut hs hv prog hr ⟨some b, v.window⟩ j).trans
        (if_congr (and_congr_left' eq_comm) rfl rfl)
    · intro name y hy
      refine ⟨viewOf_congr (storageOf_spanMut hs hv prog hr hy), fun u _ i hi => ?_⟩
      exact read_spanMut hs hv prog hr u hi
    · intro name y w hn hy hi hw
      exact ⟨(storageOf_spanMut hs hv prog hr hy).trans hw,
        read_spanMut_of_isolated hs hv prog hd hr hn hy hi hw⟩
  · intro op hw b hb
    exact contentsOf_step hd op hw hb

/-- An imported alias under a read-only memory, of which the first two bytes belong to another
manager too. -/
theorem aliases_coherent_of_overlap :
    let ops : List Op := [.storage "b" (.zeros .u8 8), .recorder "r" false,
      .native "x" "b" "r" 0 6, .importation "i", .addAlias "y" "i" "b" 4 4, .share "t" "y",
      .memory "h" .readOnly (.manager "t" true)]
    let m : Memory := ⟨.manager 2, 0, 4⟩
    let u : View := ⟨some 0, ⟨.u8, 4, 4⟩⟩
    let prog : Program := .derive (.slice 1 5) (.update (.fill ⟨.u8, [7]⟩) .done) .done
    let s := (start .u8).after .bounded ops
    let s' := (s.step .bounded (.spanMut "x" prog)).2
    s.slots.get? "h" = some (.readOnly m) ∧ s'.viewOf (.readOnly m) = .ok u ∧
      (∃ byte, (s.store.read u).bytes[1]? = some byte ∧
        (s.store.contentsOf 0).bytes[5]? = some byte) ∧
      (s'.store.read u).bytes[1]? = some 7 ∧
      (s'.store.read u).bytes[2]? = (s.store.read u).bytes[2]? ∧
      (s.step .bounded (.drop "h")).2.store.contentsOf 0 = s.store.contentsOf 0 := by
  intro ops m u prog s s'
  have hs : s.slots.get? "h" = some (.readOnly m) := by decide +kernel
  have hu : s.viewOf (.readOnly m) = .ok u := by decide +kernel
  have hx : s.slots.get? "x" = some (.manager 1) := by decide +kernel
  have hv : s.viewMutOf (.manager 1) = .ok ⟨some 0, ⟨.u8, 0, 6⟩⟩ := by decide +kernel
  have hk : s.store.managers[2]? = some (.native 1 true) := by decide +kernel
  have hg : s.store.regions[1]? = some ⟨0, 4, 4, .importation 0⟩ := by decide +kernel
  obtain ⟨-, -, hread, hwrite, hkeep⟩ := aliases_coherent .bounded .u8 ops
  obtain ⟨v, hv', -, -, -, -, hbytes, -⟩ := hread "h" (.readOnly m) 2 1 _ hs rfl hk hg
  obtain rfl := Except.ok.inj (hu.symm.trans hv')
  obtain ⟨-, -, -, hviews, -⟩ := hwrite "x" (.manager 1) _ prog hx hv
  obtain ⟨hview, hcovered⟩ := hviews "h" (.readOnly m) hs
  refine ⟨hs, hview.trans hu, hbytes 1 (by decide), ?_, ?_, ?_⟩
  · exact (hcovered u hu 1 (by decide)).trans (by decide +kernel)
  · exact (hcovered u hu 2 (by decide)).trans (if_neg (by decide +kernel))
  · exact hkeep (.drop "h") (fun _ => rfl) 0 (by decide +kernel)

end Session

end LargeBuffers
