import LargeBuffers.Proofs.Course.Step
import LargeBuffers.Proofs.Release

/-! # What never changes

Registers only grow, and what they hold keeps its identity: a region stays as it was created, a
block keeps its place and its number of values, and a manager can only turn from live to
released. The journal is only written at its end.
-/

namespace LargeBuffers

inductive Manager.Becomes : Manager → Manager → Prop
  | refl (m : Manager) : Becomes m m
  | array (b : BlockId) (live : Bool) : Becomes (.array b live) (.array b false)
  | native (r : RegionId) (held : Bool) : Becomes (.native r held) (.native r false)
  | probe (p : Probe) : Becomes (.probe p) (.probe { p with state := .released })

theorem Manager.Becomes.trans {m₁ m₂ m₃ : Manager} (h : m₁.Becomes m₂) (h' : m₂.Becomes m₃) :
    m₁.Becomes m₃ := by
  cases h with
  | refl => exact h'
  | array b live => cases h' <;> exact .array b live
  | native r held => cases h' <;> exact .native r held
  | probe p => cases h' <;> exact .probe p

namespace Store

structure Grows (st st' : Store) : Prop where
  element : st'.element = st.element
  blocks : ∀ {b : BlockId} {block : Block}, st.blocks[b]? = some block →
    ∃ block' : Block, st'.blocks[b]? = some block' ∧
    block'.base = block.base ∧ block'.contents.element = block.contents.element ∧
    block'.contents.count = block.contents.count
  regions : st.regions <+: st'.regions
  managers : ∀ {k : ManagerId} {m : Manager}, st.managers[k]? = some m →
    ∃ m', st'.managers[k]? = some m' ∧ m.Becomes m'
  importations : st.importations.length ≤ st'.importations.length
  allocators : ∀ {a : AllocatorId} {al : Allocator}, st.allocators[a]? = some al →
    ∃ al' : Allocator, st'.allocators[a]? = some al' ∧ al'.supply = al.supply
  recorders : st.recorders <+: st'.recorders
  journal : st.journal <+: st'.journal

variable {st st₁ st₂ : Store}

theorem getElem?_of_extension {α : Type} {l l' : List α} (h : l <+: l') {i : ℕ} {a : α}
    (ha : l[i]? = some a) : l'[i]? = some a := by
  obtain ⟨t, rfl⟩ := h
  rw [List.getElem?_append_left (List.getElem?_eq_some_iff.mp ha).1, ha]

theorem getElem?_concat {α : Type} {l : List α} {i : ℕ} {a b : α} (h : (l ++ [a])[i]? = some b) :
    l[i]? = some b ∨ i = l.length ∧ a = b := by
  rcases Nat.lt_trichotomy i l.length with hi | rfl | hi
  · rw [List.getElem?_append_left hi] at h
    exact .inl h
  · rw [List.getElem?_concat_length] at h
    exact .inr ⟨rfl, Option.some.inj h⟩
  · rw [List.getElem?_eq_none (by simpa using Nat.succ_le_of_lt hi)] at h
    cases h

theorem Grows.refl (st : Store) : st.Grows st where
  element := rfl
  blocks h := ⟨_, h, rfl, rfl, rfl⟩
  regions := List.prefix_rfl
  managers h := ⟨_, h, .refl _⟩
  importations := le_rfl
  allocators h := ⟨_, h, rfl⟩
  recorders := List.prefix_rfl
  journal := List.prefix_rfl

theorem Grows.trans (h : st.Grows st₁) (h' : st₁.Grows st₂) : st.Grows st₂ where
  element := h'.element.trans h.element
  blocks hb := by
    obtain ⟨_, hb, h₁, h₂, h₃⟩ := h.blocks hb
    obtain ⟨_, hb, h₁', h₂', h₃'⟩ := h'.blocks hb
    exact ⟨_, hb, h₁'.trans h₁, h₂'.trans h₂, h₃'.trans h₃⟩
  regions := h.regions.trans h'.regions
  managers hm := by
    obtain ⟨_, hm, hb⟩ := h.managers hm
    obtain ⟨_, hm, hb'⟩ := h'.managers hm
    exact ⟨_, hm, hb.trans hb'⟩
  importations := h.importations.trans h'.importations
  allocators ha := by
    obtain ⟨_, ha, hs⟩ := h.allocators ha
    obtain ⟨_, ha, hs'⟩ := h'.allocators ha
    exact ⟨_, ha, hs'.trans hs⟩
  recorders := h.recorders.trans h'.recorders
  journal := h.journal.trans h'.journal

theorem Grows.held {k : ManagerId} {r : RegionId} (h : st.Grows st₁)
    (hk : st₁.managers[k]? = some (.native r true)) (hl : k < st.managers.length) :
    st.managers[k]? = some (.native r true) := by
  obtain ⟨m, hm, hb⟩ := h.managers (List.getElem?_eq_getElem hl)
  obtain rfl := Option.some.inj (hk.symm.trans hm)
  rw [List.getElem?_eq_getElem hl]
  generalize st.managers[k] = m at hb
  cases hb
  rfl

theorem Grows.count_contentsOf {b : BlockId} {block : Block} (h : st.Grows st₁)
    (hb : st.blocks[b]? = some block) : (st₁.contentsOf b).count = (st.contentsOf b).count := by
  obtain ⟨block', hb', -, -, hc⟩ := h.blocks hb
  simp only [contentsOf, hb, hb', hc]

theorem Grows.blockView_eq {b : BlockId} {block : Block} (h : st.Grows st₁)
    (hb : st.blocks[b]? = some block) : st₁.blockView b = st.blockView b := by
  obtain ⟨block', hb', -, he, hc⟩ := h.blocks hb
  simp only [blockView, contentsOf, hb, hb', Window.whole, he, hc]

/-! ## Changes of single entries -/

theorem grows_setManager {k : ManagerId} {m m' : Manager} (hk : st.managers[k]? = some m)
    (hb : m.Becomes m') : st.Grows (st.setManager k m') :=
  { Grows.refl st with
    managers := by
      intro j n hj
      by_cases hjk : k = j
      · subst hjk
        obtain rfl : m = n := Option.some.inj (hk.symm.trans hj)
        obtain ⟨hl, -⟩ := List.getElem?_eq_some_iff.mp hk
        exact ⟨m', by simp [hl], hb⟩
      · exact ⟨n, by simpa [hjk] using hj, .refl n⟩ }

theorem grows_setAllocator {a : AllocatorId} {al al' : Allocator}
    (ha : st.allocators[a]? = some al) (hs : al'.supply = al.supply) :
    st.Grows (st.setAllocator a al') :=
  { Grows.refl st with
    allocators := by
      intro j n hj
      by_cases hja : a = j
      · subst hja
        obtain rfl : al = n := Option.some.inj (ha.symm.trans hj)
        obtain ⟨hl, -⟩ := List.getElem?_eq_some_iff.mp ha
        exact ⟨al', by simp [hl], hs⟩
      · exact ⟨n, by simpa [hja] using hj, rfl⟩ }

theorem grows_setImportation (st : Store) (i : ImportationId) (imp : Importation) :
    st.Grows (st.setImportation i imp) :=
  { Grows.refl st with importations := by simp }

theorem grows_note (st : Store) (x : Event) : st.Grows (st.note x) :=
  { Grows.refl st with journal := List.prefix_append .. }

theorem grows_gauge (st : Store) (gauge : UInt64) : st.Grows { st with gauge } :=
  { Grows.refl st with }

theorem grows_write (st : Store) (v : View) (bytes : List UInt8) : st.Grows (st.write v bytes) := by
  unfold write
  split
  · rename_i b hb
    exact { Grows.refl st with
      blocks := by
        intro j block hj
        rw [setBytes]
        simp only [List.getElem?_modify, hj, Option.map_eq_map, Option.map_some]
        refine ⟨_, rfl, ?_⟩
        split <;> exact ⟨rfl, rfl, rfl⟩ }
  · exact .refl st

/-! ## Operations of the store -/

theorem grows_dropReference (st : Store) (i : ImportationId) : st.Grows (st.dropReference i) := by
  unfold dropReference
  split
  · exact .refl st
  · dsimp only
    split
    · exact ((grows_setImportation ..).trans (grows_gauge ..)).trans (grows_note ..)
    · exact grows_setImportation ..

theorem grows_free (st : Store) (a : AllocatorId) (len : UInt64) : st.Grows (st.free a len) := by
  simp only [free]
  split
  · exact .refl st
  · rename_i al ha
    split
    · refine ((grows_setAllocator ha ?_).trans (grows_gauge ..)).trans (grows_note ..)
      rfl
    · exact grows_note ..

theorem grows_release (st : Store) (r : RegionId) (g : Region) : st.Grows (st.release r g) := by
  unfold release
  have h := grows_note st (.released r g)
  split
  · exact h
  · exact h.trans (grows_free ..)
  · exact h.trans (grows_dropReference ..)

theorem grows_giveUp (st : Store) (k : ManagerId) : st.Grows (st.giveUp k) := by
  obtain ⟨r, g, hk, -, he⟩ | ⟨he, -⟩ := st.giveUp_cases k
  · rw [he]
    exact ((grows_setManager hk (.native r true)).trans (grows_note ..)).trans (grows_release ..)
  · rw [he]
    exact .refl st

theorem grows_dispose (st : Store) (k : ManagerId) : st.Grows (st.dispose k) := by
  unfold dispose
  split
  · rename_i b live hk
    exact grows_setManager hk (.array b live)
  · exact grows_giveUp st k
  · rename_i pr hk
    have hb : (Manager.probe pr).Becomes
        (.probe (if pr.state = .live then { pr with state := .released } else pr)) := by
      split
      · exact .probe pr
      · exact .refl _
    exact (grows_setManager hk hb).trans (grows_note ..)
  · exact .refl st

theorem grows_dropRaw (st : Store) (r : RegionId) : st.Grows (st.dropRaw r) := by
  unfold dropRaw
  split
  · exact (grows_note ..).trans (grows_release ..)
  · exact .refl st

theorem grows_handOff {k : ManagerId} {r : RegionId} (h : st.handOff k = (some r, st₁)) :
    st.Grows st₁ := by
  obtain ⟨g, hk, -, -, rfl⟩ := handOff_eq_some h
  exact (grows_setManager hk (.native r true)).trans (grows_note ..)

theorem grows_countAllocation (st : Store) (a : AllocatorId) (bytes : UInt64) :
    st.Grows (st.countAllocation a bytes) := by
  unfold countAllocation
  split
  · rename_i al ha
    exact grows_setAllocator ha rfl
  · exact .refl st

theorem grows_addManager (st : Store) (m : Manager) : st.Grows (st.addManager m) :=
  { Grows.refl st with
    managers := fun h => ⟨_, getElem?_of_extension (List.prefix_append ..) h, .refl _⟩ }

theorem grows_addBlock (st : Store) (block : Block) : st.Grows (st.addBlock block) :=
  { Grows.refl st with
    blocks := fun h => ⟨_, getElem?_of_extension (List.prefix_append ..) h, rfl, rfl, rfl⟩ }

theorem grows_addNative (st : Store) (g : Region) : st.Grows (st.addNative g) :=
  { st.grows_addManager (.native st.regions.length true) with
    regions := List.prefix_append .. }

end Store

namespace Estate

variable {p : Platform} {e e' : Estate}

theorem grows_discard (e : Estate) (h : Handle) : e.store.Grows (e.discard h) := by
  have hr : ∀ k, e.store.Grows (e.retire k) := by
    intro k
    unfold retire
    split
    · exact Store.grows_giveUp ..
    · exact .refl _
  unfold discard
  split
  · exact Store.grows_dropRaw ..
  · exact Store.grows_dropReference ..
  · split
    · exact hr _
    · exact .refl _

theorem Loss.grows (h : e.Loss e') : e.store.Grows e'.store := by
  cases h with
  | @mk h hs => exact grows_discard { e with handles := hs } h

theorem Losses.grows (h : Losses e e') : e.store.Grows e'.store := by
  induction h with
  | refl => exact .refl _
  | tail _ h ih => exact ih.trans h.grows

theorem Makes.grows {st : Store} (h : e.Makes p st) : e.store.Grows st := by
  cases h with
  | null => exact Store.grows_addManager ..
  | array | probe => exact (Store.grows_addBlock ..).trans (Store.grows_addManager ..)
  | native => exact Store.grows_addNative ..
  | imported _ _ _ _ h =>
    obtain ⟨imp, -, -, rfl⟩ := Store.addAlias_eq_ok h
    exact ((Store.grows_setImportation ..).trans (Store.grows_gauge ..)).trans
      (Store.grows_addNative ..)
  | buffer _ _ h =>
    obtain ⟨al, -, ⟨alignment, -, h⟩ | ⟨limit, pad, -, -, rfl⟩⟩ := Store.allocate_eq_ok h
    · obtain ⟨size, g, -, -, rfl⟩ := Store.allocateNative_eq_ok h
      exact ((((Store.grows_addBlock ..).trans (Store.grows_addNative ..)).trans
        (Store.grows_gauge ..)).trans (Store.grows_note ..)).trans (Store.grows_countAllocation ..)
    · exact ((Store.grows_addBlock ..).trans (Store.grows_addManager ..)).trans
        (Store.grows_countAllocation ..)

theorem Deed.grows (h : e.Deed p e') : e.store.Grows e'.store := by
  cases h with
  | nothing | derive | convert | standing => exact .refl _
  | array | storage => exact Store.grows_addBlock ..
  | recorder => exact { Store.Grows.refl e.store with recorders := List.prefix_append .. }
  | importation => exact { Store.Grows.refl e.store with importations := by simp }
  | allocator =>
    exact { Store.Grows.refl e.store with
      allocators := fun h => ⟨_, Store.getElem?_of_extension (List.prefix_append ..) h, rfl⟩ }
  | manager hm => exact hm.grows
  | handOff _ ho => exact Store.grows_handOff ho
  | rewrap => exact Store.grows_addManager ..
  | dispose | disposeOwner => exact Store.grows_dispose ..
  | calls => exact { Store.Grows.refl e.store with journal := List.prefix_append .. }

theorem Writing.frame {h : Handle} (hw : e.Writing h e') :
    ∃ blocks, e' = { e with store := { e.store with blocks } } := by
  have hf : ∀ v bytes, ∃ blocks, { e with store := e.store.write v bytes } =
      { e with store := { e.store with blocks } } := by
    intro v bytes
    obtain ⟨blocks, hb⟩ := e.store.write_frame v bytes
    exact ⟨blocks, by rw [hb]⟩
  cases hw <;> exact hf ..

theorem Writing.grows {h : Handle} (hw : e.Writing h e') : e.store.Grows e'.store := by
  cases hw <;> exact Store.grows_write ..

theorem length_managers_discard (e : Estate) (h : Handle) :
    (e.discard h).managers.length = e.store.managers.length := by
  have hr : ∀ k, (e.retire k).managers.length = e.store.managers.length := by
    intro k
    unfold retire
    split
    · simp
    · rfl
  unfold discard
  split
  · simp
  · simp
  · split
    · exact hr _
    · rfl

end Estate

namespace Session

variable {p : Platform} {s : Session}

theorem grows_step (hd : s.slots.Distinct) (op : Op) : s.store.Grows (s.step p op).2.store := by
  obtain ⟨-, m, hm, hl⟩ | ⟨dest, -, -, x, -, hw⟩ | ⟨-, gauge, hg⟩ := s.step_course hd op
  · exact hm.grows.trans hl.grows
  · exact hw.grows
  · rw [hg]
    exact Store.grows_gauge ..

theorem grows_after (hd : s.slots.Distinct) (ops : List Op) :
    s.store.Grows (s.after p ops).store := by
  induction ops using List.reverseRecOn with
  | nil => exact .refl _
  | append_singleton ops op ih =>
    rw [after_concat]
    exact ih.trans (grows_step (distinct_after hd ops) op)

end Session

end LargeBuffers
