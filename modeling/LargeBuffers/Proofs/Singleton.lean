import LargeBuffers.Proofs.Allocation
import LargeBuffers.Proofs.Identity
import LargeBuffers.Proofs.Inert
import LargeBuffers.Proofs.Refund

/-! # The null singleton

Buffers of no bytes are all one manager, which exists before anything is made and has a holder
outside of every session. It is inert, so whatever is done with handles to it has no effect on
anything else. Only a native manager of no bytes is a buffer of its own: its padding is taken from
the platform, counted, and given back.
-/

namespace LargeBuffers

namespace Store

variable {st : Store} {k : ManagerId} (hk : st.managers[k]? = some .null)

include hk

theorem unpinManager_of_null : st.unpinManager k = st := by
  simp only [unpinManager, hk]

theorem managerView_of_null : st.managerView k = .ok (.empty st.element) := by
  simp only [managerView, hk]

theorem view_of_null : st.view ⟨.manager k, 0, 0⟩ = .ok (.empty st.element) := by
  have hw : (Window.empty st.element).sub 0 0 = .empty st.element := Window.sub_self _
  have hs : (View.empty st.element).slice 0 0 = .ok (.empty st.element) :=
    View.slice_eq_ok_iff.mpr ⟨checkRange_whole 0, congrArg (View.mk none) hw.symm⟩
  simp only [view, managerView_of_null hk]
  exact congrArg Failure.lift hs

theorem viewMut_of_null (sole : Bool) :
    st.viewMut ⟨.manager k, 0, 0⟩ sole = .ok (.empty st.element) := by
  simp only [viewMut, managerState, hk, Memory.isEmpty]
  rfl

end Store

theorem Estate.discard_cons {e : Estate} {x y : Handle} {k : ManagerId}
    (hk : e.store.managers[k]? = some .null) (hx : x.backing = .manager k) :
    { e with handles := x ::ₘ e.handles }.discard y = e.discard y := by
  have hr : ∀ j, { e with handles := x ::ₘ e.handles }.retire j = e.retire j := by
    intro j
    by_cases hj : j = k
    · subst hj
      have hg : e.store.giveUp j = e.store := Store.giveUp_of_inert hk .null
      simp only [retire, hg]
      split <;> split <;> rfl
    · have hc := holders_cons e x e.handles (.manager j)
      rw [hx, if_neg fun h => hj (Backing.manager.inj h).symm, Nat.add_zero] at hc
      simp only [retire, hc]
  unfold discard
  split
  · rfl
  · rfl
  · split
    · exact hr _
    · rfl

namespace Session

variable {p : Platform} {s s' s'' : Session} {name slot : String} {names : List String}
  {x : Handle}

/-! ## Handles to it -/

/-- What a handle to the null singleton is good for. -/
structure NullHandle (p : Platform) (s : Session) (slot : String) (x : Handle) : Prop where
  shared : s.sole (.manager nullSingleton) = false
  ne_manager : ∀ k, x ≠ .manager k
  memory : ∀ a m, x.memory? = some (a, m) → m = ⟨.manager nullSingleton, 0, 0⟩
  view : s.viewOf x = .ok (.empty s.store.element)
  span : ∀ prog, s.step p (.span slot prog) =
    s.answer (.transcript (s.store.runOn (.empty s.store.element) .readOnly prog).1)
  spanMut : ∀ m, x.writable? = some m → ∀ prog, s.step p (.spanMut slot prog) =
    s.answer (.transcript (s.store.runOn (.empty s.store.element) .writable prog).1)
  disposeOwner : ∀ m, x = .owner m → s.step p (.dispose slot) = (s.remove slot).answer (.flag false)
  disposeManager : x = .shared nullSingleton → s.step p (.dispose slot) = s.refuse .shared
  drop : s.step p (.drop slot) = (s.remove slot).answer .done

theorem not_sole_null (hd : s.slots.Distinct) (hs : s.slots.get? slot = some x)
    (hb : x.backing = .manager nullSingleton) : s.sole (.manager nullSingleton) = false := by
  have hh := holders_remove hd hs
  have hp : 1 ≤ (s.remove slot).holders (.manager nullSingleton) := Nat.le_add_left ..
  rw [hb] at hh
  exact beq_eq_false_iff_ne.mpr (by omega)

theorem memory_of_null {a : Access} {m : Memory} (hr : s.estate.Regular)
    (hs : s.slots.get? slot = some x) (hm : x.memory? = some (a, m))
    (hb : m.backing = .manager nullSingleton) : m = ⟨.manager nullSingleton, 0, 0⟩ := by
  have hlen : s.store.managerLength nullSingleton = 0 := by
    have hk : s.store.managers[nullSingleton]? = some .null := hr.order.tenure.null
    simp only [Store.managerLength, hk]
  have hbd : s.store.Bounds m := hr.bounded (mem_handles hs) hm
  obtain ⟨b, start, len⟩ := m
  obtain rfl : b = .manager nullSingleton := hb
  have hz : start.toNat + len.toNat ≤ (0 : UInt64).toNat := hlen ▸ hbd
  obtain ⟨hstart, hl⟩ := Nat.add_eq_zero_iff.mp (Nat.le_zero.mp hz)
  have hzero : ∀ n : UInt64, n.toNat = 0 → n = 0 := fun n hn => UInt64.toNat_inj.mp hn
  rw [hzero start hstart, hzero len hl]

theorem viewOf_of_null (hr : s.estate.Regular) (hs : s.slots.get? slot = some x)
    (hb : x.backing = .manager nullSingleton) : s.viewOf x = .ok (.empty s.store.element) := by
  have hk : s.store.managers[nullSingleton]? = some .null := hr.order.tenure.null
  rcases hm : x.memory? with _ | ⟨a, m⟩
  · cases x with
    | shared k | manager k =>
      obtain rfl := Backing.manager.inj hb
      exact congrArg Failure.lift (Store.managerView_of_null hk)
    | array | raw | allocator | importation => cases hb
    | memory | readOnly | owner => cases hm
  · obtain rfl := memory_of_null hr hs hm ((Handle.backing_of_memory? hm).symm.trans hb)
    simp only [viewOf, hm]
    exact Store.view_of_null hk

theorem nullHandle (hd : s.slots.Distinct) (hr : s.estate.Regular)
    (hs : s.slots.get? slot = some x) (hb : x.backing = .manager nullSingleton) :
    s.NullHandle p slot x := by
  have hk : s.store.managers[nullSingleton]? = some .null := hr.order.tenure.null
  have hv : s.Vacant slot := by
    intro y hy
    obtain rfl := Option.some.inj (hs.symm.trans hy)
    exact ⟨_, _, hb, hk, .null⟩
  have hsole := not_sole_null hd hs hb
  have hview := viewOf_of_null hr hs hb
  have hmem : ∀ a m, x.memory? = some (a, m) → m = ⟨.manager nullSingleton, 0, 0⟩ :=
    fun a m hm => memory_of_null hr hs hm ((Handle.backing_of_memory? hm).symm.trans hb)
  constructor
  · exact hsole
  · rintro k rfl
    obtain rfl := Backing.manager.inj hb
    exact hr.order.tenure.not_mem_null (mem_handles hs)
  · exact hmem
  · exact hview
  · intro prog
    simp only [step, Session.span, hs, hview]
    rfl
  · intro m hw prog
    obtain rfl := hmem .writable m (Handle.memory?_of_writable? hw)
    have hmut := (viewMutOf_of_writable? hw).trans (Store.viewMut_of_null hk _)
    refine (spanMut_of_view hs hmut prog).trans ?_
    rw [Store.write_of_block_eq_none rfl]
    rfl
  · rintro m rfl
    have hmb : m.backing = .manager nullSingleton := hb
    have hrel : s.releases m = false := by
      simp only [releases, hmb, hsole, Bool.false_and]
    have hkeep : s.disposeBacking m = s := by
      simp only [disposeBacking, hmb, hsole, Bool.false_eq_true, if_false]
    simp only [step, Session.dispose, hs, hrel, hkeep, hv.drop_eq]
  · rintro rfl
    simp only [step, Session.dispose, hs, hsole, Bool.false_eq_true, if_false]
  · simp only [step, dropSlot, hs, hv.drop_eq]

/-! ## Operations on such handles -/

def Hollow (s : Session) (name : String) : Prop :=
  ∀ x, s.slots.get? name = some x → x.backing = .manager nullSingleton

instance (s : Session) (name : String) : Decidable (s.Hollow name) :=
  inferInstanceAs (Decidable (∀ x ∈ s.slots.get? name, x.backing = .manager nullSingleton))

/-- Nothing has happened but to handles to the null singleton. -/
structure Spares (s s' : Session) : Prop where
  store : s'.store = s.store
  hollow : ∀ name, s.Hollow name → s'.Hollow name
  slots : ∀ name, ¬s.Hollow name → s'.slots.get? name = s.slots.get? name

namespace Spares

theorem refl (s : Session) : s.Spares s := ⟨rfl, fun _ => id, fun _ _ => rfl⟩

theorem trans (h : s.Spares s') (h' : s'.Spares s'') : s.Spares s'' where
  store := h'.store.trans h.store
  hollow name hn := h'.hollow name (h.hollow name hn)
  slots name hn := by
    have hs := h.slots name hn
    refine (h'.slots name fun hn' => hn ?_).trans hs
    intro x hx
    exact hn' x (hs.trans hx)

theorem of_sameBut (h : SameBut names s s') (hn : ∀ name ∈ names, s.Hollow name) :
    s.Spares s' where
  store := h.store
  hollow name hname x' hx' := by
    obtain ⟨slot, x, hs, hx, hb⟩ := h.backing hx'
    obtain rfl | hs := hs
    · exact hb.trans (hname x hx)
    · exact hb.trans (hn slot hs x hx)
  slots name hname := h.slots name fun hm => hname (hn name hm)

end Spares

theorem spares_step {op : Op} (hk : s.store.managers[nullSingleton]? = some .null)
    (ho : op.names? = some names) (hn : ∀ name ∈ names, s.Hollow name) :
    s.Spares (s.step p op).2 := by
  by_cases hu : ∃ slot, op = .unpin slot
  · obtain ⟨slot, rfl⟩ := hu
    cases ho
    have he : (s.unpin slot).2 = s := by
      simp only [unpin]
      split
      · rename_i k hx
        obtain ⟨x, hs, hxk⟩ := Option.bind_eq_some_iff.mp hx
        have hb := hn slot List.mem_cons_self x hs
        obtain rfl := Backing.manager.inj ((Handle.backing_of_manager? hxk).symm.trans hb)
        exact congrArg s.withStore (Store.unpinManager_of_null hk)
      · rfl
    change s.Spares (s.unpin slot).2
    rw [he]
    exact .refl s
  · have hs : SameBut names s (s.step p op).2 := by
      refine sameBut_step ho (fun slot he => hu ⟨slot, he⟩) fun name hm x hx => ?_
      exact ⟨_, _, hn name hm x hx, hk, .null⟩
    exact .of_sameBut hs hn

theorem spares_after {ops : List Op} (hk : s.store.managers[nullSingleton]? = some .null)
    (ho : ∀ op ∈ ops, ∃ names, op.names? = some names ∧ ∀ name ∈ names, s.Hollow name) :
    s.Spares (s.after p ops) := by
  induction ops generalizing s with
  | nil => exact .refl s
  | cons op ops ih =>
    obtain ⟨hop, hops⟩ := List.forall_mem_cons.mp ho
    obtain ⟨names, hn, hh⟩ := hop
    have hs : s.Spares (s.step p op).2 := spares_step hk hn hh
    refine hs.trans (ih (hs.store ▸ hk) fun op' hop' => ?_)
    obtain ⟨names', hn', hh'⟩ := hops op' hop'
    exact ⟨names', hn', fun name hm => hs.hollow name (hh' name hm)⟩

/-! ## Buffers of no bytes -/

/-- A handle to the null singleton under a name is worth as much as dropping what was there. -/
theorem store_put_of_null (hk : s.store.managers[nullSingleton]? = some .null)
    (hx : x.backing = .manager nullSingleton) (name : String) :
    (s.put name x).store = (s.drop name).store := by
  rcases hs : s.slots.get? name with _ | y
  · rw [store_put_of_free x hs, drop_of_free hs]
  · have hp : (s.slots.put name x).entries = x ::ₘ (s.remove name).estate.handles :=
      Directory.entries_put ..
    have he : ({ s with slots := s.slots.put name x } : Session).estate =
        { (s.remove name).estate with handles := x ::ₘ (s.remove name).estate.handles } := by
      rw [← hp]
      rfl
    have hd := Estate.discard_cons (e := (s.remove name).estate) (y := y) hk hx
    simp only [put, drop, hs, discard_eq, he, hd]
    rfl

theorem allocate_nothing {a : AllocatorId} {form : BufferForm} (hu : s.store.element = .u8)
    (hk : s.store.managers[nullSingleton]? = some .null)
    (hs : s.slots.get? slot = some (.allocator a)) (hf : form ≠ .native) (name : String) :
    s.allocate p name slot form 0 = (s.put name (form.handle nullSingleton 0)).answer .done := by
  have hl : s.store.managerLength nullSingleton = 0 := by
    simp only [Store.managerLength, hk]
  cases form with
  | native => exact absurd rfl hf
  | shared => simp [allocate, ofBytes, hu, hs, makeBuffer, make, BufferForm.handle]
  | owner => simp [allocate, ofBytes, hu, hs, makeBuffer, make, BufferForm.handle, hl]

/-- A native manager of no bytes: its padding is counted as that of any other buffer, and given
back in the same way. -/
structure Padded (p : Platform) (s t : Session) (name : String) (a : AllocatorId) (al : Allocator)
    (alignment : UInt64) (g : LargeBuffers.Grant) : Prop where
  made : t = (s.withStore (s.store.withBuffer a al alignment 0 g)).put name
    (.manager s.store.managers.length)
  live : t.store.managerState s.store.managers.length = .live
  length : t.store.managerLength s.store.managers.length = 0
  booked : s.slots.get? name = none → t.store.gauge = s.store.gauge + alignment ∧
    t.store.allocators = s.store.allocators.set a
      { al with statistics := al.statistics.recordAllocation alignment } ∧
    t.store.journal = s.store.journal ++ [.allocated a s.store.regions.length alignment]
  refunds : ∀ ops, ∃ al', (t.after p ops).store.allocators[a]? = some al' ∧
    al'.supply = .native alignment ∧ (t.after p ops).Refunds p s.store.regions.length
      ⟨s.store.blocks.length, alignOffset g.base alignment, 0, .allocator a⟩ a al' alignment

section Native

variable {a : AllocatorId} {al : Allocator} {alignment : UInt64} {g : LargeBuffers.Grant}
  (hu : s.store.element = .u8) (hs : s.slots.get? slot = some (.allocator a))
  (ha : s.store.allocators[a]? = some al) (hal : al.supply = .native alignment)

include hu hs ha hal

theorem padded (hd : s.slots.Distinct) (hr : s.estate.Regular) (hle : alignment ≤ maxBytes)
    (hg : p.grant s.store.blocks.length alignment = some g) (name : String) :
    s.Padded p ((s.withStore (s.store.withBuffer a al alignment 0 g)).put name
      (.manager s.store.managers.length)) name a al alignment g := by
  have hle' : (0 : UInt64).toNat + alignment.toNat ≤ maxBytes.toNat := by
    rw [UInt64.toNat_zero, Nat.zero_add]
    exact UInt64.le_iff_toNat_le.mp hle
  have hm : s.estate.Makes p (s.store.withBuffer a al alignment 0 g) :=
    .buffer hu (mem_handles hs)
      (Store.allocate_of_some ha hal hle' ((UInt64.zero_add alignment).symm ▸ hg))
  let region : Region := ⟨s.store.blocks.length, alignOffset g.base alignment, 0, .allocator a⟩
  obtain ⟨hd', -, -, hk, hregs, -, -⟩ := put_buffer (g := region) hd hr hm rfl rfl .native name
  simp only [BufferForm.handle] at hd' hk hregs
  have hreg : (s.store.withBuffer a al alignment 0 g).regions[s.store.regions.length]? =
      some region := List.getElem?_concat_length ..
  have hall : (s.store.withBuffer a al alignment 0 g).allocators[a]? =
      some { al with statistics := al.statistics.recordAllocation (0 + alignment) } :=
    List.getElem?_set_self (List.getElem?_eq_some_iff.mp ha).1
  have hput := (losses_put (s := s.withStore (s.store.withBuffer a al alignment 0 g)) hd name
    (.manager s.store.managers.length)).grows
  constructor
  · rfl
  · simp only [Store.managerState, hk, if_true]
  · simp only [Store.managerLength, hk, hregs, hreg, region]
  · intro hn
    rw [store_put_of_free (s := s.withStore (s.store.withBuffer a al alignment 0 g)) _ hn]
    simp [withStore, Store.withBuffer]
  · intro ops
    have hgr := hput.trans (grows_after (p := p) hd' ops)
    obtain ⟨al', ha', hsup⟩ := hgr.allocators hall
    have hsup' : al'.supply = .native alignment := hsup.trans hal
    have hregion := Store.getElem?_of_extension hgr.regions hreg
    have hsize : region.len + al'.supply.alignment = alignment := by
      rw [hsup']
      exact UInt64.zero_add alignment
    have href := refunds (p := p) (distinct_after hd' ops)
      (Store.Refundable.mk hregion rfl ha' (hsize.symm ▸ hle))
    rw [hsize] at href
    exact ⟨al', ha', hsup', href⟩

/-- Asking for no bytes asks for the alignment. -/
theorem allocate_padding (name : String) :
    (maxBytes < alignment → s.step p (.allocate name slot .native 0) =
      s.refuse (.error (unaddressable 0))) ∧
    (alignment ≤ maxBytes →
      (p.grant s.store.blocks.length alignment = none →
        s.step p (.allocate name slot .native 0) =
          s.refuse (.error (.allocationFailed alignment))) ∧
      ∀ g, p.grant s.store.blocks.length alignment = some g →
        s.step p (.allocate name slot .native 0) =
          ((s.withStore (s.store.withBuffer a al alignment 0 g)).put name
            (.manager s.store.managers.length)).answer .done) := by
  have hz : (0 : UInt64).toNat + alignment.toNat = alignment.toNat := Nat.zero_add _
  have hadd := UInt64.zero_add alignment
  refine ⟨fun hlt => ?_, fun hle => ⟨fun hg => ?_, fun g hg => ?_⟩⟩
  · exact allocate_of_error hu hs ha ⟨alignment, hal⟩ (.inr rfl)
      (Store.allocate_of_lt ha hal (hz.symm ▸ UInt64.lt_iff_toNat_lt.mp hlt))
  · have he := Store.allocate_of_none (p := p) ha hal
      (hz.symm ▸ UInt64.le_iff_toNat_le.mp hle) (hadd.symm ▸ hg)
    rw [hadd] at he
    exact allocate_of_error hu hs ha ⟨alignment, hal⟩ (.inr rfl) he
  · exact allocate_of_ok hu hs ha ⟨alignment, hal⟩ (.inr rfl)
      (Store.allocate_of_some ha hal (hz.symm ▸ UInt64.le_iff_toNat_le.mp hle) (hadd.symm ▸ hg))

end Native

/-- In any session the null singleton is the manager that it was at the start. A buffer of no bytes,
of any allocator, is another handle to it and nothing else: no counter, no reading of the gauge and
no event, all of which a native manager of no bytes has for its padding. Nobody is ever the only
holder of the null singleton, yet all of it can be read and written, there being nothing; it cannot
be disposed of, an owner of it has nothing to release, and its memories are all equal to each other
and to no other memory. Whatever is done with the names of such handles, in any order, all else
stays as it is. -/
theorem null_singleton_indestructible (p : Platform) (e : Element) (ops : List Op) :
    let s := (start e).after p ops
    s.store.managers[nullSingleton]? = some .null ∧
    s.store.managerState nullSingleton = .empty ∧
    (∀ name slot form a, e = .u8 → form ≠ .native → s.slots.get? slot = some (.allocator a) →
      let t := s.step p (.allocate name slot form 0)
      t = (s.put name (form.handle nullSingleton 0)).answer .done ∧
      t.2.slots.get? name = some (form.handle nullSingleton 0) ∧
      t.2.store = (s.drop name).store ∧ (s.slots.get? name = none → t.2.store = s.store)) ∧
    (∀ name slot a al alignment, e = .u8 → s.slots.get? slot = some (.allocator a) →
      s.store.allocators[a]? = some al → al.supply = .native alignment →
      let t := s.step p (.allocate name slot .native 0)
      (maxBytes < alignment → t = s.refuse (.error (unaddressable 0))) ∧
      (alignment ≤ maxBytes →
        (p.grant s.store.blocks.length alignment = none →
          t = s.refuse (.error (.allocationFailed alignment))) ∧
        ∀ g, p.grant s.store.blocks.length alignment = some g →
          t = t.2.answer .done ∧ s.Padded p t.2 name a al alignment g)) ∧
    (∀ slot x, s.slots.get? slot = some x → x.backing = .manager nullSingleton →
      s.NullHandle p slot x) ∧
    (∀ a slot slot' m m', s.slots.get? slot = some (.ofMemory a m) →
      s.slots.get? slot' = some (.ofMemory a m') →
      m.backing = .manager nullSingleton ∨ m'.backing = .manager nullSingleton →
      s.step p (.equal slot slot') =
        s.answer (.equality (m.backing = m'.backing) (m.backing = m'.backing))) ∧
    ∀ ops', (∀ op ∈ ops', ∃ names, op.names? = some names ∧ ∀ name ∈ names, s.Hollow name) →
      s.Spares (s.after p ops') := by
  intro s
  have hd : s.slots.Distinct := distinct_run p e ops
  have hr : s.estate.Regular := regular_run p e ops
  have hk : s.store.managers[nullSingleton]? = some .null := hr.order.tenure.null
  have hel : s.store.element = e := (grows_after Directory.distinct_nil ops).element
  refine ⟨hk, hr.order.tenure.managerState_null, ?_, ?_,
    fun slot x hs hb => nullHandle hd hr hs hb, ?_, fun ops' ho => spares_after hk ho⟩
  · intro name slot form a he hf hs
    have ha : s.step p (.allocate name slot form 0) =
        (s.put name (form.handle nullSingleton 0)).answer .done :=
      allocate_nothing (hel.trans he) hk hs hf name
    intro t
    have ht : t.2 = s.put name (form.handle nullSingleton 0) := congrArg Prod.snd ha
    have hst : t.2.store = (s.drop name).store := by
      rw [ht]
      exact store_put_of_null hk BufferForm.backing_handle name
    refine ⟨ha, ht ▸ get?_put_self .., hst, fun hn => hst.trans ?_⟩
    rw [drop_of_free hn]
  · intro name slot a al alignment he hs ha hal t
    obtain ⟨hlt, hle⟩ := allocate_padding (p := p) (hel.trans he) hs ha hal name
    refine ⟨hlt, fun hmax => ⟨(hle hmax).1, fun g hg => ?_⟩⟩
    have ht : t = _ := (hle hmax).2 g hg
    rw [ht]
    exact ⟨rfl, padded (hel.trans he) hs ha hal hd hr hmax hg name⟩
  · intro a slot slot' m m' hs hs' hb
    have hnull : ∀ {n : String} {m : Memory}, s.slots.get? n = some (.ofMemory a m) →
        m.backing = .manager nullSingleton → m = ⟨.manager nullSingleton, 0, 0⟩ := fun hx hxb =>
      memory_of_null hr hx (Handle.memory?_ofMemory ..) hxb
    have hiff : m = m' ↔ m.backing = m'.backing := by
      refine ⟨congrArg Memory.backing, fun hmm => ?_⟩
      obtain hb | hb := hb
      · rw [hnull hs hb, hnull hs' (hmm ▸ hb)]
      · rw [hnull hs (hmm ▸ hb), hnull hs' hb]
    rw [step_equal hs hs']
    simp only [hiff]

/-- Two buffers of no bytes, and a memory without backing, which is not equal to theirs. All of
their handles can go without a trace. A native manager takes its padding and gives it back. -/
theorem null_singleton_indestructible_of_default :
    let ops : List Op := [.defaultAllocator "d", .allocate "a" "d" .shared 0,
      .allocate "o" "d" .owner 0, .memory "m" .writable (.manager "a" false), .clone "c" "m",
      .memory "e" .writable .nothing]
    let s := (start .u8).after .bounded ops
    let t := s.step .bounded (.allocate "n" "d" .native 0)
    s.step .bounded (.allocate "b" "d" .shared 0) =
        (s.put "b" (.shared nullSingleton)).answer .done ∧
      (s.step .bounded (.dispose "o")).1 = .ok (.flag false) ∧
      s.step .bounded (.equal "m" "c") = s.answer (.equality true true) ∧
      s.step .bounded (.equal "m" "e") = s.answer (.equality false false) ∧
      (s.after .bounded [.narrow "x" "c", .dispose "a", .dispose "o",
        .dropAll ["m", "a", "x"]]).store = s.store ∧
      t.2.store.gauge = 64 ∧ (t.2.step .bounded (.drop "n")).2.store.gauge = 0 := by
  intro ops s t
  obtain ⟨-, -, hnone, hnative, hhandle, hequal, hspares⟩ :=
    null_singleton_indestructible .bounded .u8 ops
  let al : Allocator := { supply := .native 64 }
  have hd : s.slots.get? "d" = some (.allocator 0) := by decide +kernel
  have ho : s.slots.get? "o" = some (.owner ⟨.manager nullSingleton, 0, 0⟩) := by decide +kernel
  have hm : s.slots.get? "m" = some (.memory ⟨.manager nullSingleton, 0, 0⟩) := by decide +kernel
  have hc : s.slots.get? "c" = some (.memory ⟨.manager nullSingleton, 0, 0⟩) := by decide +kernel
  have he : s.slots.get? "e" = some (.memory .empty) := by decide +kernel
  have ha : s.store.allocators[0]? = some al := by decide +kernel
  have hg : Platform.bounded.grant s.store.blocks.length 64 =
      some ⟨65536, List.replicate 64 165⟩ := by decide +kernel
  obtain ⟨ht, hp⟩ := ((hnative "n" "d" 0 al 64 rfl hd ha rfl).2 (by decide)).2 _ hg
  have hgauge : t.2.store.gauge = 64 := by
    rw [(hp.booked (by decide +kernel)).1]
    decide +kernel
  obtain ⟨al', -, -, hr⟩ := hp.refunds []
  refine ⟨(hnone "b" "d" .shared 0 rfl (by decide) hd).1, ?_,
    hequal .writable "m" "c" _ _ hm hc (.inl rfl), hequal .writable "m" "e" _ _ hm he (.inl rfl),
    (hspares _ ?_).store, hgauge, ?_⟩
  · rw [(hhandle "o" _ ho rfl).disposeOwner _ rfl]
    rfl
  · exact List.forall_mem_cons.mpr ⟨⟨_, rfl, by decide +kernel⟩,
      List.forall_mem_cons.mpr ⟨⟨_, rfl, by decide +kernel⟩,
        List.forall_mem_cons.mpr ⟨⟨_, rfl, by decide +kernel⟩,
          List.forall_mem_singleton.mpr ⟨_, rfl, by decide +kernel⟩⟩⟩⟩
  · have hn := hr.drop "n" (.manager 1) 1 (by decide +kernel) rfl (by decide +kernel)
      (by decide +kernel)
    change (t.2.step .bounded (.drop "n")).2.store = _ at hn
    rw [hn]
    change monus t.2.store.gauge 64 = 0
    rw [hgauge]
    rfl

end Session

end LargeBuffers
