import LargeBuffers.Proofs.Confluence
import LargeBuffers.Proofs.View

/-! # Inert managers

A manager that stands for no bytes has nothing to give up, to hand off or to write to, and neither
has one that has let its region go. Whatever is done with handles to such managers concerns the
names that are used and nothing else: all other names keep their handles, and the store is as it
was, unless a manager is told directly of the end of a pin.
-/

namespace LargeBuffers

/-- A manager without storage that it could give up. -/
inductive Manager.Inert : Manager → Prop
  | null : Inert .null
  | spent (r : RegionId) : Inert (.native r false)

def Store.Inert (st : Store) (x : Handle) : Prop :=
  ∃ k m, x.backing = .manager k ∧ st.managers[k]? = some m ∧ m.Inert

/-- The names that an operation on handles takes and gives. Operations that make something of
nothing, or that are about other objects, are left out. -/
def Op.names? : Op → Option (List String)
  | .memory name _ (.manager slot _) => some [name, slot]
  | .narrow name slot | .clone name slot | .slice name slot _ _ | .sliceFrom name slot _ =>
    some [name, slot]
  | .share name slot | .own name slot | .disown name slot => some [name, slot]
  | .tryAcquire name slot | .intoManager name slot => some [name, slot]
  | .sameManager slot slot' | .equal slot slot' => some [slot, slot']
  | .copy slot dest | .tryCopy slot dest | .copyToSpan slot dest => some [slot, dest]
  | .drop slot | .release slot | .dispose slot | .unpin slot | .intoInner slot => some [slot]
  | .values slot | .getArray slot | .span slot _ | .spanMut slot _ | .pin slot _ | .info slot =>
    some [slot]
  | .dropAll slots | .distinct slots => some slots
  | _ => none

namespace Store

variable {st : Store} {x : Handle} {k : ManagerId} {m : Manager} {v : View}

section Entry

variable (hk : st.managers[k]? = some m) (hm : m.Inert)

include hk hm

theorem giveUp_of_inert : st.giveUp k = st := by
  cases hm <;> simp only [giveUp, hk]

theorem dispose_of_inert : st.dispose k = st := by
  cases hm with
  | null => simp only [dispose, hk]
  | spent r => simp only [dispose, hk, giveUp_of_inert hk (.spent r)]

theorem handOff_of_inert : st.handOff k = (none, st) := by
  cases hm <;> simp only [handOff, hk]

theorem block_managerView_of_inert (hv : st.managerView k = .ok v) : v.block = none := by
  cases hm with
  | null =>
    simp only [managerView, hk] at hv
    cases hv
    rfl
  | spent r =>
    simp only [managerView, hk] at hv
    cases hv

theorem pinManager_of_inert (i : UInt64) : (∃ c, st.pinManager k i = (.error c, st)) ∨
    ∃ pin : Pin, pin.manager = none ∧ st.pinManager k i = (.ok pin, st) := by
  cases hm with
  | null =>
    simp only [pinManager, hk]
    split
    · exact .inr ⟨_, rfl, rfl⟩
    · exact .inl ⟨_, rfl⟩
  | spent r =>
    simp only [pinManager, hk, Bool.false_eq_true, if_false]
    repeat' split
    all_goals exact .inl ⟨_, rfl⟩

end Entry

theorem Inert.entry (hx : st.Inert x) (hb : x.backing = .manager k) :
    ∃ m, st.managers[k]? = some m ∧ m.Inert := by
  obtain ⟨j, m, hj, hk, hm⟩ := hx
  obtain rfl := Backing.manager.inj (hb.symm.trans hj)
  exact ⟨m, hk, hm⟩

theorem Inert.block_storageOf (hx : st.Inert x) (hv : st.storageOf x.backing = .ok v) :
    v.block = none := by
  obtain ⟨k, m, hb, hk, hm⟩ := hx
  rw [hb] at hv
  exact block_managerView_of_inert hk hm hv

theorem Inert.block_viewMut (hx : st.Inert x) {mem : Memory} (hw : x.writable? = some mem)
    {sole : Bool} (hv : st.viewMut mem sole = .ok v) : v.block = none := by
  have hb : x.backing = mem.backing := by cases x <;> cases hw <;> rfl
  obtain rfl | ⟨-, w, hw, hs⟩ := viewMut_eq_ok hv
  · rfl
  · have hp : v.PartOf w := .inr ⟨_, _, hs⟩
    exact hp.block_eq.trans (hx.block_storageOf (hb ▸ hw))

theorem write_of_block_eq_none (hv : v.block = none) (bytes : List UInt8) :
    st.write v bytes = st := by
  simp only [write, hv]

end Store

namespace Session

variable {p : Platform} {s s' s'' : Session} {name slot dest : String} {names : List String}
  {x y : Handle}

def Vacant (s : Session) (name : String) : Prop :=
  ∀ x, s.slots.get? name = some x → s.store.Inert x

/-- The store is as it was, and so are all handles but those under the names. These have backings
that they had between them before. -/
structure SameBut (names : List String) (s s' : Session) : Prop where
  store : s'.store = s.store
  slots : ∀ other ∉ names, s'.slots.get? other = s.slots.get? other
  backing : ∀ {other x'}, s'.slots.get? other = some x' → ∃ slot x,
    (slot = other ∨ slot ∈ names) ∧ s.slots.get? slot = some x ∧ x'.backing = x.backing

namespace SameBut

theorem refl (names : List String) (s : Session) : SameBut names s s :=
  ⟨rfl, fun _ _ => rfl, fun hx => ⟨_, _, .inl rfl, hx, rfl⟩⟩

theorem of_eq (h : s' = s) : SameBut names s s' := h ▸ .refl names s

theorem trans (h : SameBut names s s') (h' : SameBut names s' s'') : SameBut names s s'' where
  store := h'.store.trans h.store
  slots other hn := (h'.slots other hn).trans (h.slots other hn)
  backing hx := by
    obtain ⟨slot', x', hs', hx', hb'⟩ := h'.backing hx
    obtain ⟨slot, x, hs, hx, hb⟩ := h.backing hx'
    refine ⟨slot, x, ?_, hx, hb'.trans hb⟩
    obtain rfl | hs := hs
    · exact hs'
    · exact .inr hs

end SameBut

/-! ## Handles that come and go -/

theorem discard_of_inert (hx : s.store.Inert x) : s.discard x = s := by
  obtain ⟨k, m, hb, hk, hm⟩ := hx
  have hret : s.retire k = s := by
    simp only [retire, Store.giveUp_of_inert hk hm]
    split <;> rfl
  cases x with
  | array | raw | allocator | importation => cases hb
  | _ => simp only [discard, hb, hret]

theorem get?_remove_eq_some_iff {other : String} : (s.remove slot).slots.get? other = some x ↔
    other ≠ slot ∧ s.slots.get? other = some x := by
  by_cases ho : other = slot
  · subst ho
    simp [Session.remove]
  · simp [Session.remove, Directory.get?_erase_of_ne ho, ho]

theorem Vacant.remove (h : s.Vacant name) (slot : String) : (s.remove slot).Vacant name :=
  fun x hx => h x (get?_remove_eq_some_iff.mp hx).2

theorem Vacant.store_put (h : s.Vacant name) (x : Handle) : (s.put name x).store = s.store := by
  simp only [put]
  split
  · rename_i old ho
    have hs : ({ s with slots := s.slots.put name x } : Session).store.Inert old := h old ho
    rw [discard_of_inert hs]
  · rfl

theorem Vacant.drop_eq (h : s.Vacant slot) : s.drop slot = s.remove slot := by
  rcases hs : s.slots.get? slot with _ | x
  · rw [drop_of_free hs, Session.remove, Directory.erase_eq_self hs]
  · have hx : (s.remove slot).store.Inert x := h x hs
    simp only [drop, hs, discard_of_inert hx]

theorem sameBut_remove (hs : slot ∈ names) : SameBut names s (s.remove slot) where
  store := rfl
  slots other hn := Directory.get?_erase_of_ne (by rintro rfl; exact hn hs)
  backing hx := ⟨_, _, .inl rfl, (get?_remove_eq_some_iff.mp hx).2, rfl⟩

theorem SameBut.put (h : SameBut names s s') (hn : name ∈ names) (hv : s'.Vacant name)
    (hs : slot ∈ names) (hy : s.slots.get? slot = some y) (hb : x.backing = y.backing) :
    SameBut names s (s'.put name x) where
  store := (hv.store_put x).trans h.store
  slots other ho := (s'.get?_put_of_ne x (by rintro rfl; exact ho hn)).trans (h.slots other ho)
  backing := by
    intro other x' hx'
    by_cases he : other = name
    · subst he
      obtain rfl := Option.some.inj ((get?_put_self ..).symm.trans hx')
      exact ⟨slot, y, .inr hs, hy, hb⟩
    · exact h.backing ((s'.get?_put_of_ne x he).symm.trans hx')

theorem sameBut_drop (hs : slot ∈ names) (hv : s.Vacant slot) : SameBut names s (s.drop slot) :=
  hv.drop_eq ▸ sameBut_remove hs

/-! ## Operations that make handles -/

section Make

variable (hn : name ∈ names) (hs : slot ∈ names) (hv : s.Vacant name)

include hn hs hv

theorem sameBut_make (hy : s.slots.get? slot = some y) (hb : x.backing = y.backing) :
    SameBut names s (s.make name x).2 :=
  (SameBut.refl names s).put hn hv hs hy hb

theorem sameBut_convert (hy : s.slots.get? slot = some y) (hb : x.backing = y.backing) :
    SameBut names s (s.convert name slot x).2 :=
  (sameBut_remove hs).put hn (hv.remove slot) hs hy hb

theorem sameBut_makeMemory (a : Access) (take : Bool) :
    SameBut names s (s.makeMemory name a (.manager slot take)).2 := by
  simp only [makeMemory]
  split
  · have hb : ∀ {k n}, (Handle.ofMemory a ⟨.manager k, 0, n⟩).backing = .manager k := by
      intros
      cases a <;> rfl
    split
    · exact sameBut_convert hn hs hv ‹_› hb
    · exact sameBut_make hn hs hv ‹_› hb
  · exact .refl names s

theorem sameBut_makeNarrow : SameBut names s (s.makeNarrow name slot).2 := by
  simp only [makeNarrow]
  split
  · rename_i hx
    exact sameBut_convert hn hs hv hx rfl
  · exact .refl names s

theorem sameBut_makeClone : SameBut names s (s.makeClone name slot).2 := by
  simp only [makeClone]
  split
  · rename_i x hx
    obtain ⟨y, hy, hc⟩ := Option.bind_eq_some_iff.mp hx
    exact sameBut_make hn hs hv hy (by cases y <;> cases hc <;> rfl)
  · exact .refl names s

theorem sameBut_makeSlice {part : Memory → Except Error Memory}
    (hp : ∀ {m m'}, part m = .ok m' → m'.backing = m.backing) :
    SameBut names s (s.makeSlice name slot part).2 := by
  simp only [makeSlice]
  split
  · rename_i a m hm
    obtain ⟨y, hy, hym⟩ := Option.bind_eq_some_iff.mp hm
    split
    · rename_i m' hm'
      have hb : (Handle.ofMemory a m').backing = m'.backing :=
        Handle.backing_of_memory? (Handle.memory?_ofMemory a m')
      exact sameBut_make hn hs hv hy
        ((hb.trans (hp hm')).trans (Handle.backing_of_memory? hym).symm)
    · exact .refl names s
  · exact .refl names s

theorem sameBut_makeShared : SameBut names s (s.makeShared name slot).2 := by
  simp only [makeShared]
  split
  · rename_i hx
    exact sameBut_convert hn hs hv hx rfl
  · exact .refl names s

theorem sameBut_makeOwner : SameBut names s (s.makeOwner name slot).2 := by
  simp only [makeOwner]
  split
  · rename_i hx
    exact sameBut_convert hn hs hv hx rfl
  · exact .refl names s

theorem sameBut_unmakeOwner : SameBut names s (s.unmakeOwner name slot).2 := by
  simp only [unmakeOwner]
  split
  · rename_i hx
    exact sameBut_convert hn hs hv hx rfl
  · exact .refl names s

end Make

section Use

variable (hv : s.Vacant slot)

include hv

theorem Vacant.tryAcquire (name : String) : (s.tryAcquire name slot).2 = s := by
  simp only [Session.tryAcquire]
  split
  · rename_i k hk
    obtain ⟨m, hm, hi⟩ := (hv _ hk).entry rfl
    simp only [Store.handOff_of_inert hm hi]
    split <;> rfl
  · rfl

theorem Vacant.intoManager (name : String) : (s.intoManager name slot).2 = s := by
  simp only [Session.intoManager]
  split
  · obtain ⟨k, m, ⟨⟩, -, -⟩ := hv _ ‹_›
  · rfl

theorem Vacant.intoInner : (s.intoInner slot).2 = s := by
  simp only [Session.intoInner]
  split
  · rename_i k hk
    obtain ⟨m, hm, hi⟩ := (hv _ hk).entry rfl
    rw [hm]
    cases hi <;> rfl
  · rfl

/-! ## Operations that use handles -/

theorem Vacant.spanMut (prog : Program) : (s.spanMut slot prog).2 = s := by
  simp only [Session.spanMut]
  split
  · rename_i x hx
    split
    · rename_i v hw
      rw [viewMutOf_eq] at hw
      have hb : v.block = none := by
        obtain rfl | ⟨-, w, hw, hp⟩ := Estate.viewMutOf_eq_ok hw
        · rfl
        · exact hp.block_eq.trans ((hv x hx).block_storageOf hw)
      exact congrArg s.withStore (Store.write_of_block_eq_none hb _)
    · rfl
  · rfl

theorem Vacant.copyView {m : Memory} {v v' : View}
    (hm : (s.slots.get? slot).bind Handle.writable? = some m)
    (hw : s.store.viewMut m (s.sole m.backing) = .ok v') (hc : s.copyView v v' = .ok s') :
    s' = s := by
  obtain ⟨x, hx, hxm⟩ := Option.bind_eq_some_iff.mp hm
  obtain ⟨-, rfl⟩ := copyView_eq_ok hc
  exact congrArg s.withStore (Store.write_of_block_eq_none ((hv x hx).block_viewMut hxm hw) _)

theorem Vacant.copyViews {source : String} {v v' : View}
    (hc : s.copyViews source slot = .ok (v, v')) (hs : s.copyView v v' = .ok s') : s' = s := by
  obtain ⟨m, m', he, -, hw⟩ := copyViews_eq_ok hc
  obtain ⟨-, x, hx, hxm⟩ := copyEnds_eq_ok he
  exact hv.copyView (Option.bind_eq_some_iff.mpr ⟨x, hx, hxm⟩) hw hs

theorem Vacant.copy (source : String) : (s.copy source slot).2 = s := by
  simp only [Session.copy]
  split
  · split
    · exact hv.copyViews ‹_› ‹_›
    · rfl
  · rfl

theorem Vacant.tryCopy (source : String) : (s.tryCopy source slot).2 = s := by
  simp only [Session.tryCopy]
  split
  · split
    · exact hv.copyViews ‹_› ‹_›
    · rfl
  · rfl

theorem Vacant.copyToSpan (source : String) : (s.copyToSpan source slot).2 = s := by
  simp only [Session.copyToSpan]
  split
  · split
    · rfl
    · rfl
    · split
      · exact hv.copyView ‹_› ‹_› ‹_›
      · rfl
  · rfl

/-- A pin of an inert manager is not noted, and neither is its end. -/
theorem Vacant.pin (index : Option UInt64) : (s.pin slot index).2 = s := by
  simp only [Session.pin]
  rcases hx : s.slots.get? slot with _ | x
  · rfl
  obtain ⟨k, m, hb, hk, hm⟩ := hv x hx
  obtain ⟨f, hf⟩ | ⟨i, hi⟩ := pinThrough_of_manager (s := s) hb index
  · simp only [hf]
    rfl
  obtain ⟨c, hc⟩ | ⟨pin, hp, hc⟩ := Store.pinManager_of_inert hk hm i
  · simp only [hi, hc]
    rfl
  · simp only [hi, hc, Store.unpin, hp]
    rfl

theorem sameBut_dispose (hs : slot ∈ names) : SameBut names s (s.dispose slot).2 := by
  simp only [dispose]
  split
  · rename_i m hm
    obtain ⟨k, n, hb, hk, hn⟩ := hv _ hm
    have hb : m.backing = .manager k := hb
    have he : s.disposeBacking m = s := by
      simp only [disposeBacking, hb, Store.dispose_of_inert hk hn]
      split <;> rfl
    rw [he]
    exact sameBut_drop hs hv
  · obtain ⟨n, hk, hn⟩ := (hv _ ‹_›).entry rfl
    rw [Store.dispose_of_inert hk hn]
    exact .refl names s
  · obtain ⟨n, hk, hn⟩ := (hv _ ‹_›).entry rfl
    rw [Store.dispose_of_inert hk hn]
    split <;> exact .refl names s
  · exact .refl names s

theorem sameBut_dropSlot (hs : slot ∈ names) : SameBut names s (s.dropSlot slot).2 := by
  simp only [dropSlot]
  split
  · exact sameBut_drop hs hv
  · exact .refl names s

theorem sameBut_release (hs : slot ∈ names) : SameBut names s (s.release slot).2 := by
  simp only [release]
  split
  · exact sameBut_drop hs hv
  · exact .refl names s

end Use

theorem sameBut_drops {slots : List String} (hs : ∀ slot ∈ slots, slot ∈ names)
    (hv : ∀ slot ∈ slots, s.Vacant slot) : SameBut names s (s.drops slots) := by
  induction slots generalizing s with
  | nil => exact .refl names s
  | cons slot slots ih =>
    obtain ⟨hslot, hslots⟩ := List.forall_mem_cons.mp hs
    obtain ⟨hfirst, hrest⟩ := List.forall_mem_cons.mp hv
    refine (sameBut_drop hslot hfirst).trans (ih hslots fun n hn => ?_)
    rw [hfirst.drop_eq]
    exact (hrest n hn).remove slot

/-- Operations on inert handles change nothing but what is under their names. -/
theorem sameBut_step {op : Op} (ho : op.names? = some names) (hu : ∀ slot, op ≠ .unpin slot)
    (hv : ∀ name ∈ names, s.Vacant name) : SameBut names s (s.step p op).2 := by
  have h₁ : ∀ {a l}, op.names? = some (a :: l) → a ∈ names := by
    intro a l ha
    obtain rfl := Option.some.inj (ho.symm.trans ha)
    exact List.mem_cons_self
  have h₂ : ∀ {a b l}, op.names? = some (a :: b :: l) → b ∈ names := by
    intro a b l hb
    obtain rfl := Option.some.inj (ho.symm.trans hb)
    exact List.mem_cons_of_mem a List.mem_cons_self
  cases op with
  | memory name a source =>
    cases source with
    | manager slot take => exact sameBut_makeMemory (h₁ rfl) (h₂ rfl) (hv _ (h₁ rfl)) a take
    | _ => cases ho
  | narrow => exact sameBut_makeNarrow (h₁ rfl) (h₂ rfl) (hv _ (h₁ rfl))
  | clone => exact sameBut_makeClone (h₁ rfl) (h₂ rfl) (hv _ (h₁ rfl))
  | slice =>
    refine sameBut_makeSlice (h₁ rfl) (h₂ rfl) (hv _ (h₁ rfl)) fun hm => ?_
    obtain ⟨-, rfl⟩ := Memory.slice_eq_ok_iff.mp hm
    rfl
  | sliceFrom =>
    refine sameBut_makeSlice (h₁ rfl) (h₂ rfl) (hv _ (h₁ rfl)) fun hm => ?_
    obtain ⟨-, rfl⟩ := Memory.slice_eq_ok_iff.mp (Memory.slice_of_sliceFrom hm)
    rfl
  | share => exact sameBut_makeShared (h₁ rfl) (h₂ rfl) (hv _ (h₁ rfl))
  | own => exact sameBut_makeOwner (h₁ rfl) (h₂ rfl) (hv _ (h₁ rfl))
  | disown => exact sameBut_unmakeOwner (h₁ rfl) (h₂ rfl) (hv _ (h₁ rfl))
  | tryAcquire name slot => exact .of_eq ((hv slot (h₂ rfl)).tryAcquire name)
  | intoManager name slot => exact .of_eq ((hv slot (h₂ rfl)).intoManager name)
  | drop => exact sameBut_dropSlot (hv _ (h₁ rfl)) (h₁ rfl)
  | dropAll =>
    cases ho
    exact snd_dropAll s _ ▸ sameBut_drops (fun _ => id) hv
  | release => exact sameBut_release (hv _ (h₁ rfl)) (h₁ rfl)
  | dispose => exact sameBut_dispose (hv _ (h₁ rfl)) (h₁ rfl)
  | unpin slot => exact absurd rfl (hu slot)
  | intoInner slot => exact .of_eq (hv slot (h₁ rfl)).intoInner
  | spanMut slot prog => exact .of_eq ((hv slot (h₁ rfl)).spanMut prog)
  | pin slot index => exact .of_eq ((hv slot (h₁ rfl)).pin index)
  | copy slot dest => exact .of_eq ((hv dest (h₂ rfl)).copy slot)
  | tryCopy slot dest => exact .of_eq ((hv dest (h₂ rfl)).tryCopy slot)
  | copyToSpan slot dest => exact .of_eq ((hv dest (h₂ rfl)).copyToSpan slot)
  | sameManager | equal | distinct | values | getArray | span | info =>
    exact .of_eq (reply_snd ..)
  | _ => cases ho

end Session

end LargeBuffers
