import LargeBuffers.Proofs.Exclusive
import LargeBuffers.Proofs.Inert
import LargeBuffers.Proofs.Quiet
import LargeBuffers.Proofs.Slicing

/-! # Where memories start

A memory of all storage of a manager starts at its front, and each slice moves the start on. So a
memory starts at the sum of the starts of all slices that led to it, whatever the names and the
kinds of the handles on the way.
-/

namespace LargeBuffers

/-- The memory that an operation makes, by its name, and the slices that lead to it from the front
of its backing if `t` tells those that lead to what there is. -/
def Op.cut? (t : String → List Cut) : Op → Option (String × List Cut)
  | .memory name _ (.range _ start length) => some (name, [.slice start length])
  | .memory name .. | .allocate name .. => some (name, [])
  | .slice name slot start length => some (name, t slot ++ [.slice start length])
  | .sliceFrom name slot start => some (name, t slot ++ [.tail start])
  | .narrow name slot | .clone name slot | .own name slot | .disown name slot =>
    some (name, t slot)
  | _ => none

namespace Session

variable {p : Platform} {s s' : Session} {name slot : String} {x y : Handle}
  {t : String → List Cut}

/-! ## Operations that make no memory -/

/-- All memories were under the same names before. -/
def Inherits (s s' : Session) : Prop :=
  ∀ name x am, s'.slots.get? name = some x → x.memory? = some am → s.slots.get? name = some x

theorem inherits_of_slots_eq (h : s'.slots = s.slots) : s.Inherits s' :=
  fun _ _ _ hx _ => h ▸ hx

theorem inherits_put (h : s.Inherits s') (name : String) (hx : x.memory? = none) :
    s.Inherits (s'.put name x) := by
  intro other y am hy hm
  by_cases ho : other = name
  · subst ho
    obtain rfl := Option.some.inj ((get?_put_self ..).symm.trans hy)
    cases hx.symm.trans hm
  · exact h other y am ((s'.get?_put_of_ne x ho).symm.trans hy) hm

theorem inherits_remove (s : Session) (slot : String) : s.Inherits (s.remove slot) :=
  fun _ _ _ hx _ => (get?_remove_eq_some_iff.mp hx).2

theorem inherits_convert (s : Session) (name slot : String) (hx : x.memory? = none) :
    s.Inherits (s.convert name slot x).2 :=
  inherits_put (s.inherits_remove slot) name hx

theorem inherits_drop (h : s'.slots = s.slots) (slot : String) : s.Inherits (s'.drop slot) := by
  intro other y am hy hm
  rw [slots_drop, h] at hy
  exact s.inherits_remove slot other y am hy hm

theorem inherits_drops (s : Session) (slots : List String) : s.Inherits (s.drops slots) := by
  intro other y am hy hm
  rw [get?_drops] at hy
  split at hy
  · cases hy
  · exact hy

theorem inherits_ofBytes {r : Result} (h : s.Inherits r.2) : s.Inherits (s.ofBytes r).2 := by
  unfold ofBytes
  split
  · exact h
  · exact inherits_of_slots_eq rfl

theorem inherits_makeManager {st : Store} (h : s.Inherits s') (name : String) :
    s.Inherits (s'.makeManager name st).2 := by
  have h : s.Inherits (s'.withStore st) := h
  exact inherits_put h name rfl

theorem slots_copyView {v v' : View} (h : s.copyView v v' = .ok s') : s'.slots = s.slots := by
  obtain ⟨-, rfl⟩ := copyView_eq_ok h
  rfl

theorem slots_disposeBacking (s : Session) (m : Memory) : (s.disposeBacking m).slots = s.slots := by
  unfold disposeBacking
  repeat' split
  all_goals rfl

theorem inherits_step {op : Op} (ho : op.cut? t = none) : s.Inherits (s.step p op).2 := by
  have hself : s.Inherits s := inherits_of_slots_eq rfl
  cases op with
  | memory name a source => cases source <;> cases ho
  | allocate | slice | sliceFrom | narrow | clone | own | disown => cases ho
  | array name c =>
    simp only [step, makeArray]
    split
    · exact inherits_put (inherits_of_slots_eq rfl) name rfl
    · exact hself
  | arrayManager name c =>
    simp only [step, makeArrayManager]
    split
    · exact inherits_makeManager hself name
    · exact hself
  | nullManager name => exact inherits_makeManager hself name
  | nullSingleton name => exact inherits_ofBytes (inherits_put hself name rfl)
  | native name storage recorder offset length =>
    refine inherits_ofBytes ?_
    split
    · exact hself
    · exact inherits_makeManager hself name
    · exact hself
  | share name slot =>
    simp only [step, makeShared]
    split
    · exact s.inherits_convert name slot rfl
    · exact hself
  | tryAcquire name slot =>
    obtain ⟨k, r, g, he⟩ | he | ⟨f, he⟩ := s.tryAcquire_cases name slot
    · rw [step, he]
      exact inherits_put (inherits_of_slots_eq rfl) name rfl
    · rw [step, he]
      exact hself
    · rw [step, he]
      exact hself
  | intoManager name slot =>
    simp only [step, intoManager]
    split
    · exact inherits_makeManager (s.inherits_remove slot) name
    · exact hself
  | importation name => exact inherits_ofBytes (inherits_put (inherits_of_slots_eq rfl) name rfl)
  | addAlias name slot storage offset length =>
    refine inherits_ofBytes ?_
    split
    · exact hself
    · split
      · exact inherits_makeManager hself name
      · exact inherits_of_slots_eq rfl
    · exact hself
  | allocator name alignment =>
    refine inherits_ofBytes ?_
    split
    · exact inherits_put (inherits_of_slots_eq rfl) name rfl
    · exact hself
  | defaultAllocator name => exact inherits_ofBytes (inherits_put hself name rfl)
  | meteredAllocator name limit pad =>
    exact inherits_ofBytes (inherits_put (inherits_of_slots_eq rfl) name rfl)
  | probe name c claim state exposesArray =>
    simp only [step, makeProbe]
    split
    · exact inherits_makeManager (inherits_of_slots_eq rfl) name
    · exact hself
  | drop slot =>
    simp only [step, dropSlot]
    split
    · exact inherits_drop rfl slot
    · exact hself
  | dropAll slots =>
    rw [step, snd_dropAll]
    exact s.inherits_drops slots
  | release slot =>
    simp only [step, release]
    split
    · exact inherits_drop rfl slot
    · exact hself
  | dispose slot =>
    simp only [step, dispose]
    split
    · exact inherits_drop (s.slots_disposeBacking _) slot
    · exact inherits_of_slots_eq rfl
    · split
      · exact inherits_of_slots_eq rfl
      · exact hself
    · exact hself
  | intoInner slot =>
    simp only [step, intoInner]
    repeat' split
    · exact s.inherits_remove slot
    · exact hself
    · exact hself
  | spanMut slot prog =>
    simp only [step, spanMut]
    repeat' split
    all_goals exact inherits_of_slots_eq rfl
  | copy slot dest =>
    simp only [step, copy]
    repeat' split
    · exact inherits_of_slots_eq (slots_copyView ‹_›)
    · exact hself
    · exact hself
  | tryCopy slot dest =>
    simp only [step, tryCopy]
    repeat' split
    · exact inherits_of_slots_eq (slots_copyView ‹_›)
    · exact hself
    · exact hself
  | copyToSpan slot dest =>
    simp only [step, copyToSpan]
    repeat' split
    · exact hself
    · exact hself
    · exact inherits_of_slots_eq (slots_copyView ‹_›)
    · exact hself
    · exact hself
  | storage name c =>
    simp only [step, makeStorage]
    split <;> exact inherits_of_slots_eq rfl
  | calls probe =>
    simp only [step, calls]
    split <;> exact inherits_of_slots_eq rfl
  | pin slot index =>
    simp only [step, pin]
    repeat' split
    all_goals exact inherits_of_slots_eq rfl
  | unpin slot =>
    simp only [step, unpin]
    split <;> exact inherits_of_slots_eq rfl
  | recorder | raiseGauge | lowerGauge | unreadable => exact inherits_of_slots_eq rfl
  | storageBytes | sameManager | equal | distinct | values | getArray | span | info =>
    exact inherits_of_slots_eq (congrArg slots (reply_snd ..))

/-! ## Operations that make one -/

/-- Each memory starts at the sum of the starts of the slices that led to it. -/
def Traced (s : Session) (t : String → List Cut) : Prop :=
  ∀ name x a m, s.slots.get? name = some x → x.memory? = some (a, m) →
    Cut.offset (t name) = m.start.toNat

def StartsAt (cs : List Cut) (x : Handle) : Prop :=
  ∀ a m, x.memory? = some (a, m) → Cut.offset cs = m.start.toNat

/-- A handle has been put under a name, or nothing has happened. No other memory is new. -/
inductive Places (s : Session) (name : String) (cs : List Cut) : Result → Prop
  | refused (f : Failure) : s.Places name cs (s.refuse f)
  | placed {s₁ : Session} {x : Handle} (a : Answer) (h : s.Inherits s₁) (hx : StartsAt cs x) :
    s.Places name cs ((s₁.put name x).answer a)

variable {r : Result} {cs : List Cut} {a : Access} {m : Memory}

theorem Traced.inherit (ht : s.Traced t) (h : s.Inherits s') : s'.Traced t :=
  fun name x a m hx hm => ht name x a m (h name x (a, m) hx hm) hm

theorem Traced.place (ht : s.Traced t) (h : s.Places name cs r) :
    r.2.Traced (if r.1.isOk then Function.update t name cs else t) := by
  cases h with
  | refused => exact ht
  | @placed s₁ x _ hs hx =>
    intro other y a m hy hm
    by_cases ho : other = name
    · subst ho
      obtain rfl := Option.some.inj ((get?_put_self ..).symm.trans hy)
      change Cut.offset (Function.update t other cs other) = _
      rw [Function.update_self]
      exact hx a m hm
    · change Cut.offset (Function.update t name cs other) = _
      rw [Function.update_of_ne ho]
      exact ht.inherit hs other y a m ((s₁.get?_put_of_ne x ho).symm.trans hy) hm

theorem startsAt_of_memory (hm : x.memory? = some (a, m)) (h : Cut.offset cs = m.start.toNat) :
    StartsAt cs x := by
  intro a' m' hm'
  obtain ⟨rfl, rfl⟩ := Prod.mk.inj (Option.some.inj (hm.symm.trans hm'))
  exact h

theorem Traced.startsAt (ht : s.Traced t) (hx : s.slots.get? slot = some x)
    (hm : ∀ a m, y.memory? = some (a, m) → ∃ a', x.memory? = some (a', m)) :
    StartsAt (t slot) y := by
  intro a m hy
  obtain ⟨a', hm⟩ := hm a m hy
  exact ht slot x a' m hx hm

theorem places_make (hx : StartsAt cs x) : s.Places name cs (s.make name x) :=
  .placed .done (inherits_of_slots_eq rfl) hx

theorem places_convert (hx : StartsAt cs x) : s.Places name cs (s.convert name slot x) :=
  .placed .done (s.inherits_remove slot) hx

theorem places_makeMemory {source : MemorySource}
    (ho : (Op.memory name a source).cut? t = some (name, cs)) :
    s.Places name cs (s.makeMemory name a source) := by
  have hfront : ∀ b n, StartsAt [] (.ofMemory a ⟨b, 0, n⟩) :=
    fun b n => startsAt_of_memory (Handle.memory?_ofMemory a ⟨b, 0, n⟩) rfl
  cases source with
  | nothing =>
    cases ho
    exact places_make (hfront _ _)
  | values c =>
    cases ho
    simp only [makeMemory]
    split
    · exact .placed .done (inherits_of_slots_eq rfl) (hfront _ _)
    · exact .refused _
  | array slot =>
    cases ho
    simp only [makeMemory]
    split
    · exact places_make (hfront _ _)
    · exact .refused _
  | range slot start length =>
    cases ho
    simp only [makeMemory]
    split
    · split
      · exact places_make (startsAt_of_memory (Handle.memory?_ofMemory ..) (Nat.add_zero _))
      · exact .refused _
    · exact .refused _
  | manager slot take =>
    cases ho
    simp only [makeMemory]
    split
    · split
      · exact places_convert (hfront _ _)
      · exact places_make (hfront _ _)
    · exact .refused _

theorem places_makeBuffer (h : s.Inherits s') (form : BufferForm) (k : ManagerId) :
    s.Places name [] (s'.makeBuffer name form k) := by
  cases form with
  | shared | native => exact .placed .done h nofun
  | owner => exact .placed .done h (startsAt_of_memory rfl rfl)

theorem places_allocate (p : Platform) (form : BufferForm) (length : UInt64) :
    s.Places name [] (s.allocate p name slot form length) := by
  obtain ⟨f, he⟩ | ⟨-, -, he⟩ | ⟨a, st, -, -, -, -, he⟩ := s.allocate_cases p name slot form length
  · rw [he]
    exact .refused f
  · rw [he]
    exact places_makeBuffer (inherits_of_slots_eq rfl) form _
  · have hst : s.Inherits (s.withStore st) := inherits_of_slots_eq rfl
    rw [he]
    exact places_makeBuffer hst form _

theorem places_makeSlice {part : Memory → Except Error Memory} {c : Cut}
    (hb : s.estate.Bounded) (ht : s.Traced t) (hc : ∀ m, part m = c.apply m) :
    s.Places name (t slot ++ [c]) (s.makeSlice name slot part) := by
  simp only [makeSlice]
  split
  · rename_i a m hm
    obtain ⟨x, hx, hm⟩ := Option.bind_eq_some_iff.mp hm
    split
    · rename_i m' hm'
      have hm' : Cut.applyAll [c] m = .ok m' := Cut.applyAll_cons ((hc m).symm.trans hm')
      obtain ⟨-, hs, -⟩ := Memory.applyAll_eq_ok (hb (mem_handles hx) hm) hm'
      refine places_make (startsAt_of_memory (Handle.memory?_ofMemory a m') ?_)
      rw [Cut.offset_append, ht slot x a m hx hm, hs]
    · exact .refused _
  · exact .refused _

theorem places_of_cut? {op : Op} (hb : s.estate.Bounded) (ht : s.Traced t)
    (ho : op.cut? t = some (name, cs)) : s.Places name cs (s.step p op) := by
  cases op with
  | memory name' a source =>
    obtain rfl : name' = name := by cases source <;> cases ho <;> rfl
    exact places_makeMemory ho
  | allocate name slot form length =>
    cases ho
    exact places_allocate p form length
  | slice name slot start length =>
    cases ho
    exact places_makeSlice (c := .slice start length) hb ht fun _ => rfl
  | sliceFrom name slot start =>
    cases ho
    exact places_makeSlice (c := .tail start) hb ht fun _ => rfl
  | narrow name slot =>
    cases ho
    simp only [step, makeNarrow]
    split
    · rename_i m hx
      exact places_convert (ht.startsAt hx fun _ _ hm => by cases hm; exact ⟨_, rfl⟩)
    · exact .refused _
  | clone name slot =>
    cases ho
    simp only [step, makeClone]
    split
    · rename_i y hy
      obtain ⟨x, hx, hy⟩ := Option.bind_eq_some_iff.mp hy
      refine places_make (ht.startsAt hx fun a m hm => ?_)
      cases x <;> cases hy <;> cases hm <;> exact ⟨_, rfl⟩
    · exact .refused _
  | own name slot =>
    cases ho
    simp only [step, makeOwner]
    split
    · rename_i m hx
      exact places_convert (ht.startsAt hx fun _ _ hm => by cases hm; exact ⟨_, rfl⟩)
    · exact .refused _
  | disown name slot =>
    cases ho
    simp only [step, unmakeOwner]
    split
    · rename_i m hx
      exact places_convert (ht.startsAt hx fun _ _ hm => by cases hm; exact ⟨_, rfl⟩)
    · exact .refused _
  | _ => cases ho

/-! ## All operations -/

def trace (p : Platform) (s : Session) (t : String → List Cut) (op : Op) : String → List Cut :=
  match op.cut? t with
  | some (name, cs) => if (s.step p op).1.isOk then Function.update t name cs else t
  | none => t

theorem traced_step (hb : s.estate.Bounded) (ht : s.Traced t) (op : Op) :
    (s.step p op).2.Traced (s.trace p t op) := by
  unfold trace
  split
  · rename_i ho
    exact ht.place (places_of_cut? hb ht ho)
  · rename_i ho
    exact ht.inherit (inherits_step ho)

end Session

end LargeBuffers
