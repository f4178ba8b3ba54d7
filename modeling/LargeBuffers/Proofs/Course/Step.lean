import Mathlib.Data.List.Induction
import LargeBuffers.Proofs.Course.Make
import LargeBuffers.Proofs.Course.Use

/-! # The courses of steps and runs

Each step takes a course without writing, or writes through one handle, or sets the gauge. A
property of estates that all of these keep holds after any operations if it holds before them.
-/

namespace LargeBuffers

namespace Session

variable {p : Platform} {s : Session}

@[simp]
theorem reply_snd (s : Session) (r : Except Failure Answer) : (s.reply r).2 = s := by
  cases r <;> rfl

theorem step_course (hd : s.slots.Distinct) (op : Op) :
    Course p s (s.step p op).2 ∨
      (∃ dest, op.writesThrough dest = true ∧ s.Writes dest (s.step p op).2) ∨
      op.setsGauge = true ∧ ∃ gauge, (s.step p op).2 = s.withStore { s.store with gauge } := by
  cases op with
  | spanMut slot prog =>
    exact (spanMut_cases hd slot prog).imp_right fun h => .inl ⟨slot, decide_eq_true rfl, h⟩
  | copy slot dest =>
    exact (copy_cases hd slot dest).imp_right fun h => .inl ⟨dest, decide_eq_true rfl, h⟩
  | tryCopy slot dest =>
    exact (tryCopy_cases hd slot dest).imp_right fun h => .inl ⟨dest, decide_eq_true rfl, h⟩
  | copyToSpan slot dest =>
    exact (copyToSpan_cases hd slot dest).imp_right fun h => .inl ⟨dest, decide_eq_true rfl, h⟩
  | storage name c => exact .inl (course_makeStorage hd name c)
  | recorder name exclusive => exact .inl (course_makeRecorder hd name exclusive)
  | array name c => exact .inl (course_makeArray hd name c)
  | memory name a source => exact .inl (course_makeMemory hd name a source)
  | narrow name slot => exact .inl (course_makeNarrow hd name slot)
  | clone name slot => exact .inl (course_makeClone hd name slot)
  | slice name slot start length =>
    exact .inl (course_makeSlice hd name slot fun _ _ h => ⟨start, length, h⟩)
  | sliceFrom name slot start =>
    exact .inl (course_makeSlice hd name slot fun m _ h =>
      ⟨start, m.len - start, Memory.slice_of_sliceFrom h⟩)
  | arrayManager name c => exact .inl (course_makeArrayManager hd name c)
  | nullManager name => exact .inl (course_makeManager hd name .null)
  | nullSingleton name => exact .inl (course_makeNullSingleton hd name)
  | native name storage recorder offset length =>
    exact .inl (course_makeNative hd name storage recorder offset length)
  | share name slot => exact .inl (course_makeShared hd name slot)
  | tryAcquire name slot => exact .inl (course_tryAcquire hd name slot)
  | intoManager name slot => exact .inl (course_intoManager hd name slot)
  | importation name => exact .inl (course_makeImportation hd name)
  | addAlias name slot storage offset length =>
    exact .inl (course_makeAlias hd name slot storage offset length)
  | allocator name alignment => exact .inl (course_makeAllocator hd name alignment)
  | defaultAllocator name => exact .inl (course_makeDefaultAllocator hd name)
  | meteredAllocator name limit pad => exact .inl (course_makeMeteredAllocator hd name limit pad)
  | allocate name slot form length => exact .inl (course_allocate hd name slot form length)
  | own name slot => exact .inl (course_makeOwner hd name slot)
  | disown name slot => exact .inl (course_unmakeOwner hd name slot)
  | probe name c claim state exposesArray =>
    exact .inl (course_makeProbe hd name c claim state exposesArray)
  | drop slot => exact .inl (course_dropSlot hd slot)
  | dropAll slots => exact .inl (course_dropAll hd slots)
  | release slot => exact .inl (course_release hd slot)
  | dispose slot => exact .inl (course_dispose hd slot)
  | unpin slot => exact .inl (course_unpin hd slot)
  | intoInner slot => exact .inl (course_intoInner hd slot)
  | calls probe => exact .inl (course_calls hd probe)
  | pin slot index => exact .inl (course_pin hd slot index)
  | raiseGauge | lowerGauge => exact .inr (.inr ⟨rfl, _, rfl⟩)
  | storageBytes | sameManager | equal | distinct | values | getArray | span | info | unreadable =>
    refine .inl ?_
    simp only [step, refuse, reply_snd]
    exact .refl hd

theorem distinct_step (hd : s.slots.Distinct) (op : Op) : (s.step p op).2.slots.Distinct := by
  obtain h | ⟨dest, -, hs, -⟩ | ⟨-, gauge, hg⟩ := step_course (p := p) hd op
  · exact h.distinct
  · rwa [hs]
  · rwa [hg]

theorem after_append (p : Platform) (s : Session) (ops ops' : List Op) :
    s.after p (ops ++ ops') = (s.after p ops).after p ops' :=
  List.foldl_append

theorem after_concat (p : Platform) (s : Session) (ops : List Op) (op : Op) :
    s.after p (ops ++ [op]) = ((s.after p ops).step p op).2 := by
  rw [after_append]
  rfl

theorem distinct_after (hd : s.slots.Distinct) (ops : List Op) :
    (s.after p ops).slots.Distinct := by
  induction ops using List.reverseRecOn with
  | nil => exact hd
  | append_singleton ops op ih =>
    rw [after_concat]
    exact distinct_step ih op

theorem distinct_run (p : Platform) (e : Element) (ops : List Op) :
    ((start e).after p ops).slots.Distinct :=
  distinct_after Directory.distinct_nil ops

end Session

/-- A property of estates that no operation breaks. -/
structure Estate.Stable (p : Platform) (I : Estate → Prop) : Prop where
  deed : ∀ {e e'}, I e → e.Deed p e' → I e'
  loss : ∀ {e e'}, I e → e.Loss e' → I e'
  writing : ∀ {e e' h}, I e → e.Writing h e' → I e'
  gauge : ∀ {e gauge}, I e → I (e.gauged gauge)

namespace Estate.Stable

variable {p : Platform} {I : Estate → Prop} (hI : Stable p I)

include hI

theorem losses {e e' : Estate} (h : I e) (hl : Losses e e') : I e' := by
  induction hl with
  | refl => exact h
  | tail _ hl ih => exact hI.loss ih hl

theorem step {s : Session} (hd : s.slots.Distinct) (h : I s.estate) (op : Op) :
    I (s.step p op).2.estate := by
  obtain ⟨-, m, hm, hl⟩ | ⟨dest, -, -, x, -, hw⟩ | ⟨-, gauge, hg⟩ := s.step_course hd op
  · exact hI.losses (hI.deed h hm) hl
  · exact hI.writing h hw
  · rw [hg]
    exact hI.gauge h

theorem after {s : Session} (hd : s.slots.Distinct) (h : I s.estate) (ops : List Op) :
    I (s.after p ops).estate := by
  induction ops using List.reverseRecOn with
  | nil => exact h
  | append_singleton ops op ih =>
    rw [Session.after_concat]
    exact hI.step (Session.distinct_after hd ops) ih op

end Estate.Stable

end LargeBuffers
