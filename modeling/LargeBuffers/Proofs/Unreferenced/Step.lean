import LargeBuffers.Proofs.Origin
import LargeBuffers.Proofs.Unreferenced.Make
import LargeBuffers.Proofs.Unreferenced.Use

/-! # Runs beside an entry without handles

Whatever stands in the entry of a manager to which no handle refers, any operations go the same
way, and leave the entry without handles.
-/

namespace LargeBuffers

namespace Session

variable {p : Platform} {s : Session} {k : ManagerId} {m : Manager} {op : Op} {ops : List Op}

theorem Unreferenced.step (h : s.Unreferenced k) (hd : s.slots.Distinct) (p : Platform) (op : Op) :
    (s.step p op).2.Unreferenced k := by
  have hall : ∀ x ∈ s.estate.handles, x.backing ≠ .manager k := by
    intro x hx
    obtain ⟨name, hs⟩ := Directory.exists_get?_of_mem_entries hd hx
    exact h.slots hs
  have hg : (s.step p op).2.estate.Gone (.manager k) :=
    (Estate.stable_gone (b := .manager k) p nofun fun he =>
      h.ne_null (Backing.manager.inj he)).step hd ⟨h.lt, hall⟩ op
  exact ⟨hg.knows, h.ne_null, fun hx => hg.unheld _ (mem_handles hx)⟩

theorem step_withManager (h : s.Unreferenced k) (p : Platform) (op : Op) :
    (s.withManager k m).step p op = overlay k m (s.step p op) := by
  cases op with
  | storage => exact makeStorage_withManager ..
  | storageBytes storage => exact reply_withManager rfl
  | recorder => rfl
  | array => exact makeArray_withManager h ..
  | memory => exact makeMemory_withManager h ..
  | narrow => exact makeNarrow_withManager h ..
  | clone => exact makeClone_withManager h ..
  | slice | sliceFrom => exact makeSlice_withManager h ..
  | arrayManager => exact makeArrayManager_withManager h ..
  | nullManager name => exact makeNewManager_withManager h name s.store le_rfl .null
  | nullSingleton => exact ofBytes_withManager (make_withManager h ..)
  | native => exact makeNative_withManager h ..
  | share => exact makeShared_withManager h ..
  | tryAcquire => exact tryAcquire_withManager h ..
  | intoManager => exact intoManager_withManager h ..
  | importation => exact makeImportation_withManager h ..
  | addAlias => exact makeAlias_withManager h ..
  | allocator => exact makeAllocator_withManager h ..
  | defaultAllocator => exact makeDefaultAllocator_withManager h ..
  | meteredAllocator => exact ofBytes_withManager (makeAllocatorOf_withManager h ..)
  | allocate => exact allocate_withManager h ..
  | own => exact makeOwner_withManager h ..
  | disown => exact unmakeOwner_withManager h ..
  | probe => exact makeProbe_withManager h ..
  | drop => exact dropSlot_withManager h ..
  | dropAll => exact dropAll_withManager h ..
  | release => exact release_withManager h ..
  | dispose => exact dispose_withManager h ..
  | unpin => exact unpin_withManager h ..
  | intoInner => exact intoInner_withManager h ..
  | calls => exact calls_withManager ..
  | sameManager | equal | distinct => exact reply_withManager rfl
  | values slot => exact reply_withManager (values_withManager h slot)
  | getArray slot => exact reply_withManager (getArray_withManager h slot)
  | span slot prog => exact reply_withManager (span_withManager h slot prog)
  | info slot => exact reply_withManager (info_withManager h slot)
  | spanMut => exact spanMut_withManager h ..
  | pin => exact pin_withManager h ..
  | copy => exact copy_withManager h ..
  | tryCopy => exact tryCopy_withManager h ..
  | copyToSpan => exact copyToSpan_withManager h ..
  | raiseGauge | lowerGauge | unreadable => rfl

/-- Any operations go the same way whatever is in the entry. -/
theorem after_withManager (h : s.Unreferenced k) (hd : s.slots.Distinct) (p : Platform)
    (ops : List Op) :
    (s.withManager k m).after p ops = (s.after p ops).withManager k m ∧
      (s.after p ops).Unreferenced k := by
  induction ops using List.reverseRecOn with
  | nil => exact ⟨rfl, h⟩
  | append_singleton ops op ih =>
    obtain ⟨he, hu⟩ := ih
    rw [after_concat, after_concat, he, step_withManager hu]
    exact ⟨rfl, hu.step (distinct_after hd ops) p op⟩

end Session

end LargeBuffers
