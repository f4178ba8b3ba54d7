import LargeBuffers.Proofs.Estate

/-! # The course of an operation

Each operation of a session does one deed and then loses some handles, or writes through one
handle, or sets the gauge (`step_course`). What holds of the estate at the start and is kept by
all of these holds after any operations (`Estate.Stable.after`).
-/

namespace LargeBuffers

def Op.writesThrough (slot : String) : Op → Bool
  | .spanMut slot' _ => slot' = slot
  | .copy _ dest | .tryCopy _ dest | .copyToSpan _ dest => dest = slot
  | _ => false

def Op.setsGauge : Op → Bool
  | .raiseGauge _ | .lowerGauge _ => true
  | _ => false

namespace Session

variable {p : Platform} {s s₁ s₂ : Session} {name slot : String} {h h' : Handle}

theorem holders_eq (s : Session) (b : Backing) : s.holders b = s.estate.holders b := by
  simp only [holders, Estate.holders, estate, Directory.entries, Multiset.coe_countP,
    List.countP_map]
  rfl

theorem sole_eq (s : Session) (b : Backing) : s.sole b = s.estate.sole b := by
  rw [sole, Estate.sole, holders_eq]

theorem viewMutOf_eq (s : Session) (h : Handle) : s.viewMutOf h = s.estate.viewMutOf h := by
  simp only [viewMutOf, Estate.viewMutOf, sole_eq]
  rfl

theorem retire_eq (s : Session) (k : ManagerId) : s.retire k = s.withStore (s.estate.retire k) := by
  simp only [retire, Estate.retire, holders_eq]
  split <;> rfl

theorem discard_eq (s : Session) (h : Handle) : s.discard h = s.withStore (s.estate.discard h) := by
  cases h with
  | array b => rfl
  | memory m | readOnly m | owner m =>
    obtain ⟨_ | _ | k, start, len⟩ := m
    · rfl
    · rfl
    · exact s.retire_eq k
  | shared k | manager k => exact s.retire_eq k
  | raw r | allocator a | importation i => rfl

/-! ## Handles that come and go -/

theorem mem_handles (h : s.slots.get? slot = some h') : h' ∈ s.estate.handles :=
  Directory.mem_entries_of_get? h

theorem handles_eq_cons (hd : s.slots.Distinct) (h : s.slots.get? slot = some h') :
    s.estate.handles = h' ::ₘ (s.remove slot).estate.handles :=
  Directory.entries_eq_cons hd h

theorem slots_put (s : Session) (name : String) (h : Handle) :
    (s.put name h).slots = s.slots.put name h := by
  simp only [put]
  split
  · rw [discard_eq]
    rfl
  · rfl

theorem get?_put_self (s : Session) (name : String) (h : Handle) :
    (s.put name h).slots.get? name = some h := by
  rw [slots_put, Directory.get?_put_self]

theorem get?_put_of_ne (s : Session) (h : Handle) (hn : slot ≠ name) :
    (s.put name h).slots.get? slot = s.slots.get? slot := by
  rw [slots_put, Directory.get?_put_of_ne h hn]

theorem store_put_of_free (h : Handle) (hf : s.slots.get? name = none) :
    (s.put name h).store = s.store := by
  simp only [put, hf]

theorem slots_drop (s : Session) (slot : String) : (s.drop slot).slots = s.slots.erase slot := by
  simp only [drop]
  split
  · rw [discard_eq]
    rfl
  · rename_i h
    rw [Directory.erase_eq_self h]

theorem losses_put (hd : s.slots.Distinct) (name : String) (h : Handle) :
    Estate.Losses { s.estate with handles := h ::ₘ s.estate.handles } (s.put name h).estate := by
  simp only [put]
  split
  · rename_i old ho
    have hs : h ::ₘ s.estate.handles = old ::ₘ h ::ₘ (s.remove name).estate.handles := by
      rw [handles_eq_cons hd ho, Multiset.cons_swap]
    have hp : (s.slots.put name h).entries = h ::ₘ (s.remove name).estate.handles :=
      Directory.entries_put ..
    have hl := Estate.Loss.mk (e := { s.estate with handles := h ::ₘ s.estate.handles }) hs
    rw [← hp] at hl
    rw [discard_eq]
    exact .single hl
  · rename_i ho
    have hp : (s.slots.put name h).entries = h ::ₘ s.estate.handles := by
      rw [Directory.entries_put, Directory.erase_eq_self ho]
      rfl
    rw [← hp]
    exact .refl

theorem losses_drop (hd : s.slots.Distinct) (slot : String) :
    Estate.Losses s.estate (s.drop slot).estate := by
  simp only [drop]
  split
  · rename_i h hs
    rw [discard_eq]
    exact .single (Estate.Loss.mk (handles_eq_cons hd hs))
  · exact .refl

/-! ## Courses without writing -/

/-- One deed and some losses lead from one session to another. -/
structure Course (p : Platform) (s s' : Session) : Prop where
  distinct : s'.slots.Distinct
  deed : ∃ m, s.estate.Deed p m ∧ Estate.Losses m s'.estate

theorem Course.refl (hd : s.slots.Distinct) : Course p s s := ⟨hd, _, .nothing, .refl⟩

theorem Course.of_deed (hd : s₁.slots.Distinct) (h : s.estate.Deed p s₁.estate) : Course p s s₁ :=
  ⟨hd, _, h, .refl⟩

theorem Course.put (hd : s₁.slots.Distinct)
    (ha : s.estate.Deed p { s₁.estate with handles := h ::ₘ s₁.estate.handles }) :
    Course p s (s₁.put name h) :=
  ⟨by rw [slots_put]; exact hd.put .., _, ha, losses_put hd ..⟩

theorem Course.drop (hd : s.slots.Distinct) : Course p s (s.drop slot) :=
  ⟨by rw [slots_drop]; exact hd.erase _, _, .nothing, losses_drop hd _⟩

theorem course_convert (hd : s.slots.Distinct) (hs : s.slots.get? slot = some h)
    (hh : s.store.Derived h h') : Course p s (s.convert name slot h').2 :=
  .put (hd.erase slot) (.convert (handles_eq_cons hd hs) hh)

theorem course_derive (hd : s.slots.Distinct) (hs : s.slots.get? slot = some h)
    (hm : ∀ k, h ≠ .manager k) (hh : s.store.Derived h h') : Course p s (s.make name h').2 :=
  .put hd (.derive (mem_handles hs) hm hh)

theorem course_standing (hd : s.slots.Distinct) (hh : s.store.Standing h) :
    Course p s (s.make name h).2 :=
  .put hd (.standing hh)

end Session

end LargeBuffers
