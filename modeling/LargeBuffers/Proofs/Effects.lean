import LargeBuffers.Proofs.Accounts

/-! # Effects

What the end of a handle does to a store is a sequence of effects. Each of them changes at most one
entry of one register, lowers the gauge and notes some events. So two effects on different entries
can change places, and only the order of the journal tells which came first.
-/

namespace LargeBuffers

def Allocator.freed (len : UInt64) (al : Allocator) : Allocator :=
  let size := len + al.supply.alignment
  if size ≤ maxBytes then { al with statistics := al.statistics.recordRelease size } else al

@[simp]
theorem Allocator.supply_freed (len : UInt64) (al : Allocator) :
    (al.freed len).supply = al.supply := by
  simp only [freed]
  split <;> rfl

theorem Statistics.recordRelease_comm (t : Statistics) (m n : UInt64) :
    (t.recordRelease m).recordRelease n = (t.recordRelease n).recordRelease m := by
  simp only [recordRelease, Statistics.mk.injEq, true_and]
  rw [UInt64.add_assoc, UInt64.add_comm m, ← UInt64.add_assoc]

theorem Allocator.freed_comm (m n : UInt64) (al : Allocator) :
    (al.freed m).freed n = (al.freed n).freed m := by
  by_cases hm : m + al.supply.alignment ≤ maxBytes
  · by_cases hn : n + al.supply.alignment ≤ maxBytes
    · simp [freed, hm, hn, al.statistics.recordRelease_comm (m + _)]
    · simp [freed, hm, hn]
  · by_cases hn : n + al.supply.alignment ≤ maxBytes
    · simp [freed, hm, hn]
    · simp [freed, hm, hn]

theorem monus_comm (g m n : UInt64) : monus (monus g m) n = monus (monus g n) m := by
  apply UInt64.toNat_inj.mp
  simp only [toNat_monus]
  omega

theorem monus_zero (g : UInt64) : monus g 0 = g := by
  apply UInt64.toNat_inj.mp
  rw [toNat_monus]
  rfl

inductive Effect where
  | manager (k : ManagerId) (m : Manager)
  | note (x : Event)
  | free (a : AllocatorId) (len : UInt64)
  | reference (i : ImportationId)

namespace Effect

def managers : Effect → List Manager → List Manager
  | manager k m, l => l.set k m
  | _, l => l

def allocators : Effect → List Allocator → List Allocator
  | free a len, l => l.modify a (Allocator.freed len)
  | _, l => l

def importations : Effect → List Importation → List Importation
  | reference i, l => l.modify i Importation.dropped
  | _, l => l

/-- What the gauge is lowered by, and what is noted. -/
def toll (st : Store) : Effect → UInt64 × List Event
  | manager .. => (0, [])
  | note x => (0, [x])
  | free a len =>
    match (st.allocators[a]?).map fun al => len + al.supply.alignment with
    | some size => if size ≤ maxBytes then (size, [.freed a size]) else (0, [.unfreed a size])
    | none => (0, [])
  | reference i =>
    match st.importations[i]? with
    | some imp =>
      if imp.references = 1 then (imp.tracked, [.finalRelease i imp.tracked]) else (0, [])
    | none => (0, [])

/-- Two effects that are not on the same manager or importation. -/
def Apart : Effect → Effect → Prop
  | manager k _, manager k' _ => k ≠ k'
  | reference i, reference i' => i ≠ i'
  | _, _ => True

theorem Apart.symm {x y : Effect} (h : x.Apart y) : y.Apart x := by
  cases x with
  | manager k m =>
    cases y with
    | manager k' m' => exact Ne.symm h
    | _ => trivial
  | reference i =>
    cases y with
    | reference i' => exact Ne.symm h
    | _ => trivial
  | _ => cases y <;> trivial

theorem managers_comm {x y : Effect} (h : x.Apart y) (l : List Manager) :
    y.managers (x.managers l) = x.managers (y.managers l) := by
  cases x with
  | manager k m =>
    cases y with
    | manager k' m' => exact List.set_comm m m' h
    | _ => rfl
  | _ => rfl

theorem allocators_comm (x y : Effect) (l : List Allocator) :
    y.allocators (x.allocators l) = x.allocators (y.allocators l) := by
  cases x with
  | free a m =>
    cases y with
    | free a' n =>
      by_cases ha : a = a'
      · subst ha
        simp only [allocators, List.modify_modify_eq]
        congr 1
        funext al
        exact Allocator.freed_comm m n al
      · exact List.modify_modify_ne _ _ l ha
    | _ => rfl
  | _ => rfl

theorem importations_comm {x y : Effect} (h : x.Apart y) (l : List Importation) :
    y.importations (x.importations l) = x.importations (y.importations l) := by
  cases x with
  | reference i =>
    cases y with
    | reference i' => exact List.modify_modify_ne _ _ l h
    | _ => rfl
  | _ => rfl

end Effect

namespace Store

variable {st st' st₁ st₂ : Store} {x y : Effect} {xs ys : List Effect}

def effect (st : Store) (x : Effect) : Store :=
  { st with
    managers := x.managers st.managers
    allocators := x.allocators st.allocators
    importations := x.importations st.importations
    gauge := monus st.gauge (x.toll st).1
    journal := st.journal ++ (x.toll st).2 }

def effects (st : Store) (xs : List Effect) : Store := xs.foldl effect st

theorem setManager_eq_effect (st : Store) (k : ManagerId) (m : Manager) :
    st.setManager k m = st.effect (.manager k m) := by
  simp [effect, Effect.managers, Effect.allocators, Effect.importations, Effect.toll, monus_zero]

theorem note_eq_effect (st : Store) (x : Event) : st.note x = st.effect (.note x) := by
  simp [effect, Effect.managers, Effect.allocators, Effect.importations, Effect.toll, monus_zero]

theorem free_eq_effect (st : Store) (a : AllocatorId) (len : UInt64) :
    st.free a len = st.effect (.free a len) := by
  simp only [effect, Effect.managers, Effect.importations, Effect.allocators, Effect.toll, free,
    List.modify_eq_set_getElem?]
  cases h : st.allocators[a]? with
  | none => simp [monus_zero]
  | some al =>
    by_cases hs : len + al.supply.alignment ≤ maxBytes
    · simp [hs, Allocator.freed]
    · have hset : st.allocators.set a al = st.allocators := by
        obtain ⟨hl, rfl⟩ := List.getElem?_eq_some_iff.mp h
        exact List.set_getElem_self hl
      simp [hs, Allocator.freed, monus_zero, hset]

theorem dropReference_eq_effect (st : Store) (i : ImportationId) :
    st.dropReference i = st.effect (.reference i) := by
  simp only [effect, Effect.managers, Effect.importations, Effect.allocators, Effect.toll,
    dropReference, List.modify_eq_set_getElem?]
  cases h : st.importations[i]? with
  | none => simp [monus_zero]
  | some imp =>
    by_cases hr : imp.references = 1
    · simp [hr, Importation.dropped]
    · simp [hr, Importation.dropped, monus_zero]

@[simp]
theorem regions_effects (st : Store) (xs : List Effect) :
    (st.effects xs).regions = st.regions := by
  induction xs generalizing st with
  | nil => rfl
  | cons x xs ih => exact ih (st.effect x)

theorem getElem?_effects {k : ManagerId} (h : ∀ m, .manager k m ∉ xs) (st : Store) :
    (st.effects xs).managers[k]? = st.managers[k]? := by
  induction xs generalizing st with
  | nil => rfl
  | cons x xs ih =>
    have hx : (st.effect x).managers[k]? = st.managers[k]? := by
      cases x with
      | manager k' m =>
        refine List.getElem?_set_ne ?_
        rintro rfl
        exact h m List.mem_cons_self
      | _ => rfl
    rw [← hx]
    exact ih (fun m hm => h m (List.mem_cons_of_mem x hm)) _

/-! ## Releases -/

def releaseEffects (r : RegionId) (g : Region) : List Effect :=
  .note (.released r g) ::
    match g.owner with
    | .recorder _ => []
    | .allocator a => [.free a g.len]
    | .importation i => [.reference i]

def giveUpEffects (st : Store) (k : ManagerId) : List Effect :=
  match st.managers[k]? with
  | some (.native r true) =>
    match st.regions[r]? with
    | some g => .manager k (.native r false) :: .note (.releasing g.len) :: releaseEffects r g
    | none => []
  | _ => []

def rawEffects (st : Store) (r : RegionId) : List Effect :=
  match st.regions[r]? with
  | some g => .note (.dropped g.len) :: releaseEffects r g
  | none => []

theorem release_eq_effects (st : Store) (r : RegionId) (g : Region) :
    st.release r g = st.effects (releaseEffects r g) := by
  unfold release releaseEffects
  rw [note_eq_effect]
  cases g.owner with
  | recorder => rfl
  | allocator a => exact free_eq_effect ..
  | importation i => exact dropReference_eq_effect ..

theorem giveUp_eq_effects (st : Store) (k : ManagerId) :
    st.giveUp k = st.effects (st.giveUpEffects k) := by
  obtain ⟨r, g, hk, hg, he⟩ | ⟨he, hn⟩ := st.giveUp_cases k
  · simp only [giveUpEffects, hk, hg]
    rw [he, release_eq_effects, note_eq_effect, setManager_eq_effect]
    rfl
  · have hnil : st.giveUpEffects k = [] := by
      unfold giveUpEffects
      split
      · rename_i r hk
        rw [hn r hk]
      · rfl
    rw [he, hnil]
    rfl

theorem dropRaw_eq_effects (st : Store) (r : RegionId) :
    st.dropRaw r = st.effects (st.rawEffects r) := by
  unfold dropRaw rawEffects
  cases st.regions[r]? with
  | none => rfl
  | some g =>
    dsimp only
    rw [release_eq_effects, note_eq_effect]
    rfl

theorem not_manager_mem_releaseEffects (r : RegionId) (g : Region) (k : ManagerId)
    (m : Manager) : .manager k m ∉ releaseEffects r g := by
  unfold releaseEffects
  cases g.owner <;> simp

theorem eq_of_mem_giveUpEffects {st : Store} {k k' : ManagerId} {m : Manager}
    (h : .manager k' m ∈ st.giveUpEffects k) : k' = k := by
  unfold giveUpEffects at h
  split at h
  · split at h
    · simp only [List.mem_cons, Effect.manager.injEq, reduceCtorEq, false_or] at h
      exact h.elim (·.1) fun h => absurd h (not_manager_mem_releaseEffects _ _ _ _)
    · cases h
  · cases h

/-! ## Order -/

/-- The same store, up to the order of the journal. -/
structure Alike (st st' : Store) : Prop where
  eq : st' = { st with journal := st'.journal }
  perm : st.journal.Perm st'.journal

theorem Alike.refl (st : Store) : st.Alike st := ⟨rfl, .refl _⟩

theorem Alike.of_eq (h : st = st') : st.Alike st' := h ▸ .refl st

theorem Alike.trans (h : st.Alike st₁) (h' : st₁.Alike st₂) : st.Alike st₂ where
  eq := by
    rw [h'.eq, h.eq]
  perm := h.perm.trans h'.perm

theorem Alike.effect (h : st.Alike st') (x : Effect) : (st.effect x).Alike (st'.effect x) := by
  rw [h.eq]
  have ht : x.toll { st with journal := st'.journal } = x.toll st := by cases x <;> rfl
  constructor
  · rw [Store.effect, ht]
    rfl
  · rw [Store.effect, Store.effect, ht]
    exact h.perm.append_right _

theorem Alike.effects (h : st.Alike st') (xs : List Effect) :
    (st.effects xs).Alike (st'.effects xs) := by
  induction xs generalizing st st' with
  | nil => exact h
  | cons x xs ih => exact ih (h.effect x)

/-- No effect on another entry changes what an effect costs. -/
theorem toll_effect (h : x.Apart y) (st : Store) : y.toll (st.effect x) = y.toll st := by
  cases y with
  | manager | note => rfl
  | free a len =>
    have hs : ((st.effect x).allocators[a]?).map (fun al => len + al.supply.alignment) =
        (st.allocators[a]?).map fun al => len + al.supply.alignment := by
      cases x with
      | free a' len' =>
        simp only [Store.effect, Effect.allocators, List.getElem?_modify, Option.map_eq_map,
          Option.map_map]
        congr 1
        funext al
        by_cases ha : a' = a <;> simp [ha]
      | _ => rfl
    rw [Effect.toll, hs]
    rfl
  | reference i =>
    have hi : (st.effect x).importations[i]? = st.importations[i]? := by
      cases x with
      | reference i' => exact List.getElem?_modify_ne _ _ h
      | _ => rfl
    rw [Effect.toll, hi]
    rfl

theorem effect_effect (h : x.Apart y) (st : Store) :
    (st.effect x).effect y = { st with
      managers := y.managers (x.managers st.managers)
      allocators := y.allocators (x.allocators st.allocators)
      importations := y.importations (x.importations st.importations)
      gauge := monus (monus st.gauge (x.toll st).1) (y.toll st).1
      journal := st.journal ++ ((x.toll st).2 ++ (y.toll st).2) } := by
  rw [← toll_effect h st, ← List.append_assoc]
  rfl

theorem effect_comm (h : x = y ∨ x.Apart y) (st : Store) :
    ((st.effect x).effect y).Alike ((st.effect y).effect x) := by
  obtain rfl | h := h
  · exact .refl _
  · rw [effect_effect h, effect_effect h.symm, Effect.managers_comm h, Effect.allocators_comm x,
      Effect.importations_comm h, monus_comm]
    constructor
    · rfl
    · exact List.perm_append_comm.append_left _

theorem effects_comm_one (h : ∀ y ∈ ys, x = y ∨ x.Apart y) (st : Store) :
    ((st.effect x).effects ys).Alike ((st.effects ys).effect x) := by
  induction ys generalizing st with
  | nil => exact .refl _
  | cons y ys ih =>
    have hy := (effect_comm (h y List.mem_cons_self) st).effects ys
    exact hy.trans (ih (fun z hz => h z (List.mem_cons_of_mem y hz)) _)

theorem effects_comm (h : ∀ x ∈ xs, ∀ y ∈ ys, x = y ∨ x.Apart y) (st : Store) :
    ((st.effects xs).effects ys).Alike ((st.effects ys).effects xs) := by
  induction xs generalizing st with
  | nil => exact .refl _
  | cons x xs ih =>
    have hx := effects_comm_one (h x List.mem_cons_self) st
    exact (ih (fun z hz => h z (List.mem_cons_of_mem x hz)) _).trans (hx.effects xs)

end Store

end LargeBuffers
