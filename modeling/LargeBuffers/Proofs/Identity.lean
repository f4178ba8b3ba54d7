import LargeBuffers.Proofs.Sites
import LargeBuffers.Proofs.Slicing

/-! # Equality of memories

Memories compare addresses, and so in effect what they are parts of: two of them are equal if they
are the same range of the same object, or of nothing. Copies of a memory are equal to it, equal ones
cannot be told apart, and no memory over a new object is equal to one that is there.
-/

namespace LargeBuffers

namespace Memory

variable {m₁ m₂ : Memory}

theorem hashKey_inj : m₁.hashKey = m₂.hashKey ↔ m₁ = m₂ := by
  refine ⟨fun h => ?_, congrArg hashKey⟩
  obtain ⟨b₁, start₁, len₁⟩ := m₁
  obtain ⟨b₂, start₂, len₂⟩ := m₂
  obtain ⟨hb, hr⟩ := Prod.mk.inj h
  obtain ⟨rfl, rfl⟩ := Prod.mk.inj hr
  rcases b₁ with _ | _ | _ <;> rcases b₂ with _ | _ | _ <;> cases hb <;> rfl

theorem slice_whole (m : Memory) : m.slice 0 m.len = .ok m :=
  slice_eq_ok_iff.mpr ⟨checkRange_whole m.len, m.sub_self⟩

end Memory

namespace Session

variable {p : Platform} {s : Session} {a : Access} {m m' m₁ m₂ : Memory} {h : Handle}
  {slot slot₁ slot₂ name : String}

def FindsEqual (p : Platform) (s : Session) (slot₁ slot₂ : String) : Prop :=
  s.step p (.equal slot₁ slot₂) = s.answer (.equality true true)

theorem has_of_get? (h : s.slots.get? slot = some (.ofMemory a m)) : s.Has slot m :=
  ⟨_, a, h, Handle.memory?_ofMemory a m⟩

theorem step_equal (h₁ : s.slots.get? slot₁ = some (.ofMemory a m₁))
    (h₂ : s.slots.get? slot₂ = some (.ofMemory a m₂)) :
    s.step p (.equal slot₁ slot₂) = s.answer (.equality (m₁ = m₂) (m₁ = m₂)) := by
  have he : s.equal slot₁ slot₂ = .ok (.equality (m₁ = m₂) (m₁ = m₂)) := by
    cases a <;> simp only [Handle.ofMemory] at h₁ h₂ <;>
      simp only [equal, h₁, h₂, Memory.hashKey_inj]
  exact congrArg s.reply he

theorem findsEqual_of_get? (h₁ : s.slots.get? slot₁ = some (.ofMemory a m))
    (h₂ : s.slots.get? slot₂ = some (.ofMemory a m)) : s.FindsEqual p slot₁ slot₂ := by
  rw [FindsEqual, step_equal h₁ h₂, decide_eq_true rfl]

theorem step_equal_of_ne (h₁ : s.slots.get? slot₁ = some (.ofMemory a m₁))
    (h₂ : s.slots.get? slot₂ = some (.ofMemory a m₂)) (hne : m₁ ≠ m₂) :
    s.step p (.equal slot₁ slot₂) = s.answer (.equality false false) := by
  rw [step_equal h₁ h₂, decide_eq_false hne]

/-! ## Copies -/

theorem step_slice (hs : s.slots.get? slot = some (.ofMemory a m)) (name : String)
    (start length : UInt64) : s.step p (.slice name slot start length) =
      match m.slice start length with
      | .ok m' => s.make name (.ofMemory a m')
      | .error err => s.refuse (.error err) :=
  makeSlice_of_memory hs (Handle.memory?_ofMemory a m) name (·.slice start length)

theorem step_slice_of_ok {start length : UInt64}
    (hs : s.slots.get? slot = some (.ofMemory a m)) (hm : m.slice start length = .ok m')
    (name : String) :
    s.step p (.slice name slot start length) = s.make name (.ofMemory a m') := by
  rw [step_slice hs, hm]

theorem slice_of_step {start length : UInt64} (hs : s.slots.get? slot = some (.ofMemory a m))
    (h : (s.step p (.slice name slot start length)).1 = .ok .done) :
    ∃ m', m.slice start length = .ok m' := by
  rw [step_slice hs] at h
  rcases hm : m.slice start length with err | m'
  · rw [hm] at h
    cases h
  · exact ⟨m', rfl⟩

theorem step_clone (hs : s.slots.get? slot = some (.ofMemory a m)) (name : String) :
    s.step p (.clone name slot) = s.make name (.ofMemory a m) := by
  cases a <;> simp only [Handle.ofMemory] at hs <;>
    simp only [step, makeClone, hs, Option.bind_some, Handle.clone?, Handle.ofMemory]

theorem step_narrow (hs : s.slots.get? slot = some (.memory m)) (name : String) :
    s.step p (.narrow name slot) = s.convert name slot (.readOnly m) := by
  simp only [step, makeNarrow, hs]

theorem get?_convert_self (s : Session) (name slot : String) (h : Handle) :
    (s.convert name slot h).2.slots.get? name = some h :=
  (s.remove slot).get?_put_self name h

theorem get?_convert_of_ne (s : Session) (h : Handle) {other : String} (hn : other ≠ name)
    (hs : other ≠ slot) : (s.convert name slot h).2.slots.get? other = s.slots.get? other :=
  ((s.remove slot).get?_put_of_ne h hn).trans (Directory.get?_erase_of_ne hs)

/-- The memories that are made from a memory are equal to it where they are the same range. -/
structure CopiesEqual (p : Platform) (s : Session) : Prop where
  clone : ∀ {a m slot name}, s.slots.get? slot = some (.ofMemory a m) → slot ≠ name →
    let r := s.step p (.clone name slot)
    r.1 = .ok .done ∧ r.2.FindsEqual p name slot
  whole : ∀ {a m slot name}, s.slots.get? slot = some (.ofMemory a m) → slot ≠ name →
    let r := s.step p (.slice name slot 0 m.len)
    r.1 = .ok .done ∧ r.2.FindsEqual p name slot
  nested : ∀ {a m slot x y z start length start' length'},
    s.slots.get? slot = some (.ofMemory a m) → slot ≠ x → slot ≠ y → y ≠ z →
    (s.step p (.slice x slot start length)).1 = .ok .done →
    ((s.step p (.slice x slot start length)).2.step p (.slice y x start' length')).1 = .ok .done →
    let s' := s.after p [.slice x slot start length, .slice y x start' length']
    let r := s'.step p (.slice z slot (start + start') length')
    (start + start').toNat = start.toNat + start'.toNat ∧ r.1 = .ok .done ∧ r.2.FindsEqual p y z
  narrow : ∀ {m₁ m₂ slot₁ slot₂ x y}, s.slots.get? slot₁ = some (.memory m₁) →
    s.slots.get? slot₂ = some (.memory m₂) → slot₁ ≠ slot₂ → x ≠ slot₂ → x ≠ y →
    let s' := s.after p [.narrow x slot₁, .narrow y slot₂]
    s'.slots.get? x = some (.readOnly m₁) ∧ s'.slots.get? y = some (.readOnly m₂) ∧
      (s'.step p (.equal x y)).1 = (s.step p (.equal slot₁ slot₂)).1

theorem copiesEqual (p : Platform) (s : Session) : s.CopiesEqual p where
  clone {a m slot name} hs hn := by
    rw [step_clone hs]
    refine ⟨rfl, findsEqual_of_get? (s.get?_put_self name _) ?_⟩
    exact (s.get?_put_of_ne _ hn).trans hs
  whole {a m slot name} hs hn := by
    rw [step_slice_of_ok hs m.slice_whole]
    refine ⟨rfl, findsEqual_of_get? (s.get?_put_self name _) ?_⟩
    exact (s.get?_put_of_ne _ hn).trans hs
  nested := by
    intro a m slot x y z start length start' length' hs hx hy hz h h' s'
    obtain ⟨m₁, hm₁⟩ := slice_of_step hs h
    have hs₁ := s.get?_put_self x (.ofMemory a m₁)
    rw [step_slice_of_ok hs hm₁] at h'
    obtain ⟨m₂, hm₂⟩ := slice_of_step hs₁ h'
    obtain ⟨hn, hm₃⟩ := Sliceable.slice_slice (x := m) hm₁ hm₂
    have hs' : s' = (s.put x (.ofMemory a m₁)).put y (.ofMemory a m₂) := by
      have h₁ : (s.step p (.slice x slot start length)).2 = s.put x (.ofMemory a m₁) :=
        congrArg Prod.snd (step_slice_of_ok hs hm₁ x)
      change ((s.step p _).2.step p _).2 = _
      rw [h₁, step_slice_of_ok hs₁ hm₂]
      rfl
    have hslot : s'.slots.get? slot = some (.ofMemory a m) := by
      rw [hs', get?_put_of_ne _ _ hy, get?_put_of_ne _ _ hx, hs]
    have hsy : s'.slots.get? y = some (.ofMemory a m₂) := hs' ▸ get?_put_self ..
    rw [step_slice_of_ok hslot hm₃]
    refine ⟨hn, rfl, findsEqual_of_get? ?_ (s'.get?_put_self z _)⟩
    exact (s'.get?_put_of_ne _ hz).trans hsy
  narrow := by
    intro m₁ m₂ slot₁ slot₂ x y h₁ h₂ hne hx hxy s'
    have hs₂ : (s.convert x slot₁ (.readOnly m₁)).2.slots.get? slot₂ = some (.memory m₂) :=
      (s.get?_convert_of_ne _ hx.symm hne.symm).trans h₂
    have hs' : s' =
        ((s.convert x slot₁ (.readOnly m₁)).2.convert y slot₂ (.readOnly m₂)).2 := by
      change ((s.step p _).2.step p _).2 = _
      rw [step_narrow h₁, step_narrow hs₂]
    have hsx : s'.slots.get? x = some (.readOnly m₁) := by
      rw [hs', get?_convert_of_ne _ _ hxy hx]
      exact get?_convert_self ..
    have hsy : s'.slots.get? y = some (.readOnly m₂) := hs' ▸ get?_convert_self ..
    refine ⟨hsx, hsy, ?_⟩
    rw [step_equal (a := .readOnly) hsx hsy, step_equal (a := .writable) h₁ h₂]
    rfl

/-! ## Outcomes -/

/-- Whatever can be asked of both of two memories has the same answer, in every session that has
them, and equal parts of them are equal. -/
structure Interchangeable (p : Platform) (ρ : Sites) (m₁ m₂ : Memory) : Prop where
  span : ∀ {t : Session} {slot₁ slot₂}, t.Has slot₁ m₁ → t.Has slot₂ m₂ → ∀ prog,
    t.step p (.span slot₁ prog) = t.step p (.span slot₂ prog)
  values : ∀ {t : Session} {slot₁ slot₂}, t.Has slot₁ m₁ → t.Has slot₂ m₂ →
    t.step p (.values slot₁) = t.step p (.values slot₂)
  array : ∀ {t : Session} {slot₁ slot₂}, t.Has slot₁ m₁ → t.Has slot₂ m₂ →
    t.step p (.getArray slot₁) = t.step p (.getArray slot₂)
  pin : ∀ {t : Session} {slot₁ slot₂}, t.Has slot₁ m₁ → t.Has slot₂ m₂ → ∀ index,
    t.step p (.pin slot₁ index) = t.step p (.pin slot₂ index)
  slices : ∀ cs : List Cut,
    (∃ err, Cut.applyAll cs m₁ = .error err ∧ Cut.applyAll cs m₂ = .error err) ∨
      ∃ m₁' m₂', Cut.applyAll cs m₁ = .ok m₁' ∧ Cut.applyAll cs m₂ = .ok m₂' ∧
        ρ.same m₁' m₂' = true

theorem interchangeable_self (p : Platform) (ρ : Sites) (m : Memory) :
    Interchangeable p ρ m m where
  span := by
    rintro t slot₁ slot₂ ⟨x₁, a₁, hs₁, hm₁⟩ ⟨x₂, a₂, hs₂, hm₂⟩ prog
    simp only [step, Session.span, hs₁, hs₂, viewOf, hm₁, hm₂]
  values := by
    rintro t slot₁ slot₂ ⟨x₁, a₁, hs₁, hm₁⟩ ⟨x₂, a₂, hs₂, hm₂⟩
    simp only [step, Session.values, hs₁, hs₂, Option.bind_some, hm₁, hm₂]
  array := by
    rintro t slot₁ slot₂ ⟨x₁, a₁, hs₁, hm₁⟩ ⟨x₂, a₂, hs₂, hm₂⟩
    simp only [step, getArray, hs₁, hs₂, hm₁, hm₂]
  pin := by
    rintro t slot₁ slot₂ ⟨x₁, a₁, hs₁, hm₁⟩ ⟨x₂, a₂, hs₂, hm₂⟩ index
    simp only [step, Session.pin, pinThrough, hs₁, hs₂, viewOf, hm₁, hm₂]
  slices cs := by
    rcases Cut.applyAll cs m with err | m'
    · exact .inl ⟨err, rfl, rfl⟩
    · exact .inr ⟨m', m', rfl, rfl, Sites.same_iff.mpr rfl⟩

/-! ## New objects -/

/-- Memories over values that were not there before are unequal to all that are there. -/
structure NewUnequal (p : Platform) (s : Session) : Prop where
  array : ∀ {a c m slot name}, s.slots.get? slot = some (.ofMemory a m) → slot ≠ name →
    c.fits s.store.element = true →
    let s' := (s.step p (.memory name a (.values c))).2
    s'.step p (.equal name slot) = s'.answer (.equality false false)
  manager : ∀ {a c m slot name}, s.slots.get? slot = some (.ofMemory a m) → slot ≠ name →
    c.fits s.store.element = true →
    let s' := s.after p
      [.arrayManager name c, .share name name, .memory name a (.manager name true)]
    s'.step p (.equal name slot) = s'.answer (.equality false false)

theorem knows_backing (hr : s.estate.Regular) (hs : s.slots.get? slot = some (.ofMemory a m)) :
    s.store.Knows m.backing :=
  Handle.backing_of_memory? (Handle.memory?_ofMemory a m) ▸ hr.knows (mem_handles hs)

theorem step_share {k : ManagerId} (hs : s.slots.get? slot = some (.manager k)) (name : String) :
    s.step p (.share name slot) = s.convert name slot (.shared k) := by
  simp only [step, makeShared, hs]

theorem step_take {k : ManagerId} (hs : s.slots.get? slot = some (.shared k)) (name : String)
    (a : Access) : s.step p (.memory name a (.manager slot true)) =
      s.convert name slot (.ofMemory a ⟨.manager k, 0, s.store.managerLength k⟩) := by
  simp only [step, makeMemory, hs, if_true]

theorem newUnequal (p : Platform) (hr : s.estate.Regular) : s.NewUnequal p where
  array := by
    intro a c m slot name hs hn hc s'
    have hs' : s' = (s.withStore (s.store.addContents c)).put name
        (.ofMemory a ⟨.array s.store.blocks.length, 0, c.count⟩) := by
      simp only [s', step, makeMemory, hc, if_true]
      rfl
    have hslot : s'.slots.get? slot = some (.ofMemory a m) := by
      rw [hs', get?_put_of_ne _ _ hn]
      exact hs
    refine step_equal_of_ne (hs' ▸ get?_put_self ..) hslot ?_
    rintro rfl
    exact lt_irrefl _ (knows_backing hr hs)
  manager := by
    intro a c m slot name hs hn hc s'
    let s₁ := s.withStore (s.store.addArrayManager c)
    let k := s.store.managers.length
    let s₂ := s₁.put name (.manager k)
    let s₃ := (s₂.convert name name (.shared k)).2
    let h : Handle := .ofMemory a ⟨.manager k, 0, s₃.store.managerLength k⟩
    have hk : s₁.newestManager = k := by simp [newestManager, s₁, k, withStore]
    have h₁ : (s.step p (.arrayManager name c)).2 = s₂ := by
      simp only [step, makeArrayManager, hc, if_true, makeManager]
      rw [show (s.withStore _).newestManager = k from hk]
      rfl
    have h₂ : (s₂.step p (.share name name)).2 = s₃ :=
      congrArg Prod.snd (step_share (s₁.get?_put_self name _) name)
    have hs₃ : s₃.slots.get? name = some (.shared k) := get?_convert_self ..
    have hs' : s' = (s₃.convert name name h).2 := by
      change (((s.step p _).2.step p _).2.step p _).2 = _
      rw [h₁, h₂, step_take hs₃]
    have hslot : s'.slots.get? slot = some (.ofMemory a m) := by
      rw [hs', get?_convert_of_ne _ _ hn hn, get?_convert_of_ne _ _ hn hn, get?_put_of_ne _ _ hn]
      exact hs
    refine step_equal_of_ne (hs' ▸ get?_convert_self ..) hslot ?_
    rintro rfl
    exact lt_irrefl _ (knows_backing hr hs)

/-! ## Comparisons -/

/-- The comparison of addresses is one of regions. -/
structure ComparesRegions (p : Platform) (s : Session) (ρ : Sites) : Prop where
  answer : ∀ {a slot₁ slot₂ m₁ m₂}, s.slots.get? slot₁ = some (.ofMemory a m₁) →
    s.slots.get? slot₂ = some (.ofMemory a m₂) → s.step p (.equal slot₁ slot₂) =
      s.answer (.equality (ρ.same m₁ m₂) (ρ.hashed m₁ = ρ.hashed m₂))
  region : ∀ {slot₁ slot₂ m₁ m₂}, s.Has slot₁ m₁ → s.Has slot₂ m₂ → (ρ.same m₁ m₂ = true ↔
    (m₁.backing = .nothing ∧ m₂.backing = .nothing ∨
      ∃ b, b ≠ .nothing ∧ m₁.backing = b ∧ m₂.backing = b) ∧
    m₁.start = m₂.start ∧ m₁.len = m₂.len)
  slices : ∀ {slot₁ slot₂ m₁ m₂ cs₁ cs₂ m₁' m₂'}, s.Has slot₁ m₁ → s.Has slot₂ m₂ →
    Cut.applyAll cs₁ m₁ = .ok m₁' → Cut.applyAll cs₂ m₂ = .ok m₂' → (ρ.same m₁' m₂' = true ↔
      m₁.backing = m₂.backing ∧
      m₁.start.toNat + Cut.offset cs₁ = m₂.start.toNat + Cut.offset cs₂ ∧ m₁'.len = m₂'.len)
  different : ∀ {slot₁ slot₂ m₁ m₂}, s.Has slot₁ m₁ → s.Has slot₂ m₂ →
    m₁.backing ≠ m₂.backing → ρ.same m₁ m₂ = false ∧ ρ.hashed m₁ ≠ ρ.hashed m₂
  equivalence : Equivalence fun m₁ m₂ => ρ.same m₁ m₂ = true
  hash : ∀ m₁ m₂, ρ.same m₁ m₂ = true ↔ ρ.hashed m₁ = ρ.hashed m₂

theorem bounds_of_has {e : Element} {ops : List Op} (h : ((start e).after p ops).Has slot m) :
    ((start e).after p ops).store.Bounds m := by
  obtain ⟨x, a, hs, hm⟩ := h
  exact (regular_run p e ops).bounded (mem_handles hs) hm

theorem Settled.comparesRegions {e : Element} {ops : List Op} {ρ : Sites}
    (h : Settled p e ops ρ) : ((start e).after p ops).ComparesRegions p ρ where
  answer := by
    intro a slot₁ slot₂ m₁ m₂ h₁ h₂
    have hs := h.same_iff_eq (has_of_get? h₁).points (has_of_get? h₂).points
    have hsame : ρ.same m₁ m₂ = decide (m₁ = m₂) := by
      rw [Bool.eq_iff_iff, hs, decide_eq_true_iff]
    rw [step_equal h₁ h₂, hsame]
    simp only [← Sites.same_iff, hs]
  region := by
    intro slot₁ slot₂ m₁ m₂ h₁ h₂
    rw [h.same_iff_eq h₁.points h₂.points]
    constructor
    · rintro rfl
      refine ⟨?_, rfl, rfl⟩
      by_cases hn : m₁.backing = .nothing
      · exact .inl ⟨hn, hn⟩
      · exact .inr ⟨_, hn, rfl, rfl⟩
    · rintro ⟨⟨hb₁, hb₂⟩ | ⟨b, -, hb₁, hb₂⟩, hs, hl⟩
      · exact Memory.ext (hb₁.trans hb₂.symm) hs hl
      · exact Memory.ext (hb₁.trans hb₂.symm) hs hl
  slices := by
    intro slot₁ slot₂ m₁ m₂ cs₁ cs₂ m₁' m₂' h₁ h₂ hc₁ hc₂
    obtain ⟨hb₁, hs₁, -⟩ := Memory.applyAll_eq_ok (bounds_of_has h₁) hc₁
    obtain ⟨hb₂, hs₂, -⟩ := Memory.applyAll_eq_ok (bounds_of_has h₂) hc₂
    rw [h.same_iff_eq (hb₁ ▸ h₁.points) (hb₂ ▸ h₂.points), ← hb₁, ← hb₂, ← hs₁, ← hs₂]
    constructor
    · rintro rfl
      exact ⟨rfl, rfl, rfl⟩
    · rintro ⟨hb, hs, hl⟩
      exact Memory.ext hb (UInt64.toNat_inj.mp hs) hl
  different := by
    intro slot₁ slot₂ m₁ m₂ h₁ h₂ hne
    have hn : ¬ρ.same m₁ m₂ = true := by
      rw [h.same_iff_eq h₁.points h₂.points]
      exact ne_of_apply_ne Memory.backing hne
    exact ⟨Bool.eq_false_iff.mpr hn, fun he => hn (Sites.same_iff.mpr he)⟩
  equivalence := ρ.equivalence_same
  hash _ _ := Sites.same_iff

/-- The object of a memory that has gone is not that of any later memory. -/
theorem ne_of_gone (p : Platform) {e : Element} {ops₁ ops₂ : List Op} (ops₃ : List Op)
    (h₁ : ((start e).after p ops₁).Has slot₁ m₁) (hn : m₁.backing ≠ .nothing)
    (hnull : m₁.backing ≠ .manager nullSingleton)
    (hg : ∀ slot x, ((start e).after p (ops₁ ++ ops₂)).slots.get? slot = some x →
      x.backing ≠ m₁.backing)
    (h₂ : ((start e).after p (ops₁ ++ ops₂ ++ ops₃)).Has slot₂ m₂) :
    m₂.backing ≠ m₁.backing := by
  obtain ⟨x₁, a₁, hs₁, hm₁⟩ := h₁
  obtain ⟨x₂, a₂, hs₂, hm₂⟩ := h₂
  have hd : ((start e).after p (ops₁ ++ ops₂)).slots.Distinct := distinct_run p e _
  have hk : ((start e).after p ops₁).store.Knows m₁.backing :=
    Handle.backing_of_memory? hm₁ ▸ (regular_run p e ops₁).knows (mem_handles hs₁)
  have hgone : ((start e).after p (ops₁ ++ ops₂)).estate.Gone m₁.backing := by
    refine ⟨?_, fun x hx => ?_⟩
    · rw [after_append]
      exact (grows_after (distinct_run p e ops₁) ops₂).knows hk
    · obtain ⟨slot, hs⟩ := Directory.exists_get?_of_mem_entries hd hx
      exact hg slot x hs
  rw [after_append] at hs₂
  have hgone' := (Estate.stable_gone p hn hnull).after hd hgone ops₃
  exact Handle.backing_of_memory? hm₂ ▸ hgone'.unheld x₂ (mem_handles hs₂)

/-- Wherever the platform puts arrays and managers, the operation that compares two memories by
their addresses finds them equal if they have no backing or the same one, and the same offset and
length, so equality is an equivalence and goes with the hash. Clones and slices of a memory are
equal to it or to one another when they are the same range of it, whatever chain of slices led
there, and narrowing changes nothing about that. Equal memories are interchangeable in every
session, and so are equal slices of them. Memories over different objects are unequal, be they
empty or of the same contents: those over a new object are unequal to all that are there, and an
object that has gone never comes back, though another one may be put in its place. -/
theorem equality_is_identity (p : Platform) (e : Element) (ops : List Op) (ρ : Sites)
    (h : Settled p e ops ρ) :
    let s := (start e).after p ops
    s.ComparesRegions p ρ ∧ s.CopiesEqual p ∧ s.NewUnequal p ∧
    (∀ slot₁ slot₂ m₁ m₂, s.Has slot₁ m₁ → s.Has slot₂ m₂ → ρ.same m₁ m₂ = true →
      Interchangeable p ρ m₁ m₂) ∧
    ∀ ops₁ ops₂ ops₃ slot₁ slot₂ m₁ m₂, ops = ops₁ ++ ops₂ ++ ops₃ →
      ((start e).after p ops₁).Has slot₁ m₁ → m₁.backing ≠ .nothing →
      m₁.backing ≠ .manager nullSingleton →
      (∀ slot x, ((start e).after p (ops₁ ++ ops₂)).slots.get? slot = some x →
        x.backing ≠ m₁.backing) →
      s.Has slot₂ m₂ → m₂.backing ≠ m₁.backing := by
  intro s
  refine ⟨h.comparesRegions, copiesEqual p s, newUnequal p (regular_run p e ops), ?_, ?_⟩
  · intro slot₁ slot₂ m₁ m₂ h₁ h₂ he
    obtain rfl := (h.same_iff_eq h₁.points h₂.points).mp he
    exact interchangeable_self p ρ m₁
  · rintro ops₁ ops₂ ops₃ slot₁ slot₂ m₁ m₂ rfl h₁ hn hnull hg h₂
    exact ne_of_gone p ops₃ h₁ hn hnull hg h₂

/-- Three memories without values: over an array, over one that was put where another had gone,
and over the null singleton. -/
theorem equality_is_identity_of_reuse :
    let c : Contents := ⟨.u8, 0, []⟩
    let ops : List Op := [.memory "a" .writable (.values c), .memory "b" .writable (.values c)]
    let ops' : List Op := [.drop "a", .memory "c" .writable (.values c), .nullSingleton "n",
      .memory "m" .writable (.manager "n" true)]
    let s := (start .u8).after .bounded (ops ++ ops')
    ∃ ρ ρ', Settled .bounded .u8 ops ρ ∧ Settled .bounded .u8 (ops ++ ops') ρ' ∧
      ρ'.identity (.array 2) = ρ.identity (.array 0) ∧
      s.step .bounded (.equal "b" "c") = s.answer (.equality false false) ∧
      s.step .bounded (.equal "c" "m") = s.answer (.equality false false) ∧
      s.step .bounded (.equal "c" "c") = s.answer (.equality true true) := by
  intro c ops ops' s
  let σ₀ : Site := ⟨4096, 16, 16, by decide, by decide, by decide⟩
  let σ₁ : Site := ⟨4112, 16, 16, by decide, by decide, by decide⟩
  let σ₂ : Site := ⟨4128, 16, 16, by decide, by decide, by decide⟩
  let ρ₁ := Sites.nowhere.place (.array 0) σ₀ []
  let ρ₂ := ρ₁.place (.array 1) σ₁ [.array 0]
  let ρ₃ := ρ₂.place (.array 2) σ₀ [.array 1]
  let ρ₄ := ρ₃.place (.manager 0) σ₂ [.array 1, .array 2]
  have h₂ : Settled .bounded .u8 ops ρ₂ :=
    (Settled.initial.place (.memory "a" .writable (.values c)) rfl (by decide)
      (by decide +kernel)).place (.memory "b" .writable (.values c)) rfl (by decide)
        (by decide +kernel)
  have h₄ : Settled .bounded .u8 (ops ++ ops') ρ₄ :=
    (((h₂.keep (.drop "a") (by decide +kernel)).place (.memory "c" .writable (.values c))
      rfl (by decide) (by decide +kernel)).place (.nullSingleton "n") rfl (by decide)
        (by decide +kernel)).keep (.memory "m" .writable (.manager "n" true)) (by decide +kernel)
  have hb : s.slots.get? "b" = some (.memory ⟨.array 1, 0, 0⟩) := by decide +kernel
  have hc : s.slots.get? "c" = some (.memory ⟨.array 2, 0, 0⟩) := by decide +kernel
  have hm : s.slots.get? "m" = some (.memory ⟨.manager 0, 0, 0⟩) := by decide +kernel
  obtain ⟨hs, -⟩ := equality_is_identity .bounded .u8 (ops ++ ops') ρ₄ h₄
  obtain ⟨hbc, hbc'⟩ := hs.different ⟨_, _, hb, rfl⟩ ⟨_, _, hc, rfl⟩ nofun
  obtain ⟨hcm, hcm'⟩ := hs.different ⟨_, _, hc, rfl⟩ ⟨_, _, hm, rfl⟩ nofun
  refine ⟨ρ₂, ρ₄, h₂, h₄, rfl, ?_, ?_, ?_⟩
  · rw [hs.answer (a := .writable) hb hc, hbc, decide_eq_false hbc']
  · rw [hs.answer (a := .writable) hc hm, hcm, decide_eq_false hcm']
  · rw [hs.answer (a := .writable) hc hc, hs.equivalence.refl, decide_eq_true rfl]

end Session

end LargeBuffers
