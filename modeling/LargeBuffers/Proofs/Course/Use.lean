import LargeBuffers.Proofs.Course
import LargeBuffers.Proofs.Release

/-! # The courses of operations that use handles -/

namespace LargeBuffers.Session

variable {p : Platform} {s s' : Session} {slot dest : String}

/-! ## Writing -/

def Writes (s : Session) (dest : String) (s' : Session) : Prop :=
  s'.slots = s.slots ∧ ∃ h, s.slots.get? dest = some h ∧ s.estate.Writing h s'.estate

theorem spanMut_cases (hd : s.slots.Distinct) (slot : String) (prog : Program) :
    Course p s (s.spanMut slot prog).2 ∨ s.Writes slot (s.spanMut slot prog).2 := by
  simp only [spanMut]
  split
  · rename_i h hs
    split
    · rename_i v hv
      rw [viewMutOf_eq] at hv
      exact .inr ⟨rfl, h, hs, .program (mem_handles hs) hv⟩
    · exact .inl (.refl hd)
  · exact .inl (.refl hd)

theorem copyView_eq_ok {source v : View} (h : s.copyView source v = .ok s') :
    checkCopy source.window.len v.window.len = .ok () ∧
      s' = s.withStore (s.store.write v
        (v.window.write (s.store.read source).bytes (s.store.bytesOf v))) := by
  obtain ⟨⟨⟩, hc, hs⟩ := bind_eq_ok_iff.mp h
  exact ⟨hc, (Except.ok.inj hs).symm⟩

theorem writes_of_copyView {h h' : Handle} {a : Access} {m m' : Memory} {v v' : View}
    (hs : s.slots.get? slot = some h) (hm : h.memory? = some (a, m))
    (hs' : s.slots.get? dest = some h') (hm' : h'.writable? = some m')
    (hv : s.store.view m = .ok v) (hv' : s.store.viewMut m' (s.sole m'.backing) = .ok v')
    (hc : s.copyView v v' = .ok s') : s.Writes dest s' := by
  obtain ⟨hl, rfl⟩ := copyView_eq_ok hc
  have hw : s.estate.viewMutOf h' = .ok v' := by
    rw [← viewMutOf_eq]
    unfold viewMutOf
    rw [hm']
    exact hv'
  exact ⟨rfl, h', hs', .copy (mem_handles hs') hw (mem_handles hs) hm hv hl⟩

theorem copyEnds_eq_ok {m m' : Memory} (h : s.copyEnds slot dest = .ok (m, m')) :
    (∃ x a, s.slots.get? slot = some x ∧ x.memory? = some (a, m)) ∧
      ∃ x, s.slots.get? dest = some x ∧ x.writable? = some m' := by
  unfold copyEnds at h
  split at h
  · rename_i m₁ m₂ hs hs'
    split at h
    · cases h
    · cases h
      exact ⟨⟨_, _, hs, rfl⟩, Option.bind_eq_some_iff.mp hs'⟩
  · rename_i m₁ m₂ hs hs'
    split at h
    · cases h
    · cases h
      exact ⟨⟨_, _, hs, rfl⟩, Option.bind_eq_some_iff.mp hs'⟩
  · cases h

theorem copyViews_eq_ok {v v' : View} (h : s.copyViews slot dest = .ok (v, v')) :
    ∃ m m', s.copyEnds slot dest = .ok (m, m') ∧ s.store.view m = .ok v ∧
      s.store.viewMut m' (s.sole m'.backing) = .ok v' := by
  obtain ⟨⟨m, m'⟩, he, h⟩ := bind_eq_ok_iff.mp h
  obtain ⟨v₁, hv, h⟩ := bind_eq_ok_iff.mp h
  obtain ⟨v₂, hv', h⟩ := bind_eq_ok_iff.mp h
  obtain ⟨rfl, rfl⟩ := Prod.mk.inj (Except.ok.inj h)
  exact ⟨m, m', he, hv, hv'⟩

theorem writes_of_copyViews {v v' : View} (hv : s.copyViews slot dest = .ok (v, v'))
    (hc : s.copyView v v' = .ok s') : s.Writes dest s' := by
  obtain ⟨m, m', he, hv, hv'⟩ := copyViews_eq_ok hv
  obtain ⟨⟨x, a, hs, hm⟩, x', hs', hm'⟩ := copyEnds_eq_ok he
  exact writes_of_copyView hs hm hs' hm' hv hv' hc

theorem copy_cases (hd : s.slots.Distinct) (slot dest : String) :
    Course p s (s.copy slot dest).2 ∨ s.Writes dest (s.copy slot dest).2 := by
  simp only [copy]
  split
  · rename_i v v' hv
    split
    · rename_i s' hc
      exact .inr (writes_of_copyViews hv hc)
    · exact .inl (.refl hd)
  · exact .inl (.refl hd)

theorem tryCopy_cases (hd : s.slots.Distinct) (slot dest : String) :
    Course p s (s.tryCopy slot dest).2 ∨ s.Writes dest (s.tryCopy slot dest).2 := by
  simp only [tryCopy]
  split
  · rename_i v v' hv
    split
    · rename_i s' hc
      exact .inr (writes_of_copyViews hv hc)
    · exact .inl (.refl hd)
  · exact .inl (.refl hd)

theorem copyToSpan_cases (hd : s.slots.Distinct) (slot dest : String) :
    Course p s (s.copyToSpan slot dest).2 ∨ s.Writes dest (s.copyToSpan slot dest).2 := by
  simp only [copyToSpan]
  split
  · rename_i m m' hs hs'
    obtain ⟨h', hs', hm'⟩ := Option.bind_eq_some_iff.mp hs'
    split
    · exact .inl (.refl hd)
    · exact .inl (.refl hd)
    · rename_i v' v hv' hv
      split
      · rename_i s' hc
        exact .inr (writes_of_copyView hs rfl hs' hm' hv hv' hc)
      · exact .inl (.refl hd)
  · exact .inl (.refl hd)

/-! ## Pins -/

/-- A pin or its end has been noted of some managers, or nothing has happened. -/
def Noted (st st' : Store) : Prop :=
  ∃ events : List Event, (∀ x ∈ events, (∃ k i, x = .pinned k i) ∨ ∃ k, x = .unpinned k) ∧
    st' = { st with journal := st.journal ++ events }

theorem Noted.refl (st : Store) : Noted st st := ⟨[], by simp, by simp⟩

theorem Noted.trans {st₁ st₂ st₃ : Store} (h : Noted st₁ st₂) (h' : Noted st₂ st₃) :
    Noted st₁ st₃ := by
  obtain ⟨es, he, rfl⟩ := h
  obtain ⟨es', he', rfl⟩ := h'
  exact ⟨es ++ es', fun x hx => (List.mem_append.mp hx).elim (he x) (he' x), by simp⟩

theorem noted_pinned (st : Store) (k : ManagerId) (index : UInt64) :
    Noted st (st.note (.pinned k index)) := ⟨[.pinned k index], by simp, rfl⟩

theorem noted_pinManager (st : Store) (k : ManagerId) (index : UInt64) :
    Noted st (st.pinManager k index).2 := by
  have hp := noted_pinned st k index
  unfold Store.pinManager
  repeat' split
  all_goals first | exact .refl st | exact hp

theorem noted_pin (st : Store) (m : Memory) : Noted st (st.pin m).2 := by
  unfold Store.pin
  split
  · exact .refl st
  · exact .refl st
  · exact noted_pinManager ..

theorem noted_unpinManager (st : Store) (k : ManagerId) : Noted st (st.unpinManager k) := by
  unfold Store.unpinManager
  split
  · exact .refl st
  · exact .refl st
  · exact ⟨[.unpinned k], by simp, rfl⟩

theorem noted_unpin (st : Store) (pin : Pin) : Noted st (st.unpin pin) := by
  unfold Store.unpin
  split
  · exact noted_unpinManager ..
  · exact .refl st

theorem Noted.course {st : Store} (hd : s.slots.Distinct) (h : Noted s.store st) :
    Course p s (s.withStore st) := by
  obtain ⟨es, he, rfl⟩ := h
  exact .of_deed hd (.calls he)

theorem pinThrough_of_manager {x : Handle} {k : ManagerId} (hb : x.backing = .manager k)
    (index : Option UInt64) : (∃ f, s.pinThrough x index = .error f) ∨
      ∃ i, s.pinThrough x index = .ok (s.store.pinManager k i) := by
  unfold pinThrough
  split
  · rename_i m hm
    have hb : m.backing = .manager k := (Handle.backing_of_memory? hm).symm.trans hb
    exact .inr ⟨m.start, by simp only [Store.pin, hb]⟩
  · rename_i j i _ hj
    obtain rfl := Backing.manager.inj ((Handle.backing_of_manager? hj).symm.trans hb)
    exact .inr ⟨i, rfl⟩
  · exact .inl ⟨_, rfl⟩
  · exact .inl ⟨_, rfl⟩

theorem noted_pinThrough {h : Handle} {index : Option UInt64} {r : Except Error Pin × Store}
    (hr : s.pinThrough h index = .ok r) : Noted s.store r.2 := by
  unfold pinThrough at hr
  split at hr
  · cases hr
    exact noted_pin ..
  · cases hr
    exact noted_pinManager ..
  · cases hr
  · cases hr

theorem course_pin (hd : s.slots.Distinct) (slot : String) (index : Option UInt64) :
    Course p s (s.pin slot index).2 := by
  simp only [pin]
  split
  · exact .refl hd
  · split
    · rename_i pin st hp
      exact ((noted_pinThrough hp).trans (noted_unpin st pin)).course hd
    · rename_i e st hp
      exact (noted_pinThrough hp).course hd
    · exact .refl hd

theorem course_unpin (hd : s.slots.Distinct) (slot : String) : Course p s (s.unpin slot).2 := by
  simp only [unpin]
  split
  · exact (noted_unpinManager ..).course hd
  · exact .refl hd

theorem course_calls (hd : s.slots.Distinct) (probe : String) : Course p s (s.calls probe).2 := by
  simp only [calls]
  split
  · exact .of_deed hd .nothing
  · exact .refl hd

/-! ## Giving back -/

theorem course_disposeOwner {m : Memory} (hd : s.slots.Distinct)
    (hs : s.slots.get? slot = some (.owner m)) :
    Course p s ((s.disposeBacking m).drop slot) := by
  simp only [disposeBacking]
  split
  · rename_i k hk
    split
    · rename_i ho
      rw [hk, sole_eq] at ho
      have hc := handles_eq_cons hd hs
      have he : (s.withStore (s.store.dispose k)).drop slot =
          (s.remove slot).withStore (s.store.dispose k) := by
        have hl : (s.withStore (s.store.dispose k)).slots.get? slot = some (.owner m) := hs
        rw [drop, hl]
        -- The last handle went with the owner, and nothing is left to give up.
        simp only [discard, Handle.backing, hk, retire]
        split
        · exact congrArg (s.remove slot).withStore (s.store.giveUp_dispose k)
        · rfl
      rw [he]
      exact .of_deed (hd.erase slot) (.disposeOwner hc hk ho)
    · exact .drop hd
  · exact .drop hd

theorem course_dispose (hd : s.slots.Distinct) (slot : String) :
    Course p s (s.dispose slot).2 := by
  simp only [dispose]
  split
  · rename_i m hs
    exact course_disposeOwner hd hs
  · rename_i k hs
    exact .of_deed hd (.dispose (mem_handles hs) rfl (.inl rfl))
  · rename_i k hs
    split
    · rename_i ho
      rw [sole_eq] at ho
      exact .of_deed hd (.dispose (mem_handles hs) rfl (.inr ho))
    · exact .refl hd
  · exact .refl hd

theorem course_dropSlot (hd : s.slots.Distinct) (slot : String) :
    Course p s (s.dropSlot slot).2 := by
  simp only [dropSlot]
  split
  · exact .drop hd
  · exact .refl hd

theorem losses_dropAll (hd : s.slots.Distinct) (slots : List String) (n : Nat) :
    let s' := (slots.foldl (fun (x : Nat × Session) slot =>
      if (x.2.slots.get? slot).isSome then (x.1 + 1, x.2.drop slot) else x) (n, s)).2
    s'.slots.Distinct ∧ Estate.Losses s.estate s'.estate := by
  induction slots generalizing s n with
  | nil => exact ⟨hd, .refl⟩
  | cons slot slots ih =>
    rw [List.foldl_cons]
    split
    · have hd' : (s.drop slot).slots.Distinct := by
        rw [slots_drop]
        exact hd.erase slot
      obtain ⟨h, hl⟩ := ih hd' (n + 1)
      exact ⟨h, (losses_drop hd slot).trans hl⟩
    · exact ih hd n

theorem course_dropAll (hd : s.slots.Distinct) (slots : List String) :
    Course p s (s.dropAll slots).2 := by
  obtain ⟨h, hl⟩ := losses_dropAll hd slots 0
  exact ⟨h, _, .nothing, hl⟩

theorem course_release (hd : s.slots.Distinct) (slot : String) :
    Course p s (s.release slot).2 := by
  simp only [release]
  split
  · exact .drop hd
  · exact .refl hd

theorem course_intoInner (hd : s.slots.Distinct) (slot : String) :
    Course p s (s.intoInner slot).2 := by
  simp only [intoInner]
  split
  · rename_i k hs
    split
    · rename_i b live hk
      have he : s.drop slot = s.remove slot := by
        have hg : s.store.giveUp k = s.store := s.store.giveUp_eq_self (by simp [hk])
        rw [drop, hs]
        simp only [discard, Handle.backing, retire]
        split
        · exact congrArg (s.remove slot).withStore hg
        · rfl
      rw [← he]
      exact .drop hd
    · exact .refl hd
  · exact .refl hd

end LargeBuffers.Session
