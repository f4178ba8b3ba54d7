import LargeBuffers.Proofs.Atomic
import LargeBuffers.Proofs.Prune

/-! # Failures

An operation that fails leaves the session as it was, and so does a request of a span program
that is refused. A probe is told of a pin before it refuses it, and remembers the call.
-/

namespace LargeBuffers

/-- Whether an operation has failed: it has no answer, or its answer is that it did nothing. -/
def Op.failed : Op → Except Failure Answer → Bool
  | _, .error _ => true
  | .tryAcquire .., .ok (.flag b) => !b
  | .tryCopy .., .ok (.flag b) => !b
  | _, .ok _ => false

theorem Op.answer_of_failed {op : Op} {a : Answer} (h : op.failed (.ok a) = true) :
    a = .flag false ∧ ((∃ name slot, op = .tryAcquire name slot) ∨
      ∃ slot dest, op = .tryCopy slot dest) := by
  unfold failed at h
  split at h
  · rename_i he
    cases he
  · rename_i name slot b he
    cases he
    cases b with
    | false => exact ⟨rfl, .inl ⟨name, slot, rfl⟩⟩
    | true => cases h
  · rename_i slot dest b he
    cases he
    cases b with
    | false => exact ⟨rfl, .inr ⟨slot, dest, rfl⟩⟩
    | true => cases h
  · cases h

namespace Store

variable {st st' : Store}

theorem pinManager_eq_error {k : ManagerId} {i : UInt64} {e : Error}
    (h : st.pinManager k i = (.error e, st')) :
    st' = st ∨ ∃ pr, st.managers[k]? = some (.probe pr) ∧ st' = st.note (.pinned k i) := by
  unfold pinManager at h
  split at h
  · split at h <;> cases h
    exact .inl rfl
  · split at h <;> cases h
    exact .inl rfl
  · split at h
    · split at h
      · split at h <;> cases h
        exact .inl rfl
      · cases h
        exact .inl rfl
    · cases h
      exact .inl rfl
  · rename_i pr hk
    split at h <;> cases h
    exact .inr ⟨pr, hk, rfl⟩
  · cases h
    exact .inl rfl

theorem pin_eq_error {m : Memory} {e : Error} (h : st.pin m = (.error e, st')) :
    st' = st ∨ ∃ k i pr, m.backing = .manager k ∧ st.managers[k]? = some (.probe pr) ∧
      st' = st.note (.pinned k i) := by
  unfold pin at h
  split at h
  · cases h
  · cases h
  · rename_i k hb
    rcases pinManager_eq_error h with rfl | ⟨pr, hk, rfl⟩
    · exact .inl rfl
    · exact .inr ⟨k, _, pr, hb, hk, rfl⟩

theorem setBytes_contentsOf (st : Store) (b : BlockId) :
    st.setBytes b (st.contentsOf b).bytes = st := by
  have hb : st.blocks.modify b
      (fun block => { block with contents := { block.contents with
        bytes := (st.contentsOf b).bytes } }) = st.blocks := by
    apply List.ext_getElem?
    intro i
    rw [List.getElem?_modify]
    split
    · subst i
      unfold contentsOf
      cases st.blocks[b]? <;> rfl
    · simp
  unfold setBytes
  rw [hb]

theorem write_bytesOf (st : Store) (v : View) : st.write v (st.bytesOf v) = st := by
  unfold write bytesOf
  split
  · exact setBytes_contentsOf ..
  · rfl

end Store

namespace Session

variable {p : Platform} {s s' : Session} {slot : String}

/-! ## Answers that are failures -/

theorem tryAcquire_eq_false {name slot : String}
    (h : (s.tryAcquire name slot).1 = .ok (.flag false)) : (s.tryAcquire name slot).2 = s := by
  unfold tryAcquire at h ⊢
  split at h
  · split at h
    · split at h
      · cases h
      · rename_i hr
        simp only [Store.handOff_eq_none hr]
        rfl
    · cases h
  · cases h

theorem tryCopy_eq_false {slot dest : String}
    (h : (s.tryCopy slot dest).1 = .ok (.flag false)) : (s.tryCopy slot dest).2 = s := by
  unfold tryCopy at h ⊢
  split at h
  · split at h
    · cases h
    · rfl
  · cases h

/-! ## Pins -/

/-- A probe that was asked for a pin remembers the call, also if it refuses. -/
inductive Probed (s : Session) : Op → Session → Prop
  | pin {slot : String} {index : Option UInt64} {x : Handle} {k : ManagerId} {i : UInt64}
      {pr : Probe} (hs : s.slots.get? slot = some x) (hb : x.backing = .manager k)
      (hk : s.store.managers[k]? = some (.probe pr)) :
      s.Probed (.pin slot index) (s.withStore (s.store.note (.pinned k i)))

theorem pin_eq_error {index : Option UInt64} {f : Failure} (h : s.pin slot index = (.error f, s')) :
    s' = s ∨ s.Probed (.pin slot index) s' := by
  unfold pin at h
  split at h
  · cases h
    exact .inl rfl
  · rename_i x hs
    split at h
    · cases h
    · rename_i e st hp
      cases h
      unfold pinThrough at hp
      split at hp
      · rename_i a m hm
        rcases Store.pin_eq_error (Except.ok.inj hp) with rfl | ⟨k, i, pr, hb, hk, rfl⟩
        · exact .inl rfl
        · exact .inr (.pin hs ((Handle.backing_of_memory? hm).trans hb) hk)
      · rename_i k i hm hk
        rcases Store.pinManager_eq_error (Except.ok.inj hp) with rfl | ⟨pr, hpr, rfl⟩
        · exact .inl rfl
        · exact .inr (.pin hs (Handle.backing_of_manager? hk) hpr)
      · cases hp
      · cases hp
    · cases h
      exact .inl rfl

/-! ## Operations -/

/-- What a failed operation leaves: every object, handle and counter as it was, the journal
without a new line or release, and not even a call more unless a probe was asked. -/
structure Kept (s : Session) (op : Op) (s' : Session) : Prop where
  frame : s' = s.withStore { s.store with journal := s'.store.journal }
  lines : s'.store.journal.filterMap Event.line? = s.store.journal.filterMap Event.line?
  releases : ∀ o, releasesTo o s'.store.journal = releasesTo o s.store.journal
  finalReleases : ∀ i, finalReleases i s'.store.journal = finalReleases i s.store.journal
  exact : s' = s ∨ s.Probed op s'

theorem Kept.refl (s : Session) (op : Op) : s.Kept op s :=
  ⟨rfl, rfl, fun _ => rfl, fun _ => rfl, .inl rfl⟩

theorem Probed.kept {op : Op} (h : s.Probed op s') : s.Kept op s' := by
  refine ⟨?_, ?_, ?_, ?_, .inr h⟩
  all_goals cases h
  · rfl
  · simp [withStore, Event.line?]
  · simp [withStore, releasesTo]
  · simp [withStore, LargeBuffers.finalReleases]

theorem kept_of_failed {op : Op} (h : op.failed (s.step p op).1 = true) :
    s.Kept op (s.step p op).2 := by
  cases hr : (s.step p op).1 with
  | error f =>
    by_cases hp : ∃ slot index, op = .pin slot index
    · obtain ⟨slot, index, rfl⟩ := hp
      rcases pin_eq_error (Prod.ext hr rfl) with he | hp
      · have hs : (s.step p (.pin slot index)).2 = s := he
        rw [hs]
        exact .refl s _
      · exact hp.kept
    · push Not at hp
      rw [(atomic_step hp).snd_eq hr]
      exact .refl s op
  | ok a =>
    rw [hr] at h
    obtain ⟨rfl, ⟨name, slot, rfl⟩ | ⟨slot, dest, rfl⟩⟩ := Op.answer_of_failed h
    · have hs : (s.step p (.tryAcquire name slot)).2 = s := tryAcquire_eq_false hr
      rw [hs]
      exact .refl s _
    · have hs : (s.step p (.tryCopy slot dest)).2 = s := tryCopy_eq_false hr
      rw [hs]
      exact .refl s _

/-! ## Span programs -/

theorem spanMut_prune {prog : Program} {t : Transcript}
    (h : s.spanMut slot prog = (.ok (.transcript t), s')) :
    s.spanMut slot (prog.prune t) = (.ok (.transcript t.prune), s') := by
  unfold spanMut at h ⊢
  split at h
  · split at h
    · cases h
      simp only [Store.runOn, Program.run_prune]
      rfl
    · cases h
  · cases h

theorem spanMut_eq_of_prune_eq_done {prog : Program} {t : Transcript}
    (h : s.spanMut slot prog = (.ok (.transcript t), s')) (ht : t.prune = .done) : s' = s := by
  unfold spanMut at h
  split at h
  · split at h
    · cases h
      rw [Program.run_eq_of_prune_eq_done ht, Store.write_bytesOf]
      rfl
    · cases h
  · cases h

/-- Whatever fails changes nothing: not an operation of a session, and not a request of a span
program, which might as well have been left out. -/
theorem failure_changes_nothing (p : Platform) (s : Session) :
    (∀ op : Op, op.failed (s.step p op).1 = true → s.Kept op (s.step p op).2) ∧
    (∀ slot prog t s', s.step p (.spanMut slot prog) = (.ok (.transcript t), s') →
      s.step p (.spanMut slot (prog.prune t)) = (.ok (.transcript t.prune), s') ∧
        (t.prune = .done → s' = s)) ∧
    (∀ e a src array prog array',
      (∀ f, Source.run e a src array prog = (.error f, array') → array' = array) ∧
      ∀ t, Source.run e a src array prog = (.ok t, array') →
        Source.run e a src array (prog.prune t) = (.ok t.prune, array') ∧
          (t.prune = .done → array' = array)) ∧
    ∀ a w bytes dest dest',
      (∀ e, (Query.copyTo dest).answer a w bytes = .ok (.copied (some e) dest') → dest' = dest) ∧
      ((Query.tryCopyTo dest).answer a w bytes = .ok (.offered false dest') → dest' = dest) := by
  refine ⟨?_, ?_, ?_, ?_⟩
  · intro op h
    exact kept_of_failed h
  · intro slot prog t s' h
    constructor
    · exact spanMut_prune h
    · exact spanMut_eq_of_prune_eq_done h
  · intro e a src array prog array'
    constructor
    · intro f h
      exact Source.run_eq_error h
    · intro t h
      constructor
      · exact Source.run_prune h
      · exact Source.run_eq_of_prune_eq_done h
  · intro a w bytes dest dest'
    constructor
    · intro e h
      exact Query.eq_of_copyTo_refused h
    · intro h
      exact Query.eq_of_tryCopyTo_refused h

/-- A write to a shared memory, and a program with an access past the end. -/
theorem failure_changes_nothing_of_shared :
    let ops : List Op := [.memory "m" .writable (.values ⟨.u8, 2, [1, 2]⟩), .clone "n" "m",
      .memory "k" .writable (.values ⟨.u8, 2, [7, 8]⟩)]
    let s := (start .u8).after .bounded ops
    let op : Op := .spanMut "m" (.update .clear .done)
    let prog : Program := .query (.index 9) (.update .reverse .done)
    (s.step .bounded op).1 = .error (.error .sharedBacking) ∧
      s.Kept op (s.step .bounded op).2 ∧
      s.step .bounded (.spanMut "k" (.update .reverse .done)) =
        (.ok (.transcript (.answered .done .done)), (s.step .bounded (.spanMut "k" prog)).2) := by
  intro ops s op prog
  have hf : (s.step .bounded op).1 = .error (.error .sharedBacking) := by decide +kernel
  obtain ⟨hk, hp, -, -⟩ := failure_changes_nothing .bounded s
  have ht : (s.step .bounded (.spanMut "k" prog)).1 =
      .ok (.transcript (.refused (indexPanic 2 9) (.answered .done .done))) := by decide +kernel
  refine ⟨hf, hk op (by rw [hf]; rfl), ?_⟩
  exact (hp "k" prog _ _ (Prod.ext ht rfl)).1

end Session

end LargeBuffers
