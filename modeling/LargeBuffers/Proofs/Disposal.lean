import LargeBuffers.Proofs.Accounts.Step
import LargeBuffers.Proofs.Contract
import LargeBuffers.Proofs.LastHandle
import LargeBuffers.Proofs.Unreferenced.Step

/-! # Disposing of an owner

An owner is disposed of by telling the manager first and dropping the handle then. The manager has
nothing left to give up when the handle goes, so this leads where dropping the handle leads.
-/

namespace LargeBuffers

/-- Disposing of a manager is giving it up, except that one of an array is told that it is gone. -/
theorem Store.Stage.dispose_cases {st : Store} {k : ManagerId} (h : st.Stage k)
    (hs : st.managerState k = .live) : st.dispose k = st.giveUp k ∨
      ∃ b, st.dispose k = st.setManager k (.array b false) ∧ st.giveUp k = st := by
  cases h with
  | @array b hk =>
    exact .inr ⟨b, by simp only [Store.dispose, hk], by simp only [giveUp, hk]⟩
  | native hk => exact .inl (by simp only [Store.dispose, hk])
  | null hk | arrayReleased hk | nativeReleased hk => simp [managerState, hk] at hs

theorem Store.giveUp_of_not_live {st : Store} {k : ManagerId} (hs : st.managerState k ≠ .live) :
    st.giveUp k = st := by
  refine st.giveUp_eq_self fun r hk => hs ?_
  simp only [managerState, hk, if_true]

theorem Store.references_giveUp {st : Store} {k : ManagerId} {r : RegionId} {g : Region}
    {i : ImportationId} (hk : st.managers[k]? = some (.native r true))
    (hg : st.regions[r]? = some g) (ho : g.owner = .importation i)
    (hi : i < st.importations.length) : (st.giveUp k).references i = st.references i - 1 := by
  have himp := List.getElem?_eq_getElem hi
  have he : (st.giveUp k).importations = st.importations.set i st.importations[i].dropped := by
    simp only [giveUp, hk, hg, release, ho]
    exact importations_dropReference himp
  rw [references_eq himp]
  simp [references, he, hi, Importation.dropped]

namespace Session

/-! ## Sessions that nothing tells apart -/

/-- The sessions differ in the entry of one manager without handles at most. -/
def Matches (s s' : Session) : Prop :=
  s' = s ∨ ∃ k m, s.Unreferenced k ∧ s' = s.withManager k m

variable {p : Platform} {s s' : Session} {slot : String} {x : Handle} {m : Memory}

namespace Matches

theorem slots (h : s.Matches s') : s'.slots = s.slots := by
  obtain rfl | ⟨k, m, -, rfl⟩ := h <;> rfl

theorem journal (h : s.Matches s') : s'.store.journal = s.store.journal := by
  obtain rfl | ⟨k, m, -, rfl⟩ := h <;> rfl

theorem answer (h : s.Matches s') (p : Platform) (op : Op) :
    (s'.step p op).1 = (s.step p op).1 := by
  obtain rfl | ⟨k, m, hk, rfl⟩ := h
  · rfl
  · rw [step_withManager hk]
    rfl

theorem after (h : s.Matches s') (hd : s.slots.Distinct) (p : Platform) (ops : List Op) :
    (s.after p ops).Matches (s'.after p ops) := by
  obtain rfl | ⟨k, m, hk, rfl⟩ := h
  · exact .inl rfl
  · obtain ⟨he, hu⟩ := after_withManager (m := m) hk hd p ops
    exact .inr ⟨k, m, hu, he⟩

end Matches

/-! ## The handle goes -/

theorem holders_remove (hd : s.slots.Distinct) (hs : s.slots.get? slot = some x) :
    s.holders x.backing = (s.remove slot).holders x.backing + 1 := by
  have hc := Estate.holders_cons s.estate x (s.remove slot).estate.handles x.backing
  rw [← handles_eq_cons hd hs, if_pos rfl] at hc
  rw [holders_eq, holders_eq]
  exact hc

theorem sole_iff_remove (hd : s.slots.Distinct) (hs : s.slots.get? slot = some x) :
    s.sole x.backing = true ↔ (s.remove slot).holders x.backing = 0 := by
  rw [sole, holders_remove hd hs, beq_iff_eq, Nat.add_eq_right]

/-- What becomes of an owner, by disposal and by dropping it. -/
inductive Ending (s : Session) (slot : String) (m : Memory) : Prop
  | kept : s.releases m = false → (s.dispose slot).2 = s.remove slot →
      s.drop slot = s.remove slot → Ending s slot m
  | array {b : BlockId} : m.backing = .array b → s.releases m = true →
      (s.remove slot).holders (.array b) = 0 → (s.dispose slot).2 = s.remove slot →
      s.drop slot = s.remove slot → Ending s slot m
  | manager {k : ManagerId} : m.backing = .manager k → s.releases m = true →
      (s.remove slot).holders (.manager k) = 0 → s.store.Stage k →
      s.store.managerState k = .live →
      (s.dispose slot).2 = (s.remove slot).withStore (s.store.dispose k) →
      s.drop slot = (s.remove slot).withStore (s.store.giveUp k) → Ending s slot m

theorem dropSlot_of_get? (hs : s.slots.get? slot = some x) :
    s.dropSlot slot = (s.dropSlot slot).2.answer .done := by
  simp only [dropSlot, hs]
  rfl

section Owner

variable (hs : s.slots.get? slot = some (.owner m))

include hs

theorem dispose_owner :
    s.dispose slot = (s.dispose slot).2.answer (.flag (s.releases m)) := by
  simp only [dispose, hs]
  rfl

theorem dispose_of_plain (hb : ∀ k, m.backing ≠ .manager k) :
    (s.dispose slot).2 = s.remove slot ∧ s.drop slot = s.remove slot := by
  have hdrop : s.drop slot = s.remove slot := by
    simp only [drop, hs, discard, Handle.backing]
  refine ⟨?_, hdrop⟩
  rw [← hdrop]
  simp only [dispose, hs, disposeBacking]
  rfl

/-- Nothing is left to give up after the manager of the last handle has been disposed of. -/
theorem dispose_of_last {k : ManagerId} (hb : m.backing = .manager k)
    (ho : s.sole (.manager k) = true) (hz : (s.remove slot).holders (.manager k) = 0) :
    (s.dispose slot).2 = (s.remove slot).withStore (s.store.dispose k) ∧
      s.drop slot = (s.remove slot).withStore (s.store.giveUp k) := by
  have hs' : (s.withStore (s.store.dispose k)).slots.get? slot = some (.owner m) := hs
  have hz' : ((s.withStore (s.store.dispose k)).remove slot).holders (.manager k) = 0 := hz
  constructor
  · simp only [dispose, hs, disposeBacking, hb, ho, if_true, drop, hs', discard, Handle.backing,
      retire, hz']
    exact congrArg (s.remove slot).withStore (s.store.giveUp_dispose k)
  · simp only [drop, hs, discard, Handle.backing, hb, retire, hz, if_true]
    rfl

theorem dispose_of_others {k : ManagerId} (hb : m.backing = .manager k)
    (ho : s.sole (.manager k) = false) (hz : (s.remove slot).holders (.manager k) ≠ 0) :
    (s.dispose slot).2 = s.remove slot ∧ s.drop slot = s.remove slot := by
  have hdrop : s.drop slot = s.remove slot := by
    simp only [drop, hs, discard, Handle.backing, hb, retire, hz, if_false]
  refine ⟨?_, hdrop⟩
  rw [← hdrop]
  simp only [dispose, hs, disposeBacking, hb, ho, Bool.false_eq_true, if_false]
  rfl

theorem ending (hd : s.slots.Distinct) (hr : s.estate.Regular) (hh : s.store.Honest m.backing) :
    s.Ending slot m := by
  have hsole : s.sole m.backing = true ↔ (s.remove slot).holders m.backing = 0 :=
    sole_iff_remove hd hs
  rcases hb : m.backing with _ | b | k
  · obtain ⟨hdisp, hdrop⟩ := dispose_of_plain hs (by simp [hb])
    exact .kept (by simp only [releases, hb, Bool.and_false]) hdisp hdrop
  · obtain ⟨hdisp, hdrop⟩ := dispose_of_plain hs (by simp [hb])
    have hrel : s.releases m = s.sole (.array b) := by simp only [releases, hb, Bool.and_true]
    rw [hb] at hsole
    by_cases ho : s.sole (.array b) = true
    · exact .array hb (hrel.trans ho) (hsole.mp ho) hdisp hdrop
    · exact .kept (hrel.trans (Bool.eq_false_iff.mpr ho)) hdisp hdrop
  · obtain ⟨roles, hl⟩ := hr.layout
    rw [hb] at hh hsole
    have hg : s.store.Stage k := hl.stage (hr.order.tenure.known (mem_handles hs) hb) hh
    have hrel : s.releases m =
        (s.sole (.manager k) && decide (s.store.managerState k = .live)) := by
      simp only [releases, hb]
    by_cases ho : s.sole (.manager k) = true
    · obtain ⟨hdisp, hdrop⟩ := dispose_of_last hs hb ho (hsole.mp ho)
      by_cases hlive : s.store.managerState k = .live
      · refine .manager hb ?_ (hsole.mp ho) hg hlive hdisp hdrop
        rw [hrel, ho, hlive]
        rfl
      · rw [hg.dispose_eq_self hlive] at hdisp
        rw [Store.giveUp_of_not_live hlive] at hdrop
        exact .kept (by rw [hrel, decide_eq_false hlive, Bool.and_false]) hdisp hdrop
    · obtain ⟨hdisp, hdrop⟩ :=
        dispose_of_others hs hb (Bool.eq_false_iff.mpr ho) fun hz => ho (hsole.mpr hz)
      exact .kept (by rw [hrel, Bool.eq_false_iff.mpr ho, Bool.false_and]) hdisp hdrop

theorem releases_iff (hd : s.slots.Distinct) (hr : s.estate.Regular) : s.releases m = true ↔
    ¬s.Shares slot m.backing ∧ s.store.backingState m.backing = .live := by
  rcases hb : m.backing with _ | b | k
  · simp [releases, hb, Store.backingState]
  · have ho := sole_iff hd hs hb (b := .array b) (by simp)
    simp only [releases, hb, Bool.and_true, ho, Store.backingState, and_true]
  · by_cases hk : k = nullSingleton
    · have hnull : s.store.managerState nullSingleton = .empty := hr.order.tenure.managerState_null
      simp [releases, hb, hk, Store.backingState, hnull]
    · have ho := sole_iff hd hs hb (b := .manager k) fun he => hk (Backing.manager.inj he)
      simp only [releases, hb, Bool.and_eq_true, ho, decide_eq_true_eq, Store.backingState]

end Owner

/-- The array behind a backing has lost its last handle, or its manager has been released. -/
inductive GivesUp (s s' : Session) : Backing → Prop
  | array {b : BlockId} : s.holders (.array b) ≠ 0 → s'.holders (.array b) = 0 →
      GivesUp s s' (.array b)
  | manager {k : ManagerId} : s.store.managerState k = .live →
      s'.store.managerState k = .released → GivesUp s s' (.manager k)

namespace Ending

variable (h : s.Ending slot m)

include h

theorem of_not_releases (hf : s.releases m = false) :
    (s.dispose slot).2 = s.remove slot ∧ s.drop slot = s.remove slot := by
  cases h with
  | kept _ hdisp hdrop => exact ⟨hdisp, hdrop⟩
  | array _ ht => cases ht.symm.trans hf
  | manager _ ht => cases ht.symm.trans hf

variable (hs : s.slots.get? slot = some (.owner m)) (hd : s.slots.Distinct)
  (hr : s.estate.Regular)

include hs hr

theorem matches_drop : (s.drop slot).Matches (s.dispose slot).2 := by
  cases h with
  | kept _ hdisp hdrop | array _ _ _ hdisp hdrop => exact .inl (hdisp.trans hdrop.symm)
  | @manager k hb _ hz hg hlive hdisp hdrop =>
    rw [hdisp, hdrop]
    obtain he | ⟨b, he, hgive⟩ := hg.dispose_cases hlive
    · rw [he]
      exact .inl rfl
    · -- Only a disposal tells the manager that its array is gone, and nobody can ask it any more.
      rw [he, hgive]
      refine .inr ⟨k, .array b false, ?_, rfl⟩
      constructor
      · exact hr.order.tenure.known (mem_handles hs) hb
      · rintro rfl
        cases hlive.symm.trans hr.order.tenure.managerState_null
      · intro other x hx hxb
        have hp := Estate.holders_pos (mem_handles (s := s.remove slot) hx) hxb
        rw [← holders_eq, hz] at hp
        exact lt_irrefl _ hp

omit hr in
include hd in
/-- The answer of a disposal is true if this very call gave up what was behind the owner. -/
theorem givesUp_iff : s.releases m = true ↔ s.GivesUp (s.dispose slot).2 m.backing := by
  have hsole : s.sole m.backing = true ↔ (s.remove slot).holders m.backing = 0 :=
    sole_iff_remove hd hs
  cases h with
  | kept hf hdisp =>
    rw [hf, hdisp]
    refine iff_of_false Bool.false_ne_true fun hg => ?_
    rcases hb : m.backing with _ | b | k <;> rw [hb] at hg hsole
    · cases hg
    · obtain ⟨-, hz⟩ := hg
      have ht : s.releases m = true := by simp only [releases, hb, hsole.mpr hz, Bool.and_true]
      cases ht.symm.trans hf
    · obtain _ | ⟨hlive, hrel⟩ := hg
      cases hlive.symm.trans hrel
  | @array b hb ht hz hdisp =>
    rw [hdisp, hb]
    refine iff_of_true ht (.array ?_ hz)
    have hc := holders_remove hd hs
    simp only [Handle.backing, hb] at hc
    exact hc ▸ Nat.succ_ne_zero _
  | manager hb ht _ hg hlive hdisp =>
    rw [hdisp, hb]
    exact iff_of_true ht (.manager hlive (hg.dispose hlive).2)

omit hs in
include hd in
theorem release {k : ManagerId} {r : RegionId} {g : Region} (hb : m.backing = .manager k)
    (hk : s.store.managers[k]? = some (.native r true)) (hg : s.store.regions[r]? = some g)
    (ht : s.releases m = true) :
    releaseCalls r s.store.journal = [] ∧
      releaseCalls r (s.dispose slot).2.store.journal = [g] ∧
      (s.dispose slot).2.store = s.store.giveUp k := by
  have hno := (releaseCalls_eq hd hr.order hg).2.1 (.inl ⟨k, hk⟩)
  cases h with
  | kept hf => cases ht.symm.trans hf
  | array ha => cases ha.symm.trans hb
  | manager hb' _ _ _ _ hdisp =>
    obtain rfl := Backing.manager.inj (hb.symm.trans hb')
    have hst : (s.dispose slot).2.store = s.store.giveUp k := by
      rw [hdisp]
      simp only [withStore, Store.dispose, hk]
    refine ⟨hno, ?_, hst⟩
    rw [hst, Store.releaseCalls_giveUp r hk hg, hno, if_pos rfl]
    rfl

end Ending

/-- A manager under an owner is never acquired, so a region that it holds is released with the last
handle to it, if not before. -/
theorem releaseCalls_of_owner (hd : s.slots.Distinct) (ho : s.estate.InOrder)
    (hs : s.slots.get? slot = some (.owner m)) {k : ManagerId} {r : RegionId} {g : Region}
    (hb : m.backing = .manager k) (hk : s.store.managers[k]? = some (.native r true))
    (hg : s.store.regions[r]? = some g) (ops : List Op)
    (hn : ∀ other x, (s.after p ops).slots.get? other = some x → x.backing ≠ .manager k) :
    releaseCalls r (s.after p ops).store.journal = [g] := by
  have hmem := mem_handles hs
  have hent : s.estate.Entrusted k r g :=
    { region := hg
      lt := (List.getElem?_eq_some_iff.mp hk).1
      shared := ho.tenure.not_mem hmem hb nofun
      held := .inl hk }
  exact releaseCalls_of_last (distinct_after hd ops) ((Estate.stable_inOrder p).after hd ho ops)
    ((Estate.stable_entrusted p k r g).after hd hent ops) hn

/-- An owner of a memory over nothing, an array or a manager that is not a probe, which any number
of other handles may share. Disposing of it and dropping it cannot be told apart: the journals are
the same, and whatever is done next gives the same answers and journals. The answer is true if no
other handle refers to the backing and that is an array or a live manager, which is when this very
call gave it up: a region has gone to its owner, once, and an importation counts a part less. If the
answer is false then nothing but the handle has gone. All others are as they were for as long as
they stay, and the region is not released while one of them does; it is released by the time when
the last one has gone. -/
theorem dispose_eq_drop (p : Platform) (e : Element) (ops : List Op) (slot : String) (m : Memory)
    (hs : ((start e).after p ops).slots.get? slot = some (.owner m))
    (hh : ((start e).after p ops).store.Honest m.backing) :
    let s := (start e).after p ops
    let disposed := (s.step p (.dispose slot)).2
    let dropped := (s.step p (.drop slot)).2
    ∃ flag, s.step p (.dispose slot) = disposed.answer (.flag flag) ∧
    s.step p (.drop slot) = dropped.answer .done ∧
    dropped.Matches disposed ∧
    disposed.store.journal = dropped.store.journal ∧
    (∀ ops' op, ((disposed.after p ops').step p op).1 = ((dropped.after p ops').step p op).1 ∧
      (disposed.after p ops').store.journal = (dropped.after p ops').store.journal) ∧
    (flag = true ↔ ¬s.Shares slot m.backing ∧ s.store.backingState m.backing = .live) ∧
    (flag = true ↔ s.GivesUp disposed m.backing) ∧
    (flag = false → disposed = s.remove slot) ∧
    (∀ k r g, m.backing = .manager k → s.store.managers[k]? = some (.native r true) →
      s.store.regions[r]? = some g →
      (flag = true → releaseCalls r s.store.journal = [] ∧
        releaseCalls r disposed.store.journal = [g] ∧
        ∀ i, g.owner = .importation i →
          disposed.store.references i = s.store.references i - 1) ∧
      ∀ ops', (∀ other x, (disposed.after p ops').slots.get? other = some x →
        x.backing ≠ .manager k) → releaseCalls r (disposed.after p ops').store.journal = [g]) ∧
    ∀ other x, other ≠ slot → s.slots.get? other = some x → x.backing = m.backing →
      flag = false ∧ ∀ names : List String, other ∉ names →
        s.Preserves (disposed.after p (names.map .drop)) other x ∧
        ∀ k r g, m.backing = .manager k → s.store.managers[k]? = some (.native r true) →
          s.store.regions[r]? = some g →
          releaseCalls r (disposed.after p (names.map .drop)).store.journal = [] := by
  intro s disposed dropped
  have hd : s.slots.Distinct := distinct_run p e ops
  have hr : s.estate.Regular := regular_run p e ops
  have hend : s.Ending slot m := ending hs hd hr hh
  have hdrop : dropped = s.drop slot := step_drop p s slot
  have hm : dropped.Matches disposed := hdrop ▸ hend.matches_drop hs hr
  have hdd : dropped.slots.Distinct := distinct_step hd _
  have hflag := releases_iff hs hd hr
  have hkeep : s.releases m = false → disposed = s.remove slot ∧ s.drop slot = s.remove slot :=
    hend.of_not_releases
  refine ⟨s.releases m, dispose_owner hs, dropSlot_of_get? hs, hm, hm.journal, fun ops' op => ?_,
    hflag, hend.givesUp_iff hs hd, fun hf => (hkeep hf).1, ?_, ?_⟩
  · have hm' := hm.after hdd p ops'
    exact ⟨hm'.answer p op, hm'.journal⟩
  · intro k r g hb hk hg
    refine ⟨fun ht => ?_, fun ops' hn => ?_⟩
    · obtain ⟨hno, hcall, hst⟩ := hend.release hd hr hb hk hg ht
      refine ⟨hno, hcall, fun i ho => ?_⟩
      obtain ⟨-, ha⟩ := (Estate.stable_accounts p).after Directory.distinct_nil
        ⟨Estate.inOrder_start e, Estate.accounts_start e⟩ ops
      have hi := ha.part (List.mem_of_getElem? hg) ho
      exact hst ▸ Store.references_giveUp hk hg ho hi
    · exact releaseCalls_of_owner hd hr.order hs hb hk hg (.dispose slot :: ops') hn
  · intro other x hne hx hb
    have hf : s.releases m = false :=
      Bool.eq_false_iff.mpr fun ht => (hflag.mp ht).1 ⟨other, x, hne, hx, hb⟩
    refine ⟨hf, fun names hn => ?_⟩
    have hn' : other ∉ slot :: names := by
      rintro (_ | ⟨_, hmem⟩)
      · exact hne rfl
      · exact hn hmem
    have hall : disposed.after p (names.map .drop) = s.drops (slot :: names) := by
      obtain ⟨hdisp, hdrop⟩ := hkeep hf
      rw [after_drops, hdisp, ← hdrop]
      rfl
    rw [hall]
    refine ⟨preserves_drops hd hn' hx, fun k r g hk => ?_⟩
    exact releaseCalls_drops hd hr.order hn' hx (hb.trans hk)

/-- An owner over a region, with a slice of it beside it. The region is released with the slice. -/
theorem dispose_eq_drop_of_slice :
    let ops : List Op := [.storage "b" ⟨.u8, 4, [1, 2, 3, 4]⟩, .recorder "o" true,
      .native "m" "b" "o" 1 2, .share "t" "m", .memory "w" .writable (.manager "t" true),
      .slice "n" "w" 1 1, .own "x" "w"]
    let m : Memory := ⟨.manager 1, 0, 2⟩
    let s := (start .u8).after .bounded ops
    s.slots.get? "x" = some (.owner m) ∧ s.store.Honest m.backing ∧
      s.step .bounded (.dispose "x") = (s.remove "x").answer (.flag false) ∧
      releaseCalls 0 ((s.remove "x").after .bounded [.drop "n"]).store.journal =
        [⟨0, 1, 2, .recorder 0⟩] := by
  intro ops m s
  have hs : s.slots.get? "x" = some (.owner m) := by decide +kernel
  have hn : s.slots.get? "n" = some (.memory ⟨.manager 1, 1, 1⟩) := by decide +kernel
  have hk : s.store.managers[1]? = some (.native 0 true) := by decide +kernel
  have hg : s.store.regions[0]? = some ⟨0, 1, 2, .recorder 0⟩ := by decide +kernel
  have hh : s.store.Honest m.backing := Store.honest_of_getElem? hk (by simp)
  obtain ⟨flag, hd, -, -, -, -, -, -, hkept, hregion, hshared⟩ :=
    dispose_eq_drop .bounded .u8 ops "x" m hs hh
  obtain ⟨rfl, -⟩ := hshared "n" _ (by decide) hn rfl
  have hrem := hkept rfl
  refine ⟨hs, hh, hd.trans (by rw [hrem]), ?_⟩
  have hlast := (hregion 1 0 _ rfl hk hg).2 [.drop "n"]
  rw [hrem] at hlast
  refine hlast fun other x hx => ?_
  have hslots : ((s.remove "x").after .bounded [.drop "n"]).slots = [] := by decide +kernel
  rw [hslots] at hx
  cases hx

end Session

end LargeBuffers
