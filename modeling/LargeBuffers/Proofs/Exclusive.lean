import LargeBuffers.Proofs.Confluence
import LargeBuffers.Proofs.Lifetime

/-! # Exclusive access

A memory that has values is written through the only handle to its backing, and through no other.
Whether there are other handles is read off the names of the session, and as soon as they are gone
the one that is left can write.
-/

namespace LargeBuffers

namespace Store

variable {st : Store} {m : Memory}

/-- The three conditions on write access, in the order in which they are tested. -/
theorem viewMut_eq_ite (hn : m.backing = .nothing → m.len = 0) (sole : Bool) :
    st.viewMut m sole =
      if st.backingState m.backing = .released then .error (.error .released)
      else if m.len = 0 then .ok (.empty st.element)
      else if sole then st.view m
      else .error (.error .sharedBacking) := by
  have he : m.isEmpty = true ↔ m.len = 0 := beq_iff_eq
  unfold viewMut view
  rcases hb : m.backing with _ | j | k
  · rw [if_neg (by simp [backingState]), if_pos (hn hb)]
  · rw [if_neg (by simp [backingState])]
    simp only [he]
  · simp only [he, backingState]

end Store

theorem Handle.memory?_of_writable? {h : Handle} {m : Memory} (hm : h.writable? = some m) :
    h.memory? = some (.writable, m) := by
  cases h <;> cases hm <;> rfl

namespace Session

variable {p : Platform} {s : Session} {slot : String} {h : Handle} {m : Memory} {b : Backing}

def Shares (s : Session) (slot : String) (b : Backing) : Prop :=
  ∃ other x, other ≠ slot ∧ s.slots.get? other = some x ∧ x.backing = b

theorem sole_iff (hd : s.slots.Distinct) (hs : s.slots.get? slot = some h) (hb : h.backing = b)
    (hn : b ≠ .manager nullSingleton) : s.sole b = true ↔ ¬s.Shares slot b := by
  have hc : s.holders b = (s.remove slot).estate.handles.countP (·.backing = b) + 1 := by
    rw [holders_eq, Estate.holders, if_neg hn, handles_eq_cons hd hs, Multiset.countP_cons,
      if_pos hb]
  have hz : s.sole b = true ↔ (s.remove slot).estate.handles.countP (·.backing = b) = 0 := by
    rw [sole, hc, beq_iff_eq, Nat.add_eq_right]
  rw [hz, Multiset.countP_eq_zero]
  constructor
  · rintro hnone ⟨other, x, ho, hx, hxb⟩
    exact hnone x (Directory.mem_entries_of_get? ((Directory.get?_erase_of_ne ho).trans hx)) hxb
  · intro hno x hx hxb
    obtain ⟨⟨other, y⟩, hy, rfl⟩ := List.mem_map.mp (Multiset.mem_coe.mp hx)
    obtain ⟨hy, ho⟩ := Directory.mem_erase.mp hy
    exact hno ⟨other, y, ho, Directory.get?_of_mem hd hy, hxb⟩

/-- Only the backings of empty memories are held from outside of the session. -/
theorem ne_of_len_ne_zero (hr : s.estate.Regular) (hs : s.slots.get? slot = some h) {a : Access}
    (hm : h.memory? = some (a, m)) (hl : m.len ≠ 0) :
    m.backing ≠ .nothing ∧ m.backing ≠ .manager nullSingleton := by
  have hb : s.store.Bounds m := hr.bounded (mem_handles hs) hm
  have hne : s.store.backingLength m.backing ≠ 0 := by
    intro hz
    rw [Store.Bounds, hz] at hb
    exact hl (UInt64.toNat_inj.mp (Nat.le_zero.mp ((Nat.le_add_left ..).trans hb)))
  constructor
  · intro hn
    rw [hn] at hne
    exact hne rfl
  · intro hn
    have hnull : s.store.managers[nullSingleton]? = some .null := hr.order.tenure.null
    rw [hn] at hne
    refine hne ?_
    simp only [Store.backingLength, Store.managerLength, hnull]

section Access

variable (hd : s.slots.Distinct) (hr : s.estate.Regular) (hs : s.slots.get? slot = some h)
  (hm : h.writable? = some m) (hlive : s.store.backingState m.backing ≠ .released)

include hm in
theorem viewMutOf_of_writable? :
    s.viewMutOf h = s.store.viewMut m (s.sole m.backing) := by
  unfold viewMutOf
  rw [hm]

include hr hs hm in
theorem len_eq_zero_of_nothing (hn : m.backing = .nothing) : m.len = 0 := by
  by_contra hl
  exact (ne_of_len_ne_zero hr hs (Handle.memory?_of_writable? hm) hl).1 hn

include hr hs hm hlive in
theorem viewMut_of_empty (hl : m.len = 0) (sole : Bool) :
    s.store.viewMut m sole = .ok (.empty s.store.element) := by
  rw [Store.viewMut_eq_ite (len_eq_zero_of_nothing hr hs hm), if_neg hlive, if_pos hl]

include hd hr hs hm hlive

theorem viewMut_of_shares (hl : m.len ≠ 0) (ho : s.Shares slot m.backing) :
    s.store.viewMut m (s.sole m.backing) = .error (.error .sharedBacking) := by
  have hm' := Handle.memory?_of_writable? hm
  have hne := (ne_of_len_ne_zero hr hs hm' hl).2
  have hn : ¬s.sole m.backing = true := by
    rw [sole_iff hd hs (Handle.backing_of_memory? hm') hne]
    exact not_not_intro ho
  rw [Store.viewMut_eq_ite (len_eq_zero_of_nothing hr hs hm), if_neg hlive, if_neg hl, if_neg hn]

theorem viewMut_of_not_shares (hl : m.len ≠ 0) (ho : ¬s.Shares slot m.backing) :
    s.store.viewMut m (s.sole m.backing) = s.store.view m := by
  have hm' := Handle.memory?_of_writable? hm
  have hne := (ne_of_len_ne_zero hr hs hm' hl).2
  have hy := (sole_iff hd hs (Handle.backing_of_memory? hm') hne).mpr ho
  rw [Store.viewMut_eq_ite (len_eq_zero_of_nothing hr hs hm), if_neg hlive, if_neg hl, if_pos hy]

theorem exists_viewMut (hh : s.store.Honest m.backing) (ho : ¬s.Shares slot m.backing) :
    ∃ v, s.viewMutOf h = .ok v ∧ v.window.len = m.len := by
  rw [viewMutOf_of_writable? hm]
  by_cases hl : m.len = 0
  · rw [viewMut_of_empty hr hs hm hlive hl]
    exact ⟨_, rfl, hl.symm⟩
  · obtain ⟨roles, hlay⟩ := hr.layout
    have hb := hr.bounded (mem_handles hs) (Handle.memory?_of_writable? hm)
    rw [viewMut_of_not_shares hd hr hs hm hlive hl ho]
    exact hlay.view_of_live hh hb hlive

end Access

/-! ## What a request to write leads to -/

/-- The four ways of a request to write, which exclude one another. -/
inductive Grant (s : Session) (slot : String) (h : Handle) (m : Memory) : Prop
  | released : s.store.backingState m.backing = .released →
      s.viewMutOf h = .error (.error .released) → Grant s slot h m
  | empty : s.store.backingState m.backing ≠ .released → m.len = 0 →
      s.viewMutOf h = .ok (.empty s.store.element) → Grant s slot h m
  | shared : s.store.backingState m.backing ≠ .released → m.len ≠ 0 →
      s.Shares slot m.backing → s.viewMutOf h = .error (.error .sharedBacking) → Grant s slot h m
  | sole {v : View} : s.store.backingState m.backing ≠ .released → m.len ≠ 0 →
      ¬s.Shares slot m.backing → s.store.view m = .ok v → v.window.len = m.len →
      s.viewMutOf h = .ok v → Grant s slot h m

theorem grant (hd : s.slots.Distinct) (hr : s.estate.Regular) (hs : s.slots.get? slot = some h)
    (hm : h.writable? = some m) (hh : s.store.Honest m.backing) : s.Grant slot h m := by
  have hv := viewMutOf_of_writable? (s := s) hm
  by_cases hrel : s.store.backingState m.backing = .released
  · exact .released hrel (hv.trans (Store.viewMut_of_released hrel _))
  · by_cases hl : m.len = 0
    · exact .empty hrel hl (hv.trans (viewMut_of_empty hr hs hm hrel hl _))
    · by_cases ho : s.Shares slot m.backing
      · exact .shared hrel hl ho (hv.trans (viewMut_of_shares hd hr hs hm hrel hl ho))
      · obtain ⟨v, hvm, hlen⟩ := exists_viewMut hd hr hs hm hrel hh ho
        have hview := viewMut_of_not_shares hd hr hs hm hrel hl ho
        exact .sole hrel hl ho (hview.symm.trans (hv.symm.trans hvm)) hlen hvm

/-! ## Dropping the others -/

theorem get?_drops (s : Session) (names : List String) {other : String} :
    (s.drops names).slots.get? other =
      if other ∈ names then none else s.slots.get? other := by
  induction names generalizing s with
  | nil => rfl
  | cons name names ih =>
    change ((s.drop name).drops names).slots.get? other = _
    rw [ih, slots_drop]
    by_cases ho : other = name
    · rw [ho, Directory.get?_erase_self, if_pos (List.mem_cons_self ..), ite_self]
    · rw [Directory.get?_erase_of_ne ho]
      simp only [List.mem_cons, ho, false_or]

theorem keeps_drops (hs : s.slots.get? slot = some h) {names : List String} (hn : slot ∉ names) :
    s.Keeps p slot h (names.map .drop) := by
  induction names generalizing s with
  | nil => exact hs
  | cons name names ih =>
    rw [List.mem_cons, not_or] at hn
    refine ⟨hs, ?_⟩
    rw [step_drop]
    refine ih ?_ hn.2
    rw [slots_drop, Directory.get?_erase_of_ne hn.1]
    exact hs

theorem not_shares_drops {names : List String}
    (hn : ∀ other x, other ≠ slot → s.slots.get? other = some x → x.backing = b →
      other ∈ names) : ¬(s.drops names).Shares slot b := by
  rintro ⟨other, x, ho, hx, hb⟩
  rw [get?_drops] at hx
  split at hx
  · cases hx
  · exact absurd (hn other x ho hx hb) ‹_›

/-- Write access comes back once a memory that was kept is alone. -/
theorem Keeps.exists_viewMut {ops : List Op} (hk : s.Keeps p slot h ops) (hd : s.slots.Distinct)
    (hr : s.estate.Regular) (hm : h.writable? = some m) (hh : s.store.Honest m.backing)
    (hlive : s.store.backingState m.backing ≠ .released)
    (ho : ¬(s.after p ops).Shares slot m.backing) :
    ∃ v, (s.after p ops).viewMutOf h = .ok v ∧ v.window.len = m.len := by
  have hm' := Handle.memory?_of_writable? hm
  have hst := hk.backingState hd hr hm'
  exact Session.exists_viewMut (distinct_after hd ops) (regular_after hd hr ops) hk.last hm
    (hst ▸ hlive) (hk.honest hd hr hm' hh) ho

/-- A memory over nothing, an array or a manager that is not a probe is refused write access if its
backing was released, even if it is empty; else an empty memory has an empty span; else it is
refused write access if there is another handle to its backing; and else it is granted, for all the
values that can be read, and for nothing else. There is no other failure, and a refused request
changes nothing. Once the other handles are gone, no matter how, access is granted. -/
theorem exclusive_access (p : Platform) (e : Element) (ops : List Op) (slot : String) (h : Handle)
    (m : Memory) (hs : ((start e).after p ops).slots.get? slot = some h)
    (hm : h.writable? = some m) (hh : ((start e).after p ops).store.Honest m.backing) :
    let s := (start e).after p ops
    (∀ prog,
      ((s.spanMut slot prog).1 = .error (.error .released) ↔
        s.store.backingState m.backing = .released) ∧
      ((s.spanMut slot prog).1 = .error (.error .sharedBacking) ↔
        s.store.backingState m.backing ≠ .released ∧ m.len ≠ 0 ∧ s.Shares slot m.backing) ∧
      ∀ f, (s.spanMut slot prog).1 = .error f →
        (f = .error .released ∨ f = .error .sharedBacking) ∧ (s.spanMut slot prog).2 = s) ∧
    (s.store.backingState m.backing ≠ .released →
      (m.len = 0 → s.viewMutOf h = .ok (.empty s.store.element) ∧
        ∀ prog, s.spanMut slot prog =
          s.answer (.transcript (s.store.runOn (.empty s.store.element) .writable prog).1)) ∧
      (m.len ≠ 0 → ¬s.Shares slot m.backing → ∃ v, s.viewMutOf h = .ok v ∧
        v.window.len = m.len ∧ s.values slot = .ok (.contents (some (s.store.read v))) ∧
        ∀ prog, s.span slot prog = .ok (.transcript (s.store.runOn v .readOnly prog).1) ∧
          s.spanMut slot prog =
            (s.withStore (s.store.write v (s.store.runOn v .writable prog).2)).answer
              (.transcript (s.store.runOn v .writable prog).1)) ∧
      (∀ ops', s.Keeps p slot h ops' → ¬(s.after p ops').Shares slot m.backing →
        ∃ v, (s.after p ops').viewMutOf h = .ok v ∧ v.window.len = m.len) ∧
      ∀ names : List String, slot ∉ names →
        (∀ other x, other ≠ slot → s.slots.get? other = some x → x.backing = m.backing →
          other ∈ names) →
        ∃ v, (s.after p (names.map .drop)).viewMutOf h = .ok v ∧ v.window.len = m.len) := by
  intro s
  have hd : s.slots.Distinct := distinct_run p e ops
  have hr : s.estate.Regular := regular_run p e ops
  have hm' := Handle.memory?_of_writable? hm
  have hne : Failure.error .released ≠ Failure.error .sharedBacking := by decide
  refine ⟨fun prog => ?_, fun hlive => ⟨fun hl => ?_, fun hl ho => ?_, ?_, ?_⟩⟩
  · cases grant hd hr hs hm hh with
    | released hrel hv =>
      rw [spanMut_of_refused hs hv]
      refine ⟨iff_of_true rfl hrel, iff_of_false (hne <| Except.error.inj ·) ?_, ?_⟩
      · exact fun hx => hx.1 hrel
      · rintro _ ⟨⟩
        exact ⟨.inl rfl, rfl⟩
    | empty hrel hl hv =>
      rw [spanMut_of_view hs hv]
      refine ⟨iff_of_false nofun hrel, iff_of_false nofun fun hx => hx.2.1 hl, nofun⟩
    | shared hrel hl ho hv =>
      rw [spanMut_of_refused hs hv]
      refine ⟨iff_of_false (hne.symm <| Except.error.inj ·) hrel,
        iff_of_true rfl ⟨hrel, hl, ho⟩, ?_⟩
      rintro _ ⟨⟩
      exact ⟨.inr rfl, rfl⟩
    | sole hrel hl ho hview hlen hv =>
      rw [spanMut_of_view hs hv]
      refine ⟨iff_of_false nofun hrel, iff_of_false nofun fun hx => ho hx.2.2, nofun⟩
  · have hv := (viewMutOf_of_writable? hm).trans (viewMut_of_empty hr hs hm hlive hl _)
    exact ⟨hv, spanMut_of_view hs hv⟩
  · obtain ⟨v, hv, hlen⟩ := exists_viewMut hd hr hs hm hlive hh ho
    have hview : s.store.view m = .ok v := by
      rw [← viewMut_of_not_shares hd hr hs hm hlive hl ho, ← viewMutOf_of_writable? hm, hv]
    obtain ⟨hval, hspan⟩ := values_of_view hs hm' hview
    exact ⟨v, hv, hlen, hval, fun prog => ⟨hspan prog, spanMut_of_view hs hv prog⟩⟩
  · intro ops' hk ho
    exact hk.exists_viewMut hd hr hm hh hlive ho
  · intro names hn hall
    refine (keeps_drops (p := p) hs hn).exists_viewMut hd hr hm hh hlive ?_
    rw [after_drops]
    exact not_shares_drops hall

/-- A memory over a shared array manager, with a slice of it beside it. -/
theorem exclusive_access_of_slices :
    let ops : List Op := [.arrayManager "k" ⟨.u8, 2, [7, 9]⟩, .share "t" "k",
      .memory "m" .writable (.manager "t" true), .slice "n" "m" 1 0]
    let m : Memory := ⟨.manager 1, 0, 2⟩
    let prog : Program := .update (.fill ⟨.u8, [5]⟩) .done
    let s := (start .u8).after .bounded ops
    s.slots.get? "m" = some (.memory m) ∧ s.store.Honest m.backing ∧
      s.spanMut "m" prog = s.refuse (.error .sharedBacking) ∧
      ∃ v, (s.after .bounded [.drop "n"]).viewMutOf (.memory m) = .ok v ∧ v.window.len = 2 := by
  intro ops m prog s
  have hs : s.slots.get? "m" = some (.memory m) := by decide +kernel
  have hh : s.store.Honest m.backing := by
    rintro k pr ⟨⟩ hp
    have hk : s.store.managers[1]? = some (.array 0 true) := by decide +kernel
    cases hk.symm.trans hp
  have hl : s.store.backingState m.backing ≠ .released := by decide +kernel
  have hn : s.slots.get? "n" = some (.memory ⟨.manager 1, 1, 0⟩) := by decide +kernel
  obtain ⟨hprog, hlive⟩ := exclusive_access .bounded .u8 ops "m" (.memory m) m hs rfl hh
  obtain ⟨-, hshared, hrest⟩ := hprog prog
  have herr := hshared.mpr ⟨hl, by decide, "n", _, by decide, hn, rfl⟩
  obtain ⟨-, -, -, hdrops⟩ := hlive hl
  refine ⟨hs, hh, Prod.ext herr (hrest _ herr).2, hdrops ["n"] (by decide) ?_⟩
  intro other x ho hx hb
  have hcases : other = "m" ∨ other = "n" := by
    have hnames : ∀ entry ∈ s.slots, entry.1 = "m" ∨ entry.1 = "n" := by decide +kernel
    exact hnames _ (Directory.mem_of_get? hx)
  exact List.mem_singleton.mpr (hcases.resolve_left ho)

end Session

end LargeBuffers
