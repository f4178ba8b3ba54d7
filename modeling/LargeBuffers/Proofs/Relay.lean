import LargeBuffers.Proofs.Acquisition
import LargeBuffers.Proofs.Coherence
import LargeBuffers.Proofs.HandOffs

/-! # Passing a region on

A region goes from a manager to a raw allocation and from there to the next manager, any number of
times. Whoever holds it can be written through, or passes it on, or ends the relay by being
dropped. What is compared with it is the same session without the relay, in which everything is
written through the first manager.
-/

namespace LargeBuffers

namespace Store

/-- The stores differ in their managers and events at most. -/
def Agrees (st st' : Store) : Prop := ∃ managers journal, st' = { st with managers, journal }

namespace Agrees

variable {st st' st'' : Store} (h : st.Agrees st')

theorem refl (st : Store) : st.Agrees st := ⟨_, _, rfl⟩

include h

theorem trans (h' : st'.Agrees st'') : st.Agrees st'' := by
  obtain ⟨managers, journal, rfl⟩ := h
  obtain ⟨managers', journal', rfl⟩ := h'
  exact ⟨managers', journal', rfl⟩

theorem regions : st'.regions = st.regions := by
  obtain ⟨_, _, rfl⟩ := h
  rfl

theorem exclusive : st'.exclusive = st.exclusive := by
  obtain ⟨_, _, rfl⟩ := h
  rfl

theorem runOn : st'.runOn = st.runOn := by
  obtain ⟨_, _, rfl⟩ := h
  rfl

theorem write (v : View) (bytes : List UInt8) :
    (st.write v bytes).Agrees (st'.write v bytes) := by
  obtain ⟨managers, journal, rfl⟩ := h
  obtain ⟨_ | b, w⟩ := v
  · exact ⟨managers, journal, rfl⟩
  · exact ⟨managers, journal, rfl⟩

end Agrees

/-- The bytes that programs leave in a view, one after the other. -/
def outcomes (st : Store) (v : View) (progs : List Program) : List UInt8 :=
  progs.foldl (fun bytes prog =>
    (prog.run (st.baseOf v + v.window.offset) .writable v.window.alone bytes).2) (st.read v).bytes

theorem outcomes_concat (st : Store) (v : View) (progs : List Program) (prog : Program) :
    st.outcomes v (progs ++ [prog]) =
      (prog.run (st.baseOf v + v.window.offset) .writable v.window.alone
        (st.outcomes v progs)).2 := by
  rw [outcomes, List.foldl_append]
  rfl

end Store

/-- The events of a relay in which a region of `len` bytes was handed off `n` times. -/
structure Passages (len : UInt64) (n : ℕ) (events : List Event) : Prop where
  mem : ∀ x ∈ events, x = .handedOff len ∨ ∃ k, x = .unpinned k
  count : handOffs events = n

namespace Passages

variable {len : UInt64} {n : ℕ} {events : List Event}

theorem nil (len : UInt64) : Passages len 0 [] := ⟨List.forall_mem_nil _, rfl⟩

theorem handedOff (h : Passages len n events) :
    Passages len (n + 1) (events ++ [.handedOff len]) where
  mem x hx := (List.mem_append.mp hx).elim (h.mem x) fun hx => .inl (List.mem_singleton.mp hx)
  count := by
    rw [handOffs_append, h.count]
    rfl

theorem unpinned (h : Passages len n events) {es : List Event}
    (hes : ∀ x ∈ es, ∃ k, x = .unpinned k) : Passages len n (events ++ es) where
  mem x hx := (List.mem_append.mp hx).elim (h.mem x) fun hx => .inr (hes x hx)
  count := by
    rw [handOffs_append_others, h.count]
    intro x hx
    obtain ⟨k, rfl⟩ := hes x hx
    rfl

end Passages

namespace Session

variable {p : Platform} {s t base : Session} {slot cur name : String} {n : ℕ} {k : ManagerId}
  {r : RegionId} {g : Region} {progs : List Program}

/-- A region on its way from the manager under `slot`: how often it was handed off, the programs
that were run through its holders, the session and the name of the holder. What else happens is
done to spent managers. -/
inductive Relay (p : Platform) (s : Session) (slot : String) :
    ℕ → List Program → Session → String → Prop
  | start : Relay p s slot 0 [] s slot
  | write {n : ℕ} {progs : List Program} {t : Session} {cur : String} {k : ManagerId}
      (prog : Program) : Relay p s slot n progs t cur → t.slots.get? cur = some (.manager k) →
      Relay p s slot n (progs ++ [prog]) (t.step p (.spanMut cur prog)).2 cur
  | idle {n : ℕ} {progs : List Program} {t : Session} {cur : String} {op : Op} :
      Relay p s slot n progs t cur → t.Idle op → Relay p s slot n progs (t.step p op).2 cur
  | acquire {n : ℕ} {progs : List Program} {t : Session} {cur name : String} :
      Relay p s slot n progs t cur → name = cur ∨ t.Clear name →
      (t.step p (.tryAcquire name cur)).1 = .ok (.flag true) →
      Relay p s slot (n + 1) progs (t.step p (.tryAcquire name cur)).2 name
  | wrap {n : ℕ} {progs : List Program} {t : Session} {cur name : String} :
      Relay p s slot n progs t cur → name = cur ∨ t.Clear name →
      (t.step p (.intoManager name cur)).1 = .ok .done →
      Relay p s slot n progs (t.step p (.intoManager name cur)).2 name

theorem Relay.exists_ops (h : Relay p s slot n progs t cur) : ∃ ops, t = s.after p ops := by
  induction h with
  | start => exact ⟨[], rfl⟩
  | write _ _ _ ih | idle _ _ ih | acquire _ _ _ ih | wrap _ _ _ ih =>
    obtain ⟨ops, rfl⟩ := ih
    exact ⟨ops ++ [_], (after_concat ..).symm⟩

/-- The handle holds the region: it is a manager that has not been released, or a raw
allocation. -/
inductive Carries (s : Session) (name : String) (r : RegionId) : Prop
  | manager {k : ManagerId} : s.slots.get? name = some (.manager k) →
      s.store.managers[k]? = some (.native r true) → Carries s name r
  | raw : s.slots.get? name = some (.raw r) → Carries s name r

theorem Carries.held (h : s.Carries name r) (hs : s.slots.get? name = some (.manager k)) :
    s.store.managers[k]? = some (.native r true) := by
  cases h with
  | raw hr => cases hs.symm.trans hr
  | manager ht hk =>
    obtain ⟨⟩ := Option.some.inj (hs.symm.trans ht)
    exact hk

/-! ## The session without the relay -/

def written (p : Platform) (s : Session) (slot : String) (progs : List Program) : Session :=
  s.after p (progs.map (.spanMut slot ·))

theorem written_concat (p : Platform) (s : Session) (slot : String) (progs : List Program)
    (prog : Program) : s.written p slot (progs ++ [prog]) =
      ((s.written p slot progs).step p (.spanMut slot prog)).2 := by
  simp only [written, List.map_append, List.map_cons, List.map_nil, after_concat]

theorem viewMutOf_of_held (hk : s.store.managers[k]? = some (.native r true))
    (hg : s.store.regions[r]? = some g) : s.viewMutOf (.manager k) = .ok (Store.regionView g) := by
  simp only [viewMutOf, Handle.writable?, Store.managerView_of_held hk hg]
  rfl

section Held

variable (hs : s.slots.get? slot = some (.manager k))
  (hk : s.store.managers[k]? = some (.native r true)) (hg : s.store.regions[r]? = some g)

include hs hk hg

theorem spanMut_of_held (prog : Program) : s.step p (.spanMut slot prog) =
    (s.withStore (s.store.write (Store.regionView g)
      (s.store.runOn (Store.regionView g) .writable prog).2)).answer
        (.transcript (s.store.runOn (Store.regionView g) .writable prog).1) := by
  exact spanMut_of_view hs (viewMutOf_of_held hk hg) prog

theorem span_of_held (prog : Program) : s.span slot prog =
    .ok (.transcript (s.store.runOn (Store.regionView g) .readOnly prog).1) := by
  simp only [span, hs, viewOf, Handle.memory?, Handle.manager?, Store.managerView_of_held hk hg]
  rfl

theorem written_frame (p : Platform) (progs : List Program) :
    (s.written p slot progs).slots = s.slots ∧
      ∃ blocks, (s.written p slot progs).store = { s.store with blocks } := by
  induction progs using List.reverseRecOn with
  | nil => exact ⟨rfl, s.store.blocks, rfl⟩
  | append_singleton progs prog ih =>
    obtain ⟨hsl, blocks, hst⟩ := ih
    have hs' : (s.written p slot progs).slots.get? slot = some (.manager k) := hsl ▸ hs
    have hk' : (s.written p slot progs).store.managers[k]? = some (.native r true) := by
      rw [hst]
      exact hk
    have hg' : (s.written p slot progs).store.regions[r]? = some g := by
      rw [hst]
      exact hg
    rw [written_concat, spanMut_of_held hs' hk' hg']
    generalize (Store.runOn _ _ _ _).2 = bytes
    obtain ⟨blocks', hb⟩ := (s.written p slot progs).store.write_frame (Store.regionView g) bytes
    refine ⟨hsl, blocks', hb.trans ?_⟩
    rw [hst]

theorem written_of_held (p : Platform) (progs : List Program) :
    (s.written p slot progs).slots.get? slot = some (.manager k) ∧
      (s.written p slot progs).store.managers[k]? = some (.native r true) ∧
      (s.written p slot progs).store.regions[r]? = some g ∧
      (s.written p slot progs).store.journal = s.store.journal := by
  obtain ⟨hsl, blocks, hst⟩ := written_frame hs hk hg p progs
  rw [hsl, hst]
  exact ⟨hs, hk, hg, rfl⟩

theorem baseOf_written (p : Platform) (progs : List Program) (u : View) :
    (s.written p slot progs).store.baseOf u = s.store.baseOf u := by
  induction progs using List.reverseRecOn with
  | nil => rfl
  | append_singleton progs prog ih =>
    obtain ⟨hs', hk', hg', -⟩ := written_of_held hs hk hg p progs
    rw [written_concat, step_spanMut hs' (viewMutOf_of_held hk' hg')]
    exact (Store.baseOf_write ..).trans ih

/-- What the programs leave is read through the first manager, and changes the bytes of the region
and no others. -/
theorem bytes_written (hd : s.slots.Distinct) (hr : s.estate.Regular) (p : Platform)
    (progs : List Program) :
    ((s.written p slot progs).store.read (Store.regionView g)).bytes =
        s.store.outcomes (Store.regionView g) progs ∧
      ∀ u j, ((s.written p slot progs).store.bytesOf u)[j]? =
        if u.block = some g.block ∧ j ∈ (Store.regionView g).window.positions then
          (s.store.outcomes (Store.regionView g) progs)[j - g.offset.toNat]?
        else (s.store.bytesOf u)[j]? := by
  induction progs using List.reverseRecOn with
  | nil =>
    refine ⟨rfl, fun u j => ?_⟩
    by_cases hj : u.block = some g.block ∧ j ∈ (Store.regionView g).window.positions
    · exact (Store.getElem?_bytesOf (v := Store.regionView g) hj.1 hj.2).trans (if_pos hj).symm
    · exact (if_neg hj).symm
  | append_singleton progs prog ih =>
    obtain ⟨hread, hbytes⟩ := ih
    obtain ⟨hs', hk', hg', -⟩ := written_of_held hs hk hg p progs
    have hv := viewMutOf_of_held hk' hg'
    have hr' : (s.written p slot progs).estate.Regular := regular_after hd hr _
    -- The last program finds the region as those before it have left it, at the same address.
    have ho : (s.written p slot progs).store.outcome (Store.regionView g) prog =
        s.store.outcomes (Store.regionView g) (progs ++ [prog]) := by
      rw [Store.outcome, baseOf_written hs hk hg, hread, Store.outcomes_concat]
    rw [written_concat]
    refine ⟨(read_spanMut_self hs' hv prog hr').trans ho, fun u j => ?_⟩
    refine (bytesOf_spanMut hs' hv prog hr' u j).trans ?_
    rw [ho, hbytes]
    by_cases hj : u.block = some g.block ∧ j ∈ (Store.regionView g).window.positions
    · exact (if_pos hj).trans (if_pos hj).symm
    · exact (if_neg hj).trans ((if_neg hj).trans (if_neg hj).symm)

end Held

/-! ## Steps of a relay -/

theorem intoManager_of_raw (hs : s.slots.get? slot = some (.raw r)) (name : String) :
    s.intoManager name slot =
      (((s.remove slot).withStore (s.store.addManager (.native r true))).put name
        (.manager s.store.managers.length)).answer .done := by
  have hk : ((s.remove slot).withStore (s.store.addManager (.native r true))).newestManager =
      s.store.managers.length := by
    simp [newestManager, withStore]
  simp only [intoManager, hs, makeManager, hk]
  rfl

structure Passed (base t : Session) (r : RegionId) (len : UInt64) (n : ℕ) (cur : String) :
    Prop where
  agrees : base.store.Agrees t.store
  journal : ∃ events, t.store.journal = base.store.journal ++ events ∧ Passages len n events
  carries : t.Carries cur r

namespace Passed

variable (h : base.Passed t r g.len n cur)

include h

theorem of_undisturbed {t' : Session} (ht : t.Undisturbed t') :
    base.Passed t' r g.len n cur := by
  obtain ⟨events, hj, hp⟩ := h.journal
  obtain ⟨⟨es, hes, he⟩, hsl⟩ := ht
  constructor
  · refine h.agrees.trans ?_
    rw [he]
    exact ⟨_, _, rfl⟩
  · refine ⟨events ++ es, ?_, hp.unpinned hes⟩
    rw [he, ← List.append_assoc, ← hj]
  · cases h.carries with
    | manager hs hk =>
      refine .manager (hsl hs ?_) (by rw [he]; exact hk)
      intro hx
      obtain ⟨r', hr'⟩ := hx.entry rfl
      cases hk.symm.trans hr'
    | raw hs =>
      refine .raw (hsl hs ?_)
      rintro ⟨k, -, ⟨⟩, -⟩

theorem acquire (hg : t.store.regions[r]? = some g) (hn : name = cur ∨ t.Clear name)
    (ha : (t.step p (.tryAcquire name cur)).1 = .ok (.flag true)) :
    base.Passed (t.step p (.tryAcquire name cur)).2 r g.len (n + 1) name := by
  obtain ⟨events, hj, hp⟩ := h.journal
  cases h.carries with
  | raw hs => simp [step, tryAcquire, hs, refuse] at ha
  | @manager k hs hk =>
    have hst := store_put (clear_handedOff hs hk hn g) (.raw r)
    simp only [step, tryAcquire_of_granted hs hk hg ha]
    constructor
    · rw [hst]
      exact h.agrees.trans ⟨_, _, rfl⟩
    · refine ⟨events ++ [.handedOff g.len], ?_, hp.handedOff⟩
      rw [hst, ← List.append_assoc, ← hj]
      rfl
    · exact .raw (get?_put_self ..)

theorem wrap (hn : name = cur ∨ t.Clear name)
    (ha : (t.step p (.intoManager name cur)).1 = .ok .done) :
    base.Passed (t.step p (.intoManager name cur)).2 r g.len n name := by
  obtain ⟨events, hj, hp⟩ := h.journal
  cases h.carries with
  | manager hs => simp [step, intoManager, hs, refuse] at ha
  | raw hs =>
    have hfree : (t.remove cur).Clear name := by
      obtain rfl | hn := hn
      · exact clear_remove_self t name
      · exact hn.remove cur
    have hclear : ((t.remove cur).withStore (t.store.addManager (.native r true))).Clear name :=
      hfree.of_grows (Store.grows_addManager ..) fun _ => id
    have hst := store_put hclear (.manager t.store.managers.length)
    simp only [step, intoManager_of_raw hs]
    constructor
    · change base.store.Agrees (Session.put _ _ _).store
      rw [hst]
      exact h.agrees.trans ⟨_, _, rfl⟩
    · refine ⟨events, ?_, hp⟩
      change (Session.put _ _ _).store.journal = _
      rw [hst]
      exact hj
    · refine .manager (get?_put_self ..) ?_
      change (Session.put _ _ _).store.managers[_]? = _
      rw [hst]
      exact List.getElem?_concat_length

theorem write (hb : base.slots.get? slot = some (.manager k))
    (hk : base.store.managers[k]? = some (.native r true))
    (hg : base.store.regions[r]? = some g) {j : ManagerId}
    (hs : t.slots.get? cur = some (.manager j)) (prog : Program) :
    Passed (base.step p (.spanMut slot prog)).2 (t.step p (.spanMut cur prog)).2 r g.len n cur := by
  obtain ⟨events, hj, hp⟩ := h.journal
  cases h.carries with
  | raw hr => cases hs.symm.trans hr
  | manager ht hkt =>
    rw [spanMut_of_held hb hk hg, spanMut_of_held ht hkt (h.agrees.regions ▸ hg), h.agrees.runOn]
    generalize (Store.runOn _ _ _ _).2 = bytes
    constructor
    · exact h.agrees.write (Store.regionView g) bytes
    · exact ⟨events, hj, hp⟩
    · exact .manager ht hkt

end Passed

/-- A relay passes the region on and does nothing else, but for what is written. -/
theorem Relay.passed (h : Relay p s slot n progs t cur)
    (hs : s.slots.get? slot = some (.manager k))
    (hk : s.store.managers[k]? = some (.native r true)) (hg : s.store.regions[r]? = some g) :
    (s.written p slot progs).Passed t r g.len n cur := by
  -- What is written is the only step that the session without the relay takes as well.
  have hbase := fun progs => written_of_held hs hk hg p progs
  induction h with
  | start => exact ⟨.refl _, ⟨[], (List.append_nil _).symm, .nil _⟩, .manager hs hk⟩
  | write prog _ hcur ih =>
    obtain ⟨hb, hkb, hgb, -⟩ := hbase _
    rw [written_concat]
    exact ih.write hb hkb hgb hcur prog
  | idle _ hi ih => exact ih.of_undisturbed hi.undisturbed
  | acquire _ hn ha ih =>
    obtain ⟨-, -, hgb, -⟩ := hbase _
    exact ih.acquire (ih.agrees.regions ▸ hgb) hn ha
  | wrap _ hn ha ih => exact ih.wrap hn ha

/-! ## Whoever holds the region -/

/-- A manager does what another one does in a session that has not been passed on. -/
structure Continues (p : Platform) (base : Session) (slot : String) (t : Session) (cur : String)
    (r : RegionId) (g : Region) (k : ManagerId) : Prop where
  entry : t.store.managers[k]? = some (.native r true)
  live : t.store.managerState k = .live
  length : t.store.managerLength k = g.len
  view : t.store.managerView k = .ok (Store.regionView g)
  span : ∀ prog, t.span cur prog = base.span slot prog
  spanMut : ∀ prog, (t.step p (.spanMut cur prog)).1 = (base.step p (.spanMut slot prog)).1
  tryAcquire : ∀ name, (t.step p (.tryAcquire name cur)).1 =
    .ok (.flag (base.store.exclusive g.owner))

theorem Passed.continues (h : base.Passed t r g.len n cur)
    (hb : base.slots.get? slot = some (.manager k))
    (hk : base.store.managers[k]? = some (.native r true))
    (hg : base.store.regions[r]? = some g) {j : ManagerId}
    (hs : t.slots.get? cur = some (.manager j)) : Continues p base slot t cur r g j := by
  have hgt : t.store.regions[r]? = some g := h.agrees.regions ▸ hg
  have hj : t.store.managers[j]? = some (.native r true) := h.carries.held hs
  constructor
  · exact hj
  · simp only [Store.managerState, hj, if_true]
  · simp only [Store.managerLength, hj, hgt]
  · exact Store.managerView_of_held hj hgt
  · intro prog
    rw [span_of_held hs hj hgt, span_of_held hb hk hg, h.agrees.runOn]
  · intro prog
    rw [spanMut_of_held hs hj hgt, spanMut_of_held hb hk hg, h.agrees.runOn]
    rfl
  · intro name
    simp only [step, fst_tryAcquire hs hj hgt, h.agrees.exclusive, Bool.true_and]

theorem Carries.releaseCalls_drop (h : s.Carries name r) (hd : s.slots.Distinct)
    (ho : s.estate.InOrder) (hg : s.store.regions[r]? = some g) :
    releaseCalls r s.store.journal = [] ∧
      releaseCalls r (s.drop name).store.journal = [g] := by
  cases h with
  | @manager k hs hk =>
    have hno := (releaseCalls_eq hd ho hg).2.1 (.inl ⟨k, hk⟩)
    have hz : (s.remove name).holders (.manager k) = 0 := by
      rw [holders_eq]
      exact Estate.holders_eq_zero_of_cons (ho.tenure.sole (mem_handles hs))
        (handles_eq_cons hd hs) rfl
    have he : (s.drop name).store = s.store.giveUp k := by
      simp only [drop, hs, discard, Handle.backing, retire, hz, if_true]
      rfl
    rw [he, Store.releaseCalls_giveUp r hk hg, hno, if_pos rfl]
    exact ⟨rfl, rfl⟩
  | raw hs =>
    have hno := (releaseCalls_eq hd ho hg).2.1 (.inr ⟨name, hs⟩)
    have he : (s.drop name).store = s.store.dropRaw r := by
      simp only [drop, hs, discard]
      rfl
    rw [he, Store.releaseCalls_dropRaw hg, hno, if_pos rfl]
    exact ⟨rfl, rfl⟩

theorem releaseCalls_after (hd : s.slots.Distinct) (ho : s.estate.InOrder)
    (hg : s.store.regions[r]? = some g) (hc : releaseCalls r s.store.journal = [g])
    (ops : List Op) : releaseCalls r (s.after p ops).store.journal = [g] := by
  have hgr : s.store.Grows (s.after p ops).store := grows_after hd ops
  have hd' : (s.after p ops).slots.Distinct := distinct_after hd ops
  have ho' : (s.after p ops).estate.InOrder := (Estate.stable_inOrder p).after hd ho ops
  have hn : ¬s.Holds r := fun hh => by cases hc.symm.trans ((releaseCalls_eq hd ho hg).2.1 hh)
  exact (releaseCalls_eq hd' ho' (Store.getElem?_of_extension hgr.regions hg)).2.2
    (not_holds_of_grows hd ho hd' ho' hgr hg hn)

/-- A region of an exclusive owner can be handed off any number of times. -/
theorem exists_relay (hs : s.slots.get? slot = some (.manager k))
    (hk : s.store.managers[k]? = some (.native r true)) (hg : s.store.regions[r]? = some g)
    (hx : s.store.exclusive g.owner = true) (n : ℕ) :
    ∃ t j, Relay p s slot n [] t slot ∧ t.slots.get? slot = some (.manager j) := by
  induction n with
  | zero => exact ⟨s, k, .start, hs⟩
  | succ n ih =>
    -- Each holder is put under the name of the one before, which is spent or used up by then.
    obtain ⟨t, j, ht, hj⟩ := ih
    have hp := ht.passed hs hk hg
    have ha : (t.step p (.tryAcquire slot slot)).1 = .ok (.flag true) := by
      rw [(hp.continues hs hk hg hj).tryAcquire]
      exact congrArg (Except.ok ∘ Answer.flag) hx
    have hraw : (t.step p (.tryAcquire slot slot)).2.slots.get? slot = some (.raw r) := by
      simp only [step, tryAcquire_of_granted hj (hp.carries.held hj) (hp.agrees.regions ▸ hg) ha]
      exact get?_put_self ..
    have hw := intoManager_of_raw hraw slot
    have hm : ((t.step p (.tryAcquire slot slot)).2.step p (.intoManager slot slot)).2.slots.get?
        slot = some (.manager (t.step p (.tryAcquire slot slot)).2.store.managers.length) := by
      simp only [step] at hw ⊢
      rw [hw]
      exact get?_put_self ..
    exact ⟨_, _, .wrap (ht.acquire (.inl rfl) ha) (.inl rfl) (congrArg Prod.fst hw), hm⟩

/-- What holds at any point of a relay of the region `r`: it is compared with the session in which
the same has been written through the first manager. -/
structure Relayed (p : Platform) (s : Session) (slot : String) (r : RegionId) (g : Region) (n : ℕ)
    (progs : List Program) (t : Session) (cur : String) : Prop where
  store : t.store = { s.store with
    blocks := (s.written p slot progs).store.blocks
    managers := t.store.managers
    journal := t.store.journal }
  bytes : ∀ b j, (t.store.contentsOf b).bytes[j]? =
    if b = g.block ∧ j ∈ (Store.regionView g).window.positions then
      (s.store.outcomes (Store.regionView g) progs)[j - g.offset.toNat]?
    else (s.store.contentsOf b).bytes[j]?
  journal : ∃ events, t.store.journal = s.store.journal ++ events ∧ Passages g.len n events
  holder : (∃ j, t.slots.get? cur = some (.manager j) ∧
      Continues p (s.written p slot progs) slot t cur r g j) ∨
    t.slots.get? cur = some (.raw r) ∧ t.store.regions[r]? = some g ∧
      ∀ name, (t.step p (.intoManager name cur)).1 = .ok .done
  unreleased : releaseCalls r t.store.journal = []
  released : ∀ ops,
    releaseCalls r ((t.step p (.drop cur)).2.after p ops).store.journal = [g]

theorem Relay.relayed (h : Relay p s slot n progs t cur) (hd : s.slots.Distinct)
    (hr : s.estate.Regular) (hs : s.slots.get? slot = some (.manager k))
    (hk : s.store.managers[k]? = some (.native r true)) (hg : s.store.regions[r]? = some g) :
    s.Relayed p slot r g n progs t cur := by
  have hp := h.passed hs hk hg
  obtain ⟨hb, hkb, hgb, hjb⟩ := written_of_held hs hk hg p progs
  have hgt : t.store.regions[r]? = some g := hp.agrees.regions ▸ hgb
  obtain ⟨ops, rfl⟩ := h.exists_ops
  have hdt : (s.after p ops).slots.Distinct := distinct_after hd ops
  have hrt : (s.after p ops).estate.Regular := regular_after hd hr ops
  obtain ⟨hno, hend⟩ := hp.carries.releaseCalls_drop hdt hrt.order hgt
  constructor
  · obtain ⟨-, blocks, hst⟩ := written_frame hs hk hg p progs
    obtain ⟨managers, journal, ha⟩ := hp.agrees
    rw [ha, hst]
  · intro b j
    obtain ⟨managers, journal, ha⟩ := hp.agrees
    have hb := (bytes_written hs hk hg hd hr p progs).2 ⟨some b, (Store.regionView g).window⟩ j
    rw [ha]
    exact hb.trans (if_congr (and_congr_left' Option.some_inj) rfl rfl)
  · exact hjb ▸ hp.journal
  · cases hp.carries with
    | @manager j hj => exact .inl ⟨j, hj, hp.continues hb hkb hgb hj⟩
    | raw hj => exact .inr ⟨hj, hgt, fun name => congrArg Prod.fst (intoManager_of_raw hj name)⟩
  · exact hno
  · intro ops'
    have hgr := grows_step (p := p) hdt (.drop cur)
    have hord := ((Estate.stable_inOrder p).step hdt hrt.order (.drop cur))
    refine releaseCalls_after (distinct_step hdt _) hord
      (Store.getElem?_of_extension hgr.regions hgt) ?_ ops'
    rw [step_drop]
    exact hend

/-- A native manager under a handle in any session. Its region can be acquired if its owner allows
it and the manager has not been released; nothing changes otherwise. What changes is the mark of the
manager, which then is exhausted whatever happens to it, and that the hand-off is noted. A region
that is passed on any number of times is with a live manager or a raw allocation, which can be
passed on again. The store is the one in which the same programs have been run through the first
manager, but for the managers and the notes of the hand-offs, and both managers answer alike. Its
bytes are those that were there, with what the programs make of the region in its place. The region
has not been released, and it is released once, to the owner that it had, as soon as its holder is
dropped. -/
theorem hand_off_round_trip (p : Platform) (e : Element) (ops : List Op) (slot : String)
    (k : ManagerId) (r : RegionId) (held : Bool) (g : Region)
    (hs : ((start e).after p ops).slots.get? slot = some (.manager k))
    (hk : ((start e).after p ops).store.managers[k]? = some (.native r held))
    (hg : ((start e).after p ops).store.regions[r]? = some g) :
    let s := (start e).after p ops
    let granted := held && s.store.exclusive g.owner
    (∀ name, let result := s.step p (.tryAcquire name slot)
      result.1 = .ok (.flag granted) ∧
      (granted = false → result.2 = s) ∧
      (granted = true → s.Acquired p name slot k r g result.2)) ∧
    (granted = true → ∀ n, ∃ t j, Relay p s slot n [] t slot ∧
      t.slots.get? slot = some (.manager j)) ∧
    (held = true → ∀ n progs t cur, Relay p s slot n progs t cur →
      s.Relayed p slot r g n progs t cur) := by
  intro s granted
  have hd : s.slots.Distinct := distinct_run p e ops
  have hr : s.estate.Regular := regular_run p e ops
  have hfst : ∀ name, (s.tryAcquire name slot).1 = .ok (.flag granted) :=
    fst_tryAcquire hs hk hg
  refine ⟨fun name => ⟨hfst name, fun hn => ?_, fun hy => ?_⟩, fun hy => ?_, ?_⟩
  · exact tryAcquire_of_refused hs hk hg (hn ▸ hfst name)
  · exact acquired hd hr hs hk hg (hy ▸ hfst name)
  · obtain ⟨rfl, hx⟩ := Bool.and_eq_true_iff.mp hy
    exact exists_relay hs hk hg hx
  · rintro rfl n progs t cur h
    exact h.relayed hd hr hs hk hg

/-- A region that is passed on and then written, after the first manager has been disposed of. -/
theorem hand_off_round_trip_of_write :
    let ops : List Op := [.storage "b" ⟨.u8, 4, [1, 2, 3, 4]⟩, .recorder "o" true,
      .native "m" "b" "o" 1 2]
    let prog : Program := .update (.fill ⟨.u8, [5]⟩) .done
    let g : Region := ⟨0, 1, 2, .recorder 0⟩
    let s := (start .u8).after .bounded ops
    let t := s.after .bounded [.tryAcquire "r" "m", .intoManager "n" "r", .dispose "m",
      .spanMut "n" prog]
    s.slots.get? "m" = some (.manager 1) ∧ s.store.managers[1]? = some (.native 0 true) ∧
      s.store.regions[0]? = some g ∧
      t.store.blocks = (s.written .bounded "m" [prog]).store.blocks ∧
      (t.store.contentsOf 0).bytes[2]? = some 5 ∧ (t.store.contentsOf 0).bytes[3]? = some 4 ∧
      ∀ ops', releaseCalls 0 ((t.step .bounded (.drop "n")).2.after .bounded ops').store.journal =
        [g] := by
  intro ops prog g s t
  have hs : s.slots.get? "m" = some (.manager 1) := by decide +kernel
  have hk : s.store.managers[1]? = some (.native 0 true) := by decide +kernel
  have hg : s.store.regions[0]? = some g := by decide +kernel
  have clear_of_free : ∀ {t : Session} {name : String}, t.slots.get? name = none →
      t.Clear name := fun hn x hx => by cases hn.symm.trans hx
  have hacq : Relay .bounded s "m" 1 [] (s.after .bounded [.tryAcquire "r" "m"]) "r" :=
    Relay.start.acquire (.inr (clear_of_free (by decide +kernel))) (by decide +kernel)
  have hwrap : Relay .bounded s "m" 1 []
      (s.after .bounded [.tryAcquire "r" "m", .intoManager "n" "r"]) "n" :=
    hacq.wrap (.inr (clear_of_free (by decide +kernel))) (by decide +kernel)
  have hidle : Relay .bounded s "m" 1 []
      (s.after .bounded [.tryAcquire "r" "m", .intoManager "n" "r", .dispose "m"]) "n" :=
    hwrap.idle ⟨["m"], rfl, fun name hn x hx => ?_⟩
  · have hwrite : Relay .bounded s "m" 1 [prog] t "n" :=
      hidle.write (k := 2) prog (by decide +kernel)
    obtain ⟨-, -, hrelay⟩ := hand_off_round_trip .bounded .u8 ops "m" 1 0 true g hs hk hg
    have h := hrelay rfl 1 [prog] t "n" hwrite
    have hblocks := congrArg Store.blocks h.store
    exact ⟨hs, hk, hg, hblocks, (h.bytes 0 2).trans (by decide +kernel),
      (h.bytes 0 3).trans (by decide +kernel), h.released⟩
  · obtain rfl := List.mem_singleton.mp hn
    have hm : (s.after .bounded [.tryAcquire "r" "m", .intoManager "n" "r"]).slots.get? "m" =
        some (.manager 1) := by decide +kernel
    obtain rfl := Option.some.inj (hm.symm.trans hx)
    exact ⟨1, 0, rfl, by decide +kernel⟩

end Session

end LargeBuffers
