import LargeBuffers.Proofs.Spent

/-! # Acquiring a region

A native manager lets its region go once, if the owner allows it. All that changes is who holds the
region, and the manager is spent from then on.
-/

namespace LargeBuffers

namespace Store

variable {st st' : Store} {k : ManagerId} {r : RegionId} {g : Region} {x : Handle}

/-- The store after the manager `k` has let the region `r` go, of which `g` are the bounds. -/
def handedOff (st : Store) (k : ManagerId) (r : RegionId) (g : Region) : Store :=
  (st.setManager k (.native r false)).note (.handedOff g.len)

/-- What a native manager can do is settled by its mark and its owner. -/
theorem handOff_eq_ite {held : Bool} (hk : st.managers[k]? = some (.native r held))
    (hg : st.regions[r]? = some g) : st.handOff k =
      if held && st.exclusive g.owner then (some r, st.handedOff k r g) else (none, st) := by
  cases held with
  | false => simp only [handOff, hk, Bool.false_and, Bool.false_eq_true, if_false]
  | true => simp only [handOff, hk, hg, Bool.true_and, handedOff]

theorem grows_handedOff {held : Bool} (hk : st.managers[k]? = some (.native r held)) (g : Region) :
    st.Grows (st.handedOff k r g) :=
  (grows_setManager hk (.native r held)).trans (grows_note ..)

theorem managers_handedOff {held : Bool} (hk : st.managers[k]? = some (.native r held))
    (g : Region) : (st.handedOff k r g).managers[k]? = some (.native r false) :=
  List.getElem?_set_self (List.getElem?_eq_some_iff.mp hk).1

theorem Spent.of_grows (hx : st.Spent x) (hg : st.Grows st') : st'.Spent x := by
  obtain ⟨k, r, hb, hk⟩ := hx
  exact ⟨k, r, hb, spent_of_grows hk hg⟩

end Store

namespace Session

variable {p : Platform} {s s' : Session} {name slot : String} {x : Handle} {k : ManagerId}
  {r : RegionId} {g : Region} {held : Bool}

theorem Clear.of_grows (h : s.Clear name) (hg : s.store.Grows s'.store)
    (hs : ∀ x, s'.slots.get? name = some x → s.slots.get? name = some x) : s'.Clear name :=
  fun x hx => (h x (hs x hx)).of_grows hg

/-! ## One acquisition -/

section Native

variable (hs : s.slots.get? slot = some (.manager k))
  (hk : s.store.managers[k]? = some (.native r held))

include hs hk

theorem tryAcquire_eq_ite (hg : s.store.regions[r]? = some g) (name : String) :
    s.tryAcquire name slot =
      if held && s.store.exclusive g.owner then
        ((s.withStore (s.store.handedOff k r g)).put name (.raw r)).answer (.flag true)
      else s.answer (.flag false) := by
  have ho := Store.handOff_eq_ite hk hg
  split
  · rw [if_pos ‹_›] at ho
    simp only [tryAcquire, hs, hk, ho]
  · rw [if_neg ‹_›] at ho
    simp only [tryAcquire, hs, hk, ho]
    rfl

theorem fst_tryAcquire (hg : s.store.regions[r]? = some g) (name : String) :
    (s.tryAcquire name slot).1 = .ok (.flag (held && s.store.exclusive g.owner)) := by
  rw [tryAcquire_eq_ite hs hk hg]
  cases held && s.store.exclusive g.owner with
  | true => rfl
  | false => rfl

theorem tryAcquire_of_granted (hg : s.store.regions[r]? = some g)
    (ha : (s.tryAcquire name slot).1 = .ok (.flag true)) :
    (s.tryAcquire name slot).2 = (s.withStore (s.store.handedOff k r g)).put name (.raw r) := by
  rw [fst_tryAcquire hs hk hg] at ha
  rw [tryAcquire_eq_ite hs hk hg, if_pos (Answer.flag.inj (Except.ok.inj ha))]
  rfl

theorem tryAcquire_of_refused (hg : s.store.regions[r]? = some g)
    (ha : (s.tryAcquire name slot).1 = .ok (.flag false)) : (s.tryAcquire name slot).2 = s := by
  rw [fst_tryAcquire hs hk hg] at ha
  rw [tryAcquire_eq_ite hs hk hg, Answer.flag.inj (Except.ok.inj ha)]
  rfl

/-- Nothing is lost by putting the raw allocation in the place of its manager. -/
theorem clear_handedOff (hn : name = slot ∨ s.Clear name) (g : Region) :
    (s.withStore (s.store.handedOff k r g)).Clear name := by
  obtain rfl | hn := hn
  · intro x hx
    obtain rfl := Option.some.inj (hs.symm.trans hx)
    exact ⟨k, r, rfl, Store.managers_handedOff hk g⟩
  · exact hn.of_grows (Store.grows_handedOff hk g) fun _ => id

end Native

/-! ## After it -/

/-- What is left of a native manager that has been spent. -/
structure Exhausted (p : Platform) (s : Session) (slot : String) (x : Handle) (k : ManagerId) :
    Prop where
  released : s.store.managerState k = .released
  withholds : s.Withholds slot x k
  tryAcquire : x = .manager k → ∀ name,
    s.step p (.tryAcquire name slot) = s.answer (.flag false)
  dispose : (s.step p (.dispose slot)).2 = s
  drop : (s.step p (.drop slot)).2 = s.remove slot

theorem exhausted (hr : s.estate.Regular) (hs : s.slots.get? slot = some x)
    (hx : x.manager? = some k) (hk : s.store.managers[k]? = some (.native r false)) :
    s.Exhausted p slot x k := by
  have hb := Handle.backing_of_manager? hx
  have hspent : s.store.Spent x := ⟨k, r, hb, hk⟩
  have hrel := Store.managerState_of_spent hk
  have hh : s.store.Honest (.manager k) := hb ▸ hspent.honest
  have hc : s.Clear slot := by
    intro y hy
    obtain rfl := Option.some.inj (hs.symm.trans hy)
    exact hspent
  constructor
  · exact hrel
  · exact Session.withholds hs hx hr hh hrel
  · rintro rfl name
    simp only [step, Session.tryAcquire, hs, hk, Store.handOff_of_spent hk]
    rfl
  · obtain ⟨-, hd, -⟩ := dispose_manager hs hx (stage hs hx hr hh)
    exact hd (by simp [hrel])
  · rw [step_drop, drop_of_clear hc]

structure Acquired (p : Platform) (s : Session) (name slot : String) (k : ManagerId) (r : RegionId)
    (g : Region) (t : Session) : Prop where
  raw : t.slots.get? name = some (.raw r)
  store : name = slot ∨ s.Clear name → t.store = s.store.handedOff k r g
  region : ∀ ops, (t.after p ops).store.regions[r]? = some g
  exhausted : ∀ ops other x, (t.after p ops).slots.get? other = some x → x.manager? = some k →
    (t.after p ops).Exhausted p other x k

theorem acquired (hd : s.slots.Distinct) (hr : s.estate.Regular)
    (hs : s.slots.get? slot = some (.manager k))
    (hk : s.store.managers[k]? = some (.native r held)) (hg : s.store.regions[r]? = some g)
    (ha : (s.tryAcquire name slot).1 = .ok (.flag true)) :
    s.Acquired p name slot k r g (s.tryAcquire name slot).2 := by
  have hdt : (s.tryAcquire name slot).2.slots.Distinct :=
    distinct_step (p := p) hd (.tryAcquire name slot)
  have hrt : (s.tryAcquire name slot).2.estate.Regular :=
    (Estate.stable_regular p).step hd hr (.tryAcquire name slot)
  rw [tryAcquire_of_granted hs hk hg ha] at hdt hrt ⊢
  have hput := (losses_put (s := s.withStore (s.store.handedOff k r g)) hd name (.raw r)).grows
  constructor
  · exact get?_put_self ..
  · exact fun hn => store_put (clear_handedOff hs hk hn g) _
  · intro ops
    have hgr := (Store.grows_handedOff hk g).trans (hput.trans (grows_after (p := p) hdt ops))
    exact Store.getElem?_of_extension hgr.regions hg
  · intro ops other x hx hxk
    have hgr := hput.trans (grows_after (p := p) hdt ops)
    have hspent := Store.spent_of_grows (Store.managers_handedOff hk g) hgr
    exact exhausted (regular_after hdt hrt ops) hx hxk hspent

end Session

end LargeBuffers
