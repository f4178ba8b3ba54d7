import LargeBuffers.Proofs.Effects

/-! # Drops in any order

The end of a handle depends on the journal in no way, and on other handles only by whether they are
to the same manager. Of two handles to one manager the second one takes the region with it, whatever
their order, and the effects of all other handles can change places. So handles can be dropped in
any order.
-/

namespace LargeBuffers

namespace Estate

variable {e : Estate} {x y : Handle} {hs : Multiset Handle} {k : ManagerId}

/-- The effects of the end of a handle that is no longer one of the estate. -/
def outgo (e : Estate) : Handle → List Effect
  | .raw r => e.store.rawEffects r
  | .importation i => [.reference i]
  | h =>
    match h.backing with
    | .manager k => if e.holders (.manager k) = 0 then e.store.giveUpEffects k else []
    | _ => []

theorem retire_eq_effects (e : Estate) (k : ManagerId) : e.retire k =
    e.store.effects (if e.holders (.manager k) = 0 then e.store.giveUpEffects k else []) := by
  unfold retire
  split
  · exact e.store.giveUp_eq_effects k
  · rfl

theorem discard_eq_effects (e : Estate) (h : Handle) :
    e.discard h = e.store.effects (e.outgo h) := by
  cases h with
  | raw r => exact e.store.dropRaw_eq_effects r
  | importation i => exact e.store.dropReference_eq_effect i
  | array | allocator => rfl
  | shared k | manager k => exact e.retire_eq_effects k
  | memory m | readOnly m | owner m =>
    obtain ⟨_ | _ | k, start, len⟩ := m
    · rfl
    · rfl
    · exact e.retire_eq_effects k

theorem outgo_of_backing (hb : x.backing = .manager k) :
    e.outgo x = if e.holders (.manager k) = 0 then e.store.giveUpEffects k else [] := by
  cases x with
  | raw | importation | array | allocator => cases hb
  | shared | manager =>
    obtain rfl := Backing.manager.inj hb
    rfl
  | memory m | readOnly m | owner m =>
    have hm : m.backing = .manager k := hb
    simp only [outgo, Handle.backing, hm]

theorem outgo_congr {e' : Estate} (hr : e'.store.regions = e.store.regions)
    (hm : ∀ k, x.backing = .manager k → e'.store.managers[k]? = e.store.managers[k]? ∧
      e'.holders (.manager k) = e.holders (.manager k)) : e'.outgo x = e.outgo x := by
  rcases hb : x.backing with _ | b | k
  · cases x with
    | raw r => simp only [outgo, Store.rawEffects, hr]
    | importation i => rfl
    | shared | manager => cases hb
    | _ => simp only [outgo, hb]
  · cases x with
    | raw | importation | shared | manager => cases hb
    | _ => simp only [outgo, hb]
  · obtain ⟨hk, hh⟩ := hm k hb
    rw [outgo_of_backing hb, outgo_of_backing hb, hh, Store.giveUpEffects, Store.giveUpEffects,
      hk, hr]

theorem backing_of_mem_outgo {m : Manager} (h : .manager k m ∈ e.outgo x) :
    x.backing = .manager k := by
  rcases hb : x.backing with _ | b | k'
  · cases x with
    | raw r =>
      simp only [outgo, Store.rawEffects] at h
      split at h
      · simp only [List.mem_cons, reduceCtorEq, false_or] at h
        exact absurd h (Store.not_manager_mem_releaseEffects _ _ _ _)
      · cases h
    | importation i => simp [outgo] at h
    | shared | manager => cases hb
    | _ => simp [outgo, hb] at h
  · cases x with
    | raw | importation | shared | manager => cases hb
    | _ => simp [outgo, hb] at h
  · rw [outgo_of_backing hb] at h
    split at h
    · rw [Store.eq_of_mem_giveUpEffects h]
    · cases h

/-- The first of two handles to one manager takes nothing with it. -/
theorem discard_of_shared (hx : x.backing = .manager k) (hy : y.backing = .manager k) :
    { e with handles := y ::ₘ hs }.discard x = e.store := by
  have hp : 0 < { e with handles := y ::ₘ hs }.holders (.manager k) :=
    holders_pos (Multiset.mem_cons_self ..) hy
  rw [discard_eq_effects, outgo_of_backing hx, if_neg hp.ne']
  rfl

theorem discard_discard (h : ∀ k, x.backing = .manager k → y.backing ≠ .manager k) :
    { e with
      store := { e with handles := y ::ₘ hs }.discard x
      handles := hs }.discard y =
    (e.store.effects ({ e with handles := hs }.outgo x)).effects
      ({ e with handles := hs }.outgo y) := by
  have hx : { e with handles := y ::ₘ hs }.outgo x = { e with handles := hs }.outgo x := by
    refine outgo_congr rfl fun k hk => ⟨rfl, ?_⟩
    rw [holders_cons, if_neg (h k hk), Nat.add_zero]
  have hy : { e with
      store := e.store.effects ({ e with handles := hs }.outgo x)
      handles := hs }.outgo y = { e with handles := hs }.outgo y := by
    refine outgo_congr (Store.regions_effects ..) fun k hk => ⟨?_, rfl⟩
    refine Store.getElem?_effects (fun m hm => ?_) _
    exact h k (backing_of_mem_outgo hm) hk
  rw [discard_eq_effects, discard_eq_effects, hx, hy]

theorem apart_of_mem_outgo {x' y' : Effect}
    (h : ∀ k, x.backing = .manager k → y.backing ≠ .manager k) (hx : x' ∈ e.outgo x)
    (hy : y' ∈ e.outgo y) : x' = y' ∨ x'.Apart y' := by
  cases x' with
  | manager k m =>
    cases y' with
    | manager k' m' =>
      refine .inr ?_
      rintro rfl
      exact h k (backing_of_mem_outgo hx) (backing_of_mem_outgo hy)
    | _ => exact .inr trivial
  | reference i =>
    cases y' with
    | reference i' =>
      by_cases hi : i = i'
      · exact .inl (congrArg Effect.reference hi)
      · exact .inr hi
    | _ => exact .inr trivial
  | _ => cases y' <;> exact .inr trivial

theorem discard_comm (e : Estate) (x y : Handle) (hs : Multiset Handle) :
    ({ e with
      store := { e with handles := y ::ₘ hs }.discard x
      handles := hs }.discard y).Alike
    ({ e with
      store := { e with handles := x ::ₘ hs }.discard y
      handles := hs }.discard x) := by
  by_cases hxy : ∃ k, x.backing = .manager k ∧ y.backing = .manager k
  · obtain ⟨k, hx, hy⟩ := hxy
    rw [discard_of_shared hx hy, discard_of_shared hy hx]
    apply Store.Alike.of_eq
    rw [discard_eq_effects, discard_eq_effects, outgo_of_backing hx, outgo_of_backing hy]
  · have hne : ∀ k, x.backing = .manager k → y.backing ≠ .manager k :=
      fun k hx hy => hxy ⟨k, hx, hy⟩
    rw [discard_discard hne, discard_discard fun k hy hx => hxy ⟨k, hx, hy⟩]
    exact Store.effects_comm (fun x' hx y' hy => apart_of_mem_outgo hne hx hy) e.store

/-- The order of the journal does not matter to the end of a handle. -/
theorem discard_alike {st : Store} (h : e.store.Alike st) (x : Handle) :
    (e.discard x).Alike ({ e with store := st }.discard x) := by
  have ho : { e with store := st }.outgo x = e.outgo x := by
    refine outgo_congr ?_ fun k _ => ⟨?_, rfl⟩
    · exact congrArg (·.regions) h.eq
    · exact congrArg (·.managers[k]?) h.eq
  rw [discard_eq_effects, discard_eq_effects, ho]
  exact h.effects _

end Estate

namespace Session

/-- The same session, up to the order of the journal. -/
structure Alike (s s' : Session) : Prop where
  eq : s' = s.withStore s'.store
  store : s.store.Alike s'.store

variable {p : Platform} {s s' s₁ : Session} {name name' : String} {x : Handle}

theorem Alike.refl (s : Session) : s.Alike s := ⟨rfl, .refl _⟩

theorem Alike.trans (h : s.Alike s₁) (h' : s₁.Alike s') : s.Alike s' where
  eq := by
    rw [h'.eq, h.eq]
    rfl
  store := h.store.trans h'.store

theorem drop_of_get? (h : s.slots.get? name = some x) :
    s.drop name = (s.remove name).withStore ((s.remove name).estate.discard x) := by
  simp only [drop, h]
  exact discard_eq ..

theorem drop_of_free (h : s.slots.get? name = none) : s.drop name = s := by
  simp only [drop, h]

theorem Alike.drop (h : s.Alike s') (name : String) : (s.drop name).Alike (s'.drop name) := by
  obtain ⟨he, hst⟩ := h
  have hs : s'.slots = s.slots := congrArg (·.slots) he
  cases hx : s.slots.get? name with
  | none =>
    rw [drop_of_free hx, drop_of_free (hs ▸ hx)]
    exact ⟨he, hst⟩
  | some x =>
    rw [drop_of_get? hx, drop_of_get? (hs ▸ hx), he]
    exact ⟨rfl, Estate.discard_alike (e := (s.remove name).estate) hst x⟩

theorem drop_drop (hd : s.slots.Distinct) (name name' : String) :
    ((s.drop name).drop name').Alike ((s.drop name').drop name) := by
  by_cases hn : name = name'
  · rw [hn]
    exact .refl _
  have hget : ∀ {n n' : String}, n ≠ n' → (s.drop n).slots.get? n' = s.slots.get? n' := by
    intro n n' hne
    rw [slots_drop, Directory.get?_erase_of_ne hne.symm]
  have hn' := Ne.symm hn
  cases hx : s.slots.get? name with
  | none =>
    rw [drop_of_free hx, drop_of_free ((hget hn').trans hx)]
    exact .refl _
  | some x =>
    cases hy : s.slots.get? name' with
    | none =>
      rw [drop_of_free hy, drop_of_free ((hget hn).trans hy)]
      exact .refl _
    | some y =>
      have hxy := Directory.entries_eq_cons (hd.erase name)
        ((Directory.get?_erase_of_ne hn').trans hy)
      have hyx := Directory.entries_eq_cons (hd.erase name')
        ((Directory.get?_erase_of_ne hn).trans hx)
      have he : (s.slots.erase name').erase name = (s.slots.erase name).erase name' :=
        List.filter_comm ..
      have hc := s.estate.discard_comm x y ((s.slots.erase name).erase name').entries
      rw [← hxy, ← he, ← hyx] at hc
      rw [drop_of_get? ((hget hn).trans hy), drop_of_get? ((hget hn').trans hx),
        drop_of_get? hx, drop_of_get? hy]
      constructor
      · simp only [remove, withStore, he]
      · rw [he] at hc
        simp only [remove, withStore, estate, he]
        exact hc

def drops (s : Session) (names : List String) : Session := names.foldl drop s

theorem Alike.drops (h : s.Alike s') (names : List String) :
    (s.drops names).Alike (s'.drops names) := by
  induction names generalizing s s' with
  | nil => exact h
  | cons name names ih => exact ih (h.drop name)

theorem drops_perm {names names' : List String} (hp : names.Perm names')
    (hd : s.slots.Distinct) : (s.drops names).Alike (s.drops names') := by
  induction hp generalizing s with
  | nil => exact .refl s
  | cons name _ ih =>
    refine ih ?_
    rw [slots_drop]
    exact hd.erase name
  | swap name name' names => exact (drop_drop hd name' name).drops names
  | trans _ _ ih ih' => exact (ih hd).trans (ih' hd)

theorem step_drop (p : Platform) (s : Session) (name : String) :
    (s.step p (.drop name)).2 = s.drop name := by
  simp only [step, dropSlot]
  split
  · rfl
  · rename_i h
    exact (drop_of_free h).symm

theorem after_drops (p : Platform) (s : Session) (names : List String) :
    s.after p (names.map .drop) = s.drops names := by
  rw [after, List.foldl_map, drops]
  simp only [step_drop]

theorem snd_dropAll (s : Session) (names : List String) :
    (s.dropAll names).2 = s.drops names := by
  have hfold : ∀ n : ℕ, (names.foldl (fun (x : ℕ × Session) name =>
      if (x.2.slots.get? name).isSome then (x.1 + 1, x.2.drop name) else x) (n, s)).2 =
      s.drops names := by
    induction names generalizing s with
    | nil => exact fun _ => rfl
    | cons name names ih =>
      intro n
      rw [List.foldl_cons]
      split
      · exact ih (s.drop name) (n + 1)
      · rename_i hn
        change _ = (s.drop name).drops names
        rw [drop_of_free (Option.not_isSome_iff_eq_none.mp hn)]
        exact ih s n
  exact hfold 0

/-- Handles can be dropped in any order. The session is the same in the end, all but for the order
of the journal: each importation was finally released as often, and each owner received the same
releases. What is left reads and describes itself in the same way. -/
theorem drops_confluent (p : Platform) (e : Element) (ops : List Op) (names names' : List String)
    (hp : names.Perm names') :
    let s := (start e).after p ops
    let t := s.after p (names.map .drop)
    let t' := s.after p (names'.map .drop)
    t' = t.withStore { t.store with journal := t'.store.journal } ∧
    t.store.journal.Perm t'.store.journal ∧
    (∀ i, finalReleases i t'.store.journal = finalReleases i t.store.journal) ∧
    (∀ o, (releasesTo o t.store.journal).Perm (releasesTo o t'.store.journal)) ∧
    ∀ slot, t'.values slot = t.values slot ∧ t'.info slot = t.info slot := by
  intro s t t'
  have hd : s.slots.Distinct := distinct_run p e ops
  have ha : t.Alike t' := by
    have ht : t = s.drops names := after_drops p s names
    have ht' : t' = s.drops names' := after_drops p s names'
    rw [ht, ht']
    exact drops_perm hp hd
  have he : t' = t.withStore { t.store with journal := t'.store.journal } := by
    rw [← ha.store.eq]
    exact ha.eq
  refine ⟨he, ha.store.perm, ?_, ?_, ?_⟩
  · intro i
    exact (ha.store.perm.countP_eq _).symm
  · intro o
    exact ha.store.perm.filterMap _
  · intro slot
    rw [he]
    constructor
    · rfl
    · rfl

/-- The handle to an importation, its part behind two handles, and a raw allocation. -/
theorem drops_confluent_of_importation :
    let ops : List Op := [.storage "b" ⟨.u8, 4, [1, 2, 3, 4]⟩, .importation "i",
      .addAlias "m" "i" "b" 1 2, .share "x" "m", .memory "y" .writable (.manager "x" false),
      .defaultAllocator "d", .allocate "n" "d" .native 3, .tryAcquire "r" "n"]
    let names := ["i", "x", "r", "y"]
    let names' := ["x", "y", "i", "r"]
    let s := (start .u8).after .bounded ops
    let t := s.after .bounded (names.map .drop)
    let t' := s.after .bounded (names'.map .drop)
    names.Perm names' ∧ t.store.gauge = t'.store.gauge ∧
      finalReleases 0 t'.store.journal = finalReleases 0 t.store.journal ∧
      t.store.journal ≠ t'.store.journal := by
  intro ops names names' s t t'
  have hp : names.Perm names' := by decide
  have hj : t.store.journal ≠ t'.store.journal := by decide +kernel
  obtain ⟨he, -, hf, -⟩ := drops_confluent .bounded .u8 ops names names' hp
  -- The runs are written out, or the comparison of their stores would evaluate them.
  refine ⟨hp, ?_, ?_, hj⟩
  · simp only [t, t', s]
    rw [he]
    simp only [withStore]
  · simp only [t, t', s]
    exact hf 0

end Session

end LargeBuffers
