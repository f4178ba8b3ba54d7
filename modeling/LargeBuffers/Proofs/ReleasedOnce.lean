import LargeBuffers.Proofs.Tenure

/-! # Exactly one release

In every run each native region is carried by at most one holder, and its owner receives exactly
one release of it, with the bounds under which it is registered, as soon as nothing holds it.
-/

namespace LargeBuffers

/-- All releases, each with the region that was released. -/
def releaseEvents (journal : List Event) : List (RegionId × Region) :=
  journal.filterMap fun
    | .released r g => some (r, g)
    | _ => none

theorem releaseEvents_append (j j' : List Event) :
    releaseEvents (j ++ j') = releaseEvents j ++ releaseEvents j' :=
  List.filterMap_append

theorem count_releaseEvents (r : RegionId) (g : Region) (journal : List Event) :
    (releaseEvents journal).count (r, g) = (releaseCalls r journal).count g := by
  induction journal with
  | nil => rfl
  | cons x journal ih =>
    cases x with
    | released r' g' =>
      have hl : releaseEvents (.released r' g' :: journal) =
          (r', g') :: releaseEvents journal := rfl
      by_cases hr : r' = r
      · have hc : releaseCalls r (.released r' g' :: journal) = g' :: releaseCalls r journal := by
          simp [releaseCalls, hr]
        rw [hl, hc, List.count_cons, List.count_cons, ih, hr]
        simp
      · have hc : releaseCalls r (.released r' g' :: journal) = releaseCalls r journal := by
          simp [releaseCalls, hr]
        rw [hl, hc, List.count_cons_of_ne, ih]
        simp [hr]
    | _ => exact ih

theorem releasesTo_eq (o : Owner) (journal : List Event) :
    releasesTo o journal = (((releaseEvents journal).map (·.2)).filter (·.owner = o)).map
      fun g => (g.offset, g.len) := by
  induction journal with
  | nil => rfl
  | cons x journal ih =>
    cases x with
    | released r g =>
      have hl : releaseEvents (.released r g :: journal) = (r, g) :: releaseEvents journal := rfl
      by_cases ho : g.owner = o
      · have hc : releasesTo o (.released r g :: journal) =
            (g.offset, g.len) :: releasesTo o journal := by
          simp [releasesTo, ho]
        rw [hc, hl, ih]
        simp [ho]
      · have hc : releasesTo o (.released r g :: journal) = releasesTo o journal := by
          simp [releasesTo, ho]
        rw [hc, hl, ih]
        simp [ho]
    | _ => exact ih

theorem releaseEvents_perm {regions : List Region} {journal : List Event}
    (h : ∀ r, releaseCalls r journal = regions[r]?.toList) :
    ((releaseEvents journal).map (·.2)).Perm regions := by
  have hp : (releaseEvents journal).Perm (regions.zipIdx.map Prod.swap) := by
    have hc := fun r g => (count_releaseEvents r g journal).trans (congrArg (List.count g) (h r))
    have hn : (releaseEvents journal).Nodup := by
      rw [List.nodup_iff_count_le_one]
      rintro ⟨r, g⟩
      rw [hc]
      exact List.nodup_iff_count_le_one.mp (by cases regions[r]? <;> simp) g
    have hi : (regions.zipIdx.map Prod.swap).Nodup := by
      refine List.Nodup.of_map Prod.fst ?_
      rw [List.map_map]
      exact (List.zipIdx_map_snd 0 regions).symm ▸ List.nodup_range'
    refine (List.perm_ext_iff_of_nodup hn hi).mpr ?_
    rintro ⟨r, g⟩
    rw [← List.count_pos_iff, hc, List.count_pos_iff, Option.mem_toList]
    simp [List.mem_zipIdx_iff_getElem?]
  have hm := hp.map (·.2)
  rw [List.map_map] at hm
  have he : regions.zipIdx.map ((·.2) ∘ Prod.swap) = regions := List.zipIdx_map_fst 0 regions
  rwa [he] at hm

namespace Session

def carriers (s : Session) (r : RegionId) : ℕ :=
  s.store.managers.count (.native r true) + s.slots.countP (·.2 = .raw r)

/-- A manager that has not been released or a raw allocation carries the base of a region. -/
def Holds (s : Session) (r : RegionId) : Prop :=
  (∃ k : ManagerId, s.store.managers[k]? = some (.native r true)) ∨
    ∃ name, s.slots.get? name = some (.raw r)

variable {p : Platform} {s : Session} {r : RegionId} {g : Region}

theorem tally_eq (s : Session) (r : RegionId) :
    s.estate.tally r = s.carriers r + (releaseCalls r s.store.journal).length := by
  have hb : s.store.bearers (· = r) = s.store.managers.count (.native r true) := by
    rw [Store.bearers, List.count_eq_countP]
    refine List.countP_congr fun m _ => ?_
    unfold Manager.bears
    split
    · simp
    · rename_i hm
      simp only [Bool.false_eq_true, beq_iff_eq, false_iff]
      rintro rfl
      exact hm r rfl
  have hh : s.estate.handles.count (.raw r) = s.slots.countP (·.2 = .raw r) := by
    change Multiset.count _ ((s.slots.map (·.2) : List Handle) : Multiset Handle) = _
    rw [Multiset.coe_count, List.count_eq_countP, List.countP_map]
    refine List.countP_congr fun x _ => ?_
    simp
  change s.store.bearers (· = r) + (releaseCalls r s.store.journal).length +
    s.estate.handles.count (.raw r) = _
  rw [hb, hh, carriers]
  exact Nat.add_right_comm ..

theorem holds_iff (hd : s.slots.Distinct) : s.Holds r ↔ 0 < s.carriers r := by
  rw [carriers, Nat.add_pos_iff_pos_or_pos, List.count_pos_iff, List.countP_pos_iff]
  refine or_congr ?_ ?_
  · exact List.mem_iff_getElem?.symm
  · constructor
    · rintro ⟨name, hn⟩
      exact ⟨_, Directory.mem_of_get? hn, by simp⟩
    · rintro ⟨⟨name, h⟩, hm, hr⟩
      obtain rfl : h = .raw r := by simpa using hr
      exact ⟨name, Directory.get?_of_mem hd hm⟩

/-- The releases of a registered region follow from whether something holds it. -/
theorem releaseCalls_eq (hd : s.slots.Distinct) (ho : s.estate.InOrder)
    (hg : s.store.regions[r]? = some g) : s.carriers r ≤ 1 ∧
      (s.Holds r → releaseCalls r s.store.journal = []) ∧
      (¬ s.Holds r → releaseCalls r s.store.journal = [g]) := by
  have hr : r < s.estate.store.regions.length := (List.getElem?_eq_some_iff.mp hg).1
  have ht := ho.custody.once r
  rw [tally_eq, if_pos hr] at ht
  rw [holds_iff hd]
  refine ⟨by omega, ?_, ?_⟩
  · intro hc
    exact List.length_eq_zero_iff.mp (by omega)
  · intro hc
    have hl : (releaseCalls r s.store.journal).length = 1 := by omega
    obtain ⟨g', hg'⟩ := List.length_eq_one_iff.mp hl
    have hr := ho.custody.calls (hg' ▸ List.mem_singleton_self g')
    obtain rfl := Option.some.inj (hg.symm.trans hr)
    exact hg'

theorem not_holds_of_slots_eq_nil (ho : s.estate.InOrder) (hs : s.slots = []) (r : RegionId) :
    ¬ s.Holds r := by
  rintro (⟨k, hk⟩ | ⟨name, hn⟩)
  · obtain ⟨x, hx, -⟩ := ho.tenure.held hk
    change x ∈ s.slots.entries at hx
    rw [hs] at hx
    cases hx
  · rw [hs] at hn
    cases hn

/-- A region that nothing holds any more is never held again. -/
theorem not_holds_of_grows {s' : Session} (hd : s.slots.Distinct) (ho : s.estate.InOrder)
    (hd' : s'.slots.Distinct) (ho' : s'.estate.InOrder) (hgr : s.store.Grows s'.store)
    (hg : s.store.regions[r]? = some g) (hn : ¬ s.Holds r) : ¬ s'.Holds r := by
  intro hh
  have hc := (releaseCalls_eq hd ho hg).2.2 hn
  have hc' := (releaseCalls_eq hd' ho' (Store.getElem?_of_extension hgr.regions hg)).2.1 hh
  have hp : releaseCalls r s.store.journal <+: releaseCalls r s'.store.journal :=
    hgr.journal.filterMap _
  rw [hc, hc', List.prefix_nil] at hp
  cases hp

/-- After every operation a region has at most one carrier, and its owner has received no release
of it while it is held, and exactly one from then on, with the bounds under which the region was
made. Once all handles are gone each owner has received one release for each of its regions. -/
theorem region_released_once (p : Platform) (e : Element) (ops ops' : List Op) :
    let s := (start e).after p ops
    let s' := s.after p ops'
    (∀ r g, s.store.regions[r]? = some g →
      s'.carriers r ≤ 1 ∧
      (s'.Holds r → releaseCalls r s'.store.journal = []) ∧
      (¬ s'.Holds r → releaseCalls r s'.store.journal = [g]) ∧
      (¬ s.Holds r → ¬ s'.Holds r)) ∧
    (s'.slots = [] →
      (∀ r g, s'.store.regions[r]? = some g → releaseCalls r s'.store.journal = [g]) ∧
      ∀ o, (releasesTo o s'.store.journal).Perm
        ((s'.store.regions.filter (·.owner = o)).map fun g => (g.offset, g.len))) := by
  intro s s'
  have hd : s.slots.Distinct := distinct_run p e ops
  have ho : s.estate.InOrder := inOrder_run p e ops
  have hd' : s'.slots.Distinct := distinct_after hd ops'
  have ho' : s'.estate.InOrder := (Estate.stable_inOrder p).after hd ho ops'
  have hgr : s.store.Grows s'.store := grows_after hd ops'
  constructor
  · intro r g hg
    obtain ⟨hc, hh, hn⟩ :=
      releaseCalls_eq hd' ho' (Store.getElem?_of_extension hgr.regions hg)
    exact ⟨hc, hh, hn, not_holds_of_grows hd ho hd' ho' hgr hg⟩
  · intro hs
    have hn := not_holds_of_slots_eq_nil ho' hs
    have hall : ∀ r g, s'.store.regions[r]? = some g → releaseCalls r s'.store.journal = [g] :=
      fun r g hg => (releaseCalls_eq hd' ho' hg).2.2 (hn r)
    refine ⟨hall, ?_⟩
    intro o
    rw [releasesTo_eq]
    refine ((releaseEvents_perm fun r => ?_).filter _).map _
    cases hg : s'.store.regions[r]? with
    | some g => exact hall r g hg
    | none =>
      rw [Option.toList_none, List.eq_nil_iff_forall_not_mem]
      intro g hm
      have hr := ho'.custody.calls hm
      cases hr.symm.trans hg

/-- A region that was handed off is released when the raw allocation goes. -/
example : releaseCalls 0 ((start .u8).after .bounded
    [.storage "b" ⟨.u8, 4, [1, 2, 3, 4]⟩, .recorder "o" true, .native "m" "b" "o" 1 2,
      .tryAcquire "r" "m", .drop "m", .drop "r"]).store.journal = [⟨0, 1, 2, .recorder 0⟩] := by
  decide +kernel

end Session

end LargeBuffers
