import Mathlib.Algebra.GroupWithZero.Nat
import LargeBuffers.Proofs.Tenure

/-! # Accounts of importations

The references to an importation are its handle and the managers that hold a part of it. They
are counted at the importation, and when none is left the importation is finally released.
-/

namespace LargeBuffers

theorem finalReleases_append (i : ImportationId) (j j' : List Event) :
    finalReleases i (j ++ j') = finalReleases i j + finalReleases i j' :=
  List.countP_append

def Importation.dropped (imp : Importation) : Importation where
  references := imp.references - 1
  tracked := if imp.references = 1 then 0 else imp.tracked

def Region.importation? (g : Region) : Option ImportationId :=
  match g.owner with
  | .importation i => some i
  | _ => none

theorem Region.importation?_eq_some_iff {g : Region} {i : ImportationId} :
    g.importation? = some i ↔ g.owner = .importation i := by
  unfold importation?
  split
  · rename_i j hj
    rw [hj, Option.some.injEq, Owner.importation.injEq]
  · rename_i hn
    constructor
    · nofun
    · intro hi
      exact absurd hi (hn i)

namespace Store

def isPart (st : Store) (i : ImportationId) (r : RegionId) : Bool :=
  (st.regions[r]?).any (·.owner = .importation i)

/-- The managers that have not released their part of an importation. -/
def aliases (st : Store) (i : ImportationId) : ℕ := st.bearers (st.isPart i)

/-- The length of all parts of an importation that were ever made. -/
def imported (st : Store) (i : ImportationId) : ℕ :=
  ((st.regions.filter (·.owner = .importation i)).map (·.len.toNat)).sum

/-- The references that an importation counts; there are none to one that does not exist. -/
def references (st : Store) (i : ImportationId) : ℤ :=
  ((st.importations[i]?).map (·.references)).getD 0

variable {st st' : Store} {i j : ImportationId} {imp : Importation}

theorem references_eq (h : st.importations[i]? = some imp) : st.references i = imp.references := by
  simp [references, h]

theorem references_setImportation (imp' : Importation) (h : st.importations[i]? = some imp) :
    (st.setImportation i imp').references j =
      if i = j then imp'.references else st.references j := by
  obtain ⟨hl, -⟩ := List.getElem?_eq_some_iff.mp h
  by_cases hij : i = j
  · subst hij
    simp [references, hl]
  · simp [references, hij]

theorem aliases_congr (hm : st'.managers = st.managers) (hr : st'.regions = st.regions)
    (i : ImportationId) : st'.aliases i = st.aliases i := by
  rw [aliases, aliases, bearers_congr hm]
  unfold isPart
  rw [hr]

theorem imported_congr (hr : st'.regions = st.regions) (i : ImportationId) :
    st'.imported i = st.imported i := by
  rw [imported, imported, hr]

theorem isPart_of_getElem? {r : RegionId} {g : Region} (h : st.regions[r]? = some g) :
    st.isPart i r = decide (g.owner = .importation i) := by
  simp [isPart, h]

theorem importations_dropReference (h : st.importations[i]? = some imp) :
    (st.dropReference i).importations = st.importations.set i imp.dropped := by
  simp only [dropReference, h, Importation.dropped]
  split <;> rfl

theorem journal_dropReference (h : st.importations[i]? = some imp) :
    (st.dropReference i).journal =
      st.journal ++ if imp.references = 1 then [.finalRelease i imp.tracked] else [] := by
  simp only [dropReference, h]
  split
  · rfl
  · exact (List.append_nil _).symm

theorem finalReleases_free (a : AllocatorId) (len : UInt64) :
    finalReleases i (st.free a len).journal = finalReleases i st.journal := by
  simp only [free]
  repeat' split
  · rfl
  · exact finalReleases_append ..
  · exact finalReleases_append ..

end Store

namespace Estate

/-- The books of all importations. A reference that goes is in `gone` from the time when nothing
stands for it any more to the time when its importation counts it off. -/
structure Accounts (gone : Option ImportationId) (e : Estate) : Prop where
  references : ∀ i, e.store.references i =
    e.handles.count (.importation i) + e.store.aliases i + if gone = some i then 1 else 0
  single : ∀ i, e.handles.count (.importation i) ≤ 1
  final : ∀ i, finalReleases i e.store.journal =
    if i < e.store.importations.length ∧ e.store.references i = 0 then 1 else 0
  tracked : ∀ {i imp}, e.store.importations[i]? = some imp →
    imp.tracked = if 0 < imp.references then UInt64.ofNat (e.store.imported i) else 0
  part : ∀ {g i}, g ∈ e.store.regions → g.owner = .importation i →
    i < e.store.importations.length
  raw : ∀ {r g i}, .raw r ∈ e.handles → e.store.regions[r]? = some g → g.owner ≠ .importation i

variable {p : Platform} {e e' : Estate} {gone : Option ImportationId} {i : ImportationId}

theorem Accounts.frame (h : e.Accounts gone)
    (hi : e'.store.importations = e.store.importations)
    (ha : ∀ i, e'.store.aliases i = e.store.aliases i)
    (ht : ∀ i, e'.store.imported i = e.store.imported i)
    (hf : ∀ i, finalReleases i e'.store.journal = finalReleases i e.store.journal)
    (hc : ∀ i, e'.handles.count (.importation i) = e.handles.count (.importation i))
    (hp : ∀ {g i}, g ∈ e'.store.regions → g.owner = .importation i → g ∈ e.store.regions)
    (hw : ∀ {r g i}, .raw r ∈ e'.handles → e'.store.regions[r]? = some g →
      g.owner ≠ .importation i) : e'.Accounts gone where
  references i := by
    rw [hc, ha, ← h.references i, Store.references, hi]
    rfl
  single i := hc i ▸ h.single i
  final i := by
    rw [hf, h.final i, Store.references, Store.references, hi]
  tracked hm := by
    rw [ht]
    exact h.tracked (hi ▸ hm)
  part hg ho := hi ▸ h.part (hp hg ho) ho
  raw := hw

theorem Accounts.frame_handles (h : e.Accounts gone)
    (hi : e'.store.importations = e.store.importations)
    (hm : e'.store.managers = e.store.managers) (hr : e'.store.regions = e.store.regions)
    (hf : ∀ i, finalReleases i e'.store.journal = finalReleases i e.store.journal)
    (hc : ∀ i, e'.handles.count (.importation i) = e.handles.count (.importation i))
    (hw : ∀ {r}, .raw r ∈ e'.handles → .raw r ∈ e.handles) : e'.Accounts gone :=
  h.frame hi (Store.aliases_congr hm hr) (Store.imported_congr hr) hf hc (fun hg _ => hr ▸ hg)
    fun hx hg => h.raw (hw hx) (hr ▸ hg)

theorem Accounts.dropReference (h : e.Accounts (some i)) :
    { e with store := e.store.dropReference i }.Accounts none := by
  have hr := h.references i
  rw [if_pos rfl] at hr
  obtain ⟨imp, himp⟩ : ∃ imp, e.store.importations[i]? = some imp := by
    rw [← Option.isSome_iff_exists]
    by_contra hn
    rw [Option.not_isSome_iff_eq_none] at hn
    simp only [Store.references, hn, Option.map_none, Option.getD_none] at hr
    omega
  rw [Store.references_eq himp] at hr
  obtain ⟨hl, -⟩ := List.getElem?_eq_some_iff.mp himp
  have hi := Store.importations_dropReference himp
  have hj := Store.journal_dropReference himp
  have href : ∀ j, (e.store.dropReference i).references j =
      if i = j then imp.references - 1 else e.store.references j := by
    intro j
    have hs := Store.references_setImportation (j := j) imp.dropped himp
    rw [Store.references, hi]
    exact hs
  have hr' := Store.regions_dropReference e.store i
  refine
    { references := fun j => ?_
      single := h.single
      final := fun j => ?_
      tracked := fun {j imp'} hj' => ?_
      part := fun {g j} hg ho => ?_
      raw := fun hx hg => h.raw hx (hr' ▸ hg) }
  · have ha : (e.store.dropReference i).aliases j = e.store.aliases j :=
      Store.aliases_congr (e.store.managers_dropReference i) hr' j
    have hej := h.references j
    rw [href, ha]
    simp only [reduceCtorEq, if_false, Option.some.injEq] at hej ⊢
    by_cases hij : i = j
    · subst hij
      rw [if_pos rfl, hr]
      omega
    · rw [if_neg hij] at hej
      rw [if_neg hij]
      exact hej
  · have hf := h.final j
    rw [href, hi, hj, finalReleases_append, hf, List.length_set]
    by_cases hij : i = j
    · subst hij
      rw [Store.references_eq himp, if_neg (by omega), if_pos rfl]
      by_cases h1 : imp.references = 1
      · simp [h1, hl, finalReleases]
      · rw [if_neg h1, if_neg (by omega)]
        rfl
    · have hz : finalReleases j (if imp.references = 1 then [.finalRelease i imp.tracked] else []) =
          0 := by
        split
        · simp [finalReleases, hij]
        · rfl
      rw [hz, if_neg hij]
      rfl
  · rw [hi] at hj'
    rw [Store.imported_congr hr']
    by_cases hij : i = j
    · subst hij
      obtain rfl : imp.dropped = imp' := by simpa [hl] using hj'
      have ht := h.tracked himp
      rw [if_pos (by omega)] at ht
      unfold Importation.dropped
      by_cases h1 : imp.references = 1
      · rw [if_pos h1, if_neg (by simp [h1])]
      · rw [if_neg h1, if_pos (by dsimp only; omega), ht]
    · rw [List.getElem?_set_ne hij] at hj'
      exact h.tracked hj'
  · rw [hi, List.length_set]
    exact h.part (hr' ▸ hg) ho

/-- Something that counted for an importation has become a reference that is gone. -/
theorem Accounts.shift (h : e.Accounts none)
    (hi : e'.store.importations = e.store.importations) (hr : e'.store.regions = e.store.regions)
    (hf : ∀ i, finalReleases i e'.store.journal = finalReleases i e.store.journal)
    (hc : ∀ i, e'.handles.count (.importation i) + e'.store.aliases i +
      (if gone = some i then 1 else 0) = e.handles.count (.importation i) + e.store.aliases i)
    (hs : ∀ i, e'.handles.count (.importation i) ≤ e.handles.count (.importation i))
    (hw : ∀ {r}, .raw r ∈ e'.handles → .raw r ∈ e.handles) : e'.Accounts gone where
  references i := by
    have hej := h.references i
    have hci := hc i
    simp only [reduceCtorEq, if_false] at hej
    rw [Store.references, hi]
    refine hej.trans ?_
    split_ifs at hci ⊢ <;> omega
  single i := (hs i).trans (h.single i)
  final i := by
    rw [hf, h.final i, Store.references, Store.references, hi]
  tracked hm := by
    rw [Store.imported_congr hr]
    exact h.tracked (hi ▸ hm)
  part hg ho := hi ▸ h.part (hr ▸ hg) ho
  raw hx hg := h.raw (hw hx) (hr ▸ hg)

theorem Accounts.release {g : Region} (h : e.Accounts g.importation?) (r : RegionId) :
    { e with store := e.store.release r g }.Accounts none := by
  have hn : { e with store := e.store.note (.released r g) }.Accounts g.importation? :=
    h.frame_handles rfl rfl rfl (fun _ => finalReleases_append ..) (fun _ => rfl) id
  rcases ho : g.owner with o | a | i
  · have hg : g.importation? = none := by simp [Region.importation?, ho]
    rw [hg] at hn
    simpa only [Store.release, ho] using hn
  · have hg : g.importation? = none := by simp [Region.importation?, ho]
    rw [hg] at hn
    simp only [Store.release, ho]
    obtain ⟨_, _, _, hf⟩ := (e.store.note (.released r g)).free_frame a g.len
    refine hn.frame_handles ?_ ?_ ?_ (fun _ => Store.finalReleases_free ..) (fun _ => rfl) id
    · rw [hf]
    · rw [hf]
    · rw [hf]
  · rw [Region.importation?_eq_some_iff.mpr ho] at hn
    simp only [Store.release, ho]
    exact hn.dropReference

theorem Accounts.giveUp (h : e.Accounts none) (k : ManagerId) :
    { e with store := e.store.giveUp k }.Accounts none := by
  obtain ⟨r, g, hk, hg, he⟩ | ⟨he, -⟩ := e.store.giveUp_cases k
  · rw [he]
    refine Accounts.release (e := { e with
      store := (e.store.setManager k (.native r false)).note (.releasing g.len) }) ?_ r
    refine h.shift rfl rfl (fun _ => finalReleases_append ..) (fun i => ?_) (fun _ => le_rfl) id
    have hb := Store.bearers_setManager (q := e.store.isPart i) (.native r false) hk
    have hq : (Manager.native r true).bears (e.store.isPart i) =
        decide (g.importation? = some i) := by
      simp only [Region.importation?_eq_some_iff]
      exact Store.isPart_of_getElem? hg
    rw [hq] at hb
    simp only [decide_eq_true_eq] at hb
    rw [Nat.add_assoc]
    exact congrArg _ hb
  · rw [he]
    exact h

theorem Accounts.dispose (h : e.Accounts none) (k : ManagerId) :
    { e with store := e.store.dispose k }.Accounts none := by
  obtain he | ⟨m, m', events, hk, hm, hm', hx, he⟩ := e.store.dispose_cases k
  · rw [he]
    exact h.giveUp k
  · rw [he]
    refine h.frame rfl (fun i => ?_) (fun _ => rfl) (fun i => ?_) (fun _ => rfl) (fun hg _ => hg)
      h.raw
    · exact Store.bearers_setManager_of_not hk (Manager.bears_of_not_native hm)
        (Manager.bears_of_not_native hm')
    · have hz : finalReleases i events = 0 := by
        rw [finalReleases, List.countP_eq_zero]
        intro x hx'
        rw [hx x hx']
        exact Bool.false_ne_true
      dsimp only
      rw [finalReleases_append, hz, Nat.add_zero]

theorem Accounts.dropRaw {r : RegionId} {hs : Multiset Handle} (h : e.Accounts none)
    (he : e.handles = .raw r ::ₘ hs) :
    { e with store := e.store.dropRaw r, handles := hs }.Accounts none := by
  have hc : ∀ i, hs.count (.importation i) = e.handles.count (.importation i) := by
    intro i
    rw [he]
    exact (Multiset.count_cons_of_ne (by simp) _).symm
  have hw : ∀ {r'}, .raw r' ∈ hs → .raw r' ∈ e.handles :=
    fun hx => he ▸ Multiset.mem_cons_of_mem hx
  unfold Store.dropRaw
  split
  · rename_i g hg
    have hn : g.importation? = none := by
      rw [Option.eq_none_iff_forall_ne_some]
      intro i hi
      exact h.raw (he ▸ Multiset.mem_cons_self ..) hg (Region.importation?_eq_some_iff.mp hi)
    refine Accounts.release (e := { e with
      store := e.store.note (.dropped g.len), handles := hs }) ?_ r
    rw [hn]
    exact h.frame_handles rfl rfl rfl (fun _ => finalReleases_append ..) hc hw
  · exact h.frame_handles rfl rfl rfl (fun _ => rfl) hc hw

end Estate

end LargeBuffers
