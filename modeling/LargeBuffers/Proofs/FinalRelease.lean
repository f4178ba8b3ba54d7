import LargeBuffers.Proofs.Accounts.Step

/-! # Final release of importations

In every run an importation counts its handle and its unreleased parts, and is finally released
once, when both are gone.
-/

namespace LargeBuffers.Session

def handled (s : Session) (i : ImportationId) : Bool := s.slots.any (·.2 = .importation i)

variable {p : Platform} {s : Session} {i : ImportationId} {imp : Importation}

theorem count_importation_eq (s : Session) (i : ImportationId) :
    s.estate.handles.count (.importation i) = s.slots.countP (·.2 = .importation i) := by
  change Multiset.count _ ((s.slots.map (·.2) : List Handle) : Multiset Handle) = _
  rw [Multiset.coe_count, List.count_eq_countP, List.countP_map]
  refine List.countP_congr fun x _ => ?_
  simp

theorem count_importation (ha : s.estate.Accounts none) (i : ImportationId) :
    s.estate.handles.count (.importation i) = if s.handled i then 1 else 0 := by
  have hs := ha.single i
  have hc := count_importation_eq s i
  split
  · rename_i hh
    obtain ⟨x, hx, hi⟩ := List.any_eq_true.mp hh
    have hp : 0 < s.slots.countP (·.2 = .importation i) := List.countP_pos_iff.mpr ⟨x, hx, hi⟩
    omega
  · rename_i hh
    rw [hc, List.countP_eq_zero]
    intro x hx hi
    exact hh (List.any_eq_true.mpr ⟨x, hx, hi⟩)

theorem references_of_accounts (ha : s.estate.Accounts none)
    (hi : s.store.importations[i]? = some imp) :
    imp.references = (if s.handled i then 1 else 0) + (s.store.aliases i : ℤ) := by
  have hr := ha.references i
  rw [count_importation ha, estate_store, Store.references_eq hi] at hr
  simp only [reduceCtorEq, if_false, Int.add_zero] at hr
  rw [hr]
  split <;> rfl

theorem references_nonneg (ha : s.estate.Accounts none)
    (hi : s.store.importations[i]? = some imp) : 0 ≤ imp.references := by
  rw [references_of_accounts ha hi]
  split <;> omega

theorem finalReleases_of_accounts (ha : s.estate.Accounts none)
    (hi : s.store.importations[i]? = some imp) :
    finalReleases i s.store.journal = if 0 < imp.references then 0 else 1 := by
  have hn := references_nonneg ha hi
  have hf := ha.final i
  have hl : i < s.estate.store.importations.length := (List.getElem?_eq_some_iff.mp hi).1
  rw [estate_store, Store.references_eq hi] at hf
  refine hf.trans ?_
  by_cases hz : imp.references = 0
  · rw [if_pos ⟨hl, hz⟩, if_neg (by omega)]
  · rw [if_neg fun hc => hz hc.2, if_pos (by omega)]

theorem tracked_of_accounts (ha : s.estate.Accounts none)
    (hi : s.store.importations[i]? = some imp) (hs : s.store.imported i < UInt64.size) :
    imp.tracked.toNat = if 0 < imp.references then s.store.imported i else 0 := by
  rw [ha.tracked hi]
  split
  · exact UInt64.toNat_ofNat_of_lt' hs
  · rfl

theorem addAlias_of_accounts (ha : s.estate.Accounts none) {slot : String}
    (hs : s.slots.get? slot = some (.importation i)) (b : BlockId) (offset length : UInt64) :
    (s.store.addAlias i b offset length).1 = .ok () := by
  have hr := ha.references i
  have hp : 0 < s.estate.handles.count (.importation i) :=
    Multiset.count_pos.mpr (mem_handles hs)
  simp only [reduceCtorEq, if_false] at hr
  unfold Store.addAlias
  split
  · rename_i hn
    simp only [estate_store, Store.references, hn, Option.map_none, Option.getD_none] at hr
    omega
  · rename_i imp hi
    rw [estate_store, Store.references_eq hi] at hr
    rw [if_pos (by omega)]

theorem storagePart_ne_error (s : Session) (storage : String) (offset length : UInt64)
    (cause : Error) : s.storagePart storage offset length ≠ .error (.error cause) := by
  unfold storagePart
  split
  · split <;> nofun
  · nofun

theorem makeAlias_eq (ha : s.estate.Accounts none) {slot : String}
    (hs : s.slots.get? slot = some (.importation i)) (name storage : String)
    (offset length : UInt64) :
    (s.makeAlias name slot storage offset length).1 =
      if s.store.element = .u8 then
        match s.storagePart storage offset length with
        | .ok _ => .ok .done
        | .error f => .error f
      else .error .badInput := by
  unfold makeAlias ofBytes
  split
  · cases hb : s.storagePart storage offset length with
    | error f => rfl
    | ok b =>
      have hok := addAlias_of_accounts ha hs b offset length
      rcases hx : s.store.addAlias i b offset length with ⟨r, st⟩
      rw [hx] at hok
      obtain rfl : r = .ok () := hok
      simp only [hs, hx]
      rfl
  · rfl

/-- A part of an importation is not handed off. -/
theorem tryAcquire_of_part {slot : String} {k : ManagerId} {r : RegionId} {held : Bool} {g : Region}
    (hs : s.slots.get? slot = some (.manager k))
    (hk : s.store.managers[k]? = some (.native r held)) (hg : s.store.regions[r]? = some g)
    (ho : g.owner = .importation i) (name : String) :
    s.tryAcquire name slot = (.ok (.flag false), s) := by
  have hf : s.store.handOff k = (none, s.store) := by
    cases held with
    | false => simp [Store.handOff, hk]
    | true => simp [Store.handOff, hk, hg, ho, Store.exclusive]
  simp only [tryAcquire, hs, hk, hf]
  rfl

theorem references_eq_zero_of_grows {s' : Session} (ha : s.estate.Accounts none)
    (ha' : s'.estate.Accounts none) (hg : s.store.Grows s'.store)
    (hi : s.store.importations[i]? = some imp) (hz : imp.references = 0) :
    ∃ imp' : Importation, s'.store.importations[i]? = some imp' ∧ imp'.references = 0 := by
  have hl := (List.getElem?_eq_some_iff.mp hi).1.trans_le hg.importations
  have hi' := List.getElem?_eq_getElem hl
  have hf := finalReleases_of_accounts ha hi
  have hf' := finalReleases_of_accounts ha' hi'
  have hle : finalReleases i s.store.journal ≤ finalReleases i s'.store.journal :=
    hg.journal.sublist.countP_le
  have hn := references_nonneg ha' hi'
  rw [hf, hf', if_neg (by omega)] at hle
  refine ⟨_, hi', ?_⟩
  split at hle
  · omega
  · omega

theorem makeAlias_ne_disposed (ha : s.estate.Accounts none) {slot : String}
    (hs : s.slots.get? slot = some (.importation i)) (name storage : String)
    (offset length : UInt64) (object : String) :
    (s.makeAlias name slot storage offset length).1 ≠ .error (.error (.disposed object)) := by
  rw [makeAlias_eq ha hs]
  split
  · cases hb : s.storagePart storage offset length with
    | ok b => nofun
    | error f =>
      rintro ⟨⟩
      exact storagePart_ne_error s storage offset length _ hb
  · nofun

/-- After every operation an importation counts its handle and its unreleased parts, tracks all
parts ever made as long as it counts anything, and has been finally released exactly if it counts
nothing, which then stays so. Its handle can always be used to add a part, and a part cannot be
acquired. -/
theorem importation_accounting (p : Platform) (e : Element) (ops ops' : List Op) :
    let s := (start e).after p ops
    let s' := s.after p ops'
    (∀ (i : ImportationId) (imp : Importation), s'.store.importations[i]? = some imp →
      imp.references = (if s'.handled i then 1 else 0) + (s'.store.aliases i : ℤ) ∧
      0 ≤ imp.references ∧
      finalReleases i s'.store.journal = (if 0 < imp.references then 0 else 1) ∧
      (s'.store.imported i < UInt64.size →
        imp.tracked.toNat = if 0 < imp.references then s'.store.imported i else 0)) ∧
    (∀ (i : ImportationId) (imp : Importation), s.store.importations[i]? = some imp →
      imp.references = 0 → ∃ imp' : Importation,
      s'.store.importations[i]? = some imp' ∧ imp'.references = 0) ∧
    (∀ slot i, s'.slots.get? slot = some (.importation i) → ∀ name storage offset length,
      (∀ object, (s'.step p (.addAlias name slot storage offset length)).1 ≠
        .error (.error (.disposed object))) ∧
      (∀ b, s'.store.element = .u8 → s'.storagePart storage offset length = .ok b →
        (s'.step p (.addAlias name slot storage offset length)).1 = .ok .done)) ∧
    (∀ slot k r held g i, s'.slots.get? slot = some (.manager k) →
      s'.store.managers[k]? = some (.native r held) → s'.store.regions[r]? = some g →
      g.owner = .importation i → ∀ name,
        s'.step p (.tryAcquire name slot) = (.ok (.flag false), s')) := by
  intro s s'
  have hd : s.slots.Distinct := distinct_run p e ops
  have hs := (Estate.stable_accounts p).after Directory.distinct_nil
    ⟨Estate.inOrder_start e, Estate.accounts_start e⟩ ops
  have ha := hs.2
  obtain ⟨-, ha'⟩ := (Estate.stable_accounts p).after hd hs ops'
  refine ⟨?_, ?_, ?_, ?_⟩
  · intro i imp hi
    exact ⟨references_of_accounts ha' hi, references_nonneg ha' hi,
      finalReleases_of_accounts ha' hi, tracked_of_accounts ha' hi⟩
  · intro i imp hi hz
    exact references_eq_zero_of_grows ha ha' (grows_after hd ops') hi hz
  · intro slot i hslot name storage offset length
    constructor
    · intro object
      exact makeAlias_ne_disposed ha' hslot name storage offset length object
    · intro b hu hb
      change (s'.makeAlias name slot storage offset length).1 = _
      rw [makeAlias_eq ha' hslot, if_pos hu, hb]
  · intro slot k r held g i hslot hk hg ho name
    exact tryAcquire_of_part hslot hk hg ho name

/-- The handle goes first, and a part keeps the importation. -/
example :
    let s := (start .u8).after .bounded
      [.storage "b" ⟨.u8, 4, [1, 2, 3, 4]⟩, .importation "i", .addAlias "m" "i" "b" 1 2,
        .release "i"]
    s.store.importations = [⟨1, 2⟩] ∧ s.handled 0 = false ∧ s.store.aliases 0 = 1 := by
  decide +kernel

end LargeBuffers.Session
