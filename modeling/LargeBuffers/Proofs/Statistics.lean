import LargeBuffers.Proofs.Extent
import LargeBuffers.Proofs.Holdings

/-! # Statistics of allocators

An allocator counts the buffers that were allocated from it and those that were released. Both
counts are sums over its regions, modulo the size of a word: over all of them, and over those that
are not held any more.
-/

namespace LargeBuffers

def Region.isOf (a : AllocatorId) (g : Region) : Bool := g.owner = .allocator a

def Platform.barren : Platform where
  grant _ _ := none
  addressable := nofun
  length_eq := nofun

namespace Books

variable {p : Platform} {b b' : Books} {a : AllocatorId} {f : Region → ℕ} {made gone : UInt64}

/-- `made` counts the regions of an allocator, each as often as `f` says, and `gone` those of them
that are not held. -/
structure Tallies (b : Books) (a : AllocatorId) (f : Region → ℕ) (made gone : UInt64) :
    Prop where
  registered : made = UInt64.ofNat (total (Region.isOf a) f b.regions)
  carried : made = gone + UInt64.ofNat (total (Region.isOf a) f b.held)

def Tallied (b : Books) : Prop :=
  ∀ (a : AllocatorId) (al : Allocator) (alignment : UInt64),
    b.allocators[a]? = some al → al.supply = .native alignment →
      b.Tallies a (fun _ => 1) al.statistics.allocations al.statistics.releases ∧
      b.Tallies a (fun g => g.len.toNat + alignment.toNat) al.statistics.bytesAllocated
        al.statistics.bytesReleased

def Same (b b' : Books) (a : AllocatorId) : Prop :=
  ∀ f, total (Region.isOf a) f b'.regions = total (Region.isOf a) f b.regions ∧
    total (Region.isOf a) f b'.held = total (Region.isOf a) f b.held

theorem Tallies.of_same (ht : b.Tallies a f made gone) (hs : b.Same b' a) :
    b'.Tallies a f made gone where
  registered := (hs f).1 ▸ ht.registered
  carried := (hs f).2 ▸ ht.carried

theorem Tallies.allocate {g : Region} {n : UInt64} (ht : b.Tallies a f made gone)
    (hr : b'.regions = b.regions ++ [g]) (hh : b'.held = b.held ++ [g]) (hg : g.isOf a = true)
    (hn : UInt64.ofNat (f g) = n) : b'.Tallies a f (made + n) gone where
  registered := by
    rw [hr, total_append, total_cons, if_pos hg, total_nil, Nat.add_zero, UInt64.ofNat_add, hn,
      ← ht.registered]
  carried := by
    rw [hh, total_append, total_cons, if_pos hg, total_nil, Nat.add_zero, UInt64.ofNat_add, hn,
      ← UInt64.add_assoc, ← ht.carried]

theorem Tallies.release {g : Region} {n : UInt64} (ht : b.Tallies a f made gone)
    (hr : b'.regions = b.regions) (hh : b.held.Perm (g :: b'.held)) (hg : g.isOf a = true)
    (hn : UInt64.ofNat (f g) = n) : b'.Tallies a f made (gone + n) where
  registered := hr ▸ ht.registered
  carried := by
    have hl := ht.carried
    rwa [total_perm hh, total_cons, if_pos hg, UInt64.ofNat_add, hn, ← UInt64.add_assoc] at hl

theorem tallies_zero (hn : ∀ g ∈ b.regions, g.isOf a = false) (f : Region → ℕ) :
    b.Tallies a f 0 0 := by
  have hz : ∀ {l : List Region}, l.Sublist b.regions → total (Region.isOf a) f l = 0 := by
    intro l hl
    have hf : l.filter (Region.isOf a) = [] :=
      List.filter_eq_nil_iff.mpr fun g hg => Bool.eq_false_iff.mp (hn g (hl.subset hg))
    rw [total, hf]
    rfl
  constructor
  · rw [hz (List.Sublist.refl _)]
    rfl
  · rw [hz b.held_sublist]
    rfl

theorem same_concat {g : Region} (hr : b'.regions = b.regions ++ [g])
    (hj : b'.journal = b.journal) (hn : releaseCalls b.regions.length b.journal = [])
    (hg : g.isOf a = false) : b.Same b' a := by
  intro f
  rw [held, held, hr, hj, heldIn_concat g hn]
  simp [hg]

theorem same_released {r : RegionId} {g : Region} {journal : List Event}
    (hr : b'.regions = b.regions) (hg : b.regions[r]? = some g)
    (hc : releaseCalls r b.journal = []) (hj : b'.journal = b.journal ++ .released r g :: journal)
    (hn : ∀ r', ∀ x ∈ journal, releaseCalls r' [x] = []) (ho : g.isOf a = false) :
    b.Same b' a := by
  intro f
  have hp : b.held.Perm (g :: b'.held) := by
    rw [held, held, hr, hj]
    exact heldIn_released hg hc hn
  rw [hr, total_perm hp, total_cons, ho]
  simp

theorem same_notes {journal : List Event} (hr : b'.regions = b.regions)
    (hj : b'.journal = b.journal ++ journal)
    (hn : ∀ r, ∀ x ∈ journal, releaseCalls r [x] = []) (a : AllocatorId) : b.Same b' a := by
  intro f
  rw [held, held, hr, hj, heldIn_append _ _ hn]
  exact ⟨rfl, rfl⟩

theorem Tallied.of_same (ht : b.Tallied) (ha : b'.allocators = b.allocators)
    (hs : ∀ a, b.Same b' a) : b'.Tallied := by
  intro a al alignment hal hn
  obtain ⟨hc, hb⟩ := ht a al alignment (ha ▸ hal) hn
  exact ⟨hc.of_same (hs a), hb.of_same (hs a)⟩

theorem Tallied.of_set {c : AllocatorId} {al : Allocator} {t : Statistics} (ht : b.Tallied)
    (hc : b.allocators[c]? = some al)
    (ha : b'.allocators = b.allocators.set c { al with statistics := t })
    (hs : ∀ a, a ≠ c → b.Same b' a)
    (hn : ∀ {alignment : UInt64}, al.supply = .native alignment →
      b'.Tallies c (fun _ => 1) t.allocations t.releases ∧
      b'.Tallies c (fun g => g.len.toNat + alignment.toNat) t.bytesAllocated t.bytesReleased) :
    b'.Tallied := by
  intro a al' alignment hal hsu
  obtain ⟨hl, -⟩ := List.getElem?_eq_some_iff.mp hc
  rw [ha] at hal
  by_cases hac : a = c
  · subst hac
    obtain rfl : { al with statistics := t } = al' := by simpa [hl] using hal
    exact hn hsu
  · rw [List.getElem?_set_ne (Ne.symm hac)] at hal
    obtain ⟨hco, hb⟩ := ht a al' alignment hal hsu
    exact ⟨hco.of_same (hs a hac), hb.of_same (hs a hac)⟩

theorem Booking.tallied (h : b.Booking p b') (hs : b.Sized) (ht : b.Tallied) : b'.Tallied := by
  cases h with
  | note hx =>
    refine ht.of_same rfl (same_notes rfl rfl fun r => ?_)
    exact List.forall_mem_singleton.mpr (releaseCalls_eq_nil_of_booked hx r)
  | importation | reference => exact ht.of_same rfl fun _ _ => ⟨rfl, rfl⟩
  | final =>
    exact ht.of_same rfl (same_notes rfl rfl fun r => List.forall_mem_singleton.mpr rfl)
  | @recorded g o hn ho =>
    exact ht.of_same rfl fun a => same_concat rfl rfl hn (by simp [Region.isOf, ho])
  | @part g i imp hn ho =>
    exact ht.of_same rfl fun a => same_concat rfl rfl hn (by simp [Region.isOf, ho])
  | @returned r g hg hc ho =>
    exact ht.of_same rfl fun a => same_released rfl hg hc rfl nofun (by simp [Region.isOf, ho a])
  | @allocator supply =>
    intro a al alignment hal hsu
    obtain hal | ⟨rfl, rfl⟩ := Store.getElem?_concat hal
    · obtain ⟨hc, hb⟩ := ht a al alignment hal hsu
      exact ⟨hc.of_same fun _ => ⟨rfl, rfl⟩, hb.of_same fun _ => ⟨rfl, rfl⟩⟩
    · have hn : ∀ g ∈ b.regions, g.isOf b.allocators.length = false := by
        intro g hg
        rw [Region.isOf, decide_eq_false_iff_not]
        intro ho
        obtain ⟨al, -, -, hal, -⟩ := hs g hg _ ho
        simp at hal
      constructor
      · apply tallies_zero
        exact hn
      · apply tallies_zero
        exact hn
  | @metered c al limit pad bytes hc hal =>
    refine ht.of_set hc rfl (fun _ _ _ => ⟨rfl, rfl⟩) fun hn => ?_
    cases hal.symm.trans hn
  | @buffer g c al alignment size n grant hn ho hc hal hsz _ =>
    refine ht.of_set hc rfl (fun a ha => same_concat rfl rfl hn ?_) fun {alignment'} hn' => ?_
    · simpa [Region.isOf, ho] using Ne.symm ha
    · obtain rfl := Supply.native.inj (hal.symm.trans hn')
      obtain ⟨hco, hb⟩ := ht c al alignment hc hal
      have hg : g.isOf c = true := decide_eq_true ho
      have hh := heldIn_concat g hn
      obtain ⟨hsize, -⟩ := requestSize_eq_ok hsz
      exact ⟨hco.allocate rfl hh hg rfl, hb.allocate rfl hh hg (hsize ▸ UInt64.ofNat_toNat)⟩
  | @freed r g c al alignment size hr hcalls ho hc hal hsz =>
    have hn : ∀ r', ∀ x ∈ [Event.freed c size], releaseCalls r' [x] = [] :=
      fun r' => List.forall_mem_singleton.mpr rfl
    refine ht.of_set hc rfl (fun a ha => same_released rfl hr hcalls rfl hn ?_)
      fun {alignment'} hn' => ?_
    · simpa [Region.isOf, ho] using Ne.symm ha
    · obtain rfl := Supply.native.inj (hal.symm.trans hn')
      obtain ⟨hco, hb⟩ := ht c al alignment hc hal
      have hg : g.isOf c = true := decide_eq_true ho
      have hh := heldIn_released hr hcalls hn
      obtain ⟨hsize, -⟩ := requestSize_eq_ok hsz
      exact ⟨hco.release rfl hh hg rfl, hb.release rfl hh hg (hsize ▸ UInt64.ofNat_toNat)⟩

theorem Bookings.tallied (h : Bookings p b b') (hs : b.Sized) (ht : b.Tallied) : b'.Tallied := by
  induction h with
  | refl => exact ht
  | tail hb h ih => exact h.tallied (Bookings.sized hb hs) ih

/-- Where nothing is granted no allocator gets a region. -/
theorem Bookings.filter_regions (h : Bookings .barren b b') (a : AllocatorId) :
    b'.regions.filter (Region.isOf a) = b.regions.filter (Region.isOf a) := by
  induction h with
  | refl => rfl
  | tail _ h ih =>
    rw [← ih]
    cases h with
    | @recorded g o _ ho => simp [Region.isOf, ho]
    | @part g i imp _ ho => simp [Region.isOf, ho]
    | buffer _ _ _ _ _ hg => cases hg
    | _ => rfl

end Books

namespace Estate

theorem stable_tallied (p : Platform) : Stable p fun e => e.Booked ∧ e.store.books.Tallied :=
  stable_of_bookings (fun h hs ht => h.tallied hs ht) fun ht => ht.of_same rfl fun _ _ => ⟨rfl, rfl⟩

theorem tallied_start (e : Element) : (Session.start e).estate.store.books.Tallied := by
  intro a al alignment hal _
  obtain rfl := List.mem_singleton.mp (List.mem_of_getElem? hal)
  exact ⟨⟨rfl, rfl⟩, ⟨rfl, rfl⟩⟩

end Estate

end LargeBuffers
