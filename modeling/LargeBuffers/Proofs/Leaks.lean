import LargeBuffers.Proofs.Statistics

/-! # Exact detection of leaks

What an allocator counts is the number and the size of the buffers that it gave out, and the
difference to what it counts as released is exactly what is still held of them.
-/

namespace LargeBuffers.Session

/-- The lengths of the buffers that an operation gets from an allocator. Asking for no bytes counts
only if a native manager is asked for. -/
def granted (p : Platform) (a : AllocatorId) (s : Session) : Op → List UInt64
  | .allocate name slot form length =>
    if s.slots.get? slot = some (.allocator a) ∧ (length ≠ 0 ∨ form = .native) ∧
        (s.allocate p name slot form length).1.isOk then [length]
    else []
  | _ => []

def grants (p : Platform) (a : AllocatorId) : Session → List Op → List UInt64
  | _, [] => []
  | s, op :: ops => s.granted p a op ++ grants p a (s.step p op).2 ops

def buffersOf (s : Session) (a : AllocatorId) : List Region :=
  s.heldRegions.filter (Region.isOf a)

def paddedSize (alignment : UInt64) (lengths : List UInt64) : ℕ :=
  (lengths.map fun n => n.toNat + alignment.toNat).sum

def lengthsOf (s : Session) (a : AllocatorId) : List UInt64 :=
  (s.store.regions.filter (Region.isOf a)).map (·.len)

variable {p : Platform} {s : Session} {a : AllocatorId}

/-! ## Buffers and grants -/

theorem regions_put (s : Session) (name : String) (h : Handle) :
    (s.put name h).store.regions = s.store.regions := by
  simp only [put]
  split
  · rw [discard_eq]
    exact congrArg (·.2.2.1) (Estate.stock_discard _ _)
  · rfl

theorem lengthsOf_makeBuffer (s : Session) (name : String) (form : BufferForm) (m : ManagerId) :
    (s.makeBuffer name form m).2.lengthsOf a = s.lengthsOf a := by
  unfold lengthsOf
  cases form <;> exact congrArg (fun l => (l.filter (Region.isOf a)).map (·.len)) (regions_put ..)

theorem isOk_makeBuffer (s : Session) (name : String) (form : BufferForm) (m : ManagerId) :
    (s.makeBuffer name form m).1.isOk = true := by
  cases form <;> rfl

/-- Only allocations depend on the platform. -/
theorem step_congr {op : Op} (h : ∀ name slot form length, op ≠ .allocate name slot form length)
    (p' : Platform) : s.step p op = s.step p' op := by
  cases op with
  | allocate name slot form length => exact absurd rfl (h name slot form length)
  | _ => rfl

section Native

variable (hn : ∀ al, s.store.allocators[a]? = some al → ∃ alignment, al.supply = .native alignment)

include hn

theorem lengthsOf_allocated {st : Store} {c : AllocatorId} {length : UInt64}
    (h : s.store.allocate p c length = (.ok (), st)) :
    (s.withStore st).lengthsOf a = s.lengthsOf a ++ if c = a then [length] else [] := by
  obtain ⟨al, hc, ⟨alignment, -, h⟩ | ⟨limit, pad, hal, -, rfl⟩⟩ := Store.allocate_eq_ok h
  · obtain ⟨size, g, -, -, rfl⟩ := Store.allocateNative_eq_ok h
    simp only [lengthsOf, withStore, Store.regions_countAllocation]
    by_cases hca : c = a <;> simp [Region.isOf, hca]
  · have hca : c ≠ a := by
      rintro rfl
      obtain ⟨alignment, hal'⟩ := hn al hc
      cases hal.symm.trans hal'
    simp [lengthsOf, withStore, hca]

theorem lengthsOf_allocate (name slot : String) (form : BufferForm) (length : UInt64) :
    (s.allocate p name slot form length).2.lengthsOf a =
      s.lengthsOf a ++ s.granted p a (.allocate name slot form length) := by
  obtain ⟨f, he⟩ | ⟨hz, hform, he⟩ | ⟨c, st, -, hs, hne, hb, he⟩ :=
    s.allocate_cases p name slot form length
  · have hok : ((.error f : Except Failure Answer), s).1.isOk = false := rfl
    simp [granted, he, refuse, hok]
  · rw [granted, if_neg, he, lengthsOf_makeBuffer, List.append_nil]
    rintro ⟨-, hne, -⟩
    exact hne.elim (absurd hz) (absurd · hform)
  · simp only [granted, he]
    rw [lengthsOf_makeBuffer, lengthsOf_allocated hn hb, isOk_makeBuffer, hs]
    simp [hne]

/-- An operation adds the buffers to those of an allocator that it gets from it. -/
theorem lengthsOf_step (hd : s.slots.Distinct) (hb : s.estate.Booked) (op : Op) :
    (s.step p op).2.lengthsOf a = s.lengthsOf a ++ s.granted p a op := by
  by_cases h : ∃ name slot form length, op = .allocate name slot form length
  · obtain ⟨name, slot, form, length, rfl⟩ := h
    exact lengthsOf_allocate hn name slot form length
  · have hne : ∀ name slot form length, op ≠ .allocate name slot form length :=
      fun name slot form length he => h ⟨name, slot, form, length, he⟩
    have hg : s.granted p a op = [] := by
      cases op with
      | allocate name slot form length => exact absurd rfl (hne name slot form length)
      | _ => rfl
    rw [hg, List.append_nil, step_congr hne .barren]
    cases hs : op.setsGauge
    · have hf := Books.Bookings.filter_regions (bookings_step (p := .barren) hd hb hs) a
      exact congrArg (List.map (·.len)) hf
    · cases op with
      | raiseGauge | lowerGauge => rfl
      | _ => cases hs

end Native

theorem lengthsOf_after {al : Allocator} {alignment : UInt64} {ops : List Op}
    (hd : s.slots.Distinct) (hb : s.estate.Booked)
    (ha : (s.after p ops).store.allocators[a]? = some al) (hal : al.supply = .native alignment) :
    (s.after p ops).lengthsOf a = s.lengthsOf a ++ s.grants p a ops := by
  induction ops generalizing s with
  | nil => exact (List.append_nil _).symm
  | cons op ops ih =>
    have hn : ∀ al₀, s.store.allocators[a]? = some al₀ →
        ∃ alignment, al₀.supply = .native alignment := by
      intro al₀ h₀
      obtain ⟨al', ha', hs⟩ := (grows_after hd (op :: ops)).allocators h₀
      obtain rfl := Option.some.inj (ha.symm.trans ha')
      exact ⟨alignment, hs.symm.trans hal⟩
    have hb' := (Estate.stable_booked p).step hd hb op
    rw [grants, ← List.append_assoc, ← lengthsOf_step hn hd hb]
    exact ih (distinct_step hd op) hb' ha

/-! ## Counters -/

theorem counts_of_tallies {b : Books} {f : Region → ℕ} {made gone : UInt64}
    (ht : b.Tallies a f made gone) (hlt : total (Region.isOf a) f b.regions < UInt64.size) :
    made.toNat = total (Region.isOf a) f b.regions ∧
      gone.toNat + total (Region.isOf a) f b.held = total (Region.isOf a) f b.regions := by
  have hle := total_le (q := Region.isOf a) (f := f) b.held_sublist
  have hm : made.toNat = total (Region.isOf a) f b.regions := by
    rw [ht.registered]
    exact UInt64.toNat_ofNat_of_lt' hlt
  have hh : (UInt64.ofNat (total (Region.isOf a) f b.held)).toNat =
      total (Region.isOf a) f b.held := UInt64.toNat_ofNat_of_lt' (hle.trans_lt hlt)
  have hc := congrArg UInt64.toNat ht.carried
  have hg := gone.toNat_lt
  have hs : UInt64.size = 2 ^ 64 := rfl
  rw [UInt64.toNat_add, hh] at hc
  omega

theorem total_one (regions : List Region) :
    total (Region.isOf a) (fun _ => 1) regions = (regions.filter (Region.isOf a)).length := by
  simp [total]

theorem total_padded (alignment : UInt64) (regions : List Region) :
    total (Region.isOf a) (fun g => g.len.toNat + alignment.toNat) regions =
      paddedSize alignment ((regions.filter (Region.isOf a)).map (·.len)) := by
  rw [total, paddedSize, List.map_map]
  rfl

theorem length_le_paddedSize {alignment : UInt64} (h : 0 < alignment.toNat)
    (lengths : List UInt64) : lengths.length ≤ paddedSize alignment lengths := by
  induction lengths with
  | nil => exact Nat.zero_le _
  | cons n lengths ih =>
    rw [paddedSize, List.map_cons, List.sum_cons, List.length_cons]
    rw [paddedSize] at ih
    omega

theorem alignment_pos {al : Allocator} {alignment : UInt64} (hr : s.estate.Regular)
    (ha : s.store.allocators[a]? = some al) (hal : al.supply = .native alignment) :
    0 < alignment.toNat := by
  obtain ⟨roles, hlay⟩ := hr.layout
  have hp : al.supply.Proper := hlay.supply (List.mem_map_of_mem (List.mem_of_getElem? ha))
  rw [hal] at hp
  exact Nat.zero_lt_of_lt (alignOffset_lt 0 hp)

theorem paddedSize_le {alignment : UInt64} {lengths lengths' : List UInt64}
    (h : lengths.Sublist lengths') : paddedSize alignment lengths ≤ paddedSize alignment lengths' :=
  (h.map fun n : UInt64 => n.toNat + alignment.toNat).sum_le_sum fun _ _ => Nat.zero_le _

/-- What the statistics say of the buffers of an allocator and of those that are held. -/
structure Exact (s : Session) (a : AllocatorId) (alignment : UInt64) (t : Statistics) :
    Prop where
  allocations : t.allocations.toNat = (s.lengthsOf a).length
  releases : t.releases.toNat + (s.buffersOf a).length = (s.lengthsOf a).length
  bytesAllocated : t.bytesAllocated.toNat = paddedSize alignment (s.lengthsOf a)
  bytesReleased : t.bytesReleased.toNat + paddedSize alignment ((s.buffersOf a).map (·.len)) =
    paddedSize alignment (s.lengthsOf a)

theorem buffersOf_eq (hd : s.slots.Distinct) (ho : s.estate.InOrder) (a : AllocatorId) :
    s.buffersOf a = s.store.books.held.filter (Region.isOf a) := by
  rw [buffersOf, heldRegions_eq hd ho]

theorem exact_of_tallied {al : Allocator} {alignment : UInt64} (hd : s.slots.Distinct)
    (hb : s.estate.Booked) (ht : s.store.books.Tallied) (ha : s.store.allocators[a]? = some al)
    (hal : al.supply = .native alignment) (hpos : 0 < alignment.toNat)
    (hlt : paddedSize alignment (s.lengthsOf a) < UInt64.size) :
    s.Exact a alignment al.statistics := by
  obtain ⟨hc, hby⟩ := ht a al alignment ha hal
  have hh := buffersOf_eq hd hb.order a
  have hl : (s.lengthsOf a).length = (s.store.books.regions.filter (Region.isOf a)).length :=
    List.length_map _
  have hle := length_le_paddedSize hpos (s.lengthsOf a)
  have hp := total_padded (a := a) alignment s.store.books.regions
  obtain ⟨h₁, h₂⟩ := counts_of_tallies hc (by rw [total_one]; omega)
  obtain ⟨h₃, h₄⟩ := counts_of_tallies hby (hp ▸ hlt)
  rw [total_one] at h₁
  rw [total_one, total_one] at h₂
  rw [total_padded] at h₃
  rw [total_padded, total_padded] at h₄
  exact ⟨h₁.trans hl.symm, by rw [hh, hl, h₂], h₃, by rw [hh]; exact h₄⟩

theorem Exact.unique {s' : Session} {alignment : UInt64} {t t' : Statistics}
    (h : s.Exact a alignment t) (h' : s'.Exact a alignment t')
    (hl : s'.lengthsOf a = s.lengthsOf a) (hb : s'.buffersOf a = s.buffersOf a) : t' = t := by
  obtain ⟨h₁, h₂, h₃, h₄⟩ := h
  obtain ⟨h₁', h₂', h₃', h₄'⟩ := h'
  rw [hl] at h₁' h₂' h₃' h₄'
  rw [hb] at h₂' h₄'
  have ha := UInt64.toNat_inj.mp (h₁'.trans h₁.symm)
  have hba := UInt64.toNat_inj.mp (h₃'.trans h₃.symm)
  have hr : t'.releases = t.releases := UInt64.toNat_inj.mp (by omega)
  have hbr : t'.bytesReleased = t.bytesReleased := UInt64.toNat_inj.mp (by omega)
  cases t
  cases t'
  rw [Statistics.mk.injEq]
  exact ⟨ha, hba, hr, hbr⟩

theorem allocator_step {al : Allocator} {alignment : UInt64} {op : Op} (hd : s.slots.Distinct)
    (hb : s.estate.Booked) (ht : s.store.books.Tallied) (ha : s.store.allocators[a]? = some al)
    (hal : al.supply = .native alignment) (hpos : 0 < alignment.toNat)
    (hlt : paddedSize alignment (s.lengthsOf a) < UInt64.size) (hg : s.granted p a op = [])
    (hbu : (s.step p op).2.buffersOf a = s.buffersOf a) :
    (s.step p op).2.store.allocators[a]? = some al := by
  obtain ⟨hb', ht'⟩ := (Estate.stable_tallied p).step hd ⟨hb, ht⟩ op
  obtain ⟨al', ha', hs⟩ := (grows_step (p := p) hd op).allocators ha
  have hl : (s.step p op).2.lengthsOf a = s.lengthsOf a := by
    have hn : ∀ al₀, s.store.allocators[a]? = some al₀ →
        ∃ alignment, al₀.supply = .native alignment := by
      intro al₀ h₀
      obtain rfl := Option.some.inj (ha.symm.trans h₀)
      exact ⟨alignment, hal⟩
    rw [lengthsOf_step hn hd hb, hg, List.append_nil]
  have hx := exact_of_tallied hd hb ht ha hal hpos hlt
  have hx' := exact_of_tallied (distinct_step hd op) hb' ht' ha' (hs.trans hal) hpos
    (hl.symm ▸ hlt)
  have hst := hx.unique hx' hl hbu
  rw [ha', Option.some.injEq]
  cases al
  cases al'
  rw [Allocator.mk.injEq]
  exact ⟨hs, hst⟩

/-- An allocator counts the allocations that succeeded, in number and in bytes, if the bytes fit a
word. It never counts more releases, and the differences are the number and the bytes of its
buffers that are still held. So nothing is live exactly if nothing is held, and operations that
neither get a buffer from the allocator nor take one away leave its statistics alone. -/
theorem allocation_statistics (p : Platform) (e : Element) (ops : List Op) (a : AllocatorId)
    (al : Allocator) (alignment : UInt64)
    (ha : ((start e).after p ops).store.allocators[a]? = some al)
    (hal : al.supply = .native alignment)
    (hlt : paddedSize alignment ((start e).grants p a ops) < UInt64.size) :
    let s := (start e).after p ops
    let t := al.statistics
    t.allocations.toNat = ((start e).grants p a ops).length ∧
    t.bytesAllocated.toNat = paddedSize alignment ((start e).grants p a ops) ∧
    t.releases ≤ t.allocations ∧ t.bytesReleased ≤ t.bytesAllocated ∧
    t.liveAllocations.toNat = (s.buffersOf a).length ∧
    t.liveBytes.toNat = paddedSize alignment ((s.buffersOf a).map (·.len)) ∧
    (t.liveAllocations = 0 ↔ s.buffersOf a = []) ∧
    ∀ op, s.granted p a op = [] → (s.step p op).2.buffersOf a = s.buffersOf a →
      (s.step p op).2.store.allocators[a]? = some al := by
  intro s t
  have hd : s.slots.Distinct := distinct_run p e ops
  obtain ⟨hb, ht⟩ := (Estate.stable_tallied p).after Directory.distinct_nil
    ⟨Estate.booked_start e, Estate.tallied_start e⟩ ops
  have hl : s.lengthsOf a = (start e).grants p a ops :=
    lengthsOf_after Directory.distinct_nil (Estate.booked_start e) ha hal
  have hpos : 0 < alignment.toNat := alignment_pos (regular_run p e ops) ha hal
  rw [← hl] at hlt ⊢
  have hx : s.Exact a alignment t := exact_of_tallied hd hb ht ha hal hpos hlt
  have h₁ := hx.allocations
  have h₂ := hx.releases
  have h₃ := hx.bytesAllocated
  have h₄ := hx.bytesReleased
  have hlive : t.liveAllocations.toNat = (s.buffersOf a).length := by
    rw [Statistics.liveAllocations, toNat_monus]
    omega
  refine ⟨h₁, h₃, ?_, ?_, hlive, ?_, ?_, ?_⟩
  · rw [UInt64.le_iff_toNat_le]
    omega
  · rw [UInt64.le_iff_toNat_le]
    omega
  · rw [Statistics.liveBytes, toNat_monus]
    omega
  · rw [← List.length_eq_zero_iff, ← hlive, ← UInt64.toNat_inj]
    rfl
  · intro op hg hbu
    exact allocator_step hd hb ht ha hal hpos hlt hg hbu

/-- One buffer that was handed off and one that is gone; asking for no bytes does not count. -/
theorem allocation_statistics_of_handOff :
    let ops : List Op := [.allocator "a" (some 16), .allocate "m" "a" .native 10,
      .allocate "n" "a" .shared 5, .allocate "z" "a" .owner 0, .tryAcquire "r" "m", .drop "n",
      .drop "m"]
    let s := (start .u8).after .bounded ops
    let t : Statistics := ⟨2, 47, 1, 21⟩
    s.store.allocators[1]? = some ⟨.native 16, t⟩ ∧
      paddedSize 16 ((start .u8).grants .bounded 1 ops) < UInt64.size ∧
      t.liveAllocations.toNat = (s.buffersOf 1).length ∧
      t.liveBytes.toNat = paddedSize 16 ((s.buffersOf 1).map (·.len)) := by
  intro ops s t
  have ha : s.store.allocators[1]? = some ⟨.native 16, t⟩ := by decide +kernel
  have hlt : paddedSize 16 ((start .u8).grants .bounded 1 ops) < UInt64.size := by
    decide +kernel
  obtain ⟨-, -, -, -, hl, hb, -⟩ :=
    allocation_statistics .bounded .u8 ops 1 ⟨.native 16, t⟩ 16 ha rfl hlt
  exact ⟨ha, hlt, hl, hb⟩

end LargeBuffers.Session
