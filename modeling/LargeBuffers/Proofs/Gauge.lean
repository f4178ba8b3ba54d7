import LargeBuffers.Proofs.Holdings

/-! # What the gauge counts

A booking raises the gauge by what a new region adds, or lowers it by what one that is released or
an importation has added before. So the gauge follows the exact sum as long as that fits a word,
and it never stops at zero when it is lowered.
-/

namespace LargeBuffers

def Region.isBuffer (g : Region) : Bool :=
  match g.owner with
  | .allocator _ => true
  | _ => false

theorem Region.isBuffer_eq_true {g : Region} {a : AllocatorId} (h : g.owner = .allocator a) :
    g.isBuffer = true := by
  rw [isBuffer, h]

theorem Region.isBuffer_eq_false {g : Region} (h : ∀ a, g.owner ≠ .allocator a) :
    g.isBuffer = false := by
  unfold isBuffer
  split
  · exact absurd ‹_› (h _)
  · rfl

/-- What a new region adds to the gauge: a buffer its length and the alignment, a part of an
importation its length. -/
def Region.charge (allocators : List Allocator) (g : Region) : ℕ :=
  match g.owner with
  | .recorder _ => 0
  | .allocator a => g.len.toNat + (allocators[a]?).elim 0 (·.supply.alignment.toNat)
  | .importation _ => g.len.toNat

def Event.removed : Event → ℕ
  | freed _ size => size.toNat
  | finalRelease _ tracked => tracked.toNat
  | _ => 0

theorem Event.removed_of_booked {x : Event} (h : x.booked = false) : x.removed = 0 := by
  cases x with
  | freed | finalRelease => cases h
  | _ => rfl

def removed (journal : List Event) : ℕ := (journal.map Event.removed).sum

@[simp]
theorem removed_append (j j' : List Event) : removed (j ++ j') = removed j + removed j' := by
  simp [removed]

@[simp]
theorem removed_cons (x : Event) (j : List Event) : removed (x :: j) = x.removed + removed j :=
  List.sum_cons

@[simp]
theorem removed_nil : removed [] = 0 := rfl

theorem toNat_add_of_lt {a b : UInt64} (h : a.toNat + b.toNat < UInt64.size) :
    (a + b).toNat = a.toNat + b.toNat := by
  rw [UInt64.toNat_add]
  exact Nat.mod_eq_of_lt h

theorem sum_map_set {α : Type} {f : α → ℕ} {l : List α} {i : ℕ} {a : α} (b : α)
    (h : l[i]? = some a) : ((l.set i b).map f).sum + f a = (l.map f).sum + f b := by
  induction l generalizing i with
  | nil => cases h
  | cons x l ih =>
    cases i with
    | zero =>
      obtain rfl : x = a := by simpa using h
      simp only [List.set_cons_zero, List.map_cons, List.sum_cons]
      omega
    | succ i =>
      have ih := ih (by simpa using h)
      simp only [List.set_cons_succ, List.map_cons, List.sum_cons]
      omega

namespace Books

variable {p : Platform} {b b' b₁ b₂ : Books} {g : Region}

def tracked (b : Books) : ℕ := (b.importations.map (·.tracked.toNat)).sum

/-- What the gauge has to read. -/
def outstanding (b : Books) : ℕ :=
  total Region.isBuffer (Region.charge b.allocators) b.held + b.tracked

def added (b b' : Books) : ℕ :=
  ((b'.regions.drop b.regions.length).map (Region.charge b'.allocators)).sum

def charges (b : Books) : ℕ := (b.regions.map (Region.charge b.allocators)).sum

theorem charge_of_owner {alignment size : UInt64} {a : AllocatorId} {al : Allocator}
    (ho : g.owner = .allocator a) (ha : b.allocators[a]? = some al)
    (hal : al.supply = .native alignment) (hs : requestSize alignment g.len = .ok size) :
    g.charge b.allocators = size.toNat := by
  obtain ⟨hn, -⟩ := requestSize_eq_ok hs
  simp [Region.charge, ho, ha, hal, Supply.alignment, hn]

theorem charge_set {alignment size : UInt64} {a : AllocatorId} {al : Allocator} (t : Statistics)
    (ho : g.owner = .allocator a) (ha : b.allocators[a]? = some al)
    (hal : al.supply = .native alignment) (hs : requestSize alignment g.len = .ok size) :
    g.charge (b.allocators.set a { al with statistics := t }) = size.toNat := by
  obtain ⟨hl, -⟩ := List.getElem?_eq_some_iff.mp ha
  obtain ⟨hn, -⟩ := requestSize_eq_ok hs
  simp [Region.charge, ho, hl, hal, Supply.alignment, hn]

theorem charge_of_part {i : ImportationId} (ho : g.owner = .importation i)
    (allocators : List Allocator) : g.charge allocators = g.len.toNat := by
  simp [Region.charge, ho]

theorem tracked_le {i : ImportationId} {imp : Importation} (hi : b.importations[i]? = some imp) :
    imp.tracked.toNat ≤ b.tracked :=
  List.single_le_sum (fun _ _ => Nat.zero_le _) _
    (List.mem_map_of_mem (List.mem_of_getElem? hi))

theorem tracked_set {i : ImportationId} {imp : Importation} (imp' : Importation)
    (hi : b.importations[i]? = some imp) :
    { b with importations := b.importations.set i imp' }.tracked + imp.tracked.toNat =
      b.tracked + imp'.tracked.toNat :=
  sum_map_set imp' hi

theorem charge_le_outstanding {r : RegionId} (hg : b.regions[r]? = some g)
    (hc : releaseCalls r b.journal = []) (hb : g.isBuffer = true) :
    g.charge b.allocators ≤ b.outstanding := by
  have hp : b.held.Perm (g :: heldIn b.regions (b.journal ++ [.released r g])) :=
    heldIn_released hg hc fun _ => List.forall_mem_nil _
  rw [outstanding, total_perm hp, total_cons, if_pos hb]
  omega

theorem Booking.charge_eq (h : b.Booking p b') (hs : b.Sized) (hg : g ∈ b.regions) :
    g.charge b'.allocators = g.charge b.allocators := by
  cases ho : g.owner with
  | recorder | importation => simp [Region.charge, ho]
  | allocator a =>
    obtain ⟨al, alignment, size, ha, hal, hsz⟩ := hs g hg a ho
    obtain ⟨al', ha', he⟩ := h.supply ha
    rw [charge_of_owner ho ha hal hsz, charge_of_owner ho ha' (he.trans hal) hsz]

theorem Booking.total_charge {l : List Region} (h : b.Booking p b') (hs : b.Sized)
    (hl : l.Sublist b.regions) (q : Region → Bool) :
    total q (Region.charge b'.allocators) l = total q (Region.charge b.allocators) l :=
  total_congr fun _ hg _ => h.charge_eq hs (hl.subset hg)

theorem Booking.regions (h : b.Booking p b') :
    b'.regions = b.regions ∨ ∃ g, b'.regions = b.regions ++ [g] := by
  cases h with
  | recorded | buffer | part => exact .inr ⟨_, rfl⟩
  | _ => exact .inl rfl

theorem Bookings.regions (h : Bookings p b b') : b.regions <+: b'.regions := by
  induction h with
  | refl => exact List.prefix_rfl
  | tail _ h ih =>
    obtain hr | ⟨g, hr⟩ := h.regions
    · rwa [hr]
    · rw [hr]
      exact ih.trans (List.prefix_append ..)

theorem Bookings.charge_eq (h : Bookings p b b') (hs : b.Sized) (hg : g ∈ b.regions) :
    g.charge b'.allocators = g.charge b.allocators := by
  induction h with
  | refl => rfl
  | tail hb h ih =>
    exact (h.charge_eq (Bookings.sized hb hs) ((Bookings.regions hb).subset hg)).trans ih

theorem charges_eq (h : Bookings p b b') (hs : b.Sized) : b'.charges = b.charges + b.added b' := by
  obtain ⟨new, hr⟩ := Bookings.regions h
  have hc : b.regions.map (Region.charge b'.allocators) =
      b.regions.map (Region.charge b.allocators) :=
    List.map_congr_left fun g hg => Bookings.charge_eq h hs hg
  rw [charges, charges, added, ← hr, List.drop_left, List.map_append, List.sum_append, hc]

theorem added_trans (h : Bookings p b b₁) (h' : Bookings p b₁ b₂) (hs : b.Sized) :
    b.added b₂ = b.added b₁ + b₁.added b₂ := by
  have h₁ := charges_eq h hs
  have h₂ := charges_eq h' (Bookings.sized h hs)
  have h₃ := charges_eq (h.trans h') hs
  omega

theorem added_of_regions_eq (h : b'.regions = b.regions) : b.added b' = 0 := by
  simp [added, h]

theorem added_concat (h : b'.regions = b.regions ++ [g]) :
    b.added b' = g.charge b'.allocators := by
  simp [added, h]

/-- The gauge reads what is outstanding, and it was lowered by exactly what is not. -/
structure Gauged (b : Books) : Prop where
  exact : b.gauge.toNat = b.outstanding
  balance : b.gauge.toNat + removed b.journal = b.charges

/-- A booking raises the gauge by what a new region adds, or lowers it by `down`. -/
structure Moves (b b' : Books) (down : ℕ) : Prop where
  outstanding : b'.outstanding + down = b.outstanding + b.added b'
  gauge : b'.gauge.toNat + down = b.gauge.toNat + b.added b'
  removed : removed b'.journal = LargeBuffers.removed b.journal + down

theorem Gauged.moves {down : ℕ} (hg : b.Gauged) (h : b.Booking p b') (hs : b.Sized)
    (hm : b.Moves b' down) : b'.Gauged := by
  have hc := charges_eq (.single h) hs
  obtain ⟨ho, hga, hr⟩ := hm
  obtain ⟨he, hb⟩ := hg
  constructor <;> omega

/-! ## Single bookings -/

theorem Moves.of_importations (h : b.Booking p b') (hs : b.Sized)
    (hr : b'.regions = b.regions) (hh : b'.held = b.held) {down : ℕ}
    (ht : b'.tracked + down = b.tracked) (hga : b'.gauge.toNat + down = b.gauge.toNat)
    (hj : LargeBuffers.removed b'.journal = LargeBuffers.removed b.journal + down) :
    b.Moves b' down where
  outstanding := by
    rw [Books.outstanding, Books.outstanding, hh, h.total_charge hs b.held_sublist,
      added_of_regions_eq hr]
    omega
  gauge := by
    rw [added_of_regions_eq hr, hga, Nat.add_zero]
  removed := hj

theorem Moves.of_region (h : b.Booking p b') (hs : b.Sized)
    (hr : b'.regions = b.regions ++ [g]) (hj : b'.journal = b.journal)
    (hn : releaseCalls b.regions.length b.journal = [])
    (ht : b'.tracked = b.tracked + if g.isBuffer then 0 else g.charge b'.allocators)
    (hga : b'.gauge.toNat = b.gauge.toNat + g.charge b'.allocators) : b.Moves b' 0 where
  outstanding := by
    have hh : b'.held = b.held ++ [g] := by
      rw [held, held, hr, hj, heldIn_concat g hn]
    rw [Books.outstanding, Books.outstanding, hh, total_append,
      h.total_charge hs b.held_sublist, added_concat hr, ht, total_cons, total_nil]
    split_ifs <;> omega
  gauge := by
    rw [added_concat hr, hga]
    rfl
  removed := by
    rw [hj]
    rfl

theorem Moves.of_released {r : RegionId} {journal : List Event} (h : b.Booking p b')
    (hs : b.Sized) (hr : b'.regions = b.regions) (hi : b'.importations = b.importations)
    (hg : b.regions[r]? = some g) (hc : releaseCalls r b.journal = [])
    (hj : b'.journal = b.journal ++ .released r g :: journal)
    (hn : ∀ r', ∀ x ∈ journal, releaseCalls r' [x] = [])
    (hd : LargeBuffers.removed journal = if g.isBuffer then g.charge b.allocators else 0)
    (hga : b'.gauge.toNat + LargeBuffers.removed journal = b.gauge.toNat) :
    b.Moves b' (LargeBuffers.removed journal) where
  outstanding := by
    have hl : b'.held.Sublist b.regions := hr ▸ b'.held_sublist
    have hp : b.held.Perm (g :: b'.held) := by
      rw [held, held, hr, hj]
      exact heldIn_released hg hc hn
    have ht : b'.tracked = b.tracked := by
      rw [tracked, tracked, hi]
    rw [Books.outstanding, Books.outstanding, total_perm hp, total_cons,
      h.total_charge hs hl, added_of_regions_eq hr, ht, hd]
    omega
  gauge := by
    rw [added_of_regions_eq hr, hga, Nat.add_zero]
  removed := by
    rw [hj, removed_append, removed_cons]
    exact congrArg _ (Nat.zero_add _)

theorem Moves.of_note {x : Event} (h : b.Booking p b') (hs : b.Sized) (hx : x.booked = false)
    (he : b' = { b with journal := b.journal ++ [x] }) : b.Moves b' 0 := by
  subst he
  refine .of_importations h hs rfl (heldIn_append _ _ fun r => ?_) rfl rfl ?_
  · exact List.forall_mem_singleton.mpr (releaseCalls_eq_nil_of_booked hx r)
  · simp [Event.removed_of_booked hx]

/-- Every booking moves the gauge by as much as what is outstanding, unless the sum is too large
for a word. -/
theorem Booking.moves (h : b.Booking p b') (hs : b.Sized) (hg : b.gauge.toNat = b.outstanding)
    (hlt : b.outstanding + b.added b' < UInt64.size) : ∃ down, b.Moves b' down := by
  cases hb : h with
  | note hx => exact ⟨0, .of_note h hs hx rfl⟩
  | importation => exact ⟨0, .of_importations h hs rfl rfl (by simp [tracked]) rfl rfl⟩
  | allocator | metered => exact ⟨0, .of_importations h hs rfl rfl rfl rfl rfl⟩
  | @recorded g o hn ho =>
    refine ⟨0, .of_region h hs rfl rfl hn ?_ ?_⟩
    · simp [Region.charge, ho, tracked]
    · simp [Region.charge, ho]
  | @buffer g a al alignment size n grant hn ho ha hal hsz _ =>
    have hc := charge_set (al.statistics.recordAllocation size) ho ha hal hsz
    rw [added_concat rfl] at hlt
    refine ⟨0, .of_region h hs rfl rfl hn ?_ ?_⟩
    · simp [Region.isBuffer, ho, tracked]
    · rw [hc] at hlt ⊢
      exact toNat_add_of_lt (by omega)
  | @part g i imp hn ho hi =>
    rw [added_concat rfl, charge_of_part ho] at hlt
    have ht := tracked_set ⟨imp.references + 1, imp.tracked + g.len⟩ hi
    have hle := tracked_le hi
    have hadd : (imp.tracked + g.len).toNat = imp.tracked.toNat + g.len.toNat := by
      rw [outstanding] at hlt
      exact toNat_add_of_lt (by omega)
    refine ⟨0, .of_region h hs rfl rfl hn ?_ ?_⟩
    · have hb : g.isBuffer = false := by simp [Region.isBuffer, ho]
      simp only [hb, Bool.false_eq_true, if_false, charge_of_part ho]
      simp only [tracked, hadd] at ht ⊢
      omega
    · rw [charge_of_part ho]
      exact toNat_add_of_lt (by omega)
  | @returned r g hr hc ho =>
    have hb := Region.isBuffer_eq_false ho
    exact ⟨_, .of_released h hs rfl rfl hr hc rfl (fun _ => List.forall_mem_nil _)
      (by simp [hb]) rfl⟩
  | @freed r g a al alignment size hr hc ho ha hal hsz =>
    have hcg := charge_of_owner ho ha hal hsz
    have hb := Region.isBuffer_eq_true ho
    refine ⟨_, .of_released h hs rfl rfl hr hc rfl ?_ ?_ ?_⟩
    · intro r'
      exact List.forall_mem_singleton.mpr rfl
    · rw [hb, if_pos rfl, hcg]
      rfl
    · have hle := charge_le_outstanding hr hc hb
      rw [hcg] at hle
      rw [toNat_monus]
      simp only [removed_cons, Event.removed, removed_nil]
      omega
  | @reference i imp hi =>
    have ht := tracked_set { imp with references := imp.references - 1 } hi
    exact ⟨0, .of_importations h hs rfl rfl (Nat.add_right_cancel ht) rfl rfl⟩
  | @final i imp hi =>
    have ht := tracked_set ⟨imp.references - 1, 0⟩ hi
    have hle := tracked_le hi
    refine ⟨imp.tracked.toNat, .of_importations h hs rfl ?_ ht ?_ ?_⟩
    · exact heldIn_append _ _ fun r => List.forall_mem_singleton.mpr rfl
    · rw [outstanding] at hg
      rw [toNat_monus]
      omega
    · simp [Event.removed]

theorem Bookings.gauged (h : Bookings p b b') (hs : b.Sized) (hg : b.Gauged)
    (hlt : b.outstanding + b.added b' < UInt64.size) : b'.Gauged := by
  induction h using Relation.ReflTransGen.head_induction_on with
  | refl => exact hg
  | head h h' ih =>
    have ha := added_trans (.single h) h' hs
    obtain ⟨down, hm⟩ := h.moves hs hg.exact (by omega)
    have ho := hm.outstanding
    exact ih (h.sized hs) (hg.moves h hs hm) (by omega)

end Books

end LargeBuffers
