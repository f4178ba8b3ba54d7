import LargeBuffers.Proofs.Gauge
import LargeBuffers.Proofs.ReleasedOnce
import LargeBuffers.Proofs.Wording

/-! # What postings tell

The events that are noted of some postings account for what these do. The sizes in them are those of
the buffers that are new and of those that are gone, and what is given up is received and freed at
once.
-/

namespace LargeBuffers

def weigh (w : ℕ → ℕ) (l : List UInt64) : ℕ := (l.map fun n => w n.toNat).sum

@[simp]
theorem weigh_nil (w : ℕ → ℕ) : weigh w [] = 0 := rfl

@[simp]
theorem weigh_cons (w : ℕ → ℕ) (n : UInt64) (l : List UInt64) :
    weigh w (n :: l) = w n.toNat + weigh w l :=
  List.sum_cons

@[simp]
theorem weigh_append (w : ℕ → ℕ) (l l' : List UInt64) :
    weigh w (l ++ l') = weigh w l + weigh w l' := by
  simp [weigh]

theorem weigh_one (l : List UInt64) : weigh (fun _ => 1) l = l.length := by
  simp [weigh]

/-- What the gauge is lowered by is what is noted of buffers and importations that are gone. -/
theorem removed_eq (journal : List Event) : removed journal =
    weigh id (sizes .freed journal) + weigh id (sizes .final journal) := by
  induction journal with
  | nil => rfl
  | cons x journal ih =>
    rw [removed_cons, ih]
    cases x with
    | freed a size =>
      change size.toNat + _ = weigh id (size :: _) + _
      rw [weigh_cons, id, Nat.add_assoc]
      rfl
    | finalRelease i tracked =>
      change tracked.toNat + _ = _ + weigh id (tracked :: _)
      rw [weigh_cons, id, Nat.add_left_comm]
      rfl
    | _ => exact Nat.zero_add _

theorem givenUp_cons {x : Event} {n : UInt64} (h : x.givenUp? = some n) (journal : List Event) :
    (sizes .releasing (x :: journal)).length + (sizes .dropped (x :: journal)).length =
        (sizes .releasing journal).length + (sizes .dropped journal).length + 1 ∧
      releaseEvents (x :: journal) = releaseEvents journal := by
  cases x with
  | releasing => exact ⟨Nat.add_right_comm .., rfl⟩
  | dropped => exact ⟨rfl, rfl⟩
  | _ => cases h

namespace Books

variable {p : Platform} {b b' b₁ b₂ : Books} {es xs : List Event} {g : Region} {w : ℕ → ℕ}

/-! ## Buffers -/

def weight (b : Books) (w : ℕ → ℕ) (l : List Region) : ℕ :=
  total Region.isBuffer (fun g => w (g.charge b.allocators)) l

/-- The events tell the sizes of the new buffers, and of those that are not held any more. -/
structure Weighed (w : ℕ → ℕ) (b : Books) (es : List Event) (b' : Books) : Prop where
  registered : b'.weight w b'.regions =
    b.weight w b.regions + weigh w (sizes .allocated es)
  carried : b'.weight w b'.held + weigh w (sizes .freed es) =
    b.weight w b.held + weigh w (sizes .allocated es)

theorem Weighed.trans (h : Weighed w b es b₁) (h' : Weighed w b₁ xs b₂) :
    Weighed w b (es ++ xs) b₂ := by
  obtain ⟨hr, hc⟩ := h
  obtain ⟨hr', hc'⟩ := h'
  constructor
  · rw [hr', hr, sizes_append, weigh_append, Nat.add_assoc]
  · rw [sizes_append, sizes_append, weigh_append, weigh_append]
    omega

theorem weight_eq (h : Bookings p b b') (hs : b.Sized) {l : List Region}
    (hl : l.Sublist b.regions) : b'.weight w l = b.weight w l :=
  total_congr fun _ hg _ => congrArg w (Bookings.charge_eq h hs (hl.subset hg))

theorem Weighed.of_same (h : b.Posting p es b') (hs : b.Sized) (hr : b'.regions = b.regions)
    (hh : b'.held = b.held) (ha : sizes .allocated es = [])
    (hf : sizes .freed es = []) : Weighed w b es b' where
  registered := by
    rw [hr, weight_eq h.bookings hs (List.Sublist.refl _), ha]
    rfl
  carried := by
    rw [hh, weight_eq h.bookings hs b.held_sublist, ha, hf]

theorem Weighed.of_region (h : b.Posting p es b') (hs : b.Sized)
    (hr : b'.regions = b.regions ++ [g]) (hh : b'.held = b.held ++ [g])
    (ha : weigh w (sizes .allocated es) =
      if g.isBuffer then w (g.charge b'.allocators) else 0)
    (hf : sizes .freed es = []) : Weighed w b es b' := by
  have hw : ∀ l : List Region, l.Sublist b.regions →
      b'.weight w (l ++ [g]) = b.weight w l + weigh w (sizes .allocated es) := by
    intro l hl
    rw [← weight_eq h.bookings hs hl, ha, weight, weight, total_append, total_cons, total_nil,
      Nat.add_zero]
  constructor
  · rw [hr, hw _ (List.Sublist.refl _)]
  · rw [hh, hw _ b.held_sublist, hf]
    rfl

theorem Weighed.of_released {r : RegionId} {journal journal' : List Event}
    (h : b.Posting p es b') (hs : b.Sized) (hr : b'.regions = b.regions)
    (hg : b.regions[r]? = some g) (hc : releaseCalls r b.journal = [])
    (hj : b'.journal = b.journal ++ journal ++ .released r g :: journal')
    (hn : ∀ r', ∀ x ∈ journal, releaseCalls r' [x] = [])
    (hn' : ∀ r', ∀ x ∈ journal', releaseCalls r' [x] = [])
    (ha : sizes .allocated es = [])
    (hf : weigh w (sizes .freed es) =
      if g.isBuffer then w (g.charge b.allocators) else 0) : Weighed w b es b' where
  registered := by
    rw [hr, weight_eq h.bookings hs (List.Sublist.refl _), ha]
    rfl
  carried := by
    have hc' : releaseCalls r (b.journal ++ journal) = [] :=
      (releaseCalls_append_others (hn r) _).trans hc
    have hp : b.held.Perm (g :: b'.held) := by
      rw [held, ← heldIn_append b.regions b.journal hn, held, hr, hj]
      exact heldIn_released hg hc' hn'
    have hl : b'.held.Sublist b.regions := hr ▸ b'.held_sublist
    have hcons : b.weight w b.held = b.weight w (g :: b'.held) := total_perm hp
    rw [weight_eq h.bookings hs hl, ha, weigh_nil, Nat.add_zero, hcons, hf, weight, weight,
      total_cons]
    exact Nat.add_comm ..

theorem Posting.weighed (h : b.Posting p es b') (hs : b.Sized) (w : ℕ → ℕ) :
    Weighed w b es b' := by
  have hnote : ∀ {x : Event}, x.booked = false → ∀ r, ∀ y ∈ [x], releaseCalls r [y] = [] :=
    fun hx r => List.forall_mem_singleton.mpr (releaseCalls_eq_nil_of_booked hx r)
  have hgone : ∀ {x : Event} {n : UInt64}, x.givenUp? = some n →
      x.size? .allocated = none ∧ x.size? .freed = none := by
    intro x n hx
    cases x with
    | releasing | dropped => exact ⟨rfl, rfl⟩
    | _ => cases hx
  cases hp : h with
  | @silent x hx =>
    refine .of_same h hs rfl (heldIn_append _ _ (hnote (Event.booked_of_silent hx))) ?_ ?_ <;>
      cases x <;> first | rfl | cases hx
  | handedOff => exact .of_same h hs rfl (heldIn_append _ _ (hnote rfl)) rfl rfl
  | importation | allocator | metered | reference => exact .of_same h hs rfl rfl rfl rfl
  | final =>
    refine .of_same h hs rfl (heldIn_append _ _ fun r => ?_) rfl rfl
    exact List.forall_mem_singleton.mpr rfl
  | @recorded g o hn ho =>
    exact .of_region h hs rfl (heldIn_concat g hn) (by simp [Region.isBuffer, ho]) rfl
  | @part g i imp hn ho =>
    exact .of_region h hs rfl (heldIn_concat g hn) (by simp [Region.isBuffer, ho]) rfl
  | @buffer g a al alignment size n grant hn ho ha hal hsz hg =>
    refine .of_region (g := g) h hs rfl ?_ ?_ rfl
    · exact (heldIn_append _ _ (hnote rfl)).trans (heldIn_concat g hn)
    · have hc := charge_set (al.statistics.recordAllocation size) ho ha hal hsz
      rw [Region.isBuffer_eq_true ho, if_pos rfl, hc]
      rfl
  | @returned x r g hx hg hc ho =>
    obtain ⟨hxa, hxf⟩ := hgone hx
    refine .of_released h hs rfl hg hc (List.append_cons b.journal x [.released r g])
      (hnote (Event.booked_of_givenUp? hx)) (fun _ => List.forall_mem_nil _) ?_ ?_
    · rw [sizes_cons_of_none hxa]
      rfl
    · rw [sizes_cons_of_none hxf, Region.isBuffer_eq_false ho]
      rfl
  | @freed x r g a al alignment size hx hg hc ho ha hal hsz =>
    obtain ⟨hxa, hxf⟩ := hgone hx
    refine .of_released h hs rfl hg hc (List.append_cons b.journal x [.released r g, .freed a size])
      (hnote (Event.booked_of_givenUp? hx)) (fun r => List.forall_mem_singleton.mpr rfl) ?_ ?_
    · rw [sizes_cons_of_none hxa]
      rfl
    · rw [sizes_cons_of_none hxf, Region.isBuffer_eq_true ho, if_pos rfl,
        charge_of_owner ho ha hal hsz]
      rfl

theorem Postings.weighed (h : Postings p b es b') (hs : b.Sized) (w : ℕ → ℕ) :
    Weighed w b es b' := by
  induction h with
  | refl => exact ⟨rfl, rfl⟩
  | tail hb hp ih => exact ih.trans (hp.weighed (Bookings.sized hb.bookings hs) w)

/-! ## Releases -/

/-- A region that is given up is received by its owner at once. -/
theorem Posting.givenUp (h : b.Posting p es b') :
    (sizes .releasing es).length + (sizes .dropped es).length = (releaseEvents es).length := by
  cases h with
  | @silent x hx => cases x <;> first | rfl | cases hx
  | @returned x r g hx =>
    obtain ⟨hl, he⟩ := givenUp_cons hx [.released r g]
    rw [hl, he]
    rfl
  | @freed x r g a al alignment size hx =>
    obtain ⟨hl, he⟩ := givenUp_cons hx [.released r g, .freed a size]
    rw [hl, he]
    rfl
  | _ => rfl

theorem Postings.givenUp (h : Postings p b es b') :
    (sizes .releasing es).length + (sizes .dropped es).length = (releaseEvents es).length := by
  induction h with
  | refl => rfl
  | tail _ hp ih =>
    have hx := hp.givenUp
    rw [sizes_append, sizes_append, releaseEvents_append]
    simp only [List.length_append]
    omega

/-- After the place `j` it is noted that the owner of a region of `len` bytes received it, of which
nothing is logged, and next, of a buffer, that the allocator returned all that it had obtained for
it. -/
def Received (b : Books) (es : List Event) (j : ℕ) (len : UInt64) : Prop :=
  ∃ r g, es[j + 1]? = some (.released r g) ∧ b.regions[r]? = some g ∧ g.len = len ∧
    ∀ a, g.owner = .allocator a → ∃ size, es[j + 2]? = some (.freed a size) ∧
      size.toNat = g.charge b.allocators

def Answered (b : Books) (es : List Event) : Prop :=
  ∀ (j : ℕ) (x : Event) (len : UInt64), es[j]? = some x → x.givenUp? = some len →
    b.Received es j len

theorem answered_of_none (h : ∀ x ∈ es, x.givenUp? = none) : b.Answered es := by
  intro j x len hj hx
  rw [h x (List.mem_of_getElem? hj)] at hx
  cases hx

theorem Answered.mono (h : b.Answered es) (hb : Bookings p b b') (hs : b.Sized) :
    b'.Answered es := by
  intro j x len hj hx
  obtain ⟨r, g, hr, hg, hl, ha⟩ := h j x len hj hx
  refine ⟨r, g, hr, Store.getElem?_of_extension (Bookings.regions hb) hg, hl, fun a ho => ?_⟩
  obtain ⟨size, hf, hc⟩ := ha a ho
  exact ⟨size, hf, hc.trans (Bookings.charge_eq hb hs (List.mem_of_getElem? hg)).symm⟩

theorem Answered.append (h : b.Answered es) (h' : b.Answered xs) : b.Answered (es ++ xs) := by
  intro j x len hj hx
  by_cases hl : j < es.length
  · have hmono : ∀ {n : ℕ} {y : Event}, es[n]? = some y → (es ++ xs)[n]? = some y :=
      Store.getElem?_of_extension (List.prefix_append ..)
    rw [List.getElem?_append_left hl] at hj
    obtain ⟨r, g, hr, hg, hlen, ha⟩ := h j x len hj hx
    refine ⟨r, g, hmono hr, hg, hlen, fun a ho => ?_⟩
    obtain ⟨size, hf, hc⟩ := ha a ho
    exact ⟨size, hmono hf, hc⟩
  · obtain ⟨n, rfl⟩ := Nat.exists_eq_add_of_le (Nat.le_of_not_lt hl)
    have hshift : ∀ m : ℕ, (es ++ xs)[es.length + m]? = xs[m]? := fun m => by
      rw [List.getElem?_append_right (Nat.le_add_right ..), Nat.add_sub_cancel_left]
    rw [hshift] at hj
    obtain ⟨r, g, hr, hg, hlen, ha⟩ := h' n x len hj hx
    exact ⟨r, g, (hshift _).trans hr, hg, hlen, fun a ho => by
      obtain ⟨size, hf, hc⟩ := ha a ho
      exact ⟨size, (hshift _).trans hf, hc⟩⟩

theorem Posting.answered (h : b.Posting p es b') : b.Answered es := by
  cases h with
  | @silent x hx =>
    refine answered_of_none (List.forall_mem_singleton.mpr ?_)
    cases x <;> first | rfl | cases hx
  | handedOff | buffer | final => exact answered_of_none (List.forall_mem_singleton.mpr rfl)
  | @returned y r g hy hg hc ho =>
    intro j x len hj hx
    match j with
    | 0 =>
      obtain rfl := Option.some.inj hj
      exact ⟨r, g, rfl, hg, Option.some.inj (hy.symm.trans hx), fun a ha => absurd ha (ho a)⟩
    | 1 =>
      obtain rfl := Option.some.inj hj
      cases hx
    | n + 2 => cases hj
  | @freed y r g a al alignment size hy hg hc ho ha hal hsz =>
    intro j x len hj hx
    match j with
    | 0 =>
      obtain rfl := Option.some.inj hj
      refine ⟨r, g, rfl, hg, Option.some.inj (hy.symm.trans hx), fun a' ha' => ?_⟩
      obtain rfl := Owner.allocator.inj (ho.symm.trans ha')
      exact ⟨size, rfl, (charge_of_owner ho ha hal hsz).symm⟩
    | 1 | 2 =>
      obtain rfl := Option.some.inj hj
      cases hx
    | n + 3 => cases hj
  | _ => exact answered_of_none (List.forall_mem_nil _)

theorem Postings.answered (h : Postings p b es b') (hs : b.Sized) : b'.Answered es := by
  induction h with
  | refl => exact answered_of_none (List.forall_mem_nil _)
  | tail hb hp ih =>
    have hs' := Bookings.sized hb.bookings hs
    exact (ih.mono hp.bookings hs').append (hp.answered.mono hp.bookings hs')

end Books

end LargeBuffers
