import LargeBuffers.Proofs.FinalRelease
import LargeBuffers.Proofs.Postings

/-! # What final releases tell

At every time an importation tracks all of its parts that no final release told of. So the final
release tells of all of them, and there are as many final releases as importations that count
nothing any more.
-/

namespace LargeBuffers

/-- What the final releases of an importation tell. -/
def finals (i : ImportationId) (journal : List Event) : List UInt64 :=
  journal.filterMap fun
    | .finalRelease k tracked => if k = i then some tracked else none
    | _ => none

variable {i : ImportationId} {journal : List Event}

theorem finals_append (i : ImportationId) (j j' : List Event) :
    finals i (j ++ j') = finals i j ++ finals i j' :=
  List.filterMap_append

theorem finals_append_others {xs : List Event} (h : ∀ x ∈ xs, x.size? .final = none)
    (journal : List Event) : finals i (journal ++ xs) = finals i journal := by
  have hn : finals i xs = [] := by
    refine List.filterMap_eq_nil_iff.mpr fun x hx => ?_
    cases x with
    | finalRelease => cases h _ hx
    | _ => rfl
  rw [finals_append, hn, List.append_nil]

theorem length_finals (i : ImportationId) (journal : List Event) :
    (finals i journal).length = finalReleases i journal := by
  induction journal with
  | nil => rfl
  | cons x journal ih =>
    cases x with
    | finalRelease k tracked =>
      by_cases hk : k = i <;> simpa [finals, finalReleases, hk] using ih
    | _ => exact ih

theorem mem_finals {tracked : UInt64} (h : .finalRelease i tracked ∈ journal) :
    tracked ∈ finals i journal :=
  List.mem_filterMap.mpr ⟨_, h, if_pos rfl⟩

theorem ofNat_weigh_concat (l : List UInt64) (n : UInt64) :
    UInt64.ofNat (weigh id (l ++ [n])) = UInt64.ofNat (weigh id l) + n := by
  rw [weigh_append, weigh_cons, weigh_nil, UInt64.ofNat_add]
  simp

theorem sum_map_ite {α : Type} (q : α → Bool) (l : List α) :
    (l.map fun x => if q x then 1 else 0).sum = l.countP q := by
  induction l with
  | nil => rfl
  | cons x l ih => cases h : q x <;> simp [h, ih, Nat.add_comm]

namespace Books

variable {p : Platform} {b b' : Books}

def trackedOf (b : Books) (i : ImportationId) : UInt64 := (b.importations[i]?).elim 0 (·.tracked)

/-- The length of all parts of an importation that were ever made. -/
def importedOf (b : Books) (i : ImportationId) : ℕ :=
  total (·.owner = .importation i) (·.len.toNat) b.regions

/-- What is tracked of an importation, and what was told of it, are all its parts. -/
def Traced (b : Books) : Prop :=
  ∀ i, b.trackedOf i + UInt64.ofNat (weigh id (finals i b.journal)) = UInt64.ofNat (b.importedOf i)

theorem trackedOf_set {imp : Importation} (imp' : Importation) (hi : b.importations[i]? = some imp)
    (j : ImportationId) : { b with importations := b.importations.set i imp' }.trackedOf j =
      if i = j then imp'.tracked else b.trackedOf j := by
  obtain ⟨hl, -⟩ := List.getElem?_eq_some_iff.mp hi
  by_cases hij : i = j
  · subst hij
    simp [trackedOf, hl]
  · simp [trackedOf, hij]

theorem trackedOf_concat (imp : Importation) (h : imp.tracked = 0) (j : ImportationId) :
    { b with importations := b.importations ++ [imp] }.trackedOf j = b.trackedOf j := by
  unfold trackedOf
  rw [List.getElem?_append]
  split
  · rfl
  · rename_i hl
    rw [List.getElem?_eq_none (Nat.le_of_not_lt hl)]
    cases j - b.importations.length with
    | zero => exact h
    | succ n => rfl

theorem Traced.of_same (ht : b.Traced) (hi : ∀ i, b'.trackedOf i = b.trackedOf i)
    (hf : ∀ i, finals i b'.journal = finals i b.journal)
    (hr : ∀ i, b'.importedOf i = b.importedOf i) : b'.Traced := by
  intro i
  rw [hi, hf, hr]
  exact ht i

theorem importedOf_concat {g : Region} (hr : b'.regions = b.regions ++ [g])
    (hg : ∀ i, g.owner ≠ .importation i) (i : ImportationId) :
    b'.importedOf i = b.importedOf i := by
  simp [importedOf, hr, hg i]

theorem Booking.traced (h : b.Booking p b') (ht : b.Traced) : b'.Traced := by
  cases h with
  | @note x hx =>
    refine ht.of_same (fun _ => rfl) (fun _ => finals_append_others ?_ _) fun _ => rfl
    refine List.forall_mem_singleton.mpr ?_
    cases x with
    | finalRelease => cases hx
    | _ => rfl
  | importation => exact ht.of_same (trackedOf_concat {} rfl) (fun _ => rfl) fun _ => rfl
  | allocator | metered => exact ht.of_same (fun _ => rfl) (fun _ => rfl) fun _ => rfl
  | recorded _ ho =>
    exact ht.of_same (fun _ => rfl) (fun _ => rfl) (importedOf_concat rfl (by simp [ho]))
  | buffer _ ho =>
    exact ht.of_same (fun _ => rfl) (fun _ => rfl) (importedOf_concat rfl (by simp [ho]))
  | @part g i imp _ ho hi =>
    intro j
    have hj := ht j
    have hp : ∀ st : Books, st.regions = b.regions ++ [g] →
        st.importedOf j = b.importedOf j + if i = j then g.len.toNat else 0 := by
      intro st hr
      simp [importedOf, hr, ho]
    have hs := trackedOf_set ⟨imp.references + 1, imp.tracked + g.len⟩ hi j
    rw [hp _ rfl]
    refine (congrArg (· + _) hs).trans ?_
    by_cases hij : i = j
    · subst hij
      have himp : b.trackedOf i = imp.tracked := by simp [trackedOf, hi]
      rw [himp] at hj
      rw [if_pos rfl, if_pos rfl, UInt64.ofNat_add, UInt64.ofNat_toNat, ← hj, UInt64.add_assoc,
        UInt64.add_comm g.len, UInt64.add_assoc]
    · rw [if_neg hij, if_neg hij]
      exact hj
  | returned | freed =>
    exact ht.of_same (fun _ => rfl)
      (fun _ => finals_append_others (by simp [Event.size?, Event.told?]) _) fun _ => rfl
  | @reference i imp hi =>
    refine ht.of_same (fun j => ?_) (fun _ => rfl) fun _ => rfl
    have hs := trackedOf_set { imp with references := imp.references - 1 } hi j
    refine hs.trans ?_
    by_cases hij : i = j
    · subst hij
      simp [trackedOf, hi]
    · rw [if_neg hij]
  | @final i imp hi =>
    intro j
    have hj := ht j
    have hs := trackedOf_set ⟨imp.references - 1, 0⟩ hi j
    refine (congrArg (· + _) hs).trans ?_
    by_cases hij : i = j
    · subst hij
      have himp : b.trackedOf i = imp.tracked := by simp [trackedOf, hi]
      have hf : finals i (b.journal ++ [.finalRelease i imp.tracked]) =
          finals i b.journal ++ [imp.tracked] := by
        rw [finals_append]
        simp [finals]
      rw [himp] at hj
      dsimp only
      rw [if_pos rfl, hf, ofNat_weigh_concat, UInt64.zero_add, UInt64.add_comm]
      exact hj
    · have hf : finals j (b.journal ++ [.finalRelease i imp.tracked]) = finals j b.journal := by
        rw [finals_append]
        simp [finals, hij]
      dsimp only
      rw [if_neg hij, hf]
      exact hj

theorem Bookings.traced (h : Bookings p b b') (ht : b.Traced) : b'.Traced := by
  induction h with
  | refl => exact ht
  | tail _ h ih => exact h.traced ih

end Books

namespace Estate

theorem stable_traced (p : Platform) : Stable p fun e => e.Booked ∧ e.store.books.Traced :=
  stable_of_bookings (fun h _ ht => h.traced ht) fun ht =>
    ht.of_same (fun _ => rfl) (fun _ => rfl) fun _ => rfl

theorem traced_start (e : Element) : (Session.start e).estate.store.books.Traced := fun _ => rfl

end Estate

namespace Session

variable {s : Session}

theorem exists_of_finalRelease {tracked : UInt64} (ha : s.estate.Accounts none)
    (hx : .finalRelease i tracked ∈ s.store.journal) :
    ∃ imp : Importation, s.store.importations[i]? = some imp ∧ imp.references = 0 := by
  have hpos : 0 < finalReleases i s.store.journal := by
    rw [← length_finals]
    exact List.length_pos_of_mem (mem_finals hx)
  have hfinal : finalReleases i s.store.journal = _ := ha.final i
  rw [hfinal] at hpos
  split at hpos
  · rename_i hc
    obtain ⟨hl, hz⟩ := hc
    have hi := List.getElem?_eq_getElem hl
    rw [Store.references_eq hi] at hz
    exact ⟨_, hi, hz⟩
  · omega

theorem tracked_of_finalRelease {tracked : UInt64} (ha : s.estate.Accounts none)
    (ht : s.store.books.Traced) (hx : .finalRelease i tracked ∈ s.store.journal) :
    tracked = UInt64.ofNat (s.store.imported i) := by
  obtain ⟨imp, hi, hz⟩ := exists_of_finalRelease ha hx
  have hn : ¬ 0 < imp.references := by omega
  have hlen : (finals i s.store.journal).length = 1 := by
    rw [length_finals, finalReleases_of_accounts ha hi, if_neg hn]
  have htracked : s.store.books.trackedOf i = 0 := by
    have hb : s.store.books.importations[i]? = some imp := hi
    rw [Books.trackedOf, hb]
    exact (ha.tracked hi).trans (if_neg hn)
  have hfinals : finals i s.store.books.journal = [tracked] := by
    obtain ⟨t, hone⟩ := List.length_eq_one_iff.mp hlen
    have hm := mem_finals hx
    rw [hone, List.mem_singleton] at hm
    exact hm ▸ hone
  have htr : _ = UInt64.ofNat (s.store.imported i) := ht i
  rw [htracked, hfinals, UInt64.zero_add, weigh_cons, weigh_nil, Nat.add_zero, id,
    UInt64.ofNat_toNat] at htr
  exact htr

theorem sum_finalReleases {α : Type} {l : List α}
    (h : ∀ (i : ImportationId) (t : UInt64), .finalRelease i t ∈ journal → i < l.length) :
    (l.zipIdx.map fun x => finalReleases x.2 journal).sum =
      (sizes .final journal).length := by
  induction journal with
  | nil => exact List.sum_eq_zero (by simp [finalReleases])
  | cons x journal ih =>
    have ih := ih fun i t hx => h i t (List.mem_cons_of_mem x hx)
    have hcons : ∀ i, finalReleases i (x :: journal) =
        finalReleases i [x] + finalReleases i journal := fun i => finalReleases_append i [x] journal
    simp only [hcons]
    rw [List.sum_map_add, ih]
    cases x with
    | finalRelease k t =>
      have hk := List.getElem?_eq_getElem (h k t List.mem_cons_self)
      rw [sum_zipIdx_single hk (by simp +contextual [finalReleases, eq_comm]),
        sizes_cons_of_some (n := t) rfl]
      simp [finalReleases, Nat.add_comm]
    | _ =>
      rw [List.sum_eq_zero (by simp [finalReleases]), Nat.zero_add]
      rfl

/-- As many importations count nothing any more as were finally released. -/
theorem length_final_eq (ha : s.estate.Accounts none) :
    (sizes .final s.store.journal).length =
      s.store.importations.countP (·.references = 0) := by
  have hl : ∀ (i : ImportationId) (t : UInt64), .finalRelease i t ∈ s.store.journal →
      i < s.store.importations.length := by
    intro i t hx
    obtain ⟨imp, hi, -⟩ := exists_of_finalRelease ha hx
    exact (List.getElem?_eq_some_iff.mp hi).1
  have hone : ∀ x ∈ s.store.importations.zipIdx, finalReleases x.2 s.store.journal =
      if x.1.references = 0 then 1 else 0 := by
    intro x hx
    have hi := List.mem_zipIdx_iff_getElem?.mp hx
    have hn := references_nonneg ha hi
    rw [finalReleases_of_accounts ha hi]
    split_ifs <;> omega
  rw [← sum_finalReleases hl, List.map_congr_left hone,
    sum_zipIdx fun imp : Importation => if imp.references = 0 then 1 else 0]
  simpa using sum_map_ite (·.references = 0) s.store.importations

end Session

end LargeBuffers
