import Mathlib.Algebra.GroupWithZero.Nat
import Mathlib.Algebra.Order.BigOperators.Group.List
import Mathlib.Algebra.Order.Group.Nat
import LargeBuffers.Proofs.Books
import LargeBuffers.Proofs.ReleasedOnce

/-! # Regions that are held

The registered regions that were not released are those that a manager or a raw allocation carries.
A new region is one more of them, and a release takes one away, so sums over them change by one
summand.
-/

namespace LargeBuffers

theorem perm_filter_zipIdx {α : Type} {l : List α} {i : ℕ} {a : α} (q q' : ℕ → Bool)
    (h : l[i]? = some a) (hi : q i = true) (hq : ∀ j, q' j = true ↔ q j = true ∧ j ≠ i) :
    (l.zipIdx.filter (q ·.2)).Perm ((a, i) :: l.zipIdx.filter (q' ·.2)) := by
  have hn : ∀ f : α × ℕ → Bool, (l.zipIdx.filter f).Nodup := by
    intro f
    refine (List.Nodup.of_map Prod.snd ?_).filter _
    rw [List.zipIdx_map_snd]
    exact List.nodup_range'
  refine (List.perm_ext_iff_of_nodup (hn _) (List.nodup_cons.mpr ⟨?_, hn _⟩)).mpr ?_
  · intro hm
    exact ((hq i).mp (List.mem_filter.mp hm).2).2 rfl
  · rintro ⟨x, j⟩
    simp only [List.mem_filter, List.mem_cons, List.mem_zipIdx_iff_getElem?, hq, Prod.mk.injEq]
    by_cases hj : j = i
    · subst hj
      simp [h, hi, eq_comm]
    · simp [hj]

theorem sum_zipIdx {α : Type} (f : α → ℕ) (l : List α) :
    (l.zipIdx.map fun x => f x.1).sum = (l.map f).sum := by
  have hm : (l.zipIdx.map (·.1)).map f = l.map f := by
    rw [List.zipIdx_map_fst]
  rw [List.map_map] at hm
  exact congrArg List.sum hm

theorem sum_zipIdx_single {α : Type} {l : List α} {i : ℕ} {a : α} {f : α × ℕ → ℕ}
    (h : l[i]? = some a) (hf : ∀ x ∈ l.zipIdx, x.2 ≠ i → f x = 0) :
    (l.zipIdx.map f).sum = f (a, i) := by
  have hp := perm_filter_zipIdx (fun _ => true) (fun j => j ≠ i) h rfl (by simp)
  have ht : l.zipIdx.filter (fun _ => true) = l.zipIdx :=
    List.filter_eq_self.mpr fun _ _ => rfl
  have hz : ((l.zipIdx.filter fun x => x.2 ≠ i).map f).sum = 0 := by
    refine List.sum_eq_zero fun n hn => ?_
    obtain ⟨x, hx, rfl⟩ := List.mem_map.mp hn
    obtain ⟨hx, hi⟩ := List.mem_filter.mp hx
    exact hf x hx (of_decide_eq_true hi)
  rw [ht] at hp
  rw [(hp.map f).sum_eq, List.map_cons, List.sum_cons, hz, Nat.add_zero]

def heldIn (regions : List Region) (journal : List Event) : List Region :=
  (regions.zipIdx.filter fun x => (releaseCalls x.2 journal).isEmpty).map (·.1)

theorem heldIn_sublist (regions : List Region) (journal : List Event) :
    (heldIn regions journal).Sublist regions := by
  have hs := (List.filter_sublist (l := regions.zipIdx)
    (p := fun x => (releaseCalls x.2 journal).isEmpty)).map (·.1)
  have hf : regions.zipIdx.map (·.1) = regions := List.zipIdx_map_fst 0 regions
  rwa [hf] at hs

theorem heldIn_concat {regions : List Region} {journal : List Event} (g : Region)
    (h : releaseCalls regions.length journal = []) :
    heldIn (regions ++ [g]) journal = heldIn regions journal ++ [g] := by
  simp [heldIn, List.zipIdx_append, h]

theorem heldIn_append {journal' : List Event} (regions : List Region) (journal : List Event)
    (h : ∀ r, ∀ x ∈ journal', releaseCalls r [x] = []) :
    heldIn regions (journal ++ journal') = heldIn regions journal := by
  unfold heldIn
  simp only [releaseCalls_append_others (h _)]

theorem heldIn_released {regions : List Region} {journal journal' : List Event} {r : RegionId}
    {g : Region} (hg : regions[r]? = some g) (hr : releaseCalls r journal = [])
    (h : ∀ r', ∀ x ∈ journal', releaseCalls r' [x] = []) :
    (heldIn regions journal).Perm (g :: heldIn regions (journal ++ .released r g :: journal')) := by
  refine (perm_filter_zipIdx (fun j => (releaseCalls j journal).isEmpty)
    (fun j => (releaseCalls j (journal ++ .released r g :: journal')).isEmpty) hg ?_ ?_).map (·.1)
  · rw [hr]
    rfl
  · intro j
    have hc : releaseCalls j (journal ++ .released r g :: journal') =
        releaseCalls j journal ++ if r = j then [g] else [] := by
      rw [List.append_cons, releaseCalls_append_others (h j), releaseCalls_append]
      by_cases hj : r = j <;> simp [releaseCalls, hj]
    rw [hc]
    by_cases hj : r = j
    · simp [hj]
    · simp [hj, Ne.symm hj]

/-! ## Sums -/

def total (q : Region → Bool) (f : Region → ℕ) (regions : List Region) : ℕ :=
  ((regions.filter q).map f).sum

variable {q : Region → Bool} {f f' : Region → ℕ} {l l' : List Region} {g : Region}

@[simp]
theorem total_nil : total q f [] = 0 := rfl

@[simp]
theorem total_cons : total q f (g :: l) = (if q g then f g else 0) + total q f l := by
  cases h : q g <;> simp [total, h]

@[simp]
theorem total_append : total q f (l ++ l') = total q f l + total q f l' := by
  simp [total]

theorem total_perm (h : l.Perm l') : total q f l = total q f l' :=
  ((h.filter q).map f).sum_eq

theorem total_congr (h : ∀ g ∈ l, q g = true → f g = f' g) : total q f l = total q f' l := by
  refine congrArg List.sum (List.map_congr_left fun g hg => ?_)
  obtain ⟨hm, hq⟩ := List.mem_filter.mp hg
  exact h g hm hq

theorem total_le (h : l.Sublist l') : total q f l ≤ total q f l' :=
  ((h.filter q).map f).sum_le_sum fun _ _ => Nat.zero_le _

namespace Books

def held (b : Books) : List Region := heldIn b.regions b.journal

theorem held_sublist (b : Books) : b.held.Sublist b.regions := heldIn_sublist ..

end Books

namespace Session

/-- The regions that managers or raw allocations carry. -/
def heldRegions (s : Session) : List Region :=
  (s.store.regions.zipIdx.filter fun x => 0 < s.carriers x.2).map (·.1)

variable {s : Session}

theorem heldRegions_eq (hd : s.slots.Distinct) (ho : s.estate.InOrder) :
    s.heldRegions = s.store.books.held := by
  unfold heldRegions Books.held heldIn
  congr 1
  refine List.filter_congr fun x hx => ?_
  obtain ⟨-, hh, hn⟩ := releaseCalls_eq hd ho (List.mem_zipIdx_iff_getElem?.mp hx)
  rw [holds_iff hd] at hh hn
  by_cases hc : 0 < s.carriers x.2
  · simp [hc, hh hc, Store.books]
  · simp [hc, hn hc, Store.books]

theorem heldRegions_of_slots_eq_nil (hd : s.slots.Distinct) (ho : s.estate.InOrder)
    (hs : s.slots = []) : s.heldRegions = [] := by
  have hn : ∀ r, ¬ 0 < s.carriers r := by
    intro r hc
    exact not_holds_of_slots_eq_nil ho hs r ((holds_iff hd).mpr hc)
  simp [heldRegions, hn]

end Session

end LargeBuffers
