import Mathlib.Data.List.Nodup
import Mathlib.Data.Multiset.ZeroCons
import LargeBuffers.Directory

/-! # Directories with distinct names

As long as each name stands for one entry, taking a name out takes exactly the entry that it
leads to, and putting one in adds exactly that entry.
-/

namespace LargeBuffers.Directory

variable {α : Type} {d : Directory α} {name : String} {a : α}

def Distinct (d : Directory α) : Prop := (d.map (·.1)).Nodup

def entries (d : Directory α) : Multiset α := (d.map (·.2) : List α)

@[simp]
theorem distinct_nil : Distinct ([] : Directory α) := List.nodup_nil

@[simp]
theorem mem_erase {x : String × α} : x ∈ d.erase name ↔ x ∈ d ∧ x.1 ≠ name := by
  simp [erase]

theorem Distinct.erase (h : d.Distinct) (name : String) : (d.erase name).Distinct :=
  h.sublist (List.filter_sublist.map _)

theorem Distinct.put (h : d.Distinct) (name : String) (a : α) : (d.put name a).Distinct := by
  rw [Distinct, Directory.put, List.map_append, List.nodup_append]
  refine ⟨h.erase name, List.nodup_singleton _, ?_⟩
  rintro n hn n' hn' rfl
  obtain ⟨x, hx, rfl⟩ := List.mem_map.mp hn
  exact (mem_erase.mp hx).2 (by simpa using hn')

theorem mem_of_get? (h : d.get? name = some a) : (name, a) ∈ d := by
  obtain ⟨x, hx, rfl⟩ := Option.map_eq_some_iff.mp h
  have hn : x.1 = name := by simpa using List.find?_some hx
  rw [← hn]
  exact List.mem_of_find?_eq_some hx

theorem mem_entries_of_get? (h : d.get? name = some a) : a ∈ d.entries :=
  Multiset.mem_coe.mpr (List.mem_map.mpr ⟨_, mem_of_get? h, rfl⟩)

theorem get?_of_mem (hd : d.Distinct) (h : (name, a) ∈ d) : d.get? name = some a := by
  induction d with
  | nil => cases h
  | cons x t ih =>
    obtain ⟨hx, ht⟩ := List.nodup_cons.mp (show (x.1 :: t.map (·.1)).Nodup from hd)
    obtain rfl | h := List.mem_cons.mp h
    · simp [get?]
    · have hn : x.1 ≠ name := fun he => hx (List.mem_map.mpr ⟨_, h, he.symm⟩)
      simpa [get?, hn] using ih ht h

theorem exists_get?_of_mem_entries (hd : d.Distinct) (h : a ∈ d.entries) :
    ∃ name, d.get? name = some a := by
  obtain ⟨⟨name, b⟩, hb, rfl⟩ := List.mem_map.mp (Multiset.mem_coe.mp h)
  exact ⟨name, get?_of_mem hd hb⟩

theorem get?_eq_none_iff : d.get? name = none ↔ ∀ x ∈ d, x.1 ≠ name := by
  simp [get?]

theorem erase_eq_self (h : d.get? name = none) : d.erase name = d := by
  rw [get?_eq_none_iff] at h
  exact List.filter_eq_self.mpr fun x hx => by simpa using h x hx

theorem entries_put (d : Directory α) (name : String) (a : α) :
    (d.put name a).entries = a ::ₘ (d.erase name).entries := by
  rw [entries, put, List.map_append, entries, Multiset.cons_coe, Multiset.coe_eq_coe]
  exact List.perm_append_singleton _ _

theorem entries_eq_cons (hd : d.Distinct) (h : d.get? name = some a) :
    d.entries = a ::ₘ (d.erase name).entries := by
  induction d with
  | nil => simp [get?] at h
  | cons x t ih =>
    obtain ⟨hx, ht⟩ := List.nodup_cons.mp (show (x.1 :: t.map (·.1)).Nodup from hd)
    by_cases hn : x.1 = name
    · have hnone : get? t name = none := by
        rw [get?_eq_none_iff]
        exact fun y hy he => hx (List.mem_map.mpr ⟨y, hy, he.trans hn.symm⟩)
      have ha : x.2 = a := by simpa [get?, hn] using h
      have he : erase (x :: t) name = erase t name := by simp [erase, hn]
      rw [he, erase_eq_self hnone, ← ha]
      rfl
    · have ht' : get? t name = some a := by simpa [get?, hn] using h
      have he : erase (x :: t) name = x :: erase t name := by simp [erase, hn]
      rw [he]
      change x.2 ::ₘ entries t = a ::ₘ x.2 ::ₘ entries (erase t name)
      rw [ih ht ht', Multiset.cons_swap]

theorem mem_map_put {x : α} (h : x ∈ (d.put name a).map (·.2)) : x ∈ d.map (·.2) ∨ x = a := by
  simp only [put, List.map_append, List.mem_append, List.map_cons, List.map_nil,
    List.mem_singleton] at h
  exact h.imp_left fun hx => (List.filter_sublist.map _).subset hx

theorem pair_le_entries {other : String} {b : α} (hd : d.Distinct) (ha : d.get? name = some a)
    (hb : d.get? other = some b) (hne : name ≠ other) : a ::ₘ {b} ≤ d.entries := by
  rw [entries_eq_cons hd ha, Multiset.cons_le_cons_iff, Multiset.singleton_le]
  exact mem_entries_of_get? (by rwa [get?_erase_of_ne hne.symm])

end LargeBuffers.Directory
