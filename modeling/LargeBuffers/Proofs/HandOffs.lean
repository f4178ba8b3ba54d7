import LargeBuffers.Proofs.Postings
import LargeBuffers.Proofs.Quiet

/-! # Hand-offs

A region is handed off by an acquisition that succeeds, and by no other operation.
-/

namespace LargeBuffers

def handOffs (journal : List Event) : ℕ := (sizes .handedOff journal).length

theorem handOffs_append (journal journal' : List Event) :
    handOffs (journal ++ journal') = handOffs journal + handOffs journal' := by
  simp [handOffs]

theorem handOffs_append_others {xs : List Event} (h : ∀ x ∈ xs, x.size? .handedOff = none)
    (journal : List Event) : handOffs (journal ++ xs) = handOffs journal := by
  rw [handOffs, sizes_append, sizes_eq_nil h, List.append_nil]
  rfl

theorem handOffs_directs (journal : List Event) :
    handOffs (directs journal) = handOffs journal := by
  induction journal with
  | nil => rfl
  | cons x journal ih =>
    have hs : ∀ l, handOffs (x :: l) = handOffs [x] + handOffs l := handOffs_append [x]
    cases hx : x.direct with
    | true =>
      rw [directs, List.filter_cons_of_pos hx, ← directs, hs, ih, ← hs]
    | false =>
      have hz : handOffs [x] = 0 := by
        cases x <;> first | rfl | cases hx
      rw [directs, List.filter_cons_of_neg (by simp [hx]), ← directs, ih, hs, hz, Nat.zero_add]

theorem handOffs_congr {journal journal' : List Event} (h : directs journal' = directs journal) :
    handOffs journal' = handOffs journal := by
  rw [← handOffs_directs, h, handOffs_directs]

namespace Session

variable {p : Platform} {s : Session}

theorem Noted.handOffs_eq {st st' : Store} (h : Noted st st') :
    handOffs st'.journal = handOffs st.journal := by
  obtain ⟨es, he, rfl⟩ := h
  refine handOffs_append_others (fun x hx => ?_) _
  obtain ⟨k, i, rfl⟩ | ⟨k, rfl⟩ := he x hx <;> rfl

theorem handOffs_pin (s : Session) (slot : String) (index : Option UInt64) :
    handOffs (s.pin slot index).2.store.journal = handOffs s.store.journal := by
  simp only [pin]
  split
  · rfl
  · split
    · rename_i pin st hp
      exact ((noted_pinThrough hp).trans (noted_unpin st pin)).handOffs_eq
    · rename_i e st hp
      exact (noted_pinThrough hp).handOffs_eq
    · rfl

theorem handOffs_unpin (s : Session) (slot : String) :
    handOffs (s.unpin slot).2.store.journal = handOffs s.store.journal := by
  unfold unpin
  split
  · exact (noted_unpinManager ..).handOffs_eq
  · rfl

theorem handOffs_tryAcquire (s : Session) (name slot : String) :
    handOffs (s.tryAcquire name slot).2.store.journal = handOffs s.store.journal +
      if (s.tryAcquire name slot).1 = .ok (.flag true) then 1 else 0 := by
  obtain ⟨k, r, g, he⟩ | he | ⟨f, he⟩ := s.tryAcquire_cases name slot
  · rw [he]
    exact (handOffs_congr (directs_put ..)).trans
      (handOffs_append s.store.journal [.handedOff g.len])
  · rw [he]
    rfl
  · rw [he]
    rfl

theorem handOffs_step (op : Op) :
    handOffs (s.step p op).2.store.journal = handOffs s.store.journal +
      if op.acquires ∧ (s.step p op).1 = .ok (.flag true) then 1 else 0 := by
  cases h : op.acquires
  · rw [if_neg (by simp)]
    cases hp : op.pins
    · exact handOffs_congr (quiet_step h hp)
    · cases op with
      | pin slot index => exact handOffs_pin s slot index
      | unpin slot => exact handOffs_unpin s slot
      | _ => cases hp
  · cases op with
    | tryAcquire name slot =>
      refine (handOffs_tryAcquire s name slot).trans ?_
      simp [step]
    | _ => cases h

end Session

end LargeBuffers
