import LargeBuffers.Proofs.Finals
import LargeBuffers.Proofs.HandOffs
import LargeBuffers.Proofs.Leaks
import LargeBuffers.Proofs.Pressure
import LargeBuffers.Script

/-! # What is logged of a step

The lines that are logged of a step account for all that it does: each counter moves by as much as
the lines of one kind say, and the gauge by what is new and what the lines say is gone.
-/

namespace LargeBuffers

open Books (Bookings Postings)

/-- A counter of an allocator that asks the platform for memory. Of the others nothing is
logged. -/
def Allocator.counted (f : Statistics → UInt64) (al : Allocator) : ℕ :=
  match al.supply with
  | .native _ => (f al.statistics).toNat
  | .metered .. => 0

namespace Books

variable {p : Platform} {b b' : Books} {w : ℕ → ℕ} {made gone : Statistics → UInt64}
  {es : List Event}

theorem sum_isOf (hs : b.Sized) (f : Region → ℕ) {l : List Region} (hl : ∀ g ∈ l, g ∈ b.regions) :
    (b.allocators.zipIdx.map fun x => total (Region.isOf x.2) f l).sum =
      total Region.isBuffer f l := by
  induction l with
  | nil => exact List.sum_eq_zero (by simp)
  | cons g l ih =>
    have ih := ih fun x hx => hl x (List.mem_cons_of_mem g hx)
    simp only [total_cons]
    rw [List.sum_map_add, ih]
    congr 1
    cases ho : g.owner with
    | recorder | importation =>
      exact (List.sum_eq_zero (by simp [Region.isOf, ho])).trans (by simp [Region.isBuffer, ho])
    | allocator a =>
      obtain ⟨al, -, -, ha, -⟩ := hs g (hl g List.mem_cons_self) a ho
      rw [sum_zipIdx_single ha (by simp +contextual [Region.isOf, ho, eq_comm])]
      simp [Region.isOf, Region.isBuffer, ho]

def counted (b : Books) (f : Statistics → UInt64) : ℕ :=
  (b.allocators.map (Allocator.counted f)).sum

/-- Two counters count the buffers that were made and those that are gone, each as often as `w` says
of its size. -/
structure Counts (b : Books) (w : ℕ → ℕ) (made gone : Statistics → UInt64) : Prop where
  made : b.counted made = b.weight w b.regions
  gone : b.counted gone + b.weight w b.held = b.weight w b.regions

theorem counts_of_each (hs : b.Sized)
    (h : ∀ (a : AllocatorId) (al : Allocator) (alignment : UInt64), b.allocators[a]? = some al →
      al.supply = .native alignment →
      (made al.statistics).toNat =
        total (Region.isOf a) (fun g => w (g.charge b.allocators)) b.regions ∧
      (gone al.statistics).toNat +
          total (Region.isOf a) (fun g => w (g.charge b.allocators)) b.held =
        total (Region.isOf a) (fun g => w (g.charge b.allocators)) b.regions) :
    b.Counts w made gone := by
  have hz : ∀ {a : AllocatorId} {al : Allocator} {limit pad : UInt64} {l : List Region},
      b.allocators[a]? = some al → al.supply = .metered limit pad → l.Sublist b.regions →
      total (Region.isOf a) (fun g => w (g.charge b.allocators)) l = 0 := by
    intro a al limit pad l ha hal hl
    have hf : l.filter (Region.isOf a) = [] := by
      refine List.filter_eq_nil_iff.mpr fun g hg ho => ?_
      obtain ⟨al', alignment, -, ha', hal', -⟩ := hs g (hl.subset hg) a (of_decide_eq_true ho)
      obtain rfl := Option.some.inj (ha.symm.trans ha')
      cases hal.symm.trans hal'
    rw [total, hf]
    rfl
  have hmade : ∀ x ∈ b.allocators.zipIdx, x.1.counted made =
      total (Region.isOf x.2) (fun g => w (g.charge b.allocators)) b.regions := by
    intro x hx
    have ha := List.mem_zipIdx_iff_getElem?.mp hx
    unfold Allocator.counted
    split
    · exact (h _ _ _ ha ‹_›).1
    · exact (hz ha ‹_› (List.Sublist.refl _)).symm
  have hgone : ∀ x ∈ b.allocators.zipIdx, x.1.counted gone +
      total (Region.isOf x.2) (fun g => w (g.charge b.allocators)) b.held =
      total (Region.isOf x.2) (fun g => w (g.charge b.allocators)) b.regions := by
    intro x hx
    have ha := List.mem_zipIdx_iff_getElem?.mp hx
    unfold Allocator.counted
    split
    · exact (h _ _ _ ha ‹_›).2
    · rw [hz ha ‹_› b.held_sublist, hz ha ‹_› (List.Sublist.refl _)]
  constructor
  · rw [counted, ← sum_zipIdx, List.map_congr_left hmade]
    exact sum_isOf hs _ fun _ => id
  · rw [counted, ← sum_zipIdx, weight, ← sum_isOf hs _ fun _ => (b.held_sublist.subset ·),
      ← List.sum_map_add, List.map_congr_left hgone]
    exact sum_isOf hs _ fun _ => id

theorem Counts.moves (h : b.Counts w made gone) (h' : b'.Counts w made gone)
    (hw : Weighed w b es b') :
    b'.counted made = b.counted made + weigh w (sizes .allocated es) ∧
      b'.counted gone = b.counted gone + weigh w (sizes .freed es) := by
  obtain ⟨hm, hg⟩ := h
  obtain ⟨hm', hg'⟩ := h'
  obtain ⟨hr, hc⟩ := hw
  omega

end Books

namespace Session

def counted (s : Session) (f : Statistics → UInt64) : ℕ := s.store.books.counted f

/-- The bytes that each allocator ever obtained fit a word. -/
def Countable (s : Session) : Prop :=
  ∀ x ∈ s.store.allocators.zipIdx,
    paddedSize x.1.supply.alignment (s.lengthsOf x.2) < UInt64.size

instance (s : Session) : Decidable s.Countable :=
  inferInstanceAs (Decidable (∀ x ∈ s.store.allocators.zipIdx,
    paddedSize x.1.supply.alignment (s.lengthsOf x.2) < UInt64.size))

structure Sound (s : Session) : Prop where
  distinct : s.slots.Distinct
  regular : s.estate.Regular
  booked : s.estate.Booked
  tallied : s.store.books.Tallied
  traced : s.store.books.Traced
  accounts : s.estate.Accounts none

theorem sound_run (p : Platform) (e : Element) (ops : List Op) :
    ((start e).after p ops).Sound := by
  obtain ⟨hb, ht⟩ := (Estate.stable_tallied p).after Directory.distinct_nil
    ⟨Estate.booked_start e, Estate.tallied_start e⟩ ops
  obtain ⟨-, htr⟩ := (Estate.stable_traced p).after Directory.distinct_nil
    ⟨Estate.booked_start e, Estate.traced_start e⟩ ops
  obtain ⟨-, ha⟩ := (Estate.stable_accounts p).after Directory.distinct_nil
    ⟨Estate.inOrder_start e, Estate.accounts_start e⟩ ops
  exact ⟨distinct_run p e ops, regular_run p e ops, hb, ht, htr, ha⟩

variable {p : Platform} {s s' : Session} {op : Op} {es : List Event}

/-! ## Counters -/

theorem Sound.exact {a : AllocatorId} {al : Allocator} {alignment : UInt64} (h : s.Sound)
    (hc : s.Countable) (ha : s.store.allocators[a]? = some al)
    (hal : al.supply = .native alignment) : s.Exact a alignment al.statistics := by
  have hlt := hc (al, a) (List.mem_zipIdx_iff_getElem?.mpr ha)
  rw [hal] at hlt
  exact exact_of_tallied h.distinct h.booked h.tallied ha hal (alignment_pos h.regular ha hal) hlt

theorem counts_of_number (h : s.Sound) (hc : s.Countable) :
    s.store.books.Counts (fun _ => 1) (·.allocations) (·.releases) := by
  refine Books.counts_of_each h.booked.sized fun a al alignment ha hal => ?_
  have hx := h.exact hc ha hal
  have hl : (s.lengthsOf a).length = (s.store.regions.filter (Region.isOf a)).length :=
    List.length_map _
  have h₁ := hx.allocations
  have h₂ := hx.releases
  rw [hl] at h₁ h₂
  rw [buffersOf_eq h.distinct h.booked.order] at h₂
  rw [total_one, total_one]
  exact ⟨h₁, h₂⟩

theorem total_charge_eq {a : AllocatorId} {al : Allocator} {alignment : UInt64} {l : List Region}
    (ha : s.store.allocators[a]? = some al) (hal : al.supply = .native alignment) :
    total (Region.isOf a) (Region.charge s.store.allocators) l =
      paddedSize alignment ((l.filter (Region.isOf a)).map (·.len)) := by
  rw [← total_padded]
  refine total_congr fun g _ hg => ?_
  have ho : g.owner = .allocator a := of_decide_eq_true hg
  simp [Region.charge, ho, ha, hal, Supply.alignment]

theorem counts_of_bytes (h : s.Sound) (hc : s.Countable) :
    s.store.books.Counts id (·.bytesAllocated) (·.bytesReleased) := by
  refine Books.counts_of_each h.booked.sized fun a al alignment ha hal => ?_
  have hx := h.exact hc ha hal
  have h₂ := hx.bytesReleased
  rw [buffersOf_eq h.distinct h.booked.order] at h₂
  have hr := total_charge_eq (l := s.store.books.regions) ha hal
  have hh := total_charge_eq (l := s.store.books.held) ha hal
  exact ⟨hx.bytesAllocated.trans hr.symm, (congrArg (_ + ·) hh).trans (h₂.trans hr.symm)⟩

theorem Countable.of_step (h : s.Sound) (hc : (s.step p op).2.Countable) : s.Countable := by
  rintro ⟨al, a⟩ hx
  have ha := List.mem_zipIdx_iff_getElem?.mp hx
  have hg := grows_step (p := p) h.distinct op
  obtain ⟨al', ha', hs⟩ := hg.allocators ha
  have hlt := hc (al', a) (List.mem_zipIdx_iff_getElem?.mpr ha')
  have hl : (s.lengthsOf a).Sublist ((s.step p op).2.lengthsOf a) :=
    (hg.regions.sublist.filter _).map _
  rw [hs] at hlt
  exact (paddedSize_le hl).trans_lt hlt

/-! ## Steps -/

/-- What happens to the books in one step, apart from setting the gauge. -/
theorem exists_postings (h : s.Sound) (op : Op) : ∃ es b', Postings p s.store.books es b' ∧
    (s.step p op).2.store.books = { b' with gauge := (s.step p op).2.store.gauge } := by
  cases hg : op.setsGauge
  · obtain ⟨es, hes⟩ := postings_step (p := p) h.distinct h.booked hg
    exact ⟨es, _, hes, rfl⟩
  · refine ⟨[], _, .refl, ?_⟩
    cases op with
    | raiseGauge | lowerGauge => rfl
    | _ => cases hg

/-- The gauge moves by what is new and what the events say is gone. -/
theorem gauge_step (hbs : Bookings p s.store.books s'.store.books) (hs : s.store.books.Sized)
    (hg : s.store.books.Gauged) (hg' : s'.store.books.Gauged)
    (hj : s'.store.journal = s.store.journal ++ es) :
    s'.store.gauge.toNat + weigh id (sizes .freed es) +
        weigh id (sizes .final es) = s.store.gauge.toNat + s.attached s' := by
  have hc : s'.store.books.charges = s.store.books.charges + s.attached s' :=
    Books.charges_eq hbs hs
  have hb : s.store.gauge.toNat + removed s.store.journal = s.store.books.charges := hg.balance
  have hb' : s'.store.gauge.toNat + removed s'.store.journal = s'.store.books.charges :=
    hg'.balance
  rw [hj, removed_append, removed_eq es] at hb'
  omega

/-- The lines that are logged of a step account for all that it does. There are as many of each
kind, with as many bytes, as buffers were allocated and freed, if the bytes that each allocator
obtained fit a word. What a manager or a raw allocation gives up is received by its owner at once,
and a buffer is freed at once, with its length and alignment. A region is handed off by an
acquisition that succeeds. An importation that counts nothing any more was finally released, which
tells of all its parts. What the lines say is gone is what leaves the gauge. -/
theorem log_accounts (p : Platform) (e : Element) (ops : List Op) (op : Op)
    (hc : (((start e).after p ops).step p op).2.Countable) :
    let s := (start e).after p ops
    let s' := (s.step p op).2
    let new := s'.store.journal.drop s.store.journal.length
    s'.store.journal = s.store.journal ++ new ∧
    (∀ (script : Script) (last : Option Watch), script.logs = true →
      (script.entry s s' last (s.step p op).1).logs = some (new.filterMap Event.line?)) ∧
    (∀ k : LineKind, (new.filterMap Event.line?).filter (begins k.words) =
      (sizes k new).map k.line) ∧
    (s'.counted (·.allocations) =
        s.counted (·.allocations) + (sizes .allocated new).length ∧
      s'.counted (·.bytesAllocated) =
        s.counted (·.bytesAllocated) + weigh id (sizes .allocated new)) ∧
    (s'.counted (·.releases) = s.counted (·.releases) + (sizes .freed new).length ∧
      s'.counted (·.bytesReleased) =
        s.counted (·.bytesReleased) + weigh id (sizes .freed new)) ∧
    ((sizes .releasing new).length + (sizes .dropped new).length = (releaseEvents new).length ∧
      s'.store.books.Answered new) ∧
    (sizes .handedOff new).length =
      (if op.acquires ∧ (s.step p op).1 = .ok (.flag true) then 1 else 0) ∧
    (s'.store.importations.countP (·.references = 0) =
        s.store.importations.countP (·.references = 0) + (sizes .final new).length ∧
      ∀ i tracked, .finalRelease i tracked ∈ new →
        tracked = UInt64.ofNat (s'.store.imported i)) ∧
    ((∀ x ∈ ops ++ [op], x.setsGauge = false) → (start e).Measured p (ops ++ [op]) →
      s'.store.gauge.toNat + weigh id (sizes .freed new) +
          weigh id (sizes .final new) =
        s.store.gauge.toNat + s.attached s') := by
  intro s s' new
  have hs : s.Sound := sound_run p e ops
  have hs' : s'.Sound := by
    have h := sound_run p e (ops ++ [op])
    rwa [after_concat] at h
  obtain ⟨es, b', hes, hb⟩ := exists_postings (p := p) hs op
  have hj : s'.store.journal = s.store.journal ++ es :=
    (congrArg Books.journal hb).trans hes.journal
  have hnew : new = es := by
    have hd : (s.store.journal ++ es).drop s.store.journal.length = es := List.drop_left
    rwa [← hj] at hd
  have hw : ∀ w, Books.Weighed w s.store.books es s'.store.books := by
    intro w
    obtain ⟨hr, hk⟩ := hes.weighed hs.booked.sized w
    rw [hb]
    exact ⟨hr, hk⟩
  have hcs : s.Countable := hc.of_step hs
  obtain ⟨ha, hf⟩ := (counts_of_number hs hcs).moves (counts_of_number hs' hc) (hw _)
  obtain ⟨hab, hfb⟩ := (counts_of_bytes hs hcs).moves (counts_of_bytes hs' hc) (hw _)
  rw [weigh_one] at ha hf
  rw [hnew]
  refine ⟨hj, ?_, fun k => k.lines_eq es, ⟨ha, hab⟩, ⟨hf, hfb⟩, ⟨hes.givenUp, ?_⟩, ?_, ⟨?_, ?_⟩, ?_⟩
  · intro script last hl
    rw [← hnew]
    exact if_pos hl
  · rw [hb]
    exact hes.answered hs.booked.sized
  · have hh : handOffs s'.store.journal = handOffs s.store.journal + _ := handOffs_step op
    rw [hj, handOffs_append] at hh
    exact Nat.add_left_cancel hh
  · rw [← length_final_eq hs.accounts, ← length_final_eq hs'.accounts, hj, sizes_append,
      List.length_append]
  · intro i tracked hx
    exact tracked_of_finalRelease hs'.accounts hs'.traced
      (hj ▸ List.mem_append_right s.store.journal hx)
  · intro hops hm
    have hg := gauged_run (fun x hx => hops x (List.mem_append_left _ hx)) hm.of_append
    have hg' := gauged_run hops hm
    rw [after_concat] at hg'
    have hbs := bookings_step (p := p) hs.distinct hs.booked (hops op (by simp))
    exact gauge_step hbs hs.booked.sized hg hg' hj

/-- One step drops a buffer, another one that was handed off, and the last part of an
importation. -/
theorem log_accounts_of_drops :
    let ops : List Op := [.storage "b" ⟨.u8, 4, [1, 2, 3, 4]⟩, .allocator "a" (some 16),
      .allocate "m" "a" .native 10, .allocate "n" "a" .shared 5, .importation "i",
      .addAlias "x" "i" "b" 1 3, .tryAcquire "r" "m", .release "i"]
    let s := (start .u8).after .bounded ops
    let s' := (s.step .bounded (.dropAll ["n", "r", "x"])).2
    s'.Countable ∧ s'.counted (·.releases) = s.counted (·.releases) + 2 ∧
      s'.counted (·.bytesReleased) = s.counted (·.bytesReleased) + 47 ∧
      s'.store.importations.countP (·.references = 0) =
        s.store.importations.countP (·.references = 0) + 1 := by
  intro ops s s'
  have hc : s'.Countable := by decide +kernel
  have hf : sizes .freed (s'.store.journal.drop s.store.journal.length) = [21, 26] := by
    decide +kernel
  have hl : sizes .final (s'.store.journal.drop s.store.journal.length) = [3] := by
    decide +kernel
  obtain ⟨-, -, -, -, ⟨hr, hb⟩, -, -, ⟨hi, -⟩, -⟩ :=
    log_accounts .bounded .u8 ops (.dropAll ["n", "r", "x"]) hc
  rw [hf] at hr hb
  rw [hl] at hi
  exact ⟨hc, hr, hb, hi⟩

/-- The lines of a step that drops a buffer and another one that was handed off. -/
example :
    let ops : List Op := [.defaultAllocator "d", .allocate "m" "d" .native 10,
      .allocate "n" "d" .shared 5, .tryAcquire "r" "m"]
    let s := (start .u8).after .bounded ops
    let s' := (s.step .bounded (.dropAll ["n", "r"])).2
    (s'.store.journal.drop s.store.journal.length).filterMap Event.line? =
      ["TRACE releasing native buffer PTR (offset N, 5 bytes)",
        "TRACE released native buffer PTR (69 bytes)",
        "WARN raw allocation PTR (10 bytes) dropped without a new owner, releasing",
        "TRACE released native buffer PTR (74 bytes)"] := by
  decide +kernel

end Session

end LargeBuffers
