import LargeBuffers.Proofs.FinalRelease
import LargeBuffers.Proofs.Gauge

/-! # The gauge of a session

As long as the exact sum fits a word, the gauge reads the size of all buffers that are held and the
tracked bytes of all importations that were not finally released, after every operation.
-/

namespace LargeBuffers

theorem sum_filter_eq {α : Type} {l : List α} {q : α → Bool} {f : α → ℕ}
    (h : ∀ x ∈ l, q x = false → f x = 0) : ((l.filter q).map f).sum = (l.map f).sum := by
  induction l with
  | nil => rfl
  | cons x l ih =>
    have ih := ih fun y hy => h y (List.mem_cons_of_mem x hy)
    cases hx : q x
    · simp [hx, ih, h x List.mem_cons_self hx]
    · simp [hx, ih]

namespace Session

def buffers (s : Session) : List Region := s.heldRegions.filter Region.isBuffer

def trackedBytes (s : Session) : ℕ :=
  ((s.store.importations.zipIdx.filter fun x => finalReleases x.2 s.store.journal = 0).map
    fun x => x.1.tracked.toNat).sum

def outstanding (s : Session) : ℕ :=
  (s.buffers.map (Region.charge s.store.allocators)).sum + s.trackedBytes

/-- What the regions that only `s'` has add to the gauge. -/
def attached (s s' : Session) : ℕ := s.store.books.added s'.store.books

/-- At no moment of some operations the exact sum is too large for a word. A handle that an
operation replaces goes after the new one is there. -/
def Measured (p : Platform) : Session → List Op → Prop
  | _, [] => True
  | s, op :: ops =>
    s.outstanding + s.attached (s.step p op).2 < UInt64.size ∧ Measured p (s.step p op).2 ops

instance decidableMeasured (p : Platform) :
    (s : Session) → (ops : List Op) → Decidable (Measured p s ops)
  | _, [] => inferInstanceAs (Decidable True)
  | s, op :: ops =>
    have := decidableMeasured p (s.step p op).2 ops
    inferInstanceAs (Decidable (s.outstanding + s.attached (s.step p op).2 < UInt64.size ∧
      Measured p (s.step p op).2 ops))

variable {p : Platform} {s : Session} {name : String}

theorem trackedBytes_eq (ha : s.estate.Accounts none) :
    s.trackedBytes = s.store.books.tracked := by
  have hf : s.trackedBytes =
      (s.store.importations.zipIdx.map fun x => x.1.tracked.toNat).sum := by
    refine sum_filter_eq fun x hx hn => ?_
    have hi := List.mem_zipIdx_iff_getElem?.mp hx
    have hr := finalReleases_of_accounts ha hi
    have ht := ha.tracked hi
    rw [decide_eq_false_iff_not, hr] at hn
    by_cases hp : 0 < x.1.references
    · rw [if_pos hp] at hn
      exact absurd rfl hn
    · rw [ht, if_neg hp]
      rfl
  rw [hf, sum_zipIdx fun imp : Importation => imp.tracked.toNat]
  rfl

theorem outstanding_eq (hd : s.slots.Distinct) (h : s.estate.InOrder ∧ s.estate.Accounts none) :
    s.outstanding = s.store.books.outstanding := by
  rw [outstanding, buffers, heldRegions_eq hd h.1, trackedBytes_eq h.2]
  rfl

theorem gauged_after {ops : List Op} (hd : s.slots.Distinct) (hb : s.estate.Booked)
    (ha : s.estate.Accounts none) (hg : s.store.books.Gauged)
    (hops : ∀ op ∈ ops, op.setsGauge = false) (hm : s.Measured p ops) :
    (s.after p ops).store.books.Gauged := by
  induction ops generalizing s with
  | nil => exact hg
  | cons op ops ih =>
    have ha' := (Estate.stable_accounts p).step hd ⟨hb.order, ha⟩ op
    have hb' := (Estate.stable_booked p).step hd hb op
    have hlt := hm.1
    rw [outstanding_eq hd ⟨hb.order, ha⟩] at hlt
    have hbs := bookings_step (p := p) hd hb (hops op List.mem_cons_self)
    have hg' := Books.Bookings.gauged hbs hb.sized hg hlt
    exact ih (distinct_step hd op) hb' ha'.2 hg'
      (fun x hx => hops x (List.mem_cons_of_mem op hx)) hm.2

theorem gauged_run {e : Element} {ops : List Op} (hops : ∀ op ∈ ops, op.setsGauge = false)
    (hm : (start e).Measured p ops) : ((start e).after p ops).store.books.Gauged :=
  gauged_after Directory.distinct_nil (Estate.booked_start e) (Estate.accounts_start e) ⟨rfl, rfl⟩
    hops hm

theorem Measured.of_append {ops ops' : List Op} (h : s.Measured p (ops ++ ops')) :
    s.Measured p ops := by
  induction ops generalizing s with
  | nil => trivial
  | cons op ops ih => exact ⟨h.1, ih h.2⟩

/-! ## What contributes nothing -/

theorem gauge_makeNative (hf : s.slots.get? name = none) (storage recorder : String)
    (offset length : UInt64) :
    (s.makeNative name storage recorder offset length).2.store.gauge = s.store.gauge := by
  have hp : ∀ (st : Store) (h : Handle), ((s.withStore st).put name h).store = st :=
    fun st h => store_put_of_free (s := s.withStore st) h hf
  unfold makeNative ofBytes
  split
  · split
    · rfl
    · change ((s.withStore _).put name _).store.gauge = _
      rw [hp]
      rfl
    · rfl
  · rfl

theorem gauge_allocate_zero (hf : s.slots.get? name = none) (slot : String) {form : BufferForm}
    (hform : form ≠ .native) : (s.allocate p name slot form 0).2.store.gauge = s.store.gauge := by
  obtain ⟨f, he⟩ | ⟨-, -, he⟩ | ⟨a, st, -, -, hne, -⟩ := s.allocate_cases p name slot form 0
  · rw [he]
    rfl
  · rw [he]
    cases form with
    | native => exact absurd rfl hform
    | shared | owner => exact congrArg Store.gauge (store_put_of_free _ hf)
  · exact absurd hne (by simpa using hform)

theorem outstanding_of_slots_eq_nil (hd : s.slots.Distinct)
    (h : s.estate.InOrder ∧ s.estate.Accounts none) (hs : s.slots = []) : s.outstanding = 0 := by
  obtain ⟨ho, ha⟩ := h
  have hn := not_holds_of_slots_eq_nil ho hs
  have ht : ∀ x ∈ s.store.importations.zipIdx, finalReleases x.2 s.store.journal ≠ 0 := by
    intro x hx
    have hi := List.mem_zipIdx_iff_getElem?.mp hx
    have hz : s.store.aliases x.2 = 0 := by
      refine List.countP_eq_zero.mpr fun m hm hq => ?_
      unfold Manager.bears at hq
      split at hq
      · rename_i r
        obtain ⟨k, hk⟩ := List.mem_iff_getElem?.mp hm
        exact hn r (.inl ⟨k, hk⟩)
      · cases hq
    rw [finalReleases_of_accounts ha hi, references_of_accounts ha hi, hz]
    simp [handled, hs]
  rw [outstanding, buffers, heldRegions_of_slots_eq_nil hd ho hs, trackedBytes,
    List.filter_eq_nil_iff.mpr fun x hx hf => ht x hx (of_decide_eq_true hf)]
  rfl

/-- As long as the exact sum fits a word and nobody sets the gauge by hand, the gauge reads the
length and alignment of all buffers that are held, and the tracked bytes of all importations that
were not finally released. It was raised by the charges of all regions and lowered by exactly as
much as its removals say, so none of them stopped at zero. Regions whose release is only recorded
and buffers of no bytes leave it as it is, and without handles it reads zero. -/
theorem gauge_law (p : Platform) (e : Element) (ops : List Op)
    (hops : ∀ op ∈ ops, op.setsGauge = false) (hm : (start e).Measured p ops) :
    let s := (start e).after p ops
    s.store.gauge.toNat =
      (s.buffers.map (Region.charge s.store.allocators)).sum + s.trackedBytes ∧
    s.store.gauge.toNat + removed s.store.journal =
      (s.store.regions.map (Region.charge s.store.allocators)).sum ∧
    (∀ name, s.slots.get? name = none →
      (∀ storage recorder offset length,
        (s.step p (.native name storage recorder offset length)).2.store.gauge =
          s.store.gauge) ∧
      ∀ slot form, form ≠ .native →
        (s.step p (.allocate name slot form 0)).2.store.gauge = s.store.gauge) ∧
    (s.slots = [] → s.store.gauge = 0) := by
  intro s
  have hd : s.slots.Distinct := distinct_run p e ops
  have ha := (Estate.stable_accounts p).after Directory.distinct_nil
    ⟨Estate.inOrder_start e, Estate.accounts_start e⟩ ops
  have hg : s.store.books.Gauged := gauged_run hops hm
  have hx : s.store.gauge.toNat = s.outstanding := by
    rw [outstanding_eq hd ha]
    exact hg.exact
  refine ⟨hx, hg.balance, ?_, ?_⟩
  · intro name hf
    constructor
    · intro storage recorder offset length
      exact gauge_makeNative hf storage recorder offset length
    · intro slot form hform
      exact gauge_allocate_zero hf slot hform
  · intro hs
    apply UInt64.toNat_inj.mp
    rw [hx, outstanding_of_slots_eq_nil hd ha hs]
    rfl

/-- A buffer that was handed off, another one that is gone with its allocator, and a part of an
importation. -/
theorem gauge_law_of_handOff :
    let ops : List Op := [.storage "b" ⟨.u8, 4, [1, 2, 3, 4]⟩, .allocator "a" (some 16),
      .allocate "m" "a" .native 10, .allocate "n" "a" .shared 5, .importation "i",
      .addAlias "x" "i" "b" 1 3, .tryAcquire "r" "m", .drop "n", .drop "a", .drop "i"]
    let s := (start .u8).after .bounded ops
    (∀ op ∈ ops, op.setsGauge = false) ∧ (start .u8).Measured .bounded ops ∧
      s.store.gauge.toNat = 29 ∧ removed s.store.journal = 21 := by
  intro ops s
  have hops : ∀ op ∈ ops, op.setsGauge = false := by decide
  have hm : (start .u8).Measured .bounded ops := by decide +kernel
  obtain ⟨hg, hr, -, -⟩ := gauge_law .bounded .u8 ops hops hm
  have hb : (s.buffers.map (Region.charge s.store.allocators)).sum + s.trackedBytes = 29 := by
    decide +kernel
  have hc : (s.store.regions.map (Region.charge s.store.allocators)).sum = 50 := by
    decide +kernel
  rw [hb] at hg
  rw [hc, hg] at hr
  exact ⟨hops, hm, hg, Nat.add_left_cancel (n := 29) hr⟩

end Session

end LargeBuffers
