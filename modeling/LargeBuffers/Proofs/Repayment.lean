import LargeBuffers.Proofs.Lines
import LargeBuffers.Proofs.Refund
import LargeBuffers.Proofs.Requests

/-! # What is freed

A buffer goes back to the platform with the size that was requested for it, whoever gives it up. By
that size its allocator counts more bytes as released, the gauge reads less, and the log tells it.
-/

namespace LargeBuffers

def sizesOf (a : AllocatorId) (l : List (AllocatorId × UInt64)) : List UInt64 :=
  (l.filter (·.1 = a)).map (·.2)

theorem sizes_freed (journal : List Event) :
    sizes .freed journal = (returns journal).map (·.2) := by
  induction journal with
  | nil => rfl
  | cons x journal ih =>
    cases x with
    | freed a size => exact congrArg (size :: ·) ih
    | _ => exact ih

variable {a : AllocatorId} {made gone made' gone' : List (AllocatorId × UInt64)}

@[simp]
theorem sizesOf_nil (a : AllocatorId) : sizesOf a [] = [] := rfl

@[simp]
theorem sizesOf_append (a : AllocatorId) (l l' : List (AllocatorId × UInt64)) :
    sizesOf a (l ++ l') = sizesOf a l ++ sizesOf a l' := by
  simp [sizesOf]

theorem sizesOf_self (a : AllocatorId) (size : UInt64) : sizesOf a [(a, size)] = [size] := by
  simp [sizesOf]

theorem sizesOf_of_ne {c : AllocatorId} (h : c ≠ a) (size : UInt64) :
    sizesOf a [(c, size)] = [] := by
  simp [sizesOf, h]

/-- An allocator counts its share of what was obtained and of what was returned. -/
structure Statistics.Advances (a : AllocatorId) (made gone : List (AllocatorId × UInt64))
    (t t' : Statistics) : Prop where
  allocations : t'.allocations = t.allocations + UInt64.ofNat (sizesOf a made).length
  bytesAllocated : t'.bytesAllocated = t.bytesAllocated + UInt64.ofNat (weigh id (sizesOf a made))
  releases : t'.releases = t.releases + UInt64.ofNat (sizesOf a gone).length
  bytesReleased : t'.bytesReleased = t.bytesReleased + UInt64.ofNat (weigh id (sizesOf a gone))

namespace Statistics

variable {t t₁ t₂ : Statistics}

theorem Advances.of_none (hm : sizesOf a made = []) (hg : sizesOf a gone = [])
    (t : Statistics) : Advances a made gone t t := by
  constructor <;> simp [hm, hg]

theorem add_ofNat_trans {n n₁ n₂ : UInt64} {i j : ℕ} (h : n₁ = n + UInt64.ofNat i)
    (h' : n₂ = n₁ + UInt64.ofNat j) : n₂ = n + UInt64.ofNat (i + j) := by
  rw [h', h, UInt64.ofNat_add, UInt64.add_assoc]

theorem Advances.trans (h : Advances a made gone t t₁) (h' : Advances a made' gone' t₁ t₂) :
    Advances a (made ++ made') (gone ++ gone') t t₂ := by
  constructor
  · rw [sizesOf_append, List.length_append]
    exact add_ofNat_trans h.allocations h'.allocations
  · rw [sizesOf_append, weigh_append]
    exact add_ofNat_trans h.bytesAllocated h'.bytesAllocated
  · rw [sizesOf_append, List.length_append]
    exact add_ofNat_trans h.releases h'.releases
  · rw [sizesOf_append, weigh_append]
    exact add_ofNat_trans h.bytesReleased h'.bytesReleased

theorem advances_recordAllocation (t : Statistics) (a : AllocatorId) (size : UInt64) :
    Advances a [(a, size)] [] t (t.recordAllocation size) := by
  constructor <;> simp [sizesOf_self, recordAllocation]

theorem advances_recordRelease (t : Statistics) (a : AllocatorId) (size : UInt64) :
    Advances a [] [(a, size)] t (t.recordRelease size) := by
  constructor <;> simp [sizesOf_self, recordRelease]

theorem advances_set {allocators : List Allocator} {c : AllocatorId} {al al' : Allocator}
    (ha : allocators[a]? = some al) (hc : allocators[c]? = some al')
    (hself : c = a → Advances a made gone al'.statistics t)
    (hne : c ≠ a → sizesOf a made = [] ∧ sizesOf a gone = []) :
    ∃ al₁, (allocators.set c { al' with statistics := t })[a]? = some al₁ ∧
      Advances a made gone al.statistics al₁.statistics := by
  by_cases hca : c = a
  · subst hca
    obtain rfl := Option.some.inj (hc.symm.trans ha)
    exact ⟨_, List.getElem?_set_self (List.getElem?_eq_some_iff.mp hc).1, hself rfl⟩
  · obtain ⟨hm, hg⟩ := hne hca
    exact ⟨al, by rw [List.getElem?_set_ne hca, ha], .of_none hm hg _⟩

end Statistics

namespace Books

open Statistics (Advances advances_set)

variable {p : Platform} {b b' b₁ b₂ : Books} {es xs : List Event}

/-! ## Statistics -/

theorem Posting.advances {al : Allocator} {alignment : UInt64} (h : b.Posting p es b')
    (ha : b.allocators[a]? = some al) (hal : al.supply = .native alignment) :
    ∃ al', b'.allocators[a]? = some al' ∧
      Advances a (takes es) (returns es) al.statistics al'.statistics := by
  have hsame : takes es = [] → returns es = [] → b'.allocators = b.allocators →
      ∃ al', b'.allocators[a]? = some al' ∧
        Advances a (takes es) (returns es) al.statistics al'.statistics := by
    intro ht hr he
    rw [ht, hr, he]
    exact ⟨al, ha, .of_none rfl rfl _⟩
  cases h with
  | silent hx =>
    obtain ⟨-, ht, hr, -⟩ := amounts_of_silent hx
    exact hsame ht hr rfl
  | allocator =>
    exact ⟨al, Store.getElem?_of_extension (List.prefix_append ..) ha, .of_none rfl rfl _⟩
  | @metered c al₁ limit pad bytes hc hal₁ =>
    refine advances_set ha hc ?_ fun _ => ⟨rfl, rfl⟩
    rintro rfl
    obtain rfl := Option.some.inj (hc.symm.trans ha)
    cases hal₁.symm.trans hal
  | @buffer g c al₁ alignment₁ size n grant hn ho hc =>
    refine advances_set ha hc ?_ fun hca => ⟨sizesOf_of_ne hca size, rfl⟩
    rintro rfl
    exact Statistics.advances_recordAllocation ..
  | returned hx =>
    obtain ⟨-, ht, hr⟩ := amounts_cons_of_givenUp? hx _
    exact hsame ht hr rfl
  | @freed x r g c al₁ alignment₁ size hx hg _ ho hc =>
    obtain ⟨-, ht, hr⟩ := amounts_cons_of_givenUp? hx [.released r g, .freed c size]
    rw [ht, hr]
    refine advances_set ha hc ?_ fun hca => ⟨rfl, sizesOf_of_ne hca size⟩
    rintro rfl
    exact Statistics.advances_recordRelease ..
  | _ => exact hsame rfl rfl rfl

theorem Postings.advances {al : Allocator} {alignment : UInt64} (h : Postings p b es b')
    (ha : b.allocators[a]? = some al) (hal : al.supply = .native alignment) :
    ∃ al', b'.allocators[a]? = some al' ∧
      Advances a (takes es) (returns es) al.statistics al'.statistics := by
  induction h with
  | refl => exact ⟨al, ha, .of_none rfl rfl _⟩
  | tail hb hp ih =>
    obtain ⟨al₁, ha₁, h₁⟩ := ih
    obtain ⟨al', ha', hs⟩ := Bookings.supply hb.bookings ha
    obtain rfl := Option.some.inj (ha₁.symm.trans ha')
    obtain ⟨al₂, ha₂, h₂⟩ := hp.advances ha₁ (hs.trans hal)
    rw [takes_append, returns_append]
    exact ⟨al₂, ha₂, h₁.trans h₂⟩

/-! ## The gauge -/

/-- The gauge was raised by what is new, and then lowered by what the events say is gone. -/
def Adjusted (b : Books) (es : List Event) (b' : Books) : Prop :=
  b'.gauge.toNat = (b.gauge + UInt64.ofNat (b.added b')).toNat - removed es

theorem Adjusted.of_same (hr : b'.regions = b.regions)
    (hg : b'.gauge.toNat = b.gauge.toNat - removed es) : b.Adjusted es b' := by
  rw [Adjusted, added_of_regions_eq hr, hg]
  simp

theorem Posting.adjusted (h : b.Posting p es b') : b.Adjusted es b' := by
  cases h with
  | @silent x hx =>
    refine .of_same rfl ?_
    simp [Event.removed_of_booked (Event.booked_of_silent hx)]
  | @recorded g o _ ho =>
    rw [Adjusted, added_concat rfl]
    simp [Region.charge, ho]
  | @part g i imp _ ho =>
    rw [Adjusted, added_concat rfl, charge_of_part ho, UInt64.ofNat_toNat]
    rfl
  | @buffer g c al alignment size n grant hn ho ha hal hsz =>
    rw [Adjusted, added_concat rfl, charge_set _ ho ha hal hsz, UInt64.ofNat_toNat]
    rfl
  | @returned x r g hx =>
    refine .of_same rfl ?_
    rw [removed_cons, Event.removed_of_booked (Event.booked_of_givenUp? hx)]
    simp [Event.removed]
  | @freed x r g c al alignment size hx =>
    refine .of_same rfl ?_
    rw [removed_cons, Event.removed_of_booked (Event.booked_of_givenUp? hx)]
    simp [Event.removed, toNat_monus]
  | final =>
    refine .of_same rfl ?_
    simp [Event.removed, toNat_monus]
  | _ => exact .of_same rfl rfl

/-- What makes no regions only lowers the gauge. As that stops at zero, nothing new may come after
it. -/
theorem Adjusted.trans (h : b.Adjusted es b₁) (h' : b₁.Adjusted xs b₂)
    (hr : b₂.regions = b₁.regions) (ha : b.added b₂ = b.added b₁) : b.Adjusted (es ++ xs) b₂ := by
  rw [Adjusted, added_of_regions_eq hr] at h'
  rw [Adjusted, ha, removed_append, ← Nat.sub_sub, ← h, h']
  simp

theorem Postings.adjusted (h : Postings p b es b') (hr : b'.regions = b.regions) :
    b.Adjusted es b' := by
  induction h with
  | refl => exact .of_same rfl rfl
  | @tail es xs b₁ b₂ hb hp ih =>
    have hpre := Bookings.regions hb.bookings
    have hpre' := Bookings.regions hp.bookings
    have h₁ : b₁.regions = b.regions :=
      (hpre.eq_of_length_le (hr ▸ hpre'.length_le)).symm
    have h₂ : b₂.regions = b₁.regions := hr.trans h₁.symm
    refine (ih h₁).trans hp.adjusted h₂ ?_
    rw [added_of_regions_eq hr, added_of_regions_eq h₁]

end Books

namespace Store

/-- The platform was asked once for the buffer, for the bytes that its allocator forms again from
its length. Their number does not wrap, it can be addressed, and the gauge counts it. -/
structure Requested (p : Platform) (st : Store) (r : RegionId) (g : Region) (a : AllocatorId)
    (al : Allocator) (n : UInt64) : Prop extends st.Refundable r g a al where
  formed : g.len + al.supply.alignment = n
  exact : n.toNat = g.len.toNat + al.supply.alignment.toNat
  charge : g.charge st.allocators = n.toNat
  granted : ∃ grant block, p.grant g.block n = some grant ∧ st.blocks[g.block]? = some block ∧
    block.base = grant.base ∧ block.contents.count = n
  requests : requests r st.journal = [(a, n)]

end Store

namespace Estate

variable {p : Platform} {e e' : Estate}

theorem Deed.adjusted (hc : e.Custody) (hs : e.store.books.Sized) (hd : e.Deed p e') :
    ∃ es, Books.Postings p e.store.books es e'.store.books ∧
      e.store.books.Adjusted es e'.store.books := by
  obtain hr | hm := hd.makes_or
  · obtain ⟨es, hes⟩ := hd.postings hc hs
    exact ⟨es, hes, hes.adjusted hr⟩
  · obtain he | ⟨es, hes⟩ := hm.posting hc
    · rw [he]
      exact ⟨[], .refl, .of_same rfl rfl⟩
    · exact ⟨es, hes.single, hes.adjusted⟩

end Estate

/-! ## Steps -/

namespace Session

variable {p : Platform} {s : Session} {op : Op}

theorem adjusted_step (hd : s.slots.Distinct) (h : s.estate.Booked) (hg : op.setsGauge = false) :
    ∃ es, Books.Postings p s.store.books es (s.step p op).2.store.books ∧
      s.store.books.Adjusted es (s.step p op).2.store.books := by
  obtain ⟨-, m, hm, hl⟩ | ⟨dest, -, -, x, -, hw⟩ | ⟨hs, -⟩ := s.step_course (p := p) hd op
  · obtain ⟨es, hes, ha⟩ := hm.adjusted h.order.custody h.sized
    obtain ⟨⟨xs, hxs⟩, -⟩ := ((Estate.stable_booked p).deed h hm).losses (p := p) hl
    have hr : (s.step p op).2.store.regions = m.store.regions := Estate.Losses.regions_eq hl
    have hz : m.store.books.added (s.step p op).2.store.books = 0 := Books.added_of_regions_eq hr
    have hadd := (Books.added_trans hes.bookings hxs.bookings h.sized).trans (congrArg (_ + ·) hz)
    exact ⟨_, hes.trans hxs, ha.trans (hxs.adjusted hr) hr hadd⟩
  · have hb : (s.step p op).2.store.books = s.store.books := hw.books
    rw [hb]
    exact ⟨[], .refl, .of_same rfl rfl⟩
  · rw [hg] at hs
    cases hs

structure Solvent (p : Platform) (s : Session) : Prop where
  sound : s.Sound
  noted : s.store.books.Noted
  granted : s.estate.Granted p

theorem solvent_run (p : Platform) (e : Element) (ops : List Op) :
    ((start e).after p ops).Solvent p where
  sound := sound_run p e ops
  noted := ((Estate.stable_noted p).after Directory.distinct_nil
    ⟨Estate.booked_start e, Estate.noted_start e⟩ ops).2
  granted := (Estate.stable_granted p).after Directory.distinct_nil
    (s := start e) (List.forall_mem_nil _) ops

section Solvent

variable {r : RegionId} {g : Region} {a : AllocatorId} (h : s.Solvent p)

include h

theorem Solvent.requested (hg : s.store.regions[r]? = some g) (ho : g.owner = .allocator a) :
    ∃ al n, s.store.Requested p r g a al n := by
  have hm := List.mem_of_getElem? hg
  obtain ⟨al, alignment, n, ha, hal, hsz⟩ := h.sound.booked.sized g hm a ho
  obtain ⟨al', grant, block, ha', hgr, hb, hbase, hc⟩ := h.granted g hm a ho
  obtain rfl := Option.some.inj (ha.symm.trans ha')
  obtain ⟨hexact, hle⟩ := requestSize_eq_ok hsz
  have hformed : g.len + al.supply.alignment = n := hal ▸ add_of_requestSize hsz
  rw [hformed] at hgr hc
  exact ⟨al, n, {
    region := hg
    owner := ho
    allocator := ha
    size := hformed ▸ hle
    formed := hformed
    exact := hal ▸ hexact
    charge := Books.charge_of_owner ho ha hal hsz
    granted := ⟨grant, block, hgr, hb, hbase, hc⟩
    requests := (h.noted.request hg).trans (Books.demand_of_request ho ha hal hsz) }⟩

theorem Solvent.repaid {j : ℕ} (hj : s.store.journal[j]? = some (.released r g))
    (ho : g.owner = .allocator a) :
    ∃ al n, s.store.Requested p r g a al n ∧ requests r (s.store.journal.take j) = [(a, n)] ∧
      s.store.journal[j + 1]? = some (.freed a n) := by
  obtain ⟨n, hr, hf⟩ := h.noted.repaid j r g a hj ho
  have hcall : g ∈ releaseCalls r s.store.journal :=
    List.mem_filterMap.mpr ⟨_, List.mem_of_getElem? hj, if_pos rfl⟩
  obtain ⟨al, n', hn⟩ := h.requested (h.sound.booked.order.custody.calls hcall) ho
  have hp : [(a, n)] <+: [(a, n')] := by
    rw [← hr, ← hn.requests]
    exact (List.take_prefix ..).filterMap _
  obtain rfl : n = n' := by simpa using hp
  exact ⟨al, n, hn, hr, hf⟩

end Solvent

/-- A buffer is freed with the size that was requested for it. Its allocator forms the size again
from the length and its own alignment, which neither wraps nor exceeds what can be addressed, and
gets the number of bytes that the platform was asked for and has granted, the only request that is
noted of the buffer. With this number the buffer is taken back whoever gives it up: a manager that
loses its last handle or is disposed of, or a raw allocation. Wherever in the journal a buffer is
released, it is freed next with what was requested before, and never is a size refused. So what a
step releases is what it returns: the log tells these sizes, each allocator counts them as released,
and they leave the gauge once what is new has been added to it. -/
theorem freed_as_requested (p : Platform) (e : Element) (ops : List Op) (op : Op) :
    let s := (start e).after p ops
    let s' := (s.step p op).2
    let new := s'.store.journal.drop s.store.journal.length
    let due := owed s'.store.journal new
    s'.store.journal = s.store.journal ++ new ∧
    (∀ r g a, s.store.regions[r]? = some g → g.owner = .allocator a →
      ∃ al n, s.store.Requested p r g a al n ∧ s.Refunds p r g a al n) ∧
    (∀ j r g a, s'.store.journal[j]? = some (.released r g) → g.owner = .allocator a →
      ∃ al n, s'.store.Requested p r g a al n ∧ requests r (s'.store.journal.take j) = [(a, n)] ∧
        s'.store.journal[j + 1]? = some (.freed a n)) ∧
    (∀ a n, .unfreed a n ∉ s'.store.journal) ∧
    (returns new = due ∧ LineKind.freed.lines new = due.map fun x => LineKind.freed.line x.2) ∧
    (∀ a al alignment, s.store.allocators[a]? = some al → al.supply = .native alignment →
      ∃ al', s'.store.allocators[a]? = some al' ∧
        Statistics.Advances a (takes new) due al.statistics al'.statistics) ∧
    (op.setsGauge = true → new = []) ∧
    (op.setsGauge = false → s'.store.gauge.toNat =
      (s.store.gauge + UInt64.ofNat (s.attached s')).toNat -
        (weigh id (due.map (·.2)) + weigh id (sizes .final new))) := by
  intro s s' new due
  have hs : s.Solvent p := solvent_run p e ops
  have hs' : s'.Solvent p := by
    have h := solvent_run p e (ops ++ [op])
    rwa [after_concat] at h
  obtain ⟨es, b', hes, hb⟩ := exists_postings (p := p) hs.sound op
  have hj : s'.store.journal = s.store.journal ++ es :=
    (congrArg Books.journal hb).trans hes.journal
  have hnew : ∀ {xs : List Event}, s'.store.journal = s.store.journal ++ xs → new = xs := by
    intro xs hx
    have hd : (s.store.journal ++ xs).drop s.store.journal.length = xs := List.drop_left
    rwa [← hx] at hd
  have hret : s'.store.books.Returned new := by
    obtain ⟨hr, he⟩ := hes.returned hs.sound.booked.sized
    rw [hnew hj, hb]
    exact ⟨hr, he⟩
  have hdue : returns new = due := hret.owed_eq hs'.noted
  have hfreed : sizes .freed new = due.map (·.2) := by rw [sizes_freed, hdue]
  refine ⟨?_, ?_, fun j r g a => hs'.repaid, hs'.noted.formed, ⟨hdue, ?_⟩, ?_, ?_, ?_⟩
  · rw [hnew hj, hj]
  · intro r g a hr ho
    obtain ⟨al, n, h⟩ := hs.requested hr ho
    have hf : s.Refunds p r g a al _ := refunds hs.sound.distinct h.toRefundable
    rw [h.formed] at hf
    exact ⟨al, n, h, hf⟩
  · rw [LineKind.lines_eq, hfreed, List.map_map]
    rfl
  · intro a al alignment ha hal
    obtain ⟨al', ha', h⟩ := hes.advances ha hal
    rw [← hnew hj, hdue] at h
    exact ⟨al', (congrArg (·.allocators[a]?) hb).trans ha', h⟩
  · intro hg
    refine hnew ?_
    rw [List.append_nil]
    cases op with
    | raiseGauge | lowerGauge => rfl
    | _ => cases hg
  · intro hg
    obtain ⟨xs, hxs, ha⟩ := adjusted_step (p := p) hs.sound.distinct hs.sound.booked hg
    have hr := removed_eq xs
    rw [← hnew hxs.journal, hfreed] at hr
    rw [← hr, hnew hxs.journal]
    exact ha

/-- A buffer that was handed off twice and another one that is shared, after their allocator has no
handle any more. -/
theorem freed_as_requested_of_handOffs :
    let ops : List Op := [.allocator "a" (some 16), .allocate "m" "a" .native 10,
      .tryAcquire "r" "m", .intoManager "n" "r", .tryAcquire "q" "n", .allocate "o" "a" .shared 5,
      .clone "c" "o", .drop "o", .drop "a"]
    let s := (start .u8).after .bounded ops
    let s' := (s.step .bounded (.dropAll ["q", "c"])).2
    let new := s'.store.journal.drop s.store.journal.length
    returns new = [(1, 26), (1, 21)] ∧
      LineKind.freed.lines new = ["TRACE released native buffer PTR (26 bytes)",
        "TRACE released native buffer PTR (21 bytes)"] ∧
      (∃ al al', s.store.allocators[1]? = some al ∧ s'.store.allocators[1]? = some al' ∧
        al'.statistics.bytesReleased = al.statistics.bytesReleased + 47) ∧
      s'.store.gauge.toNat = s.store.gauge.toNat - 47 := by
  intro ops s s' new
  have hdue : owed s'.store.journal new = [(1, 26), (1, 21)] := by decide +kernel
  have hfinal : sizes .final new = [] := by decide +kernel
  have hadded : s.attached s' = 0 := by decide +kernel
  have ha : s.store.allocators[1]? = some ⟨.native 16, ⟨2, 47, 0, 0⟩⟩ := by decide +kernel
  obtain ⟨-, -, -, -, ⟨hr, hl⟩, hal, -, hg⟩ :=
    freed_as_requested .bounded .u8 ops (.dropAll ["q", "c"])
  obtain ⟨al', ha', h⟩ := hal 1 _ 16 ha rfl
  have hb := h.bytesReleased
  have hg := hg rfl
  rw [hdue] at hr hl hb hg
  rw [hfinal, hadded] at hg
  refine ⟨hr, hl, ⟨_, al', ha, ha', hb⟩, ?_⟩
  simpa using hg

end Session

end LargeBuffers
