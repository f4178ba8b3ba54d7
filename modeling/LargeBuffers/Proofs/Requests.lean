import LargeBuffers.Proofs.Layout
import LargeBuffers.Proofs.Postings

/-! # What is requested for a buffer

The platform is asked once for each buffer, for as many bytes as the owner forms again when it takes
the buffer back. So every release of a buffer is followed by the return of what was requested
before, and no owner ever fails to form the size.
-/

namespace LargeBuffers

/-- The requests that are noted for a region, each with the allocator and the size. -/
def requests (r : RegionId) (journal : List Event) : List (AllocatorId × UInt64) :=
  journal.filterMap fun
    | .allocated a r' size => if r' = r then some (a, size) else none
    | _ => none

def takes (journal : List Event) : List (AllocatorId × UInt64) :=
  journal.filterMap fun
    | .allocated a _ size => some (a, size)
    | _ => none

def returns (journal : List Event) : List (AllocatorId × UInt64) :=
  journal.filterMap fun
    | .freed a size => some (a, size)
    | _ => none

/-- What the journal says was requested for the regions that are released in some events, in the
order of the releases. -/
def owed (journal es : List Event) : List (AllocatorId × UInt64) :=
  (releaseEvents es).flatMap fun x => requests x.1 journal

/-- The owner of a buffer that is released returns next what was requested for it before. -/
def Repaid (journal : List Event) : Prop :=
  ∀ (j : ℕ) (r : RegionId) (g : Region) (a : AllocatorId), journal[j]? = some (.released r g) →
    g.owner = .allocator a → ∃ size, requests r (journal.take j) = [(a, size)] ∧
      journal[j + 1]? = some (.freed a size)

variable {p : Platform} {journal es xs : List Event} {r : RegionId} {g : Region} {a : AllocatorId}

theorem requests_append (r : RegionId) (j j' : List Event) :
    requests r (j ++ j') = requests r j ++ requests r j' :=
  List.filterMap_append

theorem takes_append (j j' : List Event) : takes (j ++ j') = takes j ++ takes j' :=
  List.filterMap_append

theorem returns_append (j j' : List Event) : returns (j ++ j') = returns j ++ returns j' :=
  List.filterMap_append

theorem amounts_of_silent {x : Event} (h : x.silent = true) :
    (∀ r, requests r [x] = []) ∧ takes [x] = [] ∧ returns [x] = [] ∧ releaseEvents [x] = [] := by
  cases x with
  | pinned | unpinned | disposed => exact ⟨fun _ => rfl, rfl, rfl, rfl⟩
  | _ => cases h

theorem amounts_cons_of_givenUp? {x : Event} {len : UInt64} (h : x.givenUp? = some len)
    (j : List Event) : (∀ r, requests r (x :: j) = requests r j) ∧ takes (x :: j) = takes j ∧
      returns (x :: j) = returns j := by
  cases x with
  | releasing | dropped => exact ⟨fun _ => rfl, rfl, rfl⟩
  | _ => cases h

theorem Repaid.append (h : Repaid journal)
    (h' : ∀ (n : ℕ) (r : RegionId) (g : Region) (a : AllocatorId),
      es[n]? = some (.released r g) → g.owner = .allocator a →
      ∃ size, requests r (journal ++ es.take n) = [(a, size)] ∧
        es[n + 1]? = some (.freed a size)) : Repaid (journal ++ es) := by
  intro j r g a hj ho
  rcases Nat.lt_or_ge j journal.length with hl | hl
  · rw [List.getElem?_append_left hl] at hj
    obtain ⟨size, hr, hf⟩ := h j r g a hj ho
    refine ⟨size, ?_, Store.getElem?_of_extension (List.prefix_append ..) hf⟩
    rwa [List.take_append_of_le_length hl.le]
  · obtain ⟨n, rfl⟩ := Nat.exists_eq_add_of_le hl
    rw [List.getElem?_append_right hl, Nat.add_sub_cancel_left] at hj
    obtain ⟨size, hr, hf⟩ := h' n r g a hj ho
    refine ⟨size, ?_, ?_⟩
    · rwa [List.take_length_add_append]
    · rwa [Nat.add_assoc, List.getElem?_append_right (Nat.le_add_right ..),
        Nat.add_sub_cancel_left]

namespace Books

variable {b b' b₁ b₂ : Books}

/-- What has to be requested of the platform for a region. -/
def demand (b : Books) (g : Region) : List (AllocatorId × UInt64) :=
  match g.owner with
  | .allocator a => (b.allocators[a]?).toList.map fun al => (a, g.len + al.supply.alignment)
  | _ => []

theorem demand_of_owner {al : Allocator} (ho : g.owner = .allocator a)
    (ha : b.allocators[a]? = some al) : b.demand g = [(a, g.len + al.supply.alignment)] := by
  simp [demand, ho, ha]

theorem demand_of_ne (h : ∀ a, g.owner ≠ .allocator a) : b.demand g = [] := by
  unfold demand
  split
  · exact absurd ‹_› (h _)
  · rfl

theorem demand_of_request {al : Allocator} {alignment size : UInt64} (ho : g.owner = .allocator a)
    (ha : b.allocators[a]? = some al) (hal : al.supply = .native alignment)
    (hsz : requestSize alignment g.len = .ok size) : b.demand g = [(a, size)] := by
  rw [demand_of_owner ho ha, hal]
  exact congrArg (fun n => [(a, n)]) (add_of_requestSize hsz)

theorem Bookings.demand_eq (h : Bookings p b b') (hs : b.Sized) (hg : g ∈ b.regions) :
    b'.demand g = b.demand g := by
  by_cases ho : ∃ a, g.owner = .allocator a
  · obtain ⟨a, ho⟩ := ho
    obtain ⟨al, -, -, ha, -⟩ := hs g hg a ho
    obtain ⟨al', ha', he⟩ := h.supply ha
    rw [demand_of_owner ho ha, demand_of_owner ho ha', he]
  · have hn : ∀ a, g.owner ≠ .allocator a := fun a ha => ho ⟨a, ha⟩
    rw [demand_of_ne hn, demand_of_ne hn]

/-! ## Single postings -/

/-- What is due for a region is requested when it is made, and nothing is requested otherwise. -/
theorem Posting.requests_cases (h : b.Posting p es b') :
    b'.regions = b.regions ∧ (∀ r, requests r es = []) ∨
    ∃ g, b'.regions = b.regions ++ [g] ∧
      ∀ r, requests r es = if b.regions.length = r then b'.demand g else [] := by
  have hb := h.bookings
  have hnone : ∀ {g : Region}, (∀ a, g.owner ≠ .allocator a) →
      ∀ r, [] = if b.regions.length = r then b'.demand g else [] := by
    intro g ho r
    rw [demand_of_ne ho, ite_self]
  cases h with
  | silent hx => exact .inl ⟨rfl, (amounts_of_silent hx).1⟩
  | returned hx | freed hx => exact .inl ⟨rfl, (amounts_cons_of_givenUp? hx _).1⟩
  | @recorded g o _ ho => exact .inr ⟨g, rfl, hnone (by simp [ho])⟩
  | @part g i imp _ ho => exact .inr ⟨g, rfl, hnone (by simp [ho])⟩
  | @buffer g a al alignment size n grant hn ho ha hal hsz =>
    refine .inr ⟨g, rfl, fun r => ?_⟩
    obtain ⟨al', ha', he⟩ := hb.supply ha
    rw [demand_of_request ho ha' (he.trans hal) hsz]
    by_cases hr : b.regions.length = r <;> simp [requests, hr]
  | _ => exact .inl ⟨rfl, fun _ => rfl⟩

/-- The release of a buffer stands between the end of its holder and the return of what is due. -/
theorem Posting.released_cases {n : ℕ} (h : b.Posting p es b')
    (hn : es[n]? = some (.released r g)) (ho : g.owner = .allocator a) :
    n = 1 ∧ ∃ x size, x.givenUp? = some g.len ∧ es = [x, .released r g, .freed a size] ∧
      b.regions[r]? = some g ∧ b.demand g = [(a, size)] := by
  have hx : ∀ {x : Event}, [x][n]? = some (.released r g) → x = .released r g := by
    intro x hn
    exact (List.mem_singleton.mp (List.mem_of_getElem? hn)).symm
  cases h with
  | silent hs => cases hx hn ▸ hs
  | handedOff | buffer | final => cases hx hn
  | @returned y r' g' hy hg hc ho' =>
    match n with
    | 0 => cases Option.some.inj hn ▸ hy
    | 1 =>
      obtain ⟨rfl, rfl⟩ := Event.released.inj (Option.some.inj hn)
      exact absurd ho (ho' a)
    | n + 2 => cases hn
  | @freed y r' g' a' al alignment size hy hg hc ho' ha hal hsz =>
    match n with
    | 0 => cases Option.some.inj hn ▸ hy
    | 1 =>
      obtain ⟨rfl, rfl⟩ := Event.released.inj (Option.some.inj hn)
      obtain rfl := Owner.allocator.inj (ho.symm.trans ho')
      exact ⟨rfl, y, size, hy, rfl, hg, demand_of_request ho ha hal hsz⟩
    | 2 => cases hn
    | n + 3 => cases hn
  | _ => cases hn

theorem Posting.formed (h : b.Posting p es b') (a : AllocatorId) (size : UInt64) :
    .unfreed a size ∉ es := by
  have hbooked : ∀ {x : Event}, x.booked = false → x ≠ .unfreed a size := by
    rintro x hx rfl
    cases hx
  intro hm
  cases h with
  | silent hx =>
    exact hbooked (Event.booked_of_silent hx) (List.mem_singleton.mp hm).symm
  | returned hx | freed hx =>
    obtain hm | hm := List.mem_cons.mp hm
    · exact hbooked (Event.booked_of_givenUp? hx) hm.symm
    · simp at hm
  | _ => simp at hm

theorem Posting.returns_eq (h : b.Posting p es b') :
    returns es = (releaseEvents es).flatMap fun x => b.demand x.2 := by
  cases h with
  | silent hx =>
    obtain ⟨-, -, hr, he⟩ := amounts_of_silent hx
    rw [hr, he, List.flatMap_nil]
  | @returned x r g hx hg hc ho =>
    rw [(amounts_cons_of_givenUp? hx _).2.2, (givenUp_cons hx _).2]
    exact ((List.append_nil _).trans (demand_of_ne ho)).symm
  | @freed x r g a al alignment size hx hg hc ho ha hal hsz =>
    rw [(amounts_cons_of_givenUp? hx _).2.2, (givenUp_cons hx _).2]
    exact ((List.append_nil _).trans (demand_of_request ho ha hal hsz)).symm
  | _ => rfl

theorem Posting.registered (h : b.Posting p es b') :
    ∀ x ∈ releaseEvents es, b.regions[x.1]? = some x.2 := by
  cases h with
  | silent hx =>
    rw [(amounts_of_silent hx).2.2.2]
    exact List.forall_mem_nil _
  | returned hx hg | freed hx hg =>
    rw [(givenUp_cons hx _).2]
    exact List.forall_mem_singleton.mpr hg
  | _ => exact List.forall_mem_nil _

/-! ## Requests of all regions -/

structure Noted (b : Books) : Prop where
  requests : ∀ r, requests r b.journal = b.regions[r]?.elim [] b.demand
  repaid : Repaid b.journal
  formed : ∀ a size, .unfreed a size ∉ b.journal

theorem Noted.request (h : b.Noted) (hg : b.regions[r]? = some g) :
    LargeBuffers.requests r b.journal = b.demand g := by
  rw [h.requests, hg, Option.elim_some]

theorem Posting.requests_eq (h : b.Posting p es b') (hs : b.Sized) (hn : b.Noted) (r : RegionId) :
    requests r b'.journal = b'.regions[r]?.elim [] b'.demand := by
  have hold : b.regions[r]?.elim [] b'.demand = b.regions[r]?.elim [] b.demand := by
    cases hg : b.regions[r]? with
    | none => rfl
    | some g => exact Bookings.demand_eq h.bookings hs (List.mem_of_getElem? hg)
  rw [h.journal, requests_append, hn.requests, ← hold]
  obtain ⟨hr, he⟩ | ⟨g, hr, he⟩ := h.requests_cases
  · rw [he, hr, List.append_nil]
  · rw [he, hr]
    -- Of a region that is not registered yet no request was noted, so there is at most one.
    by_cases hl : b.regions.length = r
    · subst hl
      rw [if_pos rfl, List.getElem?_eq_none le_rfl, List.getElem?_concat_length]
      rfl
    · rw [if_neg hl, List.append_nil]
      congr 1
      cases hg : b.regions[r]? with
      | some g' => exact (Store.getElem?_of_extension (List.prefix_append ..) hg).symm
      | none =>
        have hle := List.getElem?_eq_none_iff.mp hg
        exact (List.getElem?_eq_none (by simp; omega)).symm

theorem Posting.noted (h : b.Posting p es b') (hs : b.Sized) (hn : b.Noted) : b'.Noted where
  requests := h.requests_eq hs hn
  repaid := by
    rw [h.journal]
    refine hn.repaid.append fun n r g a hr ho => ?_
    obtain ⟨rfl, x, size, hx, rfl, hg, hd⟩ := h.released_cases hr ho
    refine ⟨size, ?_, rfl⟩
    rw [requests_append, hn.request hg, hd]
    exact congrArg (_ ++ ·) ((amounts_cons_of_givenUp? hx []).1 r)
  formed a size hm := by
    rw [h.journal, List.mem_append] at hm
    exact hm.elim (hn.formed a size) (h.formed a size)

theorem Postings.noted (h : Postings p b es b') (hs : b.Sized) (hn : b.Noted) : b'.Noted := by
  induction h with
  | refl => exact hn
  | tail hb hp ih => exact hp.noted (Bookings.sized hb.bookings hs) ih

/-- All that is returned is due for the regions that are released, which are registered. -/
structure Returned (b : Books) (es : List Event) : Prop where
  registered : ∀ x ∈ releaseEvents es, b.regions[x.1]? = some x.2
  returns : returns es = (releaseEvents es).flatMap fun x => b.demand x.2

theorem Returned.mono (h : b.Returned es) (hb : Bookings p b b') (hs : b.Sized) :
    b'.Returned es where
  registered x hx := Store.getElem?_of_extension (Bookings.regions hb) (h.registered x hx)
  returns := by
    rw [h.returns]
    refine List.flatMap_congr fun x hx => ?_
    exact (Bookings.demand_eq hb hs (List.mem_of_getElem? (h.registered x hx))).symm

theorem Returned.append (h : b.Returned es) (h' : b.Returned xs) : b.Returned (es ++ xs) where
  registered x hx := by
    rw [releaseEvents_append, List.mem_append] at hx
    exact hx.elim (h.registered x) (h'.registered x)
  returns := by
    rw [returns_append, releaseEvents_append, List.flatMap_append, h.returns, h'.returns]

theorem Postings.returned (h : Postings p b es b') (hs : b.Sized) : b'.Returned es := by
  induction h with
  | refl => exact ⟨List.forall_mem_nil _, rfl⟩
  | tail hb hp ih =>
    have hs' := Bookings.sized hb.bookings hs
    have hr : Returned _ _ := ⟨hp.registered, hp.returns_eq⟩
    exact (ih.append hr).mono hp.bookings hs'

theorem Returned.owed_eq (h : b.Returned es) (hn : b.Noted) :
    LargeBuffers.returns es = owed b.journal es := by
  rw [h.returns, owed]
  refine List.flatMap_congr fun x hx => ?_
  exact (hn.request (h.registered x hx)).symm

end Books

/-! ## Grants -/

namespace Store

variable {st st' : Store}

/-- The block of a buffer is what the platform granted for the size that its owner forms again. -/
def Granted (p : Platform) (st : Store) (g : Region) : Prop :=
  ∀ a, g.owner = .allocator a → ∃ al grant block, st.allocators[a]? = some al ∧
    p.grant g.block (g.len + al.supply.alignment) = some grant ∧
    st.blocks[g.block]? = some block ∧ block.base = grant.base ∧
    block.contents.count = g.len + al.supply.alignment

theorem granted_of_ne (h : ∀ a, g.owner ≠ .allocator a) : st.Granted p g :=
  fun a ho => absurd ho (h a)

theorem Granted.of_grows (h : st.Granted p g) (hg : st.Grows st') : st'.Granted p g := by
  intro a ho
  obtain ⟨al, grant, block, ha, hgr, hb, hbase, hc⟩ := h a ho
  obtain ⟨al', ha', hs⟩ := hg.allocators ha
  obtain ⟨block', hb', hbase', -, hc'⟩ := hg.blocks hb
  rw [← hs] at hgr hc
  exact ⟨al', grant, block', ha', hgr, hb', hbase'.trans hbase, hc'.trans hc⟩

theorem granted_allocateNative {alignment length : UInt64} {al : Allocator}
    (ha : st.allocators[a]? = some al) (hal : al.supply = .native alignment)
    (h : st.allocateNative p a alignment length = (.ok (), st')) :
    ∃ g, st'.regions = st.regions ++ [g] ∧ st'.Granted p g := by
  obtain ⟨size, grant, hsz, hgr, rfl⟩ := allocateNative_eq_ok h
  have hsize : length + al.supply.alignment = size := hal ▸ add_of_requestSize hsz
  obtain ⟨hl, rfl⟩ := List.getElem?_eq_some_iff.mp ha
  refine ⟨_, regions_countAllocation .., ?_⟩
  rintro _ ⟨⟩
  refine ⟨{ st.allocators[a] with
    statistics := st.allocators[a].statistics.recordAllocation size }, grant,
    clearedBlock grant size (alignOffset grant.base alignment) length, ?_, ?_, ?_, rfl,
    hsize.symm⟩
  · simp [countAllocation, hl]
  · rwa [hsize]
  · simp [countAllocation, hl]

end Store

namespace Estate

variable {e e' : Estate}

def Granted (p : Platform) (e : Estate) : Prop := ∀ g ∈ e.store.regions, e.store.Granted p g

theorem Granted.of_grows (h : e.Granted p) (hg : e.store.Grows e'.store)
    (hr : ∀ g ∈ e'.store.regions, g ∈ e.store.regions ∨ e'.store.Granted p g) : e'.Granted p := by
  intro g hm
  obtain hm | hn := hr g hm
  · exact (h g hm).of_grows hg
  · exact hn

theorem Makes.granted {st : Store} (hm : e.Makes p st) (h : e.Granted p) :
    { e with store := st }.Granted p := by
  have hg := hm.grows
  have hnew : ∀ {g : Region}, st.regions = e.store.regions ++ [g] → st.Granted p g →
      { e with store := st }.Granted p := by
    intro g hr hgr
    refine h.of_grows hg fun x hx => ?_
    rw [hr, List.mem_append, List.mem_singleton] at hx
    exact hx.imp_right (by rintro rfl; exact hgr)
  cases hm with
  | null | array | probe => exact h.of_grows hg fun _ => .inl
  | native => exact hnew rfl (Store.granted_of_ne nofun)
  | imported _ _ _ _ hm =>
    obtain ⟨imp, -, -, rfl⟩ := Store.addAlias_eq_ok hm
    exact hnew rfl (Store.granted_of_ne nofun)
  | buffer _ _ hm =>
    obtain ⟨al, ha, ⟨alignment, hal, hm⟩ | ⟨limit, pad, -, -, rfl⟩⟩ := Store.allocate_eq_ok hm
    · obtain ⟨g, hr, hgr⟩ := Store.granted_allocateNative ha hal hm
      exact hnew hr hgr
    · exact h.of_grows hg fun _ hx => .inl (by simpa using hx)

theorem Deed.makes_or (hd : e.Deed p e') :
    e'.store.regions = e.store.regions ∨ e.Makes p e'.store := by
  cases hd with
  | manager hm _ => exact .inr hm
  | handOff _ ho =>
    obtain ⟨g, -, -, -, rfl⟩ := Store.handOff_eq_some ho
    exact .inl rfl
  | dispose | disposeOwner => exact .inl (congrArg (·.2.2.1) (e.store.stock_dispose _))
  | _ => exact .inl rfl

theorem Losses.regions_eq (hl : Losses e e') : e'.store.regions = e.store.regions :=
  congrArg (·.2.2.1) hl.stock_eq

theorem stable_granted (p : Platform) : Stable p (Granted p) where
  deed h hd := by
    obtain hr | hm := hd.makes_or
    · exact h.of_grows hd.grows fun _ hg => .inl (hr ▸ hg)
    · exact hm.granted h
  loss h hl := h.of_grows hl.grows fun _ hg => .inl (Losses.regions_eq (.single hl) ▸ hg)
  writing h hw := by
    obtain ⟨blocks, rfl⟩ := hw.frame
    exact h.of_grows hw.grows fun _ => .inl
  gauge h := h.of_grows (Store.grows_gauge ..) fun _ => .inl

theorem stable_noted (p : Platform) : Stable p fun e => e.Booked ∧ e.store.books.Noted :=
  stable_of_postings (fun h hs hn => h.noted hs hn) fun hn => ⟨hn.requests, hn.repaid, hn.formed⟩

theorem noted_start (e : Element) : (Session.start e).estate.store.books.Noted :=
  ⟨fun _ => rfl, nofun, nofun⟩

end Estate

end LargeBuffers
