import Mathlib.Algebra.BigOperators.Group.List.Basic
import LargeBuffers.Proofs.Tenure

/-! # The books

What is counted of native memory depends on the registers of regions, allocators and importations,
on the gauge and on the journal. All that an operation does to these is a sequence of bookings.
Those that belong together are postings, which say also what is noted of them.
-/

namespace LargeBuffers

namespace Event

def booked : Event → Bool
  | released .. | freed .. | unfreed .. | finalRelease .. => true
  | _ => false

/-- Whether an event is a call to a manager, of which nothing is logged. -/
def silent : Event → Bool
  | pinned .. | unpinned .. | disposed .. => true
  | _ => false

/-- The length of the region that a manager or a raw allocation gives up. -/
def givenUp? : Event → Option UInt64
  | releasing len | dropped len => some len
  | _ => none

theorem booked_of_silent {x : Event} (h : x.silent = true) : x.booked = false := by
  cases x with
  | pinned | unpinned | disposed => rfl
  | _ => cases h

theorem booked_of_givenUp? {x : Event} {len : UInt64} (h : x.givenUp? = some len) :
    x.booked = false := by
  cases x with
  | releasing | dropped => rfl
  | _ => cases h

end Event

theorem releaseCalls_eq_nil_of_booked {x : Event} (h : x.booked = false) (r : RegionId) :
    releaseCalls r [x] = [] := by
  cases x with
  | released => cases h
  | _ => rfl

structure Books where
  regions : List Region
  allocators : List Allocator
  importations : List Importation
  gauge : UInt64
  journal : List Event

def Store.books (st : Store) : Books :=
  ⟨st.regions, st.allocators, st.importations, st.gauge, st.journal⟩

namespace Books

/-- One entry in the books. A new region is not released yet, and one that is released was not
released before. -/
inductive Booking (p : Platform) (b : Books) : Books → Prop
  | note {x : Event} : x.booked = false → Booking p b { b with journal := b.journal ++ [x] }
  | importation : Booking p b { b with importations := b.importations ++ [{}] }
  | allocator {supply : Supply} :
      Booking p b { b with allocators := b.allocators ++ [{ supply }] }
  | metered {a : AllocatorId} {al : Allocator} {limit pad bytes : UInt64} :
      b.allocators[a]? = some al → al.supply = .metered limit pad →
      Booking p b { b with
        allocators := b.allocators.set a
          { al with statistics := al.statistics.recordAllocation bytes } }
  | recorded {g : Region} {o : RecorderId} : releaseCalls b.regions.length b.journal = [] →
      g.owner = .recorder o → Booking p b { b with regions := b.regions ++ [g] }
  | buffer {g : Region} {a : AllocatorId} {al : Allocator} {alignment size : UInt64} {n : ℕ}
      {grant : Grant} : releaseCalls b.regions.length b.journal = [] → g.owner = .allocator a →
      b.allocators[a]? = some al → al.supply = .native alignment →
      requestSize alignment g.len = .ok size → p.grant n size = some grant →
      Booking p b { b with
        regions := b.regions ++ [g]
        allocators := b.allocators.set a
          { al with statistics := al.statistics.recordAllocation size }
        gauge := b.gauge + size }
  | part {g : Region} {i : ImportationId} {imp : Importation} :
      releaseCalls b.regions.length b.journal = [] → g.owner = .importation i →
      b.importations[i]? = some imp →
      Booking p b { b with
        regions := b.regions ++ [g]
        importations := b.importations.set i ⟨imp.references + 1, imp.tracked + g.len⟩
        gauge := b.gauge + g.len }
  /-- A region is released that is no buffer. -/
  | returned {r : RegionId} {g : Region} : b.regions[r]? = some g →
      releaseCalls r b.journal = [] → (∀ a, g.owner ≠ .allocator a) →
      Booking p b { b with journal := b.journal ++ [.released r g] }
  | freed {r : RegionId} {g : Region} {a : AllocatorId} {al : Allocator}
      {alignment size : UInt64} : b.regions[r]? = some g → releaseCalls r b.journal = [] →
      g.owner = .allocator a → b.allocators[a]? = some al → al.supply = .native alignment →
      requestSize alignment g.len = .ok size →
      Booking p b { b with
        allocators := b.allocators.set a
          { al with statistics := al.statistics.recordRelease size }
        gauge := monus b.gauge size
        journal := b.journal ++ [.released r g, .freed a size] }
  | reference {i : ImportationId} {imp : Importation} : b.importations[i]? = some imp →
      Booking p b { b with
        importations := b.importations.set i { imp with references := imp.references - 1 } }
  | final {i : ImportationId} {imp : Importation} : b.importations[i]? = some imp →
      Booking p b { b with
        importations := b.importations.set i ⟨imp.references - 1, 0⟩
        gauge := monus b.gauge imp.tracked
        journal := b.journal ++ [.finalRelease i imp.tracked] }

abbrev Bookings (p : Platform) : Books → Books → Prop := Relation.ReflTransGen (Booking p)

/-- Every buffer has an allocator, from which its size can be requested. -/
def Sized (b : Books) : Prop :=
  ∀ g ∈ b.regions, ∀ a, g.owner = .allocator a → ∃ al alignment size,
    b.allocators[a]? = some al ∧ al.supply = .native alignment ∧
      requestSize alignment g.len = .ok size

variable {p : Platform} {b b' : Books}

theorem Booking.supply {a : AllocatorId} {al : Allocator} (h : b.Booking p b')
    (ha : b.allocators[a]? = some al) :
    ∃ al' : Allocator, b'.allocators[a]? = some al' ∧ al'.supply = al.supply := by
  have hset : ∀ {c : AllocatorId} {al₁ al₂ : Allocator}, b.allocators[c]? = some al₁ →
      al₂.supply = al₁.supply →
      ∃ al', (b.allocators.set c al₂)[a]? = some al' ∧ al'.supply = al.supply := by
    intro c al₁ al₂ hc hs
    by_cases hca : c = a
    · subst hca
      obtain rfl := Option.some.inj (hc.symm.trans ha)
      obtain ⟨hl, -⟩ := List.getElem?_eq_some_iff.mp hc
      exact ⟨al₂, by simp [hl], hs⟩
    · exact ⟨al, by simpa [hca] using ha, rfl⟩
  cases h with
  | allocator => exact ⟨al, Store.getElem?_of_extension (List.prefix_append ..) ha, rfl⟩
  | metered hc | buffer _ _ hc | freed _ _ _ hc => exact hset hc rfl
  | _ => exact ⟨al, ha, rfl⟩

theorem Bookings.supply {a : AllocatorId} {al : Allocator} (h : Bookings p b b')
    (ha : b.allocators[a]? = some al) :
    ∃ al' : Allocator, b'.allocators[a]? = some al' ∧ al'.supply = al.supply := by
  induction h with
  | refl => exact ⟨al, ha, rfl⟩
  | tail _ h ih =>
    obtain ⟨al₁, ha₁, he₁⟩ := ih
    obtain ⟨al₂, ha₂, he₂⟩ := h.supply ha₁
    exact ⟨al₂, ha₂, he₂.trans he₁⟩

theorem Booking.sized (h : b.Booking p b') (hs : b.Sized) : b'.Sized := by
  have hold : ∀ g ∈ b.regions, ∀ a, g.owner = .allocator a → ∃ al alignment size,
      b'.allocators[a]? = some al ∧ al.supply = .native alignment ∧
        requestSize alignment g.len = .ok size := by
    intro g hg a ho
    obtain ⟨al, alignment, size, ha, hal, hsz⟩ := hs g hg a ho
    obtain ⟨al', ha', he⟩ := h.supply ha
    exact ⟨al', alignment, size, ha', he.trans hal, hsz⟩
  have hnew : ∀ {g : Region}, (∀ a, g.owner = .allocator a → ∃ al alignment size,
      b'.allocators[a]? = some al ∧ al.supply = .native alignment ∧
        requestSize alignment g.len = .ok size) → b'.regions = b.regions ++ [g] → b'.Sized := by
    intro g hg hr x hx
    rw [hr] at hx
    obtain hx | hx := List.mem_append.mp hx
    · exact hold x hx
    · rw [List.mem_singleton.mp hx]
      exact hg
  cases h with
  | @recorded g o _ ho => exact hnew (fun a ha => nomatch ho.symm.trans ha) rfl
  | @part g i imp _ ho => exact hnew (fun a ha => nomatch ho.symm.trans ha) rfl
  | @buffer g a al alignment size n grant _ ho ha hal hsz =>
    refine hnew (fun a' ha' => ?_) rfl
    obtain rfl := Owner.allocator.inj (ho.symm.trans ha')
    obtain ⟨hl, -⟩ := List.getElem?_eq_some_iff.mp ha
    exact ⟨_, alignment, size, List.getElem?_set_self hl, hal, hsz⟩
  | _ => exact hold

theorem Bookings.sized (h : Bookings p b b') (hs : b.Sized) : b'.Sized := by
  induction h with
  | refl => exact hs
  | tail _ h ih => exact h.sized ih

/-! ## Postings -/

/-- Bookings that belong together, and the events that are noted of them. Of a buffer its allocation
is noted. A region is given up by its holder and then received by its owner, which frees it if it is
an allocator. -/
inductive Posting (p : Platform) (b : Books) : List Event → Books → Prop
  | silent {x : Event} : x.silent = true →
      Posting p b [x] { b with journal := b.journal ++ [x] }
  | handedOff {len : UInt64} :
      Posting p b [.handedOff len] { b with journal := b.journal ++ [.handedOff len] }
  | importation : Posting p b [] { b with importations := b.importations ++ [{}] }
  | allocator {supply : Supply} :
      Posting p b [] { b with allocators := b.allocators ++ [{ supply }] }
  | metered {a : AllocatorId} {al : Allocator} {limit pad bytes : UInt64} :
      b.allocators[a]? = some al → al.supply = .metered limit pad →
      Posting p b [] { b with
        allocators := b.allocators.set a
          { al with statistics := al.statistics.recordAllocation bytes } }
  | recorded {g : Region} {o : RecorderId} : releaseCalls b.regions.length b.journal = [] →
      g.owner = .recorder o → Posting p b [] { b with regions := b.regions ++ [g] }
  | buffer {g : Region} {a : AllocatorId} {al : Allocator} {alignment size : UInt64} {n : ℕ}
      {grant : Grant} : releaseCalls b.regions.length b.journal = [] → g.owner = .allocator a →
      b.allocators[a]? = some al → al.supply = .native alignment →
      requestSize alignment g.len = .ok size → p.grant n size = some grant →
      Posting p b [.allocated a b.regions.length size] { b with
        regions := b.regions ++ [g]
        allocators := b.allocators.set a
          { al with statistics := al.statistics.recordAllocation size }
        gauge := b.gauge + size
        journal := b.journal ++ [.allocated a b.regions.length size] }
  | part {g : Region} {i : ImportationId} {imp : Importation} :
      releaseCalls b.regions.length b.journal = [] → g.owner = .importation i →
      b.importations[i]? = some imp →
      Posting p b [] { b with
        regions := b.regions ++ [g]
        importations := b.importations.set i ⟨imp.references + 1, imp.tracked + g.len⟩
        gauge := b.gauge + g.len }
  | returned {x : Event} {r : RegionId} {g : Region} : x.givenUp? = some g.len →
      b.regions[r]? = some g → releaseCalls r b.journal = [] → (∀ a, g.owner ≠ .allocator a) →
      Posting p b [x, .released r g] { b with journal := b.journal ++ [x, .released r g] }
  | freed {x : Event} {r : RegionId} {g : Region} {a : AllocatorId} {al : Allocator}
      {alignment size : UInt64} : x.givenUp? = some g.len → b.regions[r]? = some g →
      releaseCalls r b.journal = [] → g.owner = .allocator a → b.allocators[a]? = some al →
      al.supply = .native alignment → requestSize alignment g.len = .ok size →
      Posting p b [x, .released r g, .freed a size] { b with
        allocators := b.allocators.set a
          { al with statistics := al.statistics.recordRelease size }
        gauge := monus b.gauge size
        journal := b.journal ++ [x, .released r g, .freed a size] }
  | reference {i : ImportationId} {imp : Importation} : b.importations[i]? = some imp →
      Posting p b [] { b with
        importations := b.importations.set i { imp with references := imp.references - 1 } }
  | final {i : ImportationId} {imp : Importation} : b.importations[i]? = some imp →
      Posting p b [.finalRelease i imp.tracked] { b with
        importations := b.importations.set i ⟨imp.references - 1, 0⟩
        gauge := monus b.gauge imp.tracked
        journal := b.journal ++ [.finalRelease i imp.tracked] }

inductive Postings (p : Platform) (b : Books) : List Event → Books → Prop
  | refl : Postings p b [] b
  | tail {es xs : List Event} {b₁ b₂ : Books} : Postings p b es b₁ → b₁.Posting p xs b₂ →
      Postings p b (es ++ xs) b₂

variable {b₁ : Books} {es xs : List Event}

theorem Posting.single (h : b.Posting p es b') : Postings p b es b' := .tail .refl h

theorem Postings.trans (h : Postings p b es b₁) (h' : Postings p b₁ xs b') :
    Postings p b (es ++ xs) b' := by
  induction h' with
  | refl => rwa [List.append_nil]
  | tail _ hp ih =>
    rw [← List.append_assoc]
    exact ih.tail hp

theorem Posting.journal (h : b.Posting p es b') : b'.journal = b.journal ++ es := by
  cases h with
  | silent | handedOff | buffer | returned | freed | final => rfl
  | _ => exact (List.append_nil _).symm

theorem Postings.journal (h : Postings p b es b') : b'.journal = b.journal ++ es := by
  induction h with
  | refl => exact (List.append_nil _).symm
  | tail _ hp ih => rw [hp.journal, ih, List.append_assoc]

theorem Posting.bookings (h : b.Posting p es b') : Bookings p b b' := by
  cases h with
  | silent hx => exact .single (.note (Event.booked_of_silent hx))
  | handedOff => exact .single (.note rfl)
  | importation => exact .single .importation
  | allocator => exact .single .allocator
  | metered ha hal => exact .single (.metered ha hal)
  | recorded hn ho => exact .single (.recorded hn ho)
  | @buffer g a al alignment size n grant hn ho ha hal hsz hg =>
    refine .tail (.single (.note (x := .allocated a b.regions.length size) rfl)) ?_
    exact .buffer ((releaseCalls_concat rfl _).trans hn) ho ha hal hsz hg
  | part hn ho hi => exact .single (.part hn ho hi)
  | @returned x r g hx hg hc ho =>
    have hb := Event.booked_of_givenUp? hx
    have hc' := (releaseCalls_concat (releaseCalls_eq_nil_of_booked hb r) b.journal).trans hc
    have h := Booking.returned (p := p) (b := { b with journal := b.journal ++ [x] }) hg hc' ho
    rw [← List.append_cons] at h
    exact .tail (.single (.note hb)) h
  | @freed x r g a al alignment size hx hg hc ho ha hal hsz =>
    have hb := Event.booked_of_givenUp? hx
    have hc' := (releaseCalls_concat (releaseCalls_eq_nil_of_booked hb r) b.journal).trans hc
    have h := Booking.freed (p := p) (b := { b with journal := b.journal ++ [x] }) hg hc' ho ha hal
      hsz
    rw [← List.append_cons] at h
    exact .tail (.single (.note hb)) h
  | reference hi => exact .single (.reference hi)
  | final hi => exact .single (.final hi)

theorem Postings.bookings (h : Postings p b es b') : Bookings p b b' := by
  induction h with
  | refl => exact .refl
  | tail _ hp ih => exact ih.trans hp.bookings

theorem postings_silent (h : ∀ x ∈ es, x.silent = true) (b : Books) :
    Postings p b es { b with journal := b.journal ++ es } := by
  induction es using List.reverseRecOn with
  | nil =>
    rw [List.append_nil]
    exact .refl
  | append_singleton es x ih =>
    rw [← List.append_assoc]
    exact (ih fun y hy => h y (by simp [hy])).tail (.silent (h x (by simp)))

end Books

open Books (Bookings Postings)

namespace Store

variable {p : Platform}

theorem postings_dropReference (st : Store) (i : ImportationId) :
    ∃ es, Postings p st.books es (st.dropReference i).books := by
  unfold dropReference
  split
  · exact ⟨_, .refl⟩
  · rename_i imp hi
    dsimp only
    split
    · exact ⟨_, Books.Posting.single (.final hi)⟩
    · exact ⟨_, Books.Posting.single (.reference hi)⟩

theorem postings_release (st : Store) {x : Event} {r : RegionId} {g : Region}
    (hs : st.books.Sized) (hx : x.givenUp? = some g.len) (hg : st.regions[r]? = some g)
    (hc : releaseCalls r st.journal = []) :
    ∃ es, Postings p st.books es ((st.note x).release r g).books := by
  have hcons : ∀ es : List Event, st.journal ++ [x] ++ .released r g :: es =
      st.journal ++ x :: .released r g :: es := fun es => List.append_assoc ..
  cases ho : g.owner with
  | recorder o =>
    have hp := Books.Posting.returned (p := p) (b := st.books) hx hg hc (by rw [ho]; nofun)
    have hb : ((st.note x).release r g).books =
        { st.books with journal := st.journal ++ [x, .released r g] } := by
      simp only [release, ho]
      exact congrArg (Books.mk st.regions st.allocators st.importations st.gauge) (hcons [])
    rw [hb]
    exact ⟨_, hp.single⟩
  | importation i =>
    have hp := Books.Posting.returned (p := p) (b := st.books) hx hg hc (by rw [ho]; nofun)
    have hb : ((st.note x).note (.released r g)).books =
        { st.books with journal := st.journal ++ [x, .released r g] } :=
      congrArg (Books.mk st.regions st.allocators st.importations st.gauge) (hcons [])
    obtain ⟨es, hes⟩ := postings_dropReference (p := p) ((st.note x).note (.released r g)) i
    rw [hb] at hes
    simp only [release, ho]
    exact ⟨_, hp.single.trans hes⟩
  | allocator a =>
    obtain ⟨al, alignment, size, ha, hal, hsz⟩ := hs g (List.mem_of_getElem? hg) a ho
    have hp := Books.Posting.freed (p := p) hx hg hc ho ha hal hsz
    obtain ⟨-, hle⟩ := requestSize_eq_ok hsz
    have hsize : g.len + al.supply.alignment = size := hal ▸ add_of_requestSize hsz
    have hf : ((st.note x).release r g).books = { st.books with
        allocators := st.allocators.set a
          { al with statistics := al.statistics.recordRelease size }
        gauge := monus st.gauge size
        journal := st.journal ++ [x, .released r g, .freed a size] } := by
      have ha' : ((st.note x).note (.released r g)).allocators[a]? = some al := ha
      simp only [release, ho, free, ha', hsize, if_pos hle]
      simp [books]
    rw [hf]
    exact ⟨_, hp.single⟩

theorem books_countAllocation (st : Store) (a : AllocatorId) (al : Allocator) (bytes : UInt64)
    (ha : st.allocators[a]? = some al) :
    (st.countAllocation a bytes).books = { st.books with
      allocators := st.allocators.set a
        { al with statistics := al.statistics.recordAllocation bytes } } := by
  simp only [countAllocation, ha]
  rfl

end Store

namespace Estate

variable {p : Platform} {e e' : Estate}

theorem Custody.releaseCalls_eq_nil {r : RegionId} (hc : e.Custody)
    (h : 0 < e.store.bearers (· = r) + e.handles.count (.raw r)) :
    releaseCalls r e.store.journal = [] := by
  have ho := hc.once r
  rw [tally, Store.tally] at ho
  apply List.length_eq_zero_iff.mp
  split at ho <;> omega

theorem Custody.fresh (hc : e.Custody) :
    releaseCalls e.store.regions.length e.store.journal = [] := by
  rw [List.eq_nil_iff_forall_not_mem]
  intro g hg
  obtain ⟨hl, -⟩ := List.getElem?_eq_some_iff.mp (hc.calls hg)
  exact lt_irrefl _ hl

theorem Custody.postings_giveUp (hc : e.Custody) (hs : e.store.books.Sized) (k : ManagerId) :
    ∃ es, Postings p e.store.books es (e.store.giveUp k).books := by
  obtain ⟨r, g, hk, hg, he⟩ | ⟨he, -⟩ := e.store.giveUp_cases k
  · have hb := Store.bearers_pos (q := (· = r)) hk (decide_eq_true rfl)
    have hr := hc.releaseCalls_eq_nil (r := r) (by omega)
    rw [he]
    exact (e.store.setManager k (.native r false)).postings_release (x := .releasing g.len)
      hs rfl hg hr
  · rw [he]
    exact ⟨_, .refl⟩

theorem Custody.postings_dispose (hc : e.Custody) (hs : e.store.books.Sized) (k : ManagerId) :
    ∃ es, Postings p e.store.books es (e.store.dispose k).books := by
  obtain he | ⟨m, m', events, -, -, -, hx, he⟩ := e.store.dispose_cases k
  · rw [he]
    exact hc.postings_giveUp hs k
  · rw [he]
    refine ⟨_, Books.postings_silent (fun x hx' => ?_) e.store.books⟩
    rw [hx x hx']
    rfl

theorem Makes.posting {st : Store} (hc : e.Custody) (h : e.Makes p st) :
    st.books = e.store.books ∨ ∃ es, e.store.books.Posting p es st.books := by
  cases h with
  | null | array | probe => exact .inl rfl
  | native => exact .inr ⟨_, .recorded hc.fresh rfl⟩
  | imported _ _ _ _ h =>
    obtain ⟨imp, hi, -, rfl⟩ := Store.addAlias_eq_ok h
    exact .inr ⟨_, .part hc.fresh rfl hi⟩
  | @buffer a length st _ _ h =>
    obtain ⟨al, ha, ⟨alignment, hal, h⟩ | ⟨limit, pad, hal, -, rfl⟩⟩ := Store.allocate_eq_ok h
    · obtain ⟨size, g, hsz, hg, rfl⟩ := Store.allocateNative_eq_ok h
      rw [Store.books_countAllocation _ _ al _ (by exact ha)]
      exact .inr ⟨_, .buffer hc.fresh rfl ha hal hsz hg⟩
    · rw [Store.books_countAllocation _ _ al _ (by exact ha)]
      exact .inr ⟨_, .metered ha hal⟩

theorem Makes.postings {st : Store} (hc : e.Custody) (h : e.Makes p st) :
    ∃ es, Postings p e.store.books es st.books := by
  obtain he | ⟨es, hes⟩ := h.posting hc
  · rw [he]
    exact ⟨_, .refl⟩
  · exact ⟨es, hes.single⟩

theorem Deed.postings (hc : e.Custody) (hs : e.store.books.Sized) (hd : e.Deed p e') :
    ∃ es, Postings p e.store.books es e'.store.books := by
  cases hd with
  | nothing | derive | convert | standing | array | storage | recorder | rewrap =>
    exact ⟨_, .refl⟩
  | importation => exact ⟨_, Books.Posting.single .importation⟩
  | allocator => exact ⟨_, Books.Posting.single .allocator⟩
  | manager hm _ => exact hm.postings hc
  | handOff _ ho =>
    obtain ⟨g, -, -, -, rfl⟩ := Store.handOff_eq_some ho
    exact ⟨_, Books.Posting.single .handedOff⟩
  | dispose | disposeOwner => exact hc.postings_dispose hs _
  | @calls events hx =>
    refine ⟨_, Books.postings_silent (fun x hx' => ?_) e.store.books⟩
    obtain ⟨k, i, rfl⟩ | ⟨k, rfl⟩ := hx x hx' <;> rfl

theorem Loss.postings (hc : e.Custody) (hs : e.store.books.Sized) (hl : e.Loss e') :
    ∃ es, Postings p e.store.books es e'.store.books := by
  obtain @⟨x, hs', he⟩ := hl
  by_cases hx : x.plain = true
  · obtain ⟨k, -, -, hd⟩ | ⟨hd, -⟩ := discard_cases { e with handles := hs' } hx
    · rw [hd]
      exact hc.postings_giveUp hs k
    · rw [hd]
      exact ⟨_, .refl⟩
  · cases x with
    | raw r =>
      have hr : 0 < e.handles.count (.raw r) :=
        Multiset.count_pos.mpr (he ▸ Multiset.mem_cons_self ..)
      obtain ⟨g, hg⟩ := hc.registered_of_raw (Multiset.count_pos.mp hr)
      have hn := hc.releaseCalls_eq_nil (r := r) (by omega)
      change ∃ es, Postings p _ es (e.store.dropRaw r).books
      simp only [Store.dropRaw, hg]
      exact e.store.postings_release (x := .dropped g.len) hs rfl hg hn
    | importation i => exact e.store.postings_dropReference i
    | _ => exact absurd rfl hx

theorem Deed.bookings (hc : e.Custody) (hs : e.store.books.Sized) (hd : e.Deed p e') :
    Bookings p e.store.books e'.store.books := by
  obtain ⟨es, hes⟩ := hd.postings hc hs
  exact hes.bookings

theorem Loss.bookings (hc : e.Custody) (hs : e.store.books.Sized) (hl : e.Loss e') :
    Bookings p e.store.books e'.store.books := by
  obtain ⟨es, hes⟩ := hl.postings (p := p) hc hs
  exact hes.bookings

theorem Writing.books {x : Handle} (hw : e.Writing x e') : e'.store.books = e.store.books := by
  obtain ⟨blocks, rfl⟩ := hw.frame
  rfl

structure Booked (e : Estate) : Prop where
  order : e.InOrder
  sized : e.store.books.Sized

theorem Booked.loss (h : e.Booked) (hl : e.Loss e') : e'.Booked where
  order := (stable_inOrder .bounded).loss h.order hl
  sized := (hl.bookings (p := .bounded) h.order.custody h.sized).sized h.sized

theorem Booked.losses (h : e.Booked) (hl : Losses e e') :
    (∃ es, Postings p e.store.books es e'.store.books) ∧ e'.Booked := by
  induction hl with
  | refl => exact ⟨⟨_, .refl⟩, h⟩
  | tail _ hl ih =>
    obtain ⟨⟨es, hes⟩, h⟩ := ih
    obtain ⟨xs, hxs⟩ := hl.postings (p := p) h.order.custody h.sized
    exact ⟨⟨_, hes.trans hxs⟩, h.loss hl⟩

theorem stable_booked (p : Platform) : Stable p Booked where
  deed h hd := ⟨(stable_inOrder p).deed h.order hd,
    (hd.bookings h.order.custody h.sized).sized h.sized⟩
  loss h hl := h.loss hl
  writing h hw := ⟨(stable_inOrder p).writing h.order hw, hw.books ▸ h.sized⟩
  gauge h := ⟨(stable_inOrder p).gauge h.order, h.sized⟩

/-- What postings keep is kept by every operation, if it does not depend on the gauge. -/
theorem stable_of_postings {I : Books → Prop}
    (hI : ∀ {b b' : Books} {es : List Event}, Postings p b es b' → b.Sized → I b → I b')
    (hg : ∀ {b : Books} {gauge : UInt64}, I b → I { b with gauge }) :
    Stable p fun e => e.Booked ∧ I e.store.books where
  deed := by
    rintro e e' ⟨h, hi⟩ hd
    obtain ⟨es, hes⟩ := hd.postings h.order.custody h.sized
    exact ⟨(stable_booked p).deed h hd, hI hes h.sized hi⟩
  loss := by
    rintro e e' ⟨h, hi⟩ hl
    obtain ⟨es, hes⟩ := hl.postings (p := p) h.order.custody h.sized
    exact ⟨h.loss hl, hI hes h.sized hi⟩
  writing := fun ⟨h, hi⟩ hw => ⟨(stable_booked p).writing h hw, hw.books ▸ hi⟩
  gauge := fun ⟨h, hi⟩ => ⟨(stable_booked p).gauge h, hg hi⟩

theorem stable_of_bookings {I : Books → Prop}
    (hI : ∀ {b b' : Books}, Bookings p b b' → b.Sized → I b → I b')
    (hg : ∀ {b : Books} {gauge : UInt64}, I b → I { b with gauge }) :
    Stable p fun e => e.Booked ∧ I e.store.books :=
  stable_of_postings (fun h => hI h.bookings) hg

theorem booked_start (e : Element) : (Session.start e).estate.Booked where
  order := inOrder_start e
  sized := nofun

end Estate

namespace Session

variable {p : Platform} {s : Session}

/-- Apart from setting the gauge, all that an operation does to the books is posted. -/
theorem postings_step (hd : s.slots.Distinct) (h : s.estate.Booked) {op : Op}
    (hg : op.setsGauge = false) :
    ∃ es, Postings p s.store.books es (s.step p op).2.store.books := by
  obtain ⟨-, m, hm, hl⟩ | ⟨dest, -, -, x, -, hw⟩ | ⟨hs, -⟩ := s.step_course (p := p) hd op
  · obtain ⟨es, hes⟩ := hm.postings h.order.custody h.sized
    obtain ⟨⟨xs, hxs⟩, -⟩ := ((Estate.stable_booked p).deed h hm).losses (p := p) hl
    exact ⟨_, hes.trans hxs⟩
  · have hb := hw.books
    rw [estate_store, estate_store] at hb
    rw [hb]
    exact ⟨_, .refl⟩
  · rw [hg] at hs
    cases hs

theorem bookings_step (hd : s.slots.Distinct) (h : s.estate.Booked) {op : Op}
    (hg : op.setsGauge = false) : Bookings p s.store.books (s.step p op).2.store.books := by
  obtain ⟨es, hes⟩ := postings_step (p := p) hd h hg
  exact hes.bookings

end Session

end LargeBuffers
