import Mathlib.Logic.Pairwise
import LargeBuffers.Proofs.Origin

/-! # Where shared objects lie

Arrays and managers that are shared lie somewhere in memory, each behind the counters of its
handles. The place is the platform's choice, and that of an object which has gone may be used
again. Memories compare the addresses of what is behind the counters. As no two objects overlap
while both are there, and each has counters of its own, objects of no bytes included, the addresses
differ whenever the objects do.
-/

namespace LargeBuffers

attribute [ext] Memory

/-- Where an object lies: `size` bytes from `base` on, the first `header` of them its counters. -/
structure Site where
  base : UInt64
  header : UInt64
  size : UInt64
  header_pos : 0 < header.toNat
  header_le : header.toNat ≤ size.toNat
  fits : base.toNat + size.toNat < UInt64.size

namespace Site

def value (σ : Site) : UInt64 := σ.base + σ.header

def Apart (σ τ : Site) : Prop :=
  σ.base.toNat + σ.size.toNat ≤ τ.base.toNat ∨ τ.base.toNat + τ.size.toNat ≤ σ.base.toNat

variable {σ τ : Site}

instance : DecidableRel Apart := fun σ τ =>
  inferInstanceAs (Decidable (σ.base.toNat + σ.size.toNat ≤ τ.base.toNat ∨
    τ.base.toNat + τ.size.toNat ≤ σ.base.toNat))

theorem Apart.symm (h : σ.Apart τ) : τ.Apart σ := Or.symm h

theorem toNat_value (σ : Site) : σ.value.toNat = σ.base.toNat + σ.header.toNat :=
  (UInt64.toNat_add ..).trans
    (Nat.mod_eq_of_lt ((Nat.add_le_add_left σ.header_le _).trans_lt σ.fits))

/-- The last counter byte, just before the address, belongs to one object only. -/
theorem Apart.value_ne (h : σ.Apart τ) : σ.value ≠ τ.value := by
  intro he
  have hv : σ.base.toNat + σ.header.toNat = τ.base.toNat + τ.header.toNat := by
    rw [← σ.toNat_value, ← τ.toNat_value, he]
  have hσ := σ.header_pos
  have hσ' := σ.header_le
  have hτ := τ.header_pos
  have hτ' := τ.header_le
  obtain h | h := h <;> omega

end Site

abbrev Sites := Backing → Option Site

namespace Sites

def nowhere : Sites := fun _ => none

variable (ρ : Sites)

/-- What a memory compares of its backing. Addresses of arrays and of managers are not told
apart. -/
def identity : Backing → Option UInt64
  | .nothing => none
  | b => (ρ b).map Site.value

def hashed (m : Memory) : Option UInt64 × UInt64 × UInt64 :=
  (ρ.identity m.backing, m.start, m.len)

def same (m₁ m₂ : Memory) : Bool :=
  ρ.identity m₁.backing == ρ.identity m₂.backing && m₁.start == m₂.start && m₁.len == m₂.len

def Apart : Prop := Pairwise fun b b' => ∀ σ σ', ρ b = some σ → ρ b' = some σ' → σ.Apart σ'

variable {ρ}

theorem same_iff {m₁ m₂ : Memory} : ρ.same m₁ m₂ = true ↔ ρ.hashed m₁ = ρ.hashed m₂ := by
  simp [same, hashed, and_assoc]

theorem equivalence_same (ρ : Sites) : Equivalence fun m₁ m₂ => ρ.same m₁ m₂ = true := by
  simp only [same_iff]
  exact eq_equivalence.comap ρ.hashed

theorem identity_eq_value {b : Backing} {σ : Site} (hb : b ≠ .nothing) (hσ : ρ b = some σ) :
    ρ.identity b = some σ.value := by
  cases b with
  | nothing => exact absurd rfl hb
  | array | manager => simp only [identity, hσ, Option.map_some]

/-- The sites when an object is made and of the others only some stay. -/
def place (ρ : Sites) (b : Backing) (σ : Site) (stays : List Backing) : Sites :=
  fun b' => if b' = b then some σ else if b' ∈ stays then ρ b' else none

theorem place_eq_some_iff {b b' : Backing} {σ τ : Site} {stays : List Backing} :
    ρ.place b σ stays b' = some τ ↔ b' = b ∧ σ = τ ∨ b' ≠ b ∧ b' ∈ stays ∧ ρ b' = some τ := by
  by_cases hb : b' = b
  · simp [place, hb]
  · by_cases hs : b' ∈ stays
    · simp [place, hb, hs]
    · simp [place, hb, hs]

end Sites

/-- The object that a handle points to. A manager that is held alone lies in its handle. -/
def Handle.target : Handle → Backing
  | manager _ => .nothing
  | x => x.backing

theorem Handle.target_of_memory? {x : Handle} {a : Access} {m : Memory}
    (hm : x.memory? = some (a, m)) : x.target = m.backing := by
  cases x <;> cases hm <;> rfl

namespace Session

def Points (s : Session) (b : Backing) : Prop :=
  ∃ slot x, s.slots.get? slot = some x ∧ x.target = b

theorem Points.mem {s : Session} {b : Backing} (h : s.Points b) :
    b ∈ s.slots.map (·.2.target) := by
  obtain ⟨slot, x, hs, rfl⟩ := h
  exact List.mem_map_of_mem (Directory.mem_of_get? hs)

def Has (s : Session) (slot : String) (m : Memory) : Prop :=
  ∃ x a, s.slots.get? slot = some x ∧ x.memory? = some (a, m)

theorem Has.points {s : Session} {slot : String} {m : Memory} (h : s.Has slot m) :
    s.Points m.backing := by
  obtain ⟨x, a, hs, hm⟩ := h
  exact ⟨slot, x, hs, Handle.target_of_memory? hm⟩

/-- How sites change with an operation that leads to `s'`: an object that a handle points to has
one, it stays there until it goes, and what takes a site stays clear of all that have one then. -/
structure Settles (s' : Session) (ρ ρ' : Sites) : Prop where
  present : ∀ b, b ≠ .nothing → s'.Points b → ρ' b ≠ none
  still : ∀ b, ρ b ≠ none → ρ' b ≠ none → ρ' b = ρ b
  clear : ∀ b b' σ σ', b ≠ b' → ρ b = none → ρ' b = some σ → ρ' b' = some σ' → σ.Apart σ'

theorem Settles.apart {s' : Session} {ρ ρ' : Sites} (h : s'.Settles ρ ρ') (hρ : ρ.Apart) :
    ρ'.Apart := by
  intro b b' hne σ σ' hσ hσ'
  -- A site that is new is clear of all others, and two old ones are where they were.
  rcases hb : ρ b with _ | τ
  · exact h.clear b b' σ σ' hne hb hσ hσ'
  · rcases hb' : ρ b' with _ | τ'
    · exact (h.clear b' b σ' σ hne.symm hb' hσ' hσ).symm
    · have hs : ρ' b = ρ b := h.still b (hb ▸ nofun) (hσ ▸ nofun)
      have hs' : ρ' b' = ρ b' := h.still b' (hb' ▸ nofun) (hσ' ▸ nofun)
      exact hρ hne σ σ' (hs ▸ hσ) (hs' ▸ hσ')

/-- The sites that objects can have after some operations. -/
inductive Settled (p : Platform) (e : Element) : List Op → Sites → Prop
  | initial : Settled p e [] .nowhere
  | next {ops : List Op} {ρ ρ' : Sites} (op : Op) : Settled p e ops ρ →
      ((start e).after p (ops ++ [op])).Settles ρ ρ' → Settled p e (ops ++ [op]) ρ'

namespace Settled

variable {p : Platform} {e : Element} {ops : List Op} {ρ : Sites} {b b' : Backing}
  {m₁ m₂ : Memory} (h : Settled p e ops ρ)

include h

theorem apart : ρ.Apart := by
  induction h with
  | initial => exact fun _ _ _ _ _ hσ => nomatch hσ
  | next op _ hs ih => exact hs.apart ih

theorem exists_value (hn : b ≠ .nothing) (hb : ((start e).after p ops).Points b) :
    ∃ σ, ρ b = some σ ∧ ρ.identity b = some σ.value := by
  cases h with
  | initial =>
    obtain ⟨slot, x, hx, -⟩ := hb
    cases hx
  | next op _ hs =>
    obtain ⟨σ, hσ⟩ := Option.ne_none_iff_exists'.mp (hs.present b hn hb)
    exact ⟨σ, hσ, Sites.identity_eq_value hn hσ⟩

theorem identity_inj (hb : ((start e).after p ops).Points b)
    (hb' : ((start e).after p ops).Points b') (he : ρ.identity b = ρ.identity b') : b = b' := by
  by_cases hn : b = .nothing
  · by_cases hn' : b' = .nothing
    · exact hn.trans hn'.symm
    · obtain ⟨σ, -, hσ⟩ := h.exists_value hn' hb'
      rw [hn, hσ] at he
      cases he
  · by_cases hn' : b' = .nothing
    · obtain ⟨σ, -, hσ⟩ := h.exists_value hn hb
      rw [hn', hσ] at he
      cases he
    · obtain ⟨σ, hρ, hσ⟩ := h.exists_value hn hb
      obtain ⟨σ', hρ', hσ'⟩ := h.exists_value hn' hb'
      by_contra hne
      rw [hσ, hσ'] at he
      exact (h.apart hne σ σ' hρ hρ').value_ne (Option.some.inj he)

theorem same_iff_eq (h₁ : ((start e).after p ops).Points m₁.backing)
    (h₂ : ((start e).after p ops).Points m₂.backing) : ρ.same m₁ m₂ = true ↔ m₁ = m₂ := by
  rw [Sites.same_iff]
  constructor
  · intro he
    obtain ⟨hi, hr⟩ := Prod.mk.inj he
    obtain ⟨hs, hl⟩ := Prod.mk.inj hr
    exact Memory.ext (h.identity_inj h₁ h₂ hi) hs hl
  · rintro rfl
    rfl

/-- A new object can be put anywhere clear of the ones that stay, also where one has gone. -/
theorem place (op : Op) {σ : Site} {stays : List Backing} (hb : ρ b = none)
    (hσ : ∀ b' ∈ stays, ∀ σ' ∈ ρ b', σ.Apart σ')
    (hp : ∀ b' ∈ ((start e).after p (ops ++ [op])).slots.map (·.2.target),
      b' = .nothing ∨ b' = b ∨ b' ∈ stays ∧ ρ b' ≠ none) :
    Settled p e (ops ++ [op]) (ρ.place b σ stays) := by
  refine h.next op ⟨fun b' hn hb' => ?_, fun b' hρ hρ' => ?_, fun b₁ b₂ σ₁ σ₂ hne h₁ h₂ h₃ => ?_⟩
  · rw [Option.ne_none_iff_exists']
    by_cases he : b' = b
    · exact ⟨σ, Sites.place_eq_some_iff.mpr (.inl ⟨he, rfl⟩)⟩
    · obtain ⟨hs, hρ⟩ := ((hp b' hb'.mem).resolve_left hn).resolve_left he
      obtain ⟨τ, hτ⟩ := Option.ne_none_iff_exists'.mp hρ
      exact ⟨τ, Sites.place_eq_some_iff.mpr (.inr ⟨he, hs, hτ⟩)⟩
  · obtain ⟨τ, hτ⟩ := Option.ne_none_iff_exists'.mp hρ'
    obtain ⟨rfl, -⟩ | ⟨-, -, hb'⟩ := Sites.place_eq_some_iff.mp hτ
    · exact absurd hb hρ
    · exact hτ.trans hb'.symm
  · obtain ⟨rfl, rfl⟩ | ⟨-, -, hb₁⟩ := Sites.place_eq_some_iff.mp h₂
    · obtain ⟨rfl, -⟩ | ⟨-, hs, hb₂⟩ := Sites.place_eq_some_iff.mp h₃
      · exact absurd rfl hne
      · exact hσ b₂ hs σ₂ hb₂
    · cases h₁.symm.trans hb₁

theorem keep (op : Op) (hp : ∀ b ∈ ((start e).after p (ops ++ [op])).slots.map (·.2.target),
    b = .nothing ∨ ρ b ≠ none) : Settled p e (ops ++ [op]) ρ :=
  h.next op ⟨fun b hn hb => (hp b hb.mem).resolve_left hn, fun _ _ _ => rfl,
    fun _ _ _ _ _ h₁ h₂ => nomatch h₁.symm.trans h₂⟩

end Settled

end Session

end LargeBuffers
