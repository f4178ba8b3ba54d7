import LargeBuffers.Store

/-! # Releasing native regions

A region leaves its holder, a manager or a raw allocation, exactly once: the holder gives it up
to the owner, or a manager hands it off to a raw allocation.
-/

namespace LargeBuffers.Store

/-- One reference to an importation goes; with the last one all its aliases stop counting. -/
def dropReference (s : Store) (i : ImportationId) : Store :=
  match s.importations[i]? with
  | none => s
  | some imp =>
    let s₁ := { imp with references := imp.references - 1 }
    if imp.references = 1 then
      ((s.setImportation i { s₁ with tracked := 0 }).lowerGauge imp.tracked).note
        (.finalRelease i imp.tracked)
    else s.setImportation i s₁

/-- An allocator takes back a buffer of `len` usable bytes. The size to return is formed again
from the length and the alignment. -/
def free (s : Store) (a : AllocatorId) (len : UInt64) : Store :=
  match s.allocators[a]? with
  | none => s
  | some al =>
    let size := len + al.supply.alignment
    if size ≤ maxBytes then
      ((s.setAllocator a { al with statistics := al.statistics.recordRelease size }).lowerGauge
        size).note (.freed a size)
    else s.note (.unfreed a size)

def release (s : Store) (r : RegionId) (g : Region) : Store :=
  let s := s.note (.released r g)
  match g.owner with
  | .recorder _ => s
  | .allocator a => s.free a g.len
  | .importation i => s.dropReference i

/-- A manager gives up its storage if it is a native one that still holds it. -/
def giveUp (s : Store) (m : ManagerId) : Store :=
  match s.managers[m]? with
  | some (.native r true) =>
    match s.regions[r]? with
    | some g => ((s.setManager m (.native r false)).note (.releasing g.len)).release r g
    | none => s
  | _ => s

def dispose (s : Store) (m : ManagerId) : Store :=
  match s.managers[m]? with
  | some (.array b _) => s.setManager m (.array b false)
  | some (.native ..) => s.giveUp m
  | some (.probe p) =>
    (s.setManager m (.probe (if p.state = .live then { p with state := .released } else p))).note
      (.disposed m)
  | _ => s

def dropRaw (s : Store) (r : RegionId) : Store :=
  match s.regions[r]? with
  | some g => (s.note (.dropped g.len)).release r g
  | none => s

def exclusive (s : Store) : Owner → Bool
  | .recorder o => s.recorders.getD o false
  | .allocator _ => true
  | .importation _ => false

/-- The region that a native manager hands off, if it still holds one of an exclusive owner. -/
def handOff (s : Store) (m : ManagerId) : Option RegionId × Store :=
  match s.managers[m]? with
  | some (.native r true) =>
    match s.regions[r]? with
    | some g =>
      if s.exclusive g.owner then
        (some r, (s.setManager m (.native r false)).note (.handedOff g.len))
      else (none, s)
    | none => (none, s)
  | _ => (none, s)

theorem handOff_eq_some {s st : Store} {m : ManagerId} {r : RegionId}
    (h : s.handOff m = (some r, st)) :
    ∃ g, s.managers[m]? = some (.native r true) ∧ s.regions[r]? = some g ∧
      s.exclusive g.owner = true ∧
      st = (s.setManager m (.native r false)).note (.handedOff g.len) := by
  unfold handOff at h
  repeat' split at h
  all_goals cases h
  exact ⟨_, ‹_›, ‹_›, ‹_›, rfl⟩

theorem handOff_eq_none {s st : Store} {m : ManagerId} (h : s.handOff m = (none, st)) :
    st = s := by
  unfold handOff at h
  repeat' split at h
  all_goals cases h
  all_goals rfl

end LargeBuffers.Store
