import Mathlib.Data.Multiset.Count
import LargeBuffers.Proofs.Directory
import LargeBuffers.Session.Step

/-! # Estates

An estate is a store together with all handles to it, under whatever names they are held. What
an operation of a session does to the estate is of three kinds: a deed makes, converts or
disposes of something, a writing replaces bytes of one block, and a loss is the end of one handle.
Apart from these the gauge can be set from outside.
-/

namespace LargeBuffers

structure Estate where
  store : Store
  storages : List BlockId
  recorders : List RecorderId
  handles : Multiset Handle

namespace Estate

variable (e : Estate)

def holders (b : Backing) : Nat :=
  e.handles.countP (·.backing = b) + if b = .manager nullSingleton then 1 else 0

def sole (b : Backing) : Bool := e.holders b == 1

def viewMutOf (h : Handle) : Except Failure View :=
  match h.writable?, h with
  | some m, _ => e.store.viewMut m (e.sole m.backing)
  | none, .manager k => Failure.lift (e.store.managerView k)
  | none, .shared k =>
    if e.sole (.manager k) then Failure.lift (e.store.managerView k) else .error .shared
  | none, _ => .error .badSlot

/-- The store after a handle to a manager went and the handles of the estate are left. -/
def retire (m : ManagerId) : Store :=
  if e.holders (.manager m) = 0 then e.store.giveUp m else e.store

/-- The store after the end of a handle that is no longer one of the estate. -/
def discard (h : Handle) : Store :=
  match h with
  | .raw r => e.store.dropRaw r
  | .importation i => e.store.dropReference i
  | _ =>
    match h.backing with
    | .manager m => e.retire m
    | _ => e.store

end Estate

inductive Store.Part (st : Store) : Handle → Memory → Prop
  | memory {h : Handle} {a : Access} {m : Memory} {start length : UInt64} :
      h.memory? = some (a, m) → checkRange m.len start length = .ok () →
      Part st h (m.sub start length)
  | array {b : BlockId} {start length : UInt64} :
      checkRange (st.contentsOf b).count start length = .ok () →
      Part st (.array b) ⟨.array b, start, length⟩
  | manager {k : ManagerId} : Part st (.shared k) ⟨.manager k, 0, st.managerLength k⟩

inductive Store.Derived (st : Store) : Handle → Handle → Prop
  | array {b : BlockId} : Derived st (.array b) (.array b)
  | shared {h : Handle} {k : ManagerId} : h.manager? = some k → Derived st h (.shared k)
  | memory {h h' : Handle} {a : Access} {m : Memory} :
      st.Part h m → h'.memory? = some (a, m) → Derived st h h'

/-- The handles to what is there before anything is made. -/
inductive Store.Standing (st : Store) : Handle → Prop
  | memory {h : Handle} {a : Access} : h.memory? = some (a, .empty) → Standing st h
  | singleton : Standing st (.shared nullSingleton)
  | owner : Standing st (.owner ⟨.manager nullSingleton, 0, st.managerLength nullSingleton⟩)
  | allocator : Standing st (.allocator defaultAllocator)

/-- Alignments are powers of two. -/
def Supply.Proper : Supply → Prop
  | .native alignment => isPowerOfTwo alignment = true
  | .metered .. => True

theorem proper_of_checkAlignment {n alignment : UInt64} (h : checkAlignment n = .ok alignment) :
    (Supply.native alignment).Proper := by
  obtain ⟨⟨⟩, hv, hn⟩ := bind_eq_ok_iff.mp h
  obtain rfl : n = alignment := Except.ok.inj hn
  exact verifyArgument_eq_ok_iff.mp hv

inductive Estate.Makes (p : Platform) (e : Estate) : Store → Prop
  | null : Makes p e (e.store.addManager .null)
  | array {c : Contents} : c.fits e.store.element → Makes p e (e.store.addArrayManager c)
  | probe {c : Contents} {claim : Option UInt64} {state : Lifecycle} {exposesArray : Bool} :
      c.fits e.store.element → Makes p e (e.store.addProbe c claim state exposesArray)
  | native {b : BlockId} {o : RecorderId} {offset length : UInt64} :
      e.store.element = .u8 → b ∈ e.storages → o ∈ e.recorders →
      checkRange (e.store.contentsOf b).count offset length = .ok () →
      Makes p e (e.store.addNative ⟨b, offset, length, .recorder o⟩)
  | imported {b : BlockId} {i : ImportationId} {offset length : UInt64} {st : Store} :
      e.store.element = .u8 → b ∈ e.storages → .importation i ∈ e.handles →
      checkRange (e.store.contentsOf b).count offset length = .ok () →
      e.store.addAlias i b offset length = (.ok (), st) → Makes p e st
  | buffer {a : AllocatorId} {length : UInt64} {st : Store} :
      e.store.element = .u8 → .allocator a ∈ e.handles →
      e.store.allocate p a length = (.ok (), st) → Makes p e st

inductive Store.Whole (st : Store) (k : ManagerId) : Handle → Prop
  | manager : Whole st k (.manager k)
  | shared : Whole st k (.shared k)
  | owner : Whole st k (.owner ⟨.manager k, 0, st.managerLength k⟩)

theorem Handle.backing_of_memory? {h : Handle} {a : Access} {m : Memory}
    (hm : h.memory? = some (a, m)) : h.backing = m.backing := by
  cases h <;> cases hm <;> rfl

theorem Handle.backing_of_manager? {h : Handle} {k : ManagerId} (hk : h.manager? = some k) :
    h.backing = .manager k := by
  cases h <;> cases hk <;> rfl

theorem Handle.manager?_of_memory? {h : Handle} {x : Access × Memory} (hm : h.memory? = some x) :
    h.manager? = none := by
  cases h with
  | shared | manager => cases hm
  | _ => rfl

namespace Store

variable {st : Store} {h h' : Handle}

theorem Part.backing_eq {m : Memory} (hp : st.Part h m) : m.backing = h.backing := by
  cases hp with
  | memory hm => exact (Handle.backing_of_memory? hm).symm
  | array | manager => rfl

theorem Derived.backing_eq (hd : st.Derived h h') : h'.backing = h.backing := by
  cases hd with
  | array => rfl
  | shared hk => cases h <;> cases hk <;> rfl
  | memory hp hm => exact (Handle.backing_of_memory? hm).trans hp.backing_eq

theorem Derived.ne_manager (hd : st.Derived h h') (k : ManagerId) : h' ≠ .manager k := by
  rintro rfl
  cases hd with
  | memory _ hm => cases hm

theorem Standing.backing_eq (hs : st.Standing h) :
    h.backing = .nothing ∨ h.backing = .manager nullSingleton := by
  cases hs with
  | memory hm => exact .inl (Handle.backing_of_memory? hm)
  | allocator => exact .inl rfl
  | singleton | owner => exact .inr rfl

theorem Standing.ne_manager (hs : st.Standing h) (k : ManagerId) : h ≠ .manager k := by
  rintro rfl
  cases hs with
  | memory hm => cases hm

theorem Whole.backing_eq {k : ManagerId} (hw : st.Whole k h) : h.backing = .manager k := by
  cases hw <;> rfl

end Store

namespace Estate

/-- What is made, converted or disposed of by one operation. -/
inductive Deed (p : Platform) (e : Estate) : Estate → Prop
  | nothing : Deed p e e
  | derive {h h' : Handle} : h ∈ e.handles → (∀ k, h ≠ .manager k) → e.store.Derived h h' →
      Deed p e { e with handles := h' ::ₘ e.handles }
  | convert {h h' : Handle} {hs : Multiset Handle} :
      e.handles = h ::ₘ hs → e.store.Derived h h' → Deed p e { e with handles := h' ::ₘ hs }
  | standing {h : Handle} : e.store.Standing h → Deed p e { e with handles := h ::ₘ e.handles }
  | array {c : Contents} {h : Handle} : c.fits e.store.element →
      (h = .array e.store.blocks.length ∨
        ∃ a, h.memory? = some (a, ⟨.array e.store.blocks.length, 0, c.count⟩)) →
      Deed p e { e with store := e.store.addContents c, handles := h ::ₘ e.handles }
  | storage {c : Contents} {storages : List BlockId} : c.fits .u8 →
      (∀ b ∈ storages, b ∈ e.storages ∨ b = e.store.blocks.length) →
      Deed p e { e with store := e.store.addContents c, storages }
  | recorder {exclusive : Bool} {recorders : List RecorderId} :
      (∀ o ∈ recorders, o ∈ e.recorders ∨ o = e.store.recorders.length) →
      Deed p e { e with store := e.store.addRecorder exclusive, recorders }
  | importation : e.store.element = .u8 → Deed p e
      { e with
        store := e.store.addImportation
        handles := .importation e.store.importations.length ::ₘ e.handles }
  | allocator {supply : Supply} : e.store.element = .u8 → supply.Proper → Deed p e
      { e with
        store := e.store.addAllocator supply
        handles := .allocator e.store.allocators.length ::ₘ e.handles }
  | manager {st : Store} {h : Handle} : e.Makes p st → st.Whole e.store.managers.length h →
      Deed p e { e with store := st, handles := h ::ₘ e.handles }
  | handOff {k : ManagerId} {r : RegionId} {st : Store} : .manager k ∈ e.handles →
      e.store.handOff k = (some r, st) →
      Deed p e { e with store := st, handles := .raw r ::ₘ e.handles }
  | rewrap {r : RegionId} {hs : Multiset Handle} : e.handles = .raw r ::ₘ hs → Deed p e
      { e with
        store := e.store.addManager (.native r true)
        handles := .manager e.store.managers.length ::ₘ hs }
  | dispose {h : Handle} {k : ManagerId} : h ∈ e.handles → h.manager? = some k →
      (h = .manager k ∨ e.sole (.manager k)) → Deed p e { e with store := e.store.dispose k }
  | disposeOwner {m : Memory} {k : ManagerId} {hs : Multiset Handle} :
      e.handles = .owner m ::ₘ hs → m.backing = .manager k → e.sole (.manager k) →
      Deed p e { e with store := e.store.dispose k, handles := hs }
  | calls {events : List Event} :
      (∀ x ∈ events, (∃ k i, x = .pinned k i) ∨ ∃ k, x = .unpinned k) →
      Deed p e { e with store := { e.store with journal := e.store.journal ++ events } }

inductive Writing (e : Estate) (h : Handle) : Estate → Prop
  | program {v : View} {prog : Program} : h ∈ e.handles → e.viewMutOf h = .ok v →
      Writing e h { e with store := e.store.write v (e.store.runOn v .writable prog).2 }
  | copy {v v' : View} {h' : Handle} {a : Access} {m : Memory} : h ∈ e.handles →
      e.viewMutOf h = .ok v' → h' ∈ e.handles → h'.memory? = some (a, m) →
      e.store.view m = .ok v → checkCopy v.window.len v'.window.len = .ok () →
      Writing e h { e with
        store := e.store.write v'
          (v'.window.write (e.store.read v).bytes (e.store.bytesOf v')) }

/-- The end of one handle. -/
inductive Loss (e : Estate) : Estate → Prop
  | mk {h : Handle} {hs : Multiset Handle} : e.handles = h ::ₘ hs →
      Loss e { e with store := { e with handles := hs }.discard h, handles := hs }

def gauged (e : Estate) (gauge : UInt64) : Estate := { e with store := { e.store with gauge } }

abbrev Losses : Estate → Estate → Prop := Relation.ReflTransGen Loss

end Estate

namespace Session

variable (s : Session)

def estate : Estate where
  store := s.store
  storages := s.storages.map (·.2)
  recorders := s.recorders.map (·.2)
  handles := s.slots.entries

@[simp]
theorem estate_store : s.estate.store = s.store := rfl

end Session

end LargeBuffers
