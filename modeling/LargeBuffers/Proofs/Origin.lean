import LargeBuffers.Proofs.Extent

/-! # Where backings come from

What a handle refers to after an operation was referred to before, or is there in every session, or
has a number that was not in use. So an object to which no handle refers is gone for good: its
number is never given to another one.
-/

namespace LargeBuffers

def Store.Knows (st : Store) : Backing → Prop
  | .nothing => True
  | .array b => b < st.blocks.length
  | .manager k => k < st.managers.length

theorem Store.Grows.knows {st st' : Store} {b : Backing} (hg : st.Grows st') (h : st.Knows b) :
    st'.Knows b := by
  rcases b with _ | j | k
  · trivial
  · obtain ⟨block, hb, -⟩ := hg.blocks (List.getElem?_eq_getElem h)
    exact (List.getElem?_eq_some_iff.mp hb).1
  · obtain ⟨m, hm, -⟩ := hg.managers (List.getElem?_eq_getElem h)
    exact (List.getElem?_eq_some_iff.mp hm).1

namespace Estate

variable {p : Platform} {e e' : Estate} {x : Handle} {b : Backing}

theorem Regular.knows (hr : e.Regular) (hx : x ∈ e.handles) : e.store.Knows x.backing := by
  obtain ⟨roles, hl⟩ := hr.layout
  rcases hb : x.backing with _ | j | k
  · trivial
  · exact hl.size.subst (List.getElem?_eq_some_iff.mp (hl.handle hx hb)).1
  · exact hr.order.tenure.known hx hb

inductive Origin (e : Estate) : Backing → Prop
  | old {y : Handle} : y ∈ e.handles → Origin e y.backing
  | nothing : Origin e .nothing
  | singleton : Origin e (.manager nullSingleton)
  | array : Origin e (.array e.store.blocks.length)
  | manager : Origin e (.manager e.store.managers.length)

theorem Deed.origin (hd : e.Deed p e') : ∀ x ∈ e'.handles, e.Origin x.backing := by
  have hcons : ∀ {y : Handle} {hs : Multiset Handle}, e.Origin y.backing → hs ≤ e.handles →
      ∀ x ∈ y ::ₘ hs, e.Origin x.backing := by
    intro y hs hy hsub x hx
    obtain rfl | hx := Multiset.mem_cons.mp hx
    · exact hy
    · exact .old (Multiset.mem_of_le hsub hx)
  have htail : ∀ {y : Handle} {hs : Multiset Handle}, e.handles = y ::ₘ hs → hs ≤ e.handles :=
    fun he => he ▸ Multiset.le_cons_self ..
  cases hd with
  | nothing | storage | recorder | dispose | calls => exact fun _ hx => .old hx
  | derive hy _ hd => exact hcons (hd.backing_eq ▸ .old hy) le_rfl
  | convert he hd =>
    exact hcons (hd.backing_eq ▸ .old (he ▸ Multiset.mem_cons_self ..)) (htail he)
  | standing hs =>
    refine hcons ?_ le_rfl
    obtain hb | hb := hs.backing_eq
    · exact hb ▸ .nothing
    · exact hb ▸ .singleton
  | array _ hx =>
    refine hcons ?_ le_rfl
    obtain rfl | ⟨a, hm⟩ := hx
    · exact .array
    · exact Handle.backing_of_memory? hm ▸ .array
  | importation | allocator | handOff => exact hcons .nothing le_rfl
  | manager _ hw => exact hcons (hw.backing_eq ▸ .manager) le_rfl
  | rewrap he => exact hcons .manager (htail he)
  | disposeOwner he => exact fun _ hx => .old (Multiset.mem_of_le (htail he) hx)

/-- The object was made, and no handle refers to it. -/
structure Gone (b : Backing) (e : Estate) : Prop where
  knows : e.store.Knows b
  unheld : ∀ x ∈ e.handles, x.backing ≠ b

/-- What is gone stays so, unless it is there in every session. -/
theorem stable_gone (p : Platform) (hn : b ≠ .nothing) (hs : b ≠ .manager nullSingleton) :
    Stable p (Gone b) where
  deed h hd := by
    refine ⟨hd.grows.knows h.knows, ?_⟩
    rintro x hx rfl
    have hk := h.knows
    generalize hb : x.backing = b at *
    cases hb ▸ hd.origin x hx with
    | old hy => exact h.unheld _ hy rfl
    | nothing => exact hn rfl
    | singleton => exact hs rfl
    | array | manager => exact lt_irrefl _ hk
  loss h hl := ⟨hl.grows.knows h.knows, fun x hx => h.unheld x (hl.mem hx)⟩
  writing h hw := by
    refine ⟨hw.grows.knows h.knows, ?_⟩
    obtain ⟨blocks, rfl⟩ := hw.frame
    exact h.unheld
  gauge h := ⟨(Store.grows_gauge ..).knows h.knows, h.unheld⟩

end Estate

end LargeBuffers
