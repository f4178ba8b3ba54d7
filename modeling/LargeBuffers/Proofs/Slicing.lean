import LargeBuffers.Proofs.Coherence

/-! # Chains of slices

Memories, their spans and windows are all cut in the same way: the offset of a slice of a slice is
the sum of both offsets. So a chain of slices of a memory shows what the same chain shows of its
span, or is refused at the same step for the same reason.
-/

namespace LargeBuffers

/-- A step of a chain of slices. -/
inductive Cut where
  | slice (start length : UInt64)
  | tail (start : UInt64)
  deriving DecidableEq, Repr

/-- What has a length and parts. Whether a part is there depends on the length only, and a part of
a part lies at the sum of both offsets. -/
class Sliceable (α : Type) where
  len : α → UInt64
  sub : α → UInt64 → UInt64 → α
  slice : α → UInt64 → UInt64 → Except Error α
  sliceFrom : α → UInt64 → Except Error α
  len_sub : ∀ x start length, len (sub x start length) = length
  sub_self : ∀ x, sub x 0 (len x) = x
  sub_sub : ∀ x start length start' length',
    sub (sub x start length) start' length' = sub x (start + start') length'
  slice_eq : ∀ x start length, slice x start length = do
    checkRange (len x) start length
    return sub x start length
  sliceFrom_eq : ∀ x start, sliceFrom x start = do
    checkStart (len x) start
    return sub x start (len x - start)

namespace Cut

def start : Cut → UInt64
  | slice start _ | tail start => start

def lengthIn (len : UInt64) : Cut → UInt64
  | slice _ length => length
  | tail start => len - start

def check (len : UInt64) : Cut → Except Error Unit
  | slice start length => checkRange len start length
  | tail start => checkStart len start

theorem checkRange_of_check {len : UInt64} {c : Cut} (h : c.check len = .ok ()) :
    checkRange len c.start (c.lengthIn len) = .ok () := by
  cases c with
  | slice start length => exact h
  | tail start => exact checkRange_of_checkStart h

/-! ## Chains -/

def checkAll : List Cut → UInt64 → Except Error Unit
  | [], _ => .ok ()
  | c :: cs, len => do
    c.check len
    checkAll cs (c.lengthIn len)

/-- The sum of the starts. It does not wrap. -/
def offset (cs : List Cut) : ℕ := (cs.map fun c => c.start.toNat).sum

theorem offset_append (cs cs' : List Cut) : offset (cs ++ cs') = offset cs + offset cs' := by
  simp [offset]

def lengthAfter (cs : List Cut) (len : UInt64) : UInt64 :=
  cs.foldl (fun len c => c.lengthIn len) len

def passed : List Cut → UInt64 → ℕ
  | [], _ => 0
  | c :: cs, len =>
    match c.check len with
    | .ok _ => passed cs (c.lengthIn len) + 1
    | .error _ => 0

/-- Each step asks for a part of what the steps before it leave of `n` values. -/
def Fits : List Cut → ℕ → Prop
  | [], _ => True
  | slice start length :: cs, n => start.toNat + length.toNat ≤ n ∧ Fits cs length.toNat
  | tail start :: cs, n => start.toNat ≤ n ∧ Fits cs (n - start.toNat)

variable {c : Cut} {cs : List Cut} {len : UInt64}

theorem checkAll_cons (hc : c.check len = .ok ()) :
    checkAll (c :: cs) len = checkAll cs (c.lengthIn len) := by
  rw [checkAll, hc]
  rfl

theorem passed_cons (hc : c.check len = .ok ()) :
    passed (c :: cs) len = passed cs (c.lengthIn len) + 1 := by
  rw [passed, hc]

theorem passed_cons_of_error {err : Error} (hc : c.check len = .error err) :
    passed (c :: cs) len = 0 := by
  rw [passed, hc]

theorem checkAll_cons_eq_ok_iff : checkAll (c :: cs) len = .ok () ↔
    c.check len = .ok () ∧ checkAll cs (c.lengthIn len) = .ok () := by
  constructor
  · intro h
    obtain ⟨⟨⟩, hc, hcs⟩ := bind_eq_ok_iff.mp h
    exact ⟨hc, hcs⟩
  · rintro ⟨hc, hcs⟩
    exact (checkAll_cons hc).trans hcs

/-- The checks of a chain pass as if they were made of numbers that do not wrap. -/
theorem checkAll_eq_ok_iff : checkAll cs len = .ok () ↔ Fits cs len.toNat := by
  induction cs generalizing len with
  | nil => exact iff_of_true rfl trivial
  | cons c cs ih =>
    rw [checkAll_cons_eq_ok_iff, ih]
    cases c with
    | slice start length => exact and_congr_left' checkRange_eq_ok_iff
    | tail start =>
      have hc : (tail start).check len = .ok () ↔ start ≤ len := by
        simp [check, checkStart, verifyRange_eq_ok_iff]
      rw [hc]
      constructor
      · rintro ⟨hs, hf⟩
        rw [lengthIn, UInt64.toNat_sub_of_le _ _ hs] at hf
        exact ⟨UInt64.le_iff_toNat_le.mp hs, hf⟩
      · rintro ⟨hs, hf⟩
        have hs := UInt64.le_iff_toNat_le.mpr hs
        rw [lengthIn, UInt64.toNat_sub_of_le _ _ hs]
        exact ⟨hs, hf⟩

theorem offset_add_le (h : checkAll cs len = .ok ()) :
    offset cs + (lengthAfter cs len).toNat ≤ len.toNat := by
  induction cs generalizing len with
  | nil => exact (Nat.zero_add _).le
  | cons c cs ih =>
    obtain ⟨hc, hcs⟩ := checkAll_cons_eq_ok_iff.mp h
    have hr := checkRange_eq_ok_iff.mp (checkRange_of_check hc)
    have ho : offset (c :: cs) = c.start.toNat + offset cs := rfl
    have hl : lengthAfter (c :: cs) len = lengthAfter cs (c.lengthIn len) := rfl
    have := ih hcs
    rw [ho, hl]
    omega

theorem toNat_ofNat_offset (h : checkAll cs len = .ok ()) :
    (UInt64.ofNat (offset cs)).toNat = offset cs :=
  UInt64.toNat_ofNat_of_lt'
    (((Nat.le_add_right ..).trans (offset_add_le h)).trans_lt len.toNat_lt_size)

theorem checkRange_of_checkAll (h : checkAll cs len = .ok ()) :
    checkRange len (UInt64.ofNat (offset cs)) (lengthAfter cs len) = .ok () := by
  rw [checkRange_eq_ok_iff, toNat_ofNat_offset h]
  exact offset_add_le h

section Sliceable

variable {α : Type} [Sliceable α] {x y : α} {err : Error}

def apply (x : α) : Cut → Except Error α
  | slice start length => Sliceable.slice x start length
  | tail start => Sliceable.sliceFrom x start

def applyAll (cs : List Cut) (x : α) : Except Error α := cs.foldlM apply x

theorem apply_eq (c : Cut) (x : α) : c.apply x =
    (c.check (Sliceable.len x)).map fun _ =>
      Sliceable.sub x c.start (c.lengthIn (Sliceable.len x)) := by
  cases c with
  | slice start length =>
    refine (Sliceable.slice_eq ..).trans ?_
    simp only [check]
    cases checkRange (Sliceable.len x) start length <;> rfl
  | tail start =>
    refine (Sliceable.sliceFrom_eq ..).trans ?_
    simp only [check]
    cases checkStart (Sliceable.len x) start <;> rfl

theorem apply_eq_ok_iff : c.apply x = .ok y ↔ c.check (Sliceable.len x) = .ok () ∧
    Sliceable.sub x c.start (c.lengthIn (Sliceable.len x)) = y := by
  rw [apply_eq]
  cases c.check (Sliceable.len x) <;> simp [Except.map]

theorem apply_eq_error_iff :
    c.apply x = .error err ↔ c.check (Sliceable.len x) = .error err := by
  rw [apply_eq]
  cases c.check (Sliceable.len x) <;> simp [Except.map]

theorem applyAll_cons (h : c.apply x = .ok y) : applyAll (c :: cs) x = applyAll cs y := by
  rw [applyAll, List.foldlM_cons, h]
  rfl

theorem applyAll_cons_of_error (h : c.apply x = .error err) :
    applyAll (c :: cs) x = .error err := by
  rw [applyAll, List.foldlM_cons, h]
  rfl

/-- A chain of slices is one slice, or fails as the checks of its steps do. -/
theorem applyAll_eq (cs : List Cut) (x : α) : applyAll cs x =
    (checkAll cs (Sliceable.len x)).map fun _ =>
      Sliceable.sub x (UInt64.ofNat (offset cs)) (lengthAfter cs (Sliceable.len x)) := by
  induction cs generalizing x with
  | nil => exact congrArg Except.ok (Sliceable.sub_self x).symm
  | cons c cs ih =>
    cases hc : c.check (Sliceable.len x) with
    | error err =>
      have hx : c.apply x = .error err := by
        rw [apply_eq, hc]
        rfl
      rw [applyAll_cons_of_error hx, checkAll, hc]
      rfl
    | ok u =>
      have ho : UInt64.ofNat (offset (c :: cs)) = c.start + UInt64.ofNat (offset cs) := by
        change UInt64.ofNat (c.start.toNat + offset cs) = _
        rw [UInt64.ofNat_add, UInt64.ofNat_toNat]
      rw [applyAll_cons (apply_eq_ok_iff.mpr ⟨hc, rfl⟩), ih, Sliceable.len_sub, checkAll_cons hc,
        ho, ← Sliceable.sub_sub]
      rfl

theorem applyAll_eq_ok_iff : applyAll cs x = .ok y ↔ checkAll cs (Sliceable.len x) = .ok () ∧
    Sliceable.sub x (UInt64.ofNat (offset cs)) (lengthAfter cs (Sliceable.len x)) = y := by
  rw [applyAll_eq]
  cases checkAll cs (Sliceable.len x) <;> simp [Except.map]

theorem applyAll_eq_error_iff :
    applyAll cs x = .error err ↔ checkAll cs (Sliceable.len x) = .error err := by
  rw [applyAll_eq]
  cases checkAll cs (Sliceable.len x) <;> simp [Except.map]

theorem exists_applyAll_iff : (∃ y, applyAll cs x = .ok y) ↔ Fits cs (Sliceable.len x).toNat := by
  rw [← checkAll_eq_ok_iff]
  constructor
  · rintro ⟨y, hy⟩
    exact (applyAll_eq_ok_iff.mp hy).1
  · intro hc
    exact ⟨_, applyAll_eq_ok_iff.mpr ⟨hc, rfl⟩⟩

theorem apply_passed (h : applyAll cs x = .error err) :
    ∃ y c, applyAll (cs.take (passed cs (Sliceable.len x))) x = .ok y ∧
      cs[passed cs (Sliceable.len x)]? = some c ∧ c.apply y = .error err := by
  induction cs generalizing x with
  | nil => cases h
  | cons c cs ih =>
    cases hc : c.apply x with
    | error e =>
      obtain rfl := Except.error.inj ((applyAll_cons_of_error hc).symm.trans h)
      rw [passed_cons_of_error (apply_eq_error_iff.mp hc)]
      exact ⟨x, c, rfl, rfl, hc⟩
    | ok z =>
      obtain ⟨y, d, hy, hd, herr⟩ := ih ((applyAll_cons hc).symm.trans h)
      obtain ⟨hch, rfl⟩ := apply_eq_ok_iff.mp hc
      rw [Sliceable.len_sub] at hy hd
      rw [passed_cons hch]
      exact ⟨y, d, (applyAll_cons hc).trans hy, hd, herr⟩

end Sliceable

end Cut

section SliceOfSlice

variable {α : Type} [Sliceable α] {x y z : α} {start length start' length' : UInt64}

theorem Sliceable.slice_eq_ok_iff : slice x start length = .ok y ↔
    checkRange (len x) start length = .ok () ∧ sub x start length = y :=
  Cut.apply_eq_ok_iff (c := .slice start length)

/-- A slice of a slice is one slice, at the sum of both offsets, which does not wrap. -/
theorem Sliceable.slice_slice (hy : slice x start length = .ok y)
    (hz : slice y start' length' = .ok z) :
    (start + start').toNat = start.toNat + start'.toNat ∧
      slice x (start + start') length' = .ok z := by
  obtain ⟨hr, rfl⟩ := slice_eq_ok_iff.mp hy
  obtain ⟨hr', rfl⟩ := slice_eq_ok_iff.mp hz
  rw [len_sub] at hr'
  rw [checkRange_eq_ok_iff] at hr hr'
  have hlt : (len x).toNat < UInt64.size := (len x).toNat_lt_size
  have hsum : (start + start').toNat = start.toNat + start'.toNat :=
    (UInt64.toNat_add ..).trans (Nat.mod_eq_of_lt (show _ < UInt64.size by omega))
  refine ⟨hsum, slice_eq_ok_iff.mpr ⟨?_, (sub_sub ..).symm⟩⟩
  rw [checkRange_eq_ok_iff, hsum]
  omega

end SliceOfSlice

/-! ## What is cut -/

instance : Sliceable Memory where
  len := Memory.len
  sub := Memory.sub
  slice := Memory.slice
  sliceFrom := Memory.sliceFrom
  len_sub _ _ _ := rfl
  sub_self := Memory.sub_self
  sub_sub m start length start' length' := by
    simp only [Memory.sub, UInt64.add_assoc]
  slice_eq _ _ _ := rfl
  sliceFrom_eq _ _ := rfl

instance : Sliceable Window where
  len := Window.len
  sub := Window.sub
  slice := Window.slice
  sliceFrom := Window.sliceFrom
  len_sub _ _ _ := rfl
  sub_self := Window.sub_self
  sub_sub := Window.sub_sub
  slice_eq _ _ _ := rfl
  sliceFrom_eq _ _ := rfl

namespace View

def sub (v : View) (start length : UInt64) : View :=
  { v with window := v.window.sub start length }

def sliceFrom (v : View) (start : UInt64) : Except Error View := do
  return { v with window := ← v.window.sliceFrom start }

end View

instance : Sliceable View where
  len v := v.window.len
  sub := View.sub
  slice := View.slice
  sliceFrom := View.sliceFrom
  len_sub _ _ _ := rfl
  sub_self v := congrArg (View.mk v.block) (Window.sub_self v.window)
  sub_sub v _ _ _ _ := congrArg (View.mk v.block) (Window.sub_sub v.window ..)
  slice_eq v start length := by
    simp only [View.slice, Window.slice]
    cases checkRange v.window.len start length <;> rfl
  sliceFrom_eq v start := by
    simp only [View.sliceFrom, Window.sliceFrom]
    cases checkStart v.window.len start <;> rfl

theorem Memory.applyAll_eq_ok {st : Store} {m m' : Memory} {cs : List Cut} (hb : st.Bounds m)
    (h : Cut.applyAll cs m = .ok m') : m'.backing = m.backing ∧
      m'.start.toNat = m.start.toNat + Cut.offset cs ∧ m'.len = Cut.lengthAfter cs m.len ∧
      m.slice (UInt64.ofNat (Cut.offset cs)) m'.len = .ok m' := by
  obtain ⟨hc, rfl⟩ := Cut.applyAll_eq_ok_iff.mp h
  have hr := Cut.checkRange_of_checkAll hc
  have ho := Cut.toNat_ofNat_offset hc
  have hs : (UInt64.ofNat (Cut.offset cs)).toNat ≤ m.len.toNat :=
    (Nat.le_add_right ..).trans (checkRange_eq_ok_iff.mp hr)
  refine ⟨rfl, ?_, rfl, Memory.slice_eq_ok_iff.mpr ⟨hr, rfl⟩⟩
  exact (hb.toNat_start_sub hs _).trans (congrArg (m.start.toNat + ·) ho)

/-! ## Chains in programs -/

def Cut.derivation : Cut → Derivation
  | slice start length => .slice start length
  | tail start => .sliceFrom start

def Program.within (cs : List Cut) (prog : Program) : Program :=
  cs.foldr (fun c body => .derive c.derivation body .done) prog

def Transcript.within (t : Transcript) : ℕ → Transcript
  | 0 => t
  | n + 1 => .derived (t.within n) .done

section Run

variable {base : UInt64} {a : Access} {w w' : Window} {bytes : List UInt8} {cs : List Cut}
  {c : Cut} {err : Error}

theorem Cut.apply_derivation (c : Cut) : c.derivation.apply base a w =
    (Failure.lift (c.apply w)).map fun w' => (a, w') := by
  cases c with
  | slice start length => exact Derivation.apply_slice ..
  | tail start => exact Derivation.apply_sliceFrom ..

theorem Program.run_within_cons (prog : Program) (h : c.apply w = .ok w') :
    (prog.within (c :: cs)).run base a w bytes =
      (.derived ((prog.within cs).run base a w' bytes).1 .done,
        ((prog.within cs).run base a w' bytes).2) := by
  have hd : c.derivation.apply base a w = .ok (a, w') := by
    rw [c.apply_derivation, h]
    rfl
  exact Program.run_derive_of_ok hd

theorem Program.run_within_cons_of_error (prog : Program) (h : c.apply w = .error err) :
    (prog.within (c :: cs)).run base a w bytes = (.refused (.error err) .done, bytes) := by
  have hd : c.derivation.apply base a w = .error (.error err) := by
    rw [c.apply_derivation, h]
    rfl
  exact Program.run_derive_of_error hd

theorem Program.run_within (prog : Program) (h : Cut.applyAll cs w = .ok w') :
    (prog.within cs).run base a w bytes =
      ((prog.run base a w' bytes).1.within cs.length, (prog.run base a w' bytes).2) := by
  induction cs generalizing w with
  | nil =>
    obtain rfl := Except.ok.inj h
    rfl
  | cons c cs ih =>
    obtain ⟨x, hx, h⟩ := bind_eq_ok_iff.mp h
    rw [Program.run_within_cons prog hx, ih h]
    rfl

theorem Program.run_within_of_error (prog : Program) (h : Cut.applyAll cs w = .error err) :
    (prog.within cs).run base a w bytes =
      ((Transcript.refused (.error err) .done).within (Cut.passed cs w.len), bytes) := by
  induction cs generalizing w with
  | nil => cases h
  | cons c cs ih =>
    cases hc : c.apply w with
    | error e =>
      obtain rfl := Except.error.inj ((Cut.applyAll_cons_of_error hc).symm.trans h)
      have hch : c.check w.len = .error e := Cut.apply_eq_error_iff.mp hc
      rw [Program.run_within_cons_of_error prog hc, Cut.passed_cons_of_error hch]
      rfl
    | ok x =>
      rw [Program.run_within_cons prog hc, ih ((Cut.applyAll_cons hc).symm.trans h)]
      obtain ⟨hch, rfl⟩ := Cut.apply_eq_ok_iff.mp hc
      have hch : c.check w.len = .ok () := hch
      rw [Cut.passed_cons hch]
      rfl

end Run

namespace Store

variable {st : Store} {v v' : View} {m : Memory} {cs : List Cut} {a : Access}

theorem runOn_within (prog : Program) (h : Cut.applyAll cs v = .ok v') :
    st.runOn v a (prog.within cs) =
      ((st.runOn v' a prog).1.within cs.length, (st.runOn v' a prog).2) := by
  obtain ⟨hc, rfl⟩ := Cut.applyAll_eq_ok_iff.mp h
  exact Program.run_within prog (Cut.applyAll_eq_ok_iff.mpr ⟨hc, rfl⟩)

theorem runOn_within_of_error {err : Error} (prog : Program) (h : Cut.applyAll cs v = .error err) :
    st.runOn v a (prog.within cs) =
      ((Transcript.refused (.error err) .done).within (Cut.passed cs v.window.len),
        st.bytesOf v) := by
  have hc : Cut.checkAll cs v.window.len = .error err := Cut.applyAll_eq_error_iff.mp h
  exact Program.run_within_of_error prog (Cut.applyAll_eq_error_iff.mpr hc)

theorem Shows.values_sub {start length : UInt64} (h : st.Shows v)
    (hr : checkRange v.window.len start length = .ok ()) :
    (st.read (v.sub start length)).values =
      ((st.read v).values.drop start.toNat).take length.toNat := by
  have hbytes : (st.read (v.sub start length)).bytes =
      ((st.read v).bytes.drop (start.toNat * v.window.element.size)).take
        (length.toNat * v.window.element.size) := h.within.read_sub h.lt hr
  rw [Contents.values_eq_decodeAll, Contents.values_eq_decodeAll, hbytes]
  exact Element.decodeAll_part (checkRange_eq_ok_iff.mp hr) h.within.length_read

theorem Shows.values_applyAll (h : st.Shows v) (hv : Cut.applyAll cs v = .ok v') :
    (st.read v').values =
      ((st.read v).values.drop (Cut.offset cs)).take
        (Cut.lengthAfter cs v.window.len).toNat := by
  obtain ⟨hc, rfl⟩ := Cut.applyAll_eq_ok_iff.mp hv
  have hvalues := h.values_sub (Cut.checkRange_of_checkAll hc)
  rw [Cut.toNat_ofNat_offset hc] at hvalues
  exact hvalues

theorem read_sub_zero (st : Store) (v : View) (start : UInt64) :
    st.read (v.sub start 0) = ⟨v.window.element, 0, []⟩ := by
  simp [read, View.sub, Window.sub, Window.contents, Window.read, Window.byteLength]

theorem read_applyAll_of_empty {u : View} (cs : List Cut) (hu : u.window.len = 0)
    (hv : v.window.len = 0) (he : u.window.element = v.window.element) :
    (Cut.applyAll cs u).map st.read = (Cut.applyAll cs v).map st.read := by
  have hread : ∀ x : View, x.window.len = 0 → (Cut.applyAll cs x).map st.read =
      (Cut.checkAll cs 0).map fun _ => (⟨x.window.element, 0, []⟩ : Contents) := by
    intro x hx
    rw [Cut.applyAll_eq, show Sliceable.len x = 0 from hx]
    cases hc : Cut.checkAll cs 0 with
    | error err => rfl
    | ok y =>
      have hz := (Nat.le_add_left ..).trans (Cut.offset_add_le hc)
      have hl : Cut.lengthAfter cs 0 = 0 := UInt64.toNat_inj.mp (Nat.le_zero.mp hz)
      rw [hl]
      exact congrArg Except.ok (st.read_sub_zero x _)
  rw [hread u hu, hread v hv, he]

end Store

namespace Estate

variable {e : Estate} {roles : List Role} {m : Memory} {v : View}

theorem Layout.view_sub {start length : UInt64} (h : e.Layout roles)
    (hh : e.store.Honest m.backing) (hb : e.store.Bounds m)
    (hs : e.store.backingState m.backing ≠ .released) (hv : e.store.view m = .ok v)
    (hr : checkRange m.len start length = .ok ()) :
    e.store.view (m.sub start length) = .ok (v.sub start length) := by
  obtain ⟨w, hw, -⟩ := h.storageOf_of_live hh hs
  obtain rfl := Except.ok.inj (hv.symm.trans (h.view_of_storageOf hh hb hw))
  have hsub : e.store.Honest (m.sub start length).backing := hh
  refine (h.view_of_storageOf hsub (hb.sub hr) hw).trans (congrArg Except.ok ?_)
  exact congrArg (View.mk w.block) (Window.sub_sub ..).symm

/-- A chain of slices of a memory shows what the same chain shows of its span. -/
theorem Layout.view_applyAll (h : e.Layout roles) (hh : e.store.Honest m.backing)
    (hb : e.store.Bounds m) (hs : e.store.backingState m.backing ≠ .released)
    (hv : e.store.view m = .ok v) (hl : v.window.len = m.len) (cs : List Cut) :
    (Failure.lift (Cut.applyAll cs m) >>= e.store.view) = Failure.lift (Cut.applyAll cs v) := by
  rw [Cut.applyAll_eq, Cut.applyAll_eq, show Sliceable.len v = Sliceable.len m from hl]
  cases hc : Cut.checkAll cs (Sliceable.len m) with
  | error err => rfl
  | ok u => exact h.view_sub hh hb hs hv (Cut.checkRange_of_checkAll hc)

end Estate

/-! ## Chains of operations -/

def Cut.op (slot : String) : Cut → Op
  | slice start length => .slice slot slot start length
  | tail start => .sliceFrom slot slot start

namespace Session

/-- Cuts the memory under a name in place, up to the first step that is refused. -/
def cut (p : Platform) (slot : String) : List Cut → Session → Result
  | [], s => s.answer .done
  | c :: cs, s =>
    match s.step p (c.op slot) with
    | (.ok _, s') => cut p slot cs s'
    | (.error f, s') => s'.refuse f

variable {p : Platform} {s : Session} {slot : String} {h x : Handle} {a : Access} {m : Memory}
  {u v v' : View}

theorem store_put_of_memory (hs : s.slots.get? slot = some h) (hm : h.memory? = some (a, m))
    (hx : x.backing = h.backing) : (s.put slot x).store = s.store := by
  simp only [put, hs, discard_eq]
  obtain ⟨k, hk, hz, -⟩ | ⟨hd, -⟩ := Estate.discard_cases _ (Handle.plain_of_memory? hm)
  · have hmem := mem_handles (s := { s with slots := s.slots.put slot x })
      (Directory.get?_put_self s.slots slot x)
    exact absurd hz (Estate.holders_pos hmem (hx.trans hk)).ne'
  · exact hd

theorem makeSlice_of_memory (hs : s.slots.get? slot = some h) (hm : h.memory? = some (a, m))
    (name : String) (part : Memory → Except Error Memory) :
    s.makeSlice name slot part = match part m with
      | .ok m' => s.make name (.ofMemory a m')
      | .error err => s.refuse (.error err) := by
  cases hp : part m <;> simp only [makeSlice, hs, Option.bind_some, hm, hp]

theorem step_cut (hs : s.slots.get? slot = some h) (hm : h.memory? = some (a, m)) (c : Cut) :
    s.step p (c.op slot) = match c.apply m with
      | .ok m' => s.make slot (.ofMemory a m')
      | .error err => s.refuse (.error err) := by
  cases c with
  | slice start length => exact makeSlice_of_memory hs hm slot (·.slice start length)
  | tail start => exact makeSlice_of_memory hs hm slot (·.sliceFrom start)

theorem cut_eq (hs : s.slots.get? slot = some h) (hm : h.memory? = some (a, m)) (cs : List Cut) :
    ((s.cut p slot cs).1 = (Failure.lift (Cut.applyAll cs m)).map fun _ => .done) ∧
      (s.cut p slot cs).2.store = s.store ∧
      (∀ name, name ≠ slot → (s.cut p slot cs).2.slots.get? name = s.slots.get? name) ∧
      ∀ m', Cut.applyAll cs m = .ok m' →
        ∃ x, (s.cut p slot cs).2.slots.get? slot = some x ∧ x.memory? = some (a, m') := by
  induction cs generalizing s h m with
  | nil =>
    refine ⟨rfl, rfl, fun _ _ => rfl, ?_⟩
    rintro m' ⟨⟩
    exact ⟨h, hs, hm⟩
  | cons c cs ih =>
    have hstep := step_cut (p := p) hs hm c
    cases hc : c.apply m with
    | error err =>
      have hcut : s.cut p slot (c :: cs) = s.refuse (.error err) := by
        rw [hc] at hstep
        rw [cut, hstep]
        rfl
      rw [hcut, Cut.applyAll_cons_of_error hc]
      exact ⟨rfl, rfl, fun _ _ => rfl, nofun⟩
    | ok m₁ =>
      have hcut : s.cut p slot (c :: cs) = (s.put slot (.ofMemory a m₁)).cut p slot cs := by
        rw [hc] at hstep
        rw [cut, hstep]
        rfl
      have hs₁ := s.get?_put_self slot (.ofMemory a m₁)
      have hb : (Handle.ofMemory a m₁).backing = h.backing := by
        obtain ⟨-, rfl⟩ := Cut.apply_eq_ok_iff.mp hc
        rw [Handle.backing_of_memory? (Handle.memory?_ofMemory ..), Handle.backing_of_memory? hm]
        rfl
      obtain ⟨ha, hst, hother, hslot⟩ := ih hs₁ (Handle.memory?_ofMemory a m₁)
      rw [hcut, Cut.applyAll_cons hc]
      refine ⟨ha, hst.trans (store_put_of_memory hs hm hb), fun name hn => ?_, hslot⟩
      exact (hother name hn).trans (s.get?_put_of_ne _ hn)

/-- What a memory shows to a writer is what it shows to a reader, or both are empty. -/
theorem viewMutOf_of_memory? (hm : h.memory? = some (a, m)) (hu : s.viewMutOf h = .ok u) :
    m.isEmpty = true ∧ u = .empty s.store.element ∨ s.store.view m = .ok u := by
  cases h with
  | memory | owner =>
    cases hm
    exact Store.view_of_viewMut hu
  | readOnly => cases hu
  | _ => cases hm

theorem fst_spanMut_of_view (hs : s.slots.get? slot = some h) (hu : s.viewMutOf h = .ok u)
    (prog : Program) :
    (s.spanMut slot prog).1 = .ok (.transcript (s.store.runOn u .writable prog).1) :=
  congrArg Prod.fst (spanMut_of_view hs hu prog)

section Spans

variable {cs : List Cut} (hs : s.slots.get? slot = some h) (hm : h.memory? = some (a, m))
  (hv : s.store.view m = .ok v) (hl : v.window.len = m.len)
  (he : v.window.element = s.store.element)

include hm hv hl he in
theorem read_applyAll_of_viewMutOf (hu : s.viewMutOf h = .ok u) (cs : List Cut) :
    u.window.len = m.len ∧
      (Cut.applyAll cs u).map s.store.read = (Cut.applyAll cs v).map s.store.read := by
  obtain ⟨hz, rfl⟩ | hu := viewMutOf_of_memory? hm hu
  · have hz : m.len = 0 := by simpa [Memory.isEmpty] using hz
    exact ⟨hz.symm, Store.read_applyAll_of_empty cs rfl (hl.trans hz) he.symm⟩
  · obtain rfl := Except.ok.inj (hu.symm.trans hv)
    exact ⟨hl, rfl⟩

include hs hm hv hl he

theorem contents_within (hu : s.viewMutOf h = .ok u) (hv' : Cut.applyAll cs v = .ok v') :
    (s.spanMut slot (.within cs (.query .contents .done))).1 =
      .ok (.transcript (.within (.answered (.contents (s.store.read v')) .done) cs.length)) := by
  obtain ⟨-, hread⟩ := read_applyAll_of_viewMutOf hm hv hl he hu cs
  rw [hv'] at hread
  cases hu' : Cut.applyAll cs u with
  | error err =>
    rw [hu'] at hread
    cases hread
  | ok u' =>
    rw [hu'] at hread
    rw [fst_spanMut_of_view hs hu, Store.runOn_within _ hu', ← Except.ok.inj hread]
    rfl

theorem spans_within_of_error {err : Error} (herr : Cut.applyAll cs m = .error err)
    (prog : Program) :
    let t := Transcript.within (.refused (.error err) .done) (Cut.passed cs m.len)
    s.span slot (prog.within cs) = .ok (.transcript t) ∧
      ∀ u, s.viewMutOf h = .ok u → (s.spanMut slot (prog.within cs)).1 = .ok (.transcript t) := by
  intro t
  have hc : Cut.checkAll cs m.len = .error err := Cut.applyAll_eq_error_iff.mp herr
  have hrun : ∀ {x : View} {a : Access}, x.window.len = m.len →
      (s.store.runOn x a (prog.within cs)).1 = t := by
    intro x a hx
    have hxc : Cut.checkAll cs x.window.len = .error err := by rw [hx, hc]
    rw [Store.runOn_within_of_error prog (Cut.applyAll_eq_error_iff.mpr hxc), hx]
  refine ⟨?_, fun u hu => ?_⟩
  · rw [(values_of_view hs hm hv).2, hrun hl]
  · obtain ⟨hul, -⟩ := read_applyAll_of_viewMutOf hm hv hl he hu cs
    rw [fst_spanMut_of_view hs hu, hrun hul]

end Spans

theorem spans_of_released (hs : s.slots.get? slot = some h) (hm : h.memory? = some (a, m))
    (hh : s.store.Honest m.backing) (hr : s.store.backingState m.backing = .released) :
    s.values slot = .error (.error .released) ∧
      (∀ prog, s.span slot prog = .error (.error .released)) ∧
      ∀ prog, a = .writable → (s.spanMut slot prog).1 = .error (.error .released) := by
  obtain ⟨hvalues, hspan⟩ := values_of_error hs hm (Store.view_of_released hh hr)
  refine ⟨hvalues, hspan, ?_⟩
  rintro prog rfl
  have hw : h.writable? = some m := by
    cases h <;> cases hm <;> rfl
  exact congrArg Prod.fst (spanMut_of_error hs hw (Store.viewMut_of_released hr) prog)

/-- A chain of slices of a memory and the same chain of slices of its span, or of its writable span,
show the same or are refused at the same step for the same reason. They are refused unless each
range lies within what is left. What is left at the end is one slice of the memory, at the sum of
the offsets. The state of the backing decides only whether it can be read. -/
theorem slices_commute (p : Platform) (e : Element) (ops : List Op) (slot : String) (h : Handle)
    (a : Access) (m : Memory) (cs : List Cut)
    (hs : ((start e).after p ops).slots.get? slot = some h) (hm : h.memory? = some (a, m))
    (hh : ((start e).after p ops).store.Honest m.backing) :
    let s := (start e).after p ops
    let r := s.cut p slot cs
    (r.1 = (Failure.lift (Cut.applyAll cs m)).map fun _ => .done) ∧ r.2.store = s.store ∧
    (∀ name, name ≠ slot → r.2.slots.get? name = s.slots.get? name) ∧
    ((∃ m', Cut.applyAll cs m = .ok m') ↔ Cut.Fits cs m.len.toNat) ∧
    (∀ m', Cut.applyAll cs m = .ok m' →
      (∃ x, r.2.slots.get? slot = some x ∧ x.memory? = some (a, m')) ∧
      m'.backing = m.backing ∧ m'.start.toNat = m.start.toNat + Cut.offset cs ∧
      m'.len = Cut.lengthAfter cs m.len ∧
      m.slice (UInt64.ofNat (Cut.offset cs)) m'.len = .ok m') ∧
    (∀ err, Cut.applyAll cs m = .error err →
      ∃ m' c, Cut.applyAll (cs.take (Cut.passed cs m.len)) m = .ok m' ∧
        cs[Cut.passed cs m.len]? = some c ∧ c.apply m' = .error err) ∧
    (s.store.backingState m.backing ≠ .released → ∃ v, s.store.view m = .ok v ∧
      (Failure.lift (Cut.applyAll cs m) >>= s.store.view) = Failure.lift (Cut.applyAll cs v) ∧
      (∀ v', Cut.applyAll cs v = .ok v' →
        r.2.values slot = .ok (.contents (some (s.store.read v'))) ∧
        (s.store.read v').values =
          ((s.store.read v).values.drop (Cut.offset cs)).take
            (Cut.lengthAfter cs m.len).toNat ∧
        (∀ prog : Program, ∃ t, r.2.span slot prog = .ok (.transcript t) ∧
          s.span slot (prog.within cs) = .ok (.transcript (t.within cs.length))) ∧
        ∀ u, s.viewMutOf h = .ok u →
          (s.spanMut slot (.within cs (.query .contents .done))).1 =
            .ok (.transcript
              (.within (.answered (.contents (s.store.read v')) .done) cs.length))) ∧
      ∀ err, Cut.applyAll cs m = .error err →
        let t := Transcript.within (.refused (.error err) .done) (Cut.passed cs m.len)
        ∀ prog : Program, s.span slot (prog.within cs) = .ok (.transcript t) ∧
          ∀ u, s.viewMutOf h = .ok u → (s.spanMut slot (prog.within cs)).1 = .ok (.transcript t)) ∧
    (s.store.backingState m.backing = .released → ∀ m', Cut.applyAll cs m = .ok m' →
      s.store.view m' = .error (.error .released) ∧
      r.2.values slot = .error (.error .released) ∧
      (∀ prog, r.2.span slot prog = .error (.error .released)) ∧
      ∀ prog, a = .writable → (r.2.spanMut slot prog).1 = .error (.error .released)) := by
  intro s r
  have hr : s.estate.Regular := regular_run p e ops
  obtain ⟨roles, hl⟩ := hr.layout
  have hx : h ∈ s.estate.handles := mem_handles hs
  have hb : s.store.Bounds m := hr.bounded hx hm
  obtain ⟨hans, hst, hother, hslot⟩ := cut_eq (p := p) hs hm cs
  have hst : r.2.store = s.store := hst
  refine ⟨hans, hst, hother, Cut.exists_applyAll_iff,
    fun m' hm' => ⟨hslot m' hm', Memory.applyAll_eq_ok hb hm'⟩,
    fun err herr => Cut.apply_passed herr, ?_, ?_⟩
  · intro hlive
    obtain ⟨v, hv, hvl⟩ : ∃ v, s.store.view m = .ok v ∧ v.window.len = m.len :=
      hl.view_of_live hh hb hlive
    have hsh : s.store.Shows v := hl.shows_view hx hm hv
    have hcomm := hl.view_applyAll hh hb hlive hv hvl cs
    refine ⟨v, hv, hcomm, ?_, ?_⟩
    · intro v' hv'
      rw [hv'] at hcomm
      obtain ⟨m', hm', hview⟩ := bind_eq_ok_iff.mp hcomm
      obtain ⟨x, hxs, hxm⟩ := hslot m' (lift_eq_ok_iff.mp hm')
      have hview : r.2.store.view m' = .ok v' := by
        rw [hst]
        exact hview
      obtain ⟨hvalues, hspan⟩ := values_of_view hxs hxm hview
      rw [hst] at hvalues hspan
      refine ⟨hvalues, ?_, fun prog => ⟨_, hspan prog, ?_⟩, fun u hu => ?_⟩
      · rw [hsh.values_applyAll hv', hvl]
      · rw [(values_of_view hs hm hv).2, Store.runOn_within prog hv']
      · exact contents_within hs hm hv hvl hsh.element hu hv'
    · intro err herr t prog
      exact spans_within_of_error hs hm hv hvl hsh.element herr prog
  · intro hrel m' hm'
    obtain ⟨hb', -⟩ := Memory.applyAll_eq_ok hb hm'
    obtain ⟨x, hxs, hxm⟩ := hslot m' hm'
    rw [← hb'] at hh hrel
    refine ⟨Store.view_of_released hh hrel, ?_⟩
    rw [← hst] at hh hrel
    exact spans_of_released hxs hxm hh hrel

/-- Two steps into the values of an array manager, which is held alone. -/
theorem slices_commute_of_array :
    let ops : List Op := [.arrayManager "m" ⟨.u8, 6, [1, 2, 3, 4, 5, 6]⟩, .share "s" "m",
      .memory "h" .writable (.manager "s" true)]
    let m : Memory := ⟨.manager 1, 0, 6⟩
    let cs : List Cut := [.slice 1 4, .tail 2]
    let c : Contents := ⟨.u8, 2, [4, 5]⟩
    let s := (start .u8).after .bounded ops
    let r := s.cut .bounded "h" cs
    s.slots.get? "h" = some (.memory m) ∧ s.store.Honest m.backing ∧ r.1 = .ok .done ∧
      r.2.values "h" = .ok (.contents (some c)) ∧
      (s.spanMut "h" (.within cs (.query .contents .done))).1 =
        .ok (.transcript (.within (.answered (.contents c) .done) 2)) := by
  intro ops m cs c s r
  have hs : s.slots.get? "h" = some (.memory m) := by decide +kernel
  have hh : s.store.Honest m.backing := by
    rintro k pr ⟨⟩ hp
    have hm : s.store.managers[1]? = some (.array 0 true) := by decide +kernel
    cases hm.symm.trans hp
  have hl : s.store.backingState m.backing ≠ .released := by decide +kernel
  have hview : s.store.view m = .ok ⟨some 0, ⟨.u8, 0, 6⟩⟩ := by decide +kernel
  have hu : s.viewMutOf (.memory m) = .ok ⟨some 0, ⟨.u8, 0, 6⟩⟩ := by decide +kernel
  have hread : s.store.read ⟨some 0, ⟨.u8, 3, 2⟩⟩ = c := by decide +kernel
  obtain ⟨hans, -, -, -, -, -, hlive, -⟩ :=
    slices_commute .bounded .u8 ops "h" (.memory m) .writable m cs hs rfl hh
  obtain ⟨v, hv, -, hok, -⟩ := hlive hl
  obtain rfl := Except.ok.inj (hview.symm.trans hv)
  obtain ⟨hvalues, -, -, hmut⟩ := hok ⟨some 0, ⟨.u8, 3, 2⟩⟩ (by decide +kernel)
  exact ⟨hs, hh, hans.trans (by decide +kernel), hread ▸ hvalues, hread ▸ hmut _ hu⟩

end Session

end LargeBuffers
