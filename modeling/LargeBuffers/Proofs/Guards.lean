import LargeBuffers.Proofs.Slicing

/-! # Guards decide as unbounded numbers do

A guard compares words in such an order that nothing it computes can wrap, so it decides the
condition on the numbers for which the words stand. To say that nothing wraps, the guards and what
relies on them are evaluated once more with arithmetic that gets stuck where a result is no word.
It never does, and the outcome is the same.
-/

namespace LargeBuffers

variable {α β : Type}

/-! ## Verdicts -/

/-- A request is granted if and only if `holds`. If it is refused, the argument `name` is out of
range. -/
structure Decides (r : Except Failure α) (holds : Prop) (name : String) : Prop where
  granted : (∃ a, r = .ok a) ↔ holds
  blamed : ∀ f, r = .error f → ∃ message, f = .error (.outOfRange name message)

/-- The argument to blame for a range that does not lie within `len` entries. -/
def blame (len start : UInt64) : String := if len.toNat < start.toNat then "start" else "length"

section Decides

variable {r : Except Failure α} {holds : Prop} {name condition : String} {b : Bool}

theorem Decides.map (h : Decides r holds name) (f : α → β) : Decides (r.map f) holds name := by
  obtain ⟨hg, hb⟩ := h
  rw [← hg]
  cases r with
  | ok a => exact ⟨iff_of_true ⟨f a, rfl⟩ ⟨a, rfl⟩, nofun⟩
  | error g =>
    refine ⟨iff_of_false (by rintro ⟨_, ⟨⟩⟩) (by rintro ⟨_, ⟨⟩⟩), ?_⟩
    rintro _ ⟨⟩
    exact hb g rfl

theorem decides_verifyRange (hb : b = true ↔ holds) :
    Decides (Failure.lift (verifyRange b name condition)) holds name := by
  rw [← hb]
  cases b with
  | true => exact ⟨iff_of_true ⟨(), rfl⟩ rfl, nofun⟩
  | false =>
    refine ⟨iff_of_false (by rintro ⟨_, ⟨⟩⟩) nofun, ?_⟩
    rintro _ ⟨⟩
    exact ⟨_, rfl⟩

theorem decides_checkStart (len start : UInt64) :
    Decides (Failure.lift (checkStart len start)) (start.toNat ≤ len.toNat) "start" :=
  decides_verifyRange (decide_eq_true_iff.trans UInt64.le_iff_toNat_le)

/-- What guards compare are parts of the condition, neither of which can wrap. -/
theorem within_iff {len start length : UInt64} :
    start ≤ len ∧ length ≤ len - start ↔ start.toNat + length.toNat ≤ len.toNat := by
  constructor
  · rintro ⟨hs, hl⟩
    rw [UInt64.le_iff_toNat_le, UInt64.toNat_sub_of_le _ _ hs] at hl
    rw [UInt64.le_iff_toNat_le] at hs
    omega
  · intro h
    exact le_of_checkRange (checkRange_eq_ok_iff.mpr h)

/-- The length of a range is looked at only if its start is in range. -/
theorem checkRange_eq (len start length : UInt64) : checkRange len start length =
    if start ≤ len then verifyRange (length ≤ len - start) "length" "length <= len - start"
    else .error (.outOfRange "start" "expected start <= len") := by
  unfold checkRange
  split
  · simp only [verifyRange, ‹start ≤ len›, decide_true, if_true]
    rfl
  · simp only [verifyRange, ‹¬start ≤ len›, decide_false, Bool.false_eq_true, if_false]
    rfl

theorem decides_checkRange (len start length : UInt64) :
    Decides (Failure.lift (checkRange len start length))
      (start.toNat + length.toNat ≤ len.toNat) (blame len start) := by
  rw [checkRange_eq]
  split
  · rename_i hs
    rw [blame, if_neg (UInt64.le_iff_toNat_le.mp hs).not_gt]
    exact decides_verifyRange
      (decide_eq_true_iff.trans ((and_iff_right hs).symm.trans within_iff))
  · rename_i hs
    rw [UInt64.le_iff_toNat_le, not_le] at hs
    rw [blame, if_pos hs]
    refine ⟨iff_of_false (by rintro ⟨_, ⟨⟩⟩) (by omega), ?_⟩
    rintro _ ⟨⟩
    exact ⟨_, rfl⟩

theorem toNat_add_of_le {a b n : UInt64} (h : a.toNat + b.toNat ≤ n.toNat) :
    (a + b).toNat = a.toNat + b.toNat := by
  have hn := n.toNat_lt
  rw [UInt64.toNat_add]
  exact Nat.mod_eq_of_lt (by omega)

theorem toNat_checkedEnd {start length limit stop : UInt64}
    (h : checkedEnd start length limit = .ok stop) :
    stop.toNat = start.toNat + length.toNat := by
  obtain ⟨⟨⟩, hv, hstop⟩ := bind_eq_ok_iff.mp h
  have hv : start ≤ limit ∧ length ≤ limit - start := by simpa using verifyRange_eq_ok_iff.mp hv
  rw [← Except.ok.inj hstop]
  exact toNat_add_of_le (within_iff.mp hv)

theorem decides_checkedEnd (start length limit : UInt64) :
    Decides (Failure.lift (checkedEnd start length limit))
      (start.toNat + length.toNat ≤ limit.toNat) "length" := by
  have hv : Decides (Failure.lift (verifyRange (start ≤ limit && length ≤ limit - start) "length"
      "start <= limit && length <= limit - start"))
      (start.toNat + length.toNat ≤ limit.toNat) "length" :=
    decides_verifyRange (by simpa using within_iff)
  unfold checkedEnd
  generalize verifyRange _ _ _ = v at hv ⊢
  cases v with
  | ok u => exact hv.map fun _ => start + length
  | error err => exact hv.map fun _ => start + length

theorem toNat_max_one (n : UInt64) : (max n 1).toNat = max n.toNat 1 := by
  change (if n ≤ 1 then 1 else n).toNat = _
  simp only [UInt64.le_iff_toNat_le]
  split
  · exact (max_eq_right ‹_›).symm
  · exact (max_eq_left (not_le.mp ‹_›).le).symm

theorem decides_checkByteLength (stride length : UInt64) :
    Decides (Failure.lift (checkByteLength stride length))
      (length.toNat * max stride.toNat 1 ≤ 2 ^ 63 - 1) "length" := by
  have hm : maxBytes.toNat = 2 ^ 63 - 1 := rfl
  refine decides_verifyRange ?_
  rw [decide_eq_true_iff, UInt64.le_iff_toNat_le, UInt64.toNat_div, toNat_max_one, hm]
  exact Nat.le_div_iff_mul_le (Nat.lt_of_lt_of_le Nat.one_pos (Nat.le_max_right ..))

theorem decides_requestSize (alignment length : UInt64) :
    Decides (Failure.lift (requestSize alignment length))
      (length.toNat + alignment.toNat ≤ 2 ^ 63 - 1) "length" := by
  have hm : maxBytes.toNat = 2 ^ 63 - 1 := rfl
  have hsum : (length + alignment).toNat = (length.toNat + alignment.toNat) % 2 ^ 64 :=
    UInt64.toNat_add ..
  have hl := length.toNat_lt
  have ha := alignment.toNat_lt
  unfold requestSize
  simp only [UInt64.le_iff_toNat_le, hm]
  split
  · rename_i hs
    exact ⟨iff_of_true ⟨_, rfl⟩ (by omega), nofun⟩
  · rename_i hs
    refine ⟨iff_of_false (by rintro ⟨_, ⟨⟩⟩) fun h => hs ⟨by omega, by omega⟩, ?_⟩
    rintro _ ⟨⟩
    exact ⟨_, rfl⟩

end Decides

/-! ## Arithmetic that gets stuck -/

/-- An evaluation that may get stuck before it has an outcome. -/
abbrev Exact := ExceptT Error Option

namespace Exact

def of (r : Except Error α) : Exact α := ExceptT.mk (some r)

def stuck : Exact α := ExceptT.mk none

def word (n : ℕ) : Exact UInt64 := if n < UInt64.size then of (.ok (UInt64.ofNat n)) else stuck

def add (a b : UInt64) : Exact UInt64 := word (a.toNat + b.toNat)

def sub (a b : UInt64) : Exact UInt64 :=
  if b.toNat ≤ a.toNat then word (a.toNat - b.toNat) else stuck

def mul (a b : UInt64) : Exact UInt64 := word (a.toNat * b.toNat)

def div (a b : UInt64) : Exact UInt64 := if b = 0 then stuck else word (a.toNat / b.toNat)

/-! ### The guards -/

def checkRange (len start length : UInt64) : Exact Unit := do
  of (verifyRange (start ≤ len) "start" "start <= len")
  let rest ← sub len start
  of (verifyRange (length ≤ rest) "length" "length <= len - start")

/-- Both conditions hold; the second one is evaluated only if the first one does. -/
def both (first : Bool) (second : Exact Bool) : Exact Bool :=
  if first then second else of (.ok false)

def checkedEnd (start length limit : UInt64) : Exact UInt64 := do
  let fits ← both (start ≤ limit) ((sub limit start).map fun rest => decide (length ≤ rest))
  of (verifyRange fits "length" "start <= limit && length <= limit - start")
  add start length

def checkByteLength (stride length : UInt64) : Exact Unit := do
  let most ← div maxBytes (max stride 1)
  of (verifyRange (length ≤ most) "length" "length <= max_len")

def requestSize (alignment length : UInt64) : Exact UInt64 := do
  let refusal : Error :=
    .outOfRange "length" (toString length ++ " bytes exceed the addressable range")
  if length.toNat + alignment.toNat < UInt64.size then
    let size ← add length alignment
    of (if size ≤ maxBytes then .ok size else .error refusal)
  else of (.error refusal)

/-! ### What relies on them -/

def stop (m : Memory) : Exact UInt64 := add m.start m.len

def memoryPart (m : Memory) (start length : UInt64) : Exact Memory := do
  let start ← add m.start start
  return { m with start, len := length }

def windowPart (w : Window) (start length : UInt64) : Exact Window := do
  let distance ← mul start w.element.stride
  let offset ← add w.offset distance
  return { w with offset, len := length }

def cut (len : UInt64) (part : UInt64 → UInt64 → Exact α) : Cut → Exact α
  | .slice start length => do
    checkRange len start length
    part start length
  | .tail start => do
    of (checkStart len start)
    let length ← sub len start
    part start length

/-! ### Nothing gets stuck -/

theorem bind_eq {x : Exact α} {r : Except Error α} {f : α → Exact β} {g : α → Except Error β}
    (hx : x = of r) (hf : ∀ a, r = .ok a → f a = of (g a)) : x >>= f = of (r >>= g) := by
  subst hx
  cases r with
  | ok a => exact hf a rfl
  | error err => rfl

theorem word_toNat (x : UInt64) : word x.toNat = of (.ok x) := by
  rw [word, if_pos x.toNat_lt_size, UInt64.ofNat_toNat]

variable {a b : UInt64}

theorem add_eq (h : (a + b).toNat = a.toNat + b.toNat) : add a b = of (.ok (a + b)) := by
  rw [add, ← h, word_toNat]

theorem mul_eq (h : (a * b).toNat = a.toNat * b.toNat) : mul a b = of (.ok (a * b)) := by
  rw [mul, ← h, word_toNat]

theorem sub_eq (h : b ≤ a) : sub a b = of (.ok (a - b)) := by
  rw [sub, if_pos (UInt64.le_iff_toNat_le.mp h), ← UInt64.toNat_sub_of_le _ _ h, word_toNat]

theorem div_eq (h : b ≠ 0) : div a b = of (.ok (a / b)) := by
  rw [div, if_neg h, ← UInt64.toNat_div, word_toNat]

theorem checkRange_eq (len start length : UInt64) :
    checkRange len start length = of (LargeBuffers.checkRange len start length) := by
  refine bind_eq rfl fun _ hs => ?_
  have hs : start ≤ len := by simpa using verifyRange_eq_ok_iff.mp hs
  rw [sub_eq hs]
  rfl

theorem checkedEnd_eq (start length limit : UInt64) :
    checkedEnd start length limit = of (LargeBuffers.checkedEnd start length limit) := by
  have hfits : both (start ≤ limit) ((sub limit start).map fun rest => decide (length ≤ rest)) =
      of (.ok (start ≤ limit && length ≤ limit - start)) := by
    by_cases hs : start ≤ limit
    · rw [sub_eq hs, decide_eq_true hs, Bool.true_and]
      rfl
    · rw [decide_eq_false hs, Bool.false_and]
      rfl
  unfold checkedEnd
  rw [hfits]
  change of (verifyRange _ _ _) >>= (fun _ => add start length) = _
  refine bind_eq rfl fun _ hv => ?_
  have hv : start ≤ limit ∧ length ≤ limit - start := by simpa using verifyRange_eq_ok_iff.mp hv
  exact add_eq (toNat_add_of_le (within_iff.mp hv))

theorem checkByteLength_eq (stride length : UInt64) :
    checkByteLength stride length = of (LargeBuffers.checkByteLength stride length) := by
  have hne : max stride 1 ≠ 0 := by
    intro hz
    have hm := toNat_max_one stride
    rw [hz] at hm
    exact absurd hm (Nat.lt_of_lt_of_le Nat.one_pos (Nat.le_max_right ..)).ne
  rw [checkByteLength, div_eq hne]
  rfl

theorem requestSize_eq (alignment length : UInt64) :
    requestSize alignment length = of (LargeBuffers.requestSize alignment length) := by
  have hsum : (length + alignment).toNat = (length.toNat + alignment.toNat) % 2 ^ 64 :=
    UInt64.toNat_add ..
  have hsize : UInt64.size = 2 ^ 64 := rfl
  unfold requestSize LargeBuffers.requestSize
  split
  · rename_i hlt
    have hadd : (length + alignment).toNat = length.toNat + alignment.toNat := by omega
    have hle : length ≤ length + alignment := UInt64.le_iff_toNat_le.mpr (by omega)
    simp only [hle, true_and]
    rw [add_eq hadd]
    rfl
  · rename_i hlt
    have hl := length.toNat_lt
    have ha := alignment.toNat_lt
    have hnle : ¬length ≤ length + alignment := fun hle => by
      have := UInt64.le_iff_toNat_le.mp hle
      omega
    simp only [hnle, false_and, if_false]

theorem cut_eq [Sliceable α] {x : α} {part : UInt64 → UInt64 → Exact α}
    (hp : ∀ start length, start.toNat ≤ (Sliceable.len x).toNat →
      part start length = of (.ok (Sliceable.sub x start length))) (c : Cut) :
    cut (Sliceable.len x) part c = of (c.apply x) := by
  cases c with
  | slice start length =>
    refine Eq.trans ?_ (congrArg of (Sliceable.slice_eq x start length).symm)
    refine bind_eq (checkRange_eq ..) fun _ hr => hp start length ?_
    exact (Nat.le_add_right ..).trans (checkRange_eq_ok_iff.mp hr)
  | tail start =>
    refine Eq.trans ?_ (congrArg of (Sliceable.sliceFrom_eq x start).symm)
    refine bind_eq rfl fun _ hs => ?_
    have hs : start ≤ Sliceable.len x := by simpa using verifyRange_eq_ok_iff.mp hs
    rw [sub_eq hs]
    exact hp start _ (UInt64.le_iff_toNat_le.mp hs)

theorem cut_memory {st : Store} {m : Memory} (hb : st.Bounds m) (c : Cut) :
    cut m.len (memoryPart m) c = of (c.apply m) := by
  refine cut_eq (fun start length hs => ?_) c
  have hadd : (m.start + start).toNat = m.start.toNat + start.toNat :=
    hb.toNat_start_sub hs length
  rw [memoryPart, add_eq hadd]
  rfl

theorem cut_window {w : Window} {n : ℕ} (h : w.Within n) (hn : n < UInt64.size) (c : Cut) :
    cut w.len (windowPart w) c = of (c.apply w) := by
  refine cut_eq (fun start length hs => ?_) c
  have hmul := h.toNat_mul_stride hn hs
  have hadd : (w.offset + start * w.element.stride).toNat =
      w.offset.toNat + (start * w.element.stride).toNat :=
    (h.toNat_offset_sub hn hs length).trans (congrArg (w.offset.toNat + ·) hmul.symm)
  rw [← Element.toNat_stride] at hmul
  rw [windowPart, mul_eq hmul]
  change (add w.offset (start * w.element.stride) >>= _) = _
  rw [add_eq hadd]
  rfl

end Exact

/-! ## Spans and memories -/

section Requests

variable {holds : Prop} {name : String} {start length : UInt64}

theorem Decides.guarded {check : Except Error Unit} (h : Decides (Failure.lift check) holds name)
    (x : α) : Decides (Failure.lift (do check; return x)) holds name := by
  cases check <;> exact h.map fun _ => x

theorem decides_slice [Sliceable α] (x : α) (start length : UInt64) :
    Decides (Failure.lift (Sliceable.slice x start length))
      (start.toNat + length.toNat ≤ (Sliceable.len x).toNat) (blame (Sliceable.len x) start) := by
  rw [Sliceable.slice_eq]
  exact (decides_checkRange ..).guarded _

theorem decides_sliceFrom [Sliceable α] (x : α) (start : UInt64) :
    Decides (Failure.lift (Sliceable.sliceFrom x start))
      (start.toNat ≤ (Sliceable.len x).toNat) "start" := by
  rw [Sliceable.sliceFrom_eq]
  exact (decides_checkStart ..).guarded _

theorem Source.decides_run {e : Element} {a : Access} {src : Source} {array : Option Contents}
    {prog : Program} (h : Decides (src.window e a array) holds name) :
    Decides (src.run e a array prog).1 holds name := by
  cases hw : src.window e a array with
  | error f =>
    have hr : (src.run e a array prog).1 = .error f := by simp only [run, hw]
    rw [hw] at h
    rw [hr]
    exact h.map fun _ => .done
  | ok w =>
    obtain ⟨t, hr⟩ : ∃ t, (src.run e a array prog).1 = .ok t := by
      cases array <;> simp only [run, hw] <;> exact ⟨_, rfl⟩
    rw [hw] at h
    rw [hr]
    exact h.map fun _ => t

namespace Session

variable {p : Platform} {s : Session} {slot : String} {h : Handle} {a : Access} {m : Memory}

theorem fst_makeSlice (hs : s.slots.get? slot = some h) (hm : h.memory? = some (a, m))
    (name : String) (part : Memory → Except Error Memory) :
    (s.makeSlice name slot part).1 = (Failure.lift (part m)).map fun _ => .done := by
  rw [makeSlice_of_memory hs hm]
  cases part m <;> rfl

theorem fst_makeRange {b : BlockId} (hs : s.slots.get? slot = some (.array b)) (name : String)
    (a : Access) (start length : UInt64) :
    (s.makeMemory name a (.range slot start length)).1 =
      (Failure.lift (checkRange (s.store.contentsOf b).count start length)).map fun _ => .done := by
  simp only [makeMemory, hs]
  cases checkRange (s.store.contentsOf b).count start length <;> rfl

end Session

end Requests

namespace Session

/-- Every guard decides the condition on unbounded numbers, whatever the words: a range lies within
what it is a range of, and if it does not, its start is to blame only for exceeding that by itself;
a tail has its start there; the bytes of a run of elements of any size, and a buffer with its
padding, are at most `2 ^ 63 - 1`. The end of a range and the size of a buffer are returned
unwrapped. No sum, difference, product or quotient on the way is stuck, nor is one that relies on a
guard: to slice a span that was derived from an array or from any handle, to slice any memory, and
to find where the memory stops. -/
theorem guards_exact (p : Platform) (e : Element) :
    (∀ len start length : UInt64,
      Exact.checkRange len start length = .of (checkRange len start length)) ∧
    (∀ (base : UInt64) (a : Access) (w : Window) (start length : UInt64),
      Decides ((Derivation.slice start length).apply base a w)
        (start.toNat + length.toNat ≤ w.len.toNat) (blame w.len start) ∧
      Decides ((Derivation.sliceFrom start).apply base a w) (start.toNat ≤ w.len.toNat) "start") ∧
    (∀ (a : Access) (c : Contents) (start length : UInt64) (prog : Program),
      Decides ((Source.range start length).run e a (some c) prog).1
        (start.toNat + length.toNat ≤ c.count.toNat) (blame c.count start) ∧
      Decides ((Source.raw length).run e a (some c) prog).1
        (length.toNat * max c.element.size 1 ≤ 2 ^ 63 - 1) "length") ∧
    (∀ size length : UInt64,
      Decides (Failure.lift (checkByteLength size length))
        (length.toNat * max size.toNat 1 ≤ 2 ^ 63 - 1) "length" ∧
      Exact.checkByteLength size length = .of (checkByteLength size length)) ∧
    (∀ start length limit : UInt64,
      Decides (Failure.lift (checkedEnd start length limit))
        (start.toNat + length.toNat ≤ limit.toNat) "length" ∧
      (∀ stop, checkedEnd start length limit = .ok stop →
        stop.toNat = start.toNat + length.toNat) ∧
      Exact.checkedEnd start length limit = .of (checkedEnd start length limit)) ∧
    (∀ alignment length : UInt64,
      Decides (Failure.lift (requestSize alignment length))
        (length.toNat + alignment.toNat ≤ 2 ^ 63 - 1) "length" ∧
      (∀ size, requestSize alignment length = .ok size →
        size.toNat = length.toNat + alignment.toNat) ∧
      Exact.requestSize alignment length = .of (requestSize alignment length)) ∧
    (∀ (src : Source) (a : Access) (array : Option Contents) (w w' : Window),
      (∀ c, array = some c → c.fits e = true) → (∀ n, src ≠ .raw n) →
      src.window e a array = .ok w → w.Derived placement w' →
      ∀ c : Cut, Exact.cut w'.len (Exact.windowPart w') c = .of (c.apply w')) ∧
    ∀ (ops : List Op) (slot : String) (h : Handle),
      let s := (start e).after p ops
      s.slots.get? slot = some h →
      (∀ v w', s.Resolves h v → v.window.Derived (s.store.baseOf v) w' →
        ∀ c : Cut, Exact.cut w'.len (Exact.windowPart w') c = .of (c.apply w')) ∧
      (∀ b, h = .array b → ∀ name a start length,
        Decides (s.step p (.memory name a (.range slot start length))).1
          (start.toNat + length.toNat ≤ (s.store.contentsOf b).count.toNat)
          (blame (s.store.contentsOf b).count start)) ∧
      ∀ a m, h.memory? = some (a, m) →
        (∀ name start length, Decides (s.step p (.slice name slot start length)).1
          (start.toNat + length.toNat ≤ m.len.toNat) (blame m.len start)) ∧
        (∀ name start, Decides (s.step p (.sliceFrom name slot start)).1
          (start.toNat ≤ m.len.toNat) "start") ∧
        Exact.stop m = .of (.ok (m.start + m.len)) ∧
        ∀ c : Cut, Exact.cut m.len (Exact.memoryPart m) c = .of (c.apply m) := by
  refine ⟨Exact.checkRange_eq, fun base a w start length => ⟨?_, ?_⟩,
    fun a c start length prog => ⟨Source.decides_run ?_, Source.decides_run ?_⟩,
    fun size length => ⟨decides_checkByteLength size length, Exact.checkByteLength_eq size length⟩,
    fun start length limit => ⟨decides_checkedEnd start length limit, fun stop hstop => ?_,
      Exact.checkedEnd_eq start length limit⟩,
    fun alignment length => ⟨decides_requestSize alignment length,
      fun size hsize => (requestSize_eq_ok hsize).1, Exact.requestSize_eq alignment length⟩,
    fun src a array w w' hf hr hw hd c => ?_, ?_⟩
  · exact (Cut.apply_derivation (.slice start length)).symm ▸ (decides_slice w start length).map _
  · exact (Cut.apply_derivation (.tail start)).symm ▸ (decides_sliceFrom w start).map _
  · rw [Source.window_eq]
    exact (decides_checkRange c.count start length).guarded _
  · rw [Source.window_eq]
    have hb := decides_checkByteLength c.element.stride length
    rw [Element.toNat_stride] at hb
    exact hb.guarded _
  · exact toNat_checkedEnd hstop
  · have hn := Source.byteCount_lt hf
    obtain ⟨hw', -⟩ := hd.within (Source.within_window hf hr hw) hn
    exact Exact.cut_window hw' hn c
  · intro ops slot h s hs
    have hreg : s.estate.Regular := regular_run p e ops
    obtain ⟨roles, hl⟩ := hreg.layout
    have hx := mem_handles hs
    refine ⟨fun v w' hv hd c => ?_, ?_, fun a m hm => ?_⟩
    · obtain ⟨hsh, -⟩ := hv.shows hl hx
      exact Exact.cut_window (hd.within hsh.within hsh.lt).1 hsh.lt c
    · rintro b rfl name a start length
      exact (fst_makeRange hs name a start length).symm ▸ (decides_checkRange ..).map _
    · have hb : s.store.Bounds m := hreg.bounded hx hm
      refine ⟨fun name start length => ?_, fun name start => ?_,
        Exact.add_eq (toNat_add_of_le hb), Exact.cut_memory hb⟩
      · exact (fst_makeSlice hs hm name (·.slice start length)).symm ▸
          (decides_slice m start length).map _
      · exact (fst_makeSlice hs hm name (·.sliceFrom start)).symm ▸
          (decides_sliceFrom m start).map _

/-- An array of as many units as a word can count: one unit from the last but one on is a slice, and
four are refused for their length, although the sum of both words is in range. A memory can refer
to more values than its manager has, and stops at the last word. -/
theorem guards_exact_of_wrap :
    let last : UInt64 := 0xFFFFFFFFFFFFFFFE
    let c : Contents := ⟨.unit, 0xFFFFFFFFFFFFFFFF, []⟩
    let w : Window := .whole c
    let ops : List Op := [.probe "p" ⟨.u8, 2, [1, 2]⟩ (some 0xFFFFFFFFFFFFFFFF) .live false,
      .share "s" "p", .memory "m" .writable (.manager "s" true), .sliceFrom "h" "m" last]
    let m : Memory := ⟨.manager 1, last, 1⟩
    let s := (start .u8).after .bounded ops
    last + 4 ≤ c.count ∧
      (∃ message, ((Source.range last 4).run .unit .readOnly (some c) .done).1 =
        .error (.error (.outOfRange "length" message))) ∧
      c.fits .unit = true ∧ Source.whole.window .unit .readOnly (some c) = .ok w ∧
      Exact.cut w.len (Exact.windowPart w) (.slice last 1) = .of (.ok ⟨.unit, 0, 1⟩) ∧
      s.slots.get? "h" = some (.memory m) ∧ Exact.stop m = .of (.ok 0xFFFFFFFFFFFFFFFF) := by
  intro last c w ops m s
  have hf : c.fits .unit = true := by decide +kernel
  have hw : Source.whole.window .unit .readOnly (some c) = .ok w := rfl
  have hs : s.slots.get? "h" = some (.memory m) := by decide +kernel
  obtain ⟨-, -, hspan, -, -, -, hcut, -⟩ := guards_exact .bounded .unit
  obtain ⟨-, -, -, -, -, -, -, hrun⟩ := guards_exact .bounded .u8
  obtain ⟨hg, hb⟩ := (hspan .readOnly c last 4 .done).1
  refine ⟨by decide, ?_, hf, hw, ?_, hs, ((hrun ops "h" _ hs).2.2 .writable m rfl).2.2.1⟩
  · cases hr : ((Source.range last 4).run .unit .readOnly (some c) .done).1 with
    | ok t => exact absurd (hg.mp ⟨t, hr⟩) (by decide +kernel)
    | error f =>
      obtain ⟨message, hm⟩ := hb f hr
      exact ⟨message, congrArg Except.error hm⟩
  · refine (hcut .whole .readOnly (some c) w w ?_ (by simp) hw .refl (.slice last 1)).trans ?_
    · rintro c' ⟨⟩
      exact hf
    · exact congrArg Exact.of (by decide +kernel)

end Session

end LargeBuffers
