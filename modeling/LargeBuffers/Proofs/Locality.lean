import LargeBuffers.Proofs.Alignment
import LargeBuffers.Proofs.Window
import LargeBuffers.Span.Source

/-! # Programs on a part of the bytes

A program sees and changes nothing but the bytes of its window. On a window somewhere in a longer
sequence it gets the answers that it gets on these bytes alone, and puts there what it makes of
them (`Program.run_shift`).
-/

namespace LargeBuffers

theorem splice_append {α : Type} {start : ℕ} {new mid : List α} (pre post : List α)
    (h : start + new.length ≤ mid.length) :
    splice (pre.length + start) new (pre ++ mid ++ post) = pre ++ splice start new mid ++ post := by
  have ht : (mid ++ post).take start = mid.take start :=
    List.take_append_of_le_length (Nat.le_of_add_right_le h)
  have hd : (mid ++ post).drop (start + new.length) = mid.drop (start + new.length) ++ post :=
    List.drop_append_of_le_length h
  rw [splice, splice, List.append_assoc pre mid, Nat.add_assoc, List.take_length_add_append,
    List.drop_length_add_append, ht, hd]
  simp only [List.append_assoc]

theorem length_part_lt {α : Type} {n : ℕ} {pre mid post : List α}
    (h : (pre ++ mid ++ post).length < n) : mid.length < n := by
  simp only [List.length_append] at h
  omega

/-! ## Alignment -/

theorem Element.exists_laneSize (e : Element) : ∃ j ≤ 4, e.laneSize = 2 ^ j := by
  cases e with
  | u8 | i8 | u8x3 | unit => exact ⟨0, by decide, rfl⟩
  | u16 | i16 | u16x3 => exact ⟨1, by decide, rfl⟩
  | u32 | i32 | f32 => exact ⟨2, by decide, rfl⟩
  | u64 | i64 | f64 => exact ⟨3, by decide, rfl⟩
  | u128 | i128 => exact ⟨4, by decide, rfl⟩

theorem isAligned_align_iff (address : UInt64) (e : Element) :
    isAligned address e.align = true ↔ e.laneSize ∣ address.toNat := by
  obtain ⟨j, -, hl⟩ := e.exists_laneSize
  rw [isAligned_iff_dvd (e.toNat_align.trans hl), e.toNat_align]

/-- Distances of 16 bytes make no difference to the alignment for any type. -/
theorem isAligned_add_of_dvd {k : UInt64} (h : 16 ∣ k.toNat) (address : UInt64) (e : Element) :
    isAligned (address + k) e.align = isAligned address e.align := by
  obtain ⟨j, hj, hl⟩ := e.exists_laneSize
  have h16 : 2 ^ j ∣ 16 := Nat.pow_dvd_pow 2 hj
  have h64 : 2 ^ j ∣ 2 ^ 64 := Nat.pow_dvd_pow 2 (by omega)
  rw [Bool.eq_iff_iff, isAligned_align_iff, isAligned_align_iff, hl, UInt64.toNat_add,
    Nat.dvd_mod_iff h64]
  exact Nat.dvd_add_iff_left (h16.trans h) |>.symm

/-- Bytes at `base` are aligned as those are that lie `k` bytes after `base'`. -/
def Aligned (base base' k : UInt64) : Prop :=
  ∀ (offset : UInt64) (e : Element),
    isAligned (base + (offset + k)) e.align = isAligned (base' + offset) e.align

theorem aligned_add (base k : UInt64) : Aligned base (base + k) k := by
  intro offset e
  rw [UInt64.add_comm offset, UInt64.add_assoc]

theorem aligned_of_dvd {k : UInt64} (base : UInt64) (h : 16 ∣ k.toNat) : Aligned base base k := by
  intro offset e
  rw [← UInt64.add_assoc]
  exact isAligned_add_of_dvd h ..

/-! ## Shifted windows -/

namespace Window

variable {w : Window} {k : UInt64}

def shift (w : Window) (k : UInt64) : Window := { w with offset := w.offset + k }

/-- The same window on bytes that are its own from the first on. -/
def alone (w : Window) : Window := { w with offset := 0 }

theorem shift_alone (w : Window) : w.alone.shift w.offset = w := by
  simp only [alone, shift, UInt64.zero_add]

@[simp]
theorem element_shift (w : Window) (k : UInt64) : (w.shift k).element = w.element := rfl

@[simp]
theorem len_shift (w : Window) (k : UInt64) : (w.shift k).len = w.len := rfl

@[simp]
theorem byteLength_shift (w : Window) (k : UInt64) : (w.shift k).byteLength = w.byteLength := rfl

theorem shift_sub (w : Window) (k start length : UInt64) :
    (w.shift k).sub start length = (w.sub start length).shift k := by
  simp only [sub, shift, UInt64.add_assoc, UInt64.add_comm k]

theorem shift_slice (w : Window) (k start length : UInt64) :
    (w.shift k).slice start length = (w.slice start length).map (·.shift k) := by
  simp only [slice, len_shift, shift_sub]
  cases checkRange w.len start length <;> rfl

theorem shift_sliceFrom (w : Window) (k start : UInt64) :
    (w.shift k).sliceFrom start = (w.sliceFrom start).map (·.shift k) := by
  simp only [sliceFrom, len_shift, shift_sub]
  cases checkStart w.len start <;> rfl

theorem shift_cast {base base' : UInt64} (h : Aligned base base' k) (w : Window) (e : Element) :
    (w.shift k).cast base e = (w.cast base' e).map (·.shift k) := by
  have ho : isAligned (base + (w.shift k).offset) e.align = isAligned (base' + w.offset) e.align :=
    h w.offset e
  rw [cast, cast, ho, len_shift]
  by_cases ha : isAligned (base' + w.offset) e.align = true
  · rw [if_pos ha, if_pos ha]
    split <;> rfl
  · rw [if_neg ha, if_neg ha]
    rfl

end Window

theorem Derivation.apply_shift {base base' k : UInt64} {d : Derivation}
    (h : ∀ e, d = .cast e → Aligned base base' k) (a : Access) (w : Window) :
    d.apply base a (w.shift k) = (d.apply base' a w).map fun x => (x.1, x.2.shift k) := by
  cases d with
  | slice start length =>
    rw [apply_slice, apply_slice, Window.shift_slice]
    cases w.slice start length <;> rfl
  | sliceFrom start =>
    rw [apply_sliceFrom, apply_sliceFrom, Window.shift_sliceFrom]
    cases w.sliceFrom start <;> rfl
  | cast e =>
    rw [apply_cast, apply_cast, Window.element_shift, Window.shift_cast (h e rfl)]
    split
    · cases w.cast base' e <;> rfl
    · rfl
  | reborrow | narrow =>
    simp only [apply]
    split <;> rfl

theorem Update.target_shift (w : Window) (k : UInt64) (u : Update) :
    u.target (w.shift k) = (u.target w).map (·.shift k) := by
  have hc : ∀ i, (w.shift k).cell i = (w.cell i).shift k := fun i => Window.shift_sub ..
  cases u with
  | set i v =>
    simp only [target, Window.element_shift, Window.len_shift, hc]
    cases checkIndex w.len i <;> split <;> rfl
  | setIndex i v =>
    simp only [target, Window.element_shift, Window.len_shift, hc]
    repeat' split
    all_goals rfl
  | fill v | assign values =>
    rw [target, target, Window.element_shift]
    split <;> rfl
  | clear | reverse => rfl

/-! ## Bytes around a window -/

section Around

variable {w : Window} {k : UInt64} {pre mid post : List UInt8}
  (hk : k.toNat = pre.length) (hl : (pre ++ mid ++ post).length < UInt64.size)

include hk hl

theorem Window.Within.toNat_offset_shift (h : w.offset.toNat ≤ mid.length) :
    (w.shift k).offset.toNat = pre.length + w.offset.toNat := by
  have hs : UInt64.size = 2 ^ 64 := rfl
  simp only [List.length_append] at hl
  change (w.offset + k).toNat = _
  rw [UInt64.toNat_add, hk, Nat.add_comm]
  exact Nat.mod_eq_of_lt (by omega)

theorem Window.Within.read_shift (h : w.Within mid.length) :
    (w.shift k).read (pre ++ mid ++ post) = w.read mid := by
  simp only [Window.read, Window.byteLength_shift]
  obtain h | h := h
  · rw [h, List.take_zero, List.take_zero]
  · rw [toNat_offset_shift hk hl (by omega), List.append_assoc, List.drop_length_add_append,
      List.drop_append_of_le_length (by omega), List.take_append_of_le_length]
    rw [List.length_drop]
    omega

theorem Window.Within.write_shift {new : List UInt8} (h : w.Within mid.length)
    (hn : new.length ≤ w.byteLength) :
    (w.shift k).write new (pre ++ mid ++ post) = pre ++ w.write new mid ++ post := by
  obtain h | h := h
  · obtain rfl : new = [] := List.length_eq_zero_iff.mp (by omega)
    simp only [Window.write, splice_nil]
  · rw [Window.write, toNat_offset_shift hk hl (by omega)]
    exact splice_append pre post (by omega)

theorem Window.Within.get_shift {i : UInt64} (h : w.Within mid.length) (hi : i < w.len) :
    (w.shift k).get i (pre ++ mid ++ post) = w.get i mid := by
  have hc : (w.shift k).cell i = (w.cell i).shift k := Window.shift_sub ..
  rw [Window.get, hc, (h.cell (length_part_lt hl) hi).read_shift hk hl]
  rfl

theorem Query.answer_shift (h : w.Within mid.length) (a : Access) (q : Query) :
    q.answer a (w.shift k) (pre ++ mid ++ post) = q.answer a w mid := by
  have hr := h.read_shift hk hl
  have hc : (w.shift k).contents (pre ++ mid ++ post) = w.contents mid := by
    rw [Window.contents, hr]
    rfl
  have hlen : (w.shift k).len = w.len := Window.len_shift ..
  cases q with
  | length | describe => rfl
  | contents => rw [answer_contents, answer_contents, hc]
  | backwards => rw [answer_backwards, answer_backwards, hc]
  | copyTo dest =>
    rw [answer_copyTo, answer_copyTo, Window.element_shift, Window.copyTo_congr hlen fun _ => hr]
  | tryCopyTo dest =>
    rw [answer_tryCopyTo, answer_tryCopyTo, Window.element_shift,
      Window.tryCopyTo_congr hlen fun _ => hr]
  | get i => rw [answer_get, answer_get, Window.fetch_congr hlen (h.get_shift hk hl)]
  | index i => rw [answer_index, answer_index, Window.index_congr hlen (h.get_shift hk hl)]

theorem Update.content_shift (h : w.Within mid.length) (u : Update) :
    u.content (w.shift k) (pre ++ mid ++ post) = u.content w mid := by
  cases u with
  | set | setIndex | fill | clear | assign => rfl
  | reverse =>
    rw [content, Window.contents, h.read_shift hk hl]
    rfl

theorem Update.apply_shift (h : w.Within mid.length) (u : Update) :
    u.apply (w.shift k) (pre ++ mid ++ post) = (u.apply w mid).map (pre ++ · ++ post) := by
  rw [apply_eq_map, apply_eq_map, target_shift, content_shift hk hl h]
  cases ht : u.target w with
  | error f => rfl
  | ok x =>
    have hx := within_target h (length_part_lt hl) ht
    exact congrArg Except.ok (hx.write_shift hk hl (target_eq_ok ht mid).2)

end Around

/-! ## Programs -/

namespace Program

def casts : Program → Bool
  | done => false
  | query _ rest | update _ rest | unreadable rest => rest.casts
  | derive (.cast _) _ _ => true
  | derive _ body rest => body.casts || rest.casts

theorem casts_derive {d : Derivation} {body rest : Program}
    (h : (∃ e, d = .cast e) ∨ body.casts = true ∨ rest.casts = true) :
    (derive d body rest).casts = true := by
  cases d with
  | cast e => rfl
  | slice | sliceFrom | reborrow | narrow => simpa [casts] using h

variable {base base' k : UInt64} {pre mid post : List UInt8}

/-- A program on a window takes no notice of the bytes around it, and leaves them as they are. -/
theorem run_shift {prog : Program} {a : Access} {w : Window}
    (hb : prog.casts = true → Aligned base base' k) (hk : k.toNat = pre.length)
    (hl : (pre ++ mid ++ post).length < UInt64.size) (h : w.Within mid.length) :
    prog.run base a (w.shift k) (pre ++ mid ++ post) =
      ((prog.run base' a w mid).1, pre ++ (prog.run base' a w mid).2 ++ post) := by
  induction prog generalizing a w mid with
  | done => rfl
  | query q rest ih =>
    simp only [run, ih hb hl h, Query.answer_shift hk hl h]
    split <;> rfl
  | update u rest ih =>
    cases a with
    | readOnly => simp only [run, ih hb hl h]
    | writable =>
      simp only [run, ih hb hl h, Update.apply_shift hk hl h]
      cases hu : u.apply w mid with
      | error f => rfl
      | ok mid₁ =>
        have hlen := h.length_apply (length_part_lt hl) hu
        have hl₁ : (pre ++ mid₁ ++ post).length < UInt64.size := by
          simpa only [List.length_append, hlen] using hl
        simp only [Except.map, ih hb hl₁ (hlen ▸ h)]
  | derive d body rest ihb ihr =>
    have hd : ∀ e, d = .cast e → Aligned base base' k :=
      fun e he => hb (casts_derive (.inl ⟨e, he⟩))
    have hbody : body.casts = true → Aligned base base' k :=
      fun hc => hb (casts_derive (.inr (.inl hc)))
    have hrest : rest.casts = true → Aligned base base' k :=
      fun hc => hb (casts_derive (.inr (.inr hc)))
    simp only [run, Derivation.apply_shift hd]
    cases hw : d.apply base' a w with
    | error f => simp only [Except.map, ihr hrest hl h]
    | ok x =>
      obtain ⟨a', w'⟩ := x
      have hm := length_part_lt hl
      have h' : w'.Within mid.length := h.derive hm hw
      have hlen : (body.run base' a' w' mid).2.length = mid.length := h'.length_run hm
      have hl₁ : (pre ++ (body.run base' a' w' mid).2 ++ post).length < UInt64.size := by
        simpa only [List.length_append, hlen] using hl
      simp only [Except.map, ihb hbody hl h', ihr hrest hl₁ (hlen.symm ▸ h)]
  | unreadable rest ih => simp only [run, ih hb hl h]

/-! ## Windows on their own bytes -/

section Alone

variable {w : Window} {bytes : List UInt8} (a : Access) (prog : Program)
  (h : w.Within bytes.length) (hb : bytes.length < UInt64.size)

include h

theorem within_alone : w.alone.Within (w.read bytes).length :=
  .inr ((Nat.zero_add _).trans h.length_read.symm).le

include hb

theorem length_run_alone (base : UInt64) :
    (prog.run base a w.alone (w.read bytes)).2.length = w.byteLength := by
  have hl : (w.read bytes).length < UInt64.size := by
    refine lt_of_le_of_lt ?_ hb
    rw [Window.read, List.length_take, List.length_drop]
    omega
  exact ((within_alone h).length_run hl).trans h.length_read

/-- What a program leaves in a window it makes of the bytes of the window alone. -/
theorem run_eq_write (base : UInt64) : (prog.run base a w bytes).2 =
    w.write (prog.run (base + w.offset) a w.alone (w.read bytes)).2 bytes := by
  have hlen := length_run_alone a prog h hb (base + w.offset)
  by_cases hz : w.byteLength = 0
  · -- An empty window may lie anywhere, so all bytes are taken as those behind it.
    have h0 : w.Within ([] : List UInt8).length := .inl hz
    have hl : (([] : List UInt8) ++ [] ++ bytes).length < UInt64.size := hb
    have hk : (0 : UInt64).toNat = ([] : List UInt8).length := rfl
    have hal : prog.casts = true → Aligned base base 0 :=
      fun _ => aligned_of_dvd base (by decide)
    have hrun := run_shift (a := a) hal hk hl h0
    have hnil : (prog.run base a w []).2 = [] :=
      List.length_eq_zero_iff.mp (h0.length_run (Nat.zero_lt_succ _))
    have hw : w.shift 0 = w := by simp only [Window.shift, UInt64.add_zero]
    rw [hw, hnil] at hrun
    rw [hz] at hlen
    rw [Window.write, List.length_eq_zero_iff.mp hlen, splice_nil]
    exact congrArg Prod.snd hrun
  · have hn := h.resolve_left hz
    have hk : w.offset.toNat = (bytes.take w.offset.toNat).length := by
      rw [List.length_take]
      omega
    have hparts : bytes = bytes.take w.offset.toNat ++ w.read bytes ++
        bytes.drop (w.offset.toNat + w.byteLength) := by
      rw [Window.read, List.append_assoc, ← List.drop_drop, List.take_append_drop,
        List.take_append_drop]
    have hrun := run_shift (a := a) (fun _ : prog.casts = true => aligned_add base w.offset) hk
      (hparts ▸ hb) (within_alone h)
    rw [Window.shift_alone, ← hparts] at hrun
    rw [hrun, Window.write, splice, hlen]

end Alone

end Program

/-! ## Spans over arrays -/

namespace Contents

variable {e : Element} {vs : List Value} {c : Contents}

theorem ofValues?_eq_some_iff : ofValues? e vs = some c ↔
    (∀ v ∈ vs, v.fits e = true) ∧ vs.length < UInt64.size ∧ ofValues e vs = c := by
  unfold ofValues?
  split
  · rename_i h
    rw [Bool.and_eq_true, List.all_eq_true, decide_eq_true_eq] at h
    exact ⟨fun hc => ⟨h.1, h.2, Option.some.inj hc⟩, fun hc => congrArg some hc.2.2⟩
  · rename_i h
    rw [Bool.and_eq_true, List.all_eq_true, decide_eq_true_eq] at h
    exact ⟨fun hc => (Option.some_ne_none c hc.symm).elim, fun hc => (h ⟨hc.1, hc.2.1⟩).elim⟩

theorem toNat_count_ofValues (e : Element) (h : vs.length < UInt64.size) :
    (ofValues e vs).count.toNat = vs.length :=
  UInt64.toNat_ofNat_of_lt' h

theorem sound_ofValues (h : ∀ v ∈ vs, v.fits e = true) (hl : vs.length < UInt64.size)
    (hb : (ofValues e vs).bytes.length < UInt64.size) : (ofValues e vs).Sound where
  length := by
    rw [toNat_count_ofValues e hl]
    exact length_flatMap_encode h
  lt := hb

theorem bytes_ofValues (pre mid post : List Value) : (ofValues e (pre ++ mid ++ post)).bytes =
    pre.flatMap Value.encode ++ mid.flatMap Value.encode ++ post.flatMap Value.encode := by
  simp only [ofValues, List.flatMap_append]

theorem values_replace {pre mid post : List Value} {bytes : List UInt8}
    (h : ∀ v ∈ pre ++ mid ++ post, v.fits e = true)
    (hl : (pre ++ mid ++ post).length < UInt64.size) (hb : bytes.length = mid.length * e.size) :
    values { ofValues e (pre ++ mid ++ post) with
      bytes := pre.flatMap Value.encode ++ bytes ++ post.flatMap Value.encode } =
    pre ++ values { ofValues e mid with bytes := bytes } ++ post := by
  have hm := length_part_lt hl
  simp only [List.forall_mem_append] at h
  obtain ⟨⟨hpre, -⟩, hpost⟩ := h
  have hp := length_flatMap_encode hpre
  have hpb : (pre.flatMap Value.encode ++ bytes).length = (pre.length + mid.length) * e.size := by
    rw [List.length_append, hp, hb, Nat.add_mul]
  simp only [values_eq_decodeAll, toNat_count_ofValues e hl, toNat_count_ofValues e hm]
  simp only [ofValues, List.length_append]
  rw [Element.decodeAll_append hpb, Element.decodeAll_append hp,
    Element.decodeAll_flatMap_encode hpre, Element.decodeAll_flatMap_encode hpost]

end Contents

namespace Source

variable {e : Element} {start length : UInt64} {a : Access} {prog : Program} {t : Transcript}

theorem run_part {pre mid post : List Value} {bytes : List UInt8}
    (hv : ∀ v ∈ pre ++ mid ++ post, v.fits e = true)
    (hl : (pre ++ mid ++ post).length < UInt64.size)
    (hb : (Contents.ofValues e (pre ++ mid ++ post)).bytes.length < UInt64.size)
    (hs : start.toNat = pre.length) (hn : length.toNat = mid.length)
    (hc : prog.casts = true → 16 ∣ start.toNat)
    (hp : prog.run placement a (Window.whole (Contents.ofValues e mid)) (mid.flatMap Value.encode) =
      (t, bytes)) :
    Source.whole.run e a (some (Contents.ofValues e (pre ++ mid ++ post)))
        (.derive (.slice start length) prog .done) =
      (.ok (.derived t .done), some { Contents.ofValues e (pre ++ mid ++ post) with
        bytes := pre.flatMap Value.encode ++ bytes ++ post.flatMap Value.encode }) := by
  have hpre := length_flatMap_encode fun v h =>
    hv v (List.mem_append_left post (List.mem_append_left mid h))
  have hcount := Contents.toNat_count_ofValues e (length_part_lt hl)
  have hbytes := Contents.bytes_ofValues (e := e) pre mid post
  have hlt := hbytes ▸ hb
  have hlen : length = (Contents.ofValues e mid).count := UInt64.toNat_inj.mp (hn.trans hcount.symm)
  have hr : checkRange (Contents.ofValues e (pre ++ mid ++ post)).count start length = .ok () := by
    rw [checkRange_eq_ok_iff, Contents.toNat_count_ofValues e hl, hs, hn]
    simp only [List.length_append]
    omega
  have hslice : (Window.whole (Contents.ofValues e (pre ++ mid ++ post))).slice start length =
      .ok ((Window.whole (Contents.ofValues e mid)).shift (start * e.stride)) := by
    rw [Window.slice_eq_ok_iff, hlen]
    exact ⟨hlen ▸ hr, rfl⟩
  have hk : (start * e.stride).toNat = start.toNat * e.size := by
    rw [UInt64.toNat_mul, Element.toNat_stride]
    refine Nat.mod_eq_of_lt (lt_of_le_of_lt ?_ hlt)
    simp only [List.length_append, hpre, ← hs]
    omega
  have hw := Window.within_whole (Contents.sound_ofValues (fun v h =>
    hv v (List.mem_append_left post (List.mem_append_right pre h))) (length_part_lt hl)
    (length_part_lt hlt))
  have hal : prog.casts = true → Aligned placement placement (start * e.stride) := by
    intro h
    apply aligned_of_dvd
    rw [hk]
    exact (hc h).mul_right e.size
  simp only [Source.run, Source.window_eq, Source.writableSpan, Program.run,
    Derivation.apply_slice, hslice, Failure.lift, Except.map, hbytes,
    Program.run_shift hal (hk.trans (hs ▸ hpre.symm)) hlt hw, hp]

/-- A program on a part of an array goes as it goes on an array that is this part alone. What it
leaves there takes the place of the part, and the rest of the array is as it was. -/
theorem slice_local {vs : List Value} {xs : Contents} (a : Access) (prog : Program)
    (hx : Contents.ofValues? e vs = some xs) (hf : xs.fits e = true)
    (hr : start.toNat + length.toNat ≤ vs.length) (hc : prog.casts = true → 16 ∣ start.toNat) :
    ∃ part final whole t,
      Contents.ofValues? e ((vs.drop start.toNat).take length.toNat) = some part ∧
      Source.whole.run e a (some part) prog = (.ok t, some final) ∧
      Source.whole.run e a (some xs) (.derive (.slice start length) prog .done) =
        (.ok (.derived t .done), some whole) ∧
      whole.values =
        vs.take start.toNat ++ final.values ++ vs.drop (start.toNat + length.toNat) ∧
      final.values.length = length.toNat ∧ whole.values.length = vs.length := by
  obtain ⟨hv, hl, rfl⟩ := Contents.ofValues?_eq_some_iff.mp hx
  obtain ⟨pre, hpre⟩ : ∃ pre, pre = vs.take start.toNat := ⟨_, rfl⟩
  obtain ⟨mid, hmid⟩ : ∃ mid, mid = (vs.drop start.toNat).take length.toNat := ⟨_, rfl⟩
  obtain ⟨post, hpost⟩ : ∃ post, post = vs.drop (start.toNat + length.toNat) := ⟨_, rfl⟩
  have hsound := (Contents.sound_of_fits hf).1
  have hs : start.toNat = pre.length := by rw [hpre, List.length_take]; omega
  have hn : length.toNat = mid.length := by rw [hmid, List.length_take, List.length_drop]; omega
  obtain rfl : pre ++ mid ++ post = vs := by
    rw [hpre, hmid, hpost, List.append_assoc, ← List.drop_drop, List.take_append_drop,
      List.take_append_drop]
  rw [← hpre, ← hmid, ← hpost]
  have hmv : ∀ v ∈ mid, v.fits e = true :=
    fun v h => hv v (List.mem_append_left post (List.mem_append_right pre h))
  have hml := length_part_lt hl
  have hlt := Contents.bytes_ofValues pre mid post ▸ hsound.lt
  have hpart := Contents.sound_ofValues hmv hml (length_part_lt hlt)
  cases hp : prog.run placement a (Window.whole (Contents.ofValues e mid))
    (Contents.ofValues e mid).bytes with
  | mk t bytes =>
    have hbytes : (prog.run placement a (Window.whole (Contents.ofValues e mid))
        (Contents.ofValues e mid).bytes).2.length = (Contents.ofValues e mid).bytes.length :=
      (Window.within_whole hpart).length_run hpart.lt
    rw [hp] at hbytes
    change bytes.length = _ at hbytes
    have hvalues := Contents.values_replace hv hl (hbytes.trans (length_flatMap_encode hmv))
    have hfinal : (Contents.values { Contents.ofValues e mid with bytes := bytes }).length =
        mid.length :=
      (Contents.length_values (hbytes.trans hpart.length)).trans
        (Contents.toNat_count_ofValues e hml)
    refine ⟨_, { Contents.ofValues e mid with bytes := bytes }, _, t,
      Contents.ofValues?_eq_some_iff.mpr ⟨hmv, hml, rfl⟩, ?_, run_part hv hl hsound.lt hs hn hc hp,
      hvalues, hfinal.trans hn.symm, ?_⟩
    · simp only [Source.run, Source.window_eq, Source.writableSpan, hp]
    · rw [hvalues]
      simp only [List.length_append, hfinal]

/-- Four bytes after sixteen others, two of them shown as a wider number. -/
theorem slice_local_of_cast :
    let byte : Int → Value := fun n => ⟨.u8, [n]⟩
    let vs := List.replicate 16 (byte 0) ++ [byte 1, byte 2, byte 3, byte 4, byte 5]
    let prog : Program := .derive (.slice 1 2) (.update (.fill (byte 7)) .done)
      (.derive (.cast .u16) (.update (.set 0 ⟨.u16, [513]⟩) (.query (.get 2) .done)) .done)
    prog.casts = true ∧ ∃ whole t,
      Source.whole.run .u8 .writable (some (Contents.ofValues .u8 vs))
        (.derive (.slice 16 4) prog .done) = (.ok (.derived t .done), some whole) ∧
      whole.values =
        List.replicate 16 (byte 0) ++ [byte 1, byte 2, byte 7, byte 4, byte 5] := by
  intro byte vs prog
  have hx : Contents.ofValues? .u8 vs = some (Contents.ofValues .u8 vs) := by decide +kernel
  have hr : (16 : UInt64).toNat + (4 : UInt64).toNat ≤ vs.length := by decide +kernel
  obtain ⟨part, final, whole, t, hp, hf, hw, hv, -, -⟩ :=
    slice_local .writable prog hx (by decide +kernel) hr (fun _ => by decide +kernel)
  have hpart : Contents.ofValues? .u8 ((vs.drop 16).take 4) = some ⟨.u8, 4, [1, 2, 3, 4]⟩ := by
    decide +kernel
  obtain rfl := Option.some.inj (hpart.symm.trans hp)
  have hfinal : (Source.whole.run .u8 .writable (some ⟨.u8, 4, [1, 2, 3, 4]⟩) prog).2 =
      some ⟨.u8, 4, [1, 2, 7, 4]⟩ := by decide +kernel
  rw [hf] at hfinal
  obtain rfl := Option.some.inj hfinal
  exact ⟨rfl, whole, t, hw, hv.trans (by decide +kernel)⟩

end Source

end LargeBuffers
