import LargeBuffers.Proofs.Revision

/-! # Casts of bytes

A cast shows bytes as values of another type, the least byte of a lane first. Whether it fails can
be told from the place and the number of the bytes, and a program on the cast leaves the bytes of
the values that it makes of the list of values (`Window.cast_faithful`).
-/

namespace LargeBuffers

namespace Window

variable {base : UInt64} {w u : Window} {bytes : List UInt8} {e : Element}

/-- Over storage at a multiple of 64 the offset alone decides the alignment. -/
theorem dvd_base_add_iff (h : 64 ∣ base.toNat) (offset : UInt64) :
    e.laneSize ∣ (base + offset).toNat ↔ e.align.toNat ∣ offset.toNat := by
  rw [UInt64.add_comm, ← isAligned_align_iff, isAligned_add_of_dvd ((by decide : 16 ∣ 64).trans h),
    isAligned_align_iff, e.toNat_align]

theorem cast_eq_ok_iff : w.cast base e = .ok u ↔
    (e.laneSize ∣ (base + w.offset).toNat ∧ e.size ∣ w.len.toNat) ∧
      u = ⟨e, w.offset, w.len / e.stride⟩ := by
  rw [cast_eq]
  constructor
  · intro hu
    split at hu
    · split at hu
      · exact ⟨⟨‹_›, ‹_›⟩, (Except.ok.inj hu).symm⟩
      · cases hu
    · cases hu
  · rintro ⟨⟨ha, hd⟩, rfl⟩
    rw [if_pos ha, if_pos hd]

theorem cast_eq_ok (hu : w.cast base e = .ok u) :
    u = ⟨e, w.offset, w.len / e.stride⟩ ∧ e.size ∣ w.len.toNat :=
  have h := cast_eq_ok_iff.mp hu
  ⟨h.2, h.1.2⟩

theorem Within.get_eq {i : UInt64} (h : w.Within bytes.length) (hb : bytes.length < UInt64.size)
    (hi : i < w.len) : w.get i bytes =
      w.element.decode (((w.read bytes).drop (i.toNat * w.element.size)).take w.element.size) := by
  have hr : checkRange w.len i 1 = .ok () := checkRange_eq_ok_iff.mpr (UInt64.lt_iff_toNat_lt.mp hi)
  rw [get, Window.cell, h.read_sub hb hr]
  exact congrArg (fun n => w.element.decode (((w.read bytes).drop _).take n)) (Nat.one_mul _)

end Window

open Window

variable {base : UInt64} {w : Window} {bytes : List UInt8}

theorem Window.cast_faithful (e : Element) (hbase : 64 ∣ base.toNat) (hu : w.element = .u8)
    (hw : w.Within bytes.length) (hb : bytes.length < UInt64.size) :
    (∀ a, (Derivation.cast e).apply base a w =
      if ¬e.align.toNat ∣ w.offset.toNat then
        .error (.error (.arrayTypeMismatch e.name "TargetAlignmentGreaterAndInputNotAligned"))
      else if ¬e.size ∣ w.len.toNat then
        .error (.error (.arrayTypeMismatch e.name "OutputSliceWouldHaveSlop"))
      else .ok (a, ⟨e, w.offset, w.len / e.stride⟩)) ∧
    (∀ u, w.cast base e = .ok u →
      let element (i : ℕ) := e.decode (((w.read bytes).drop (i * e.size)).take e.size)
      let values := (u.contents bytes).values
      u.len.toNat = w.len.toNat / e.size ∧
      values = (List.range u.len.toNat).map element ∧
      (∀ a i, i < u.len → (Query.get i).answer a u bytes = .ok (.value (element i.toNat))) ∧
      (∀ (prog : Program) (vs : List Value), prog.revise (base + w.offset) e values = vs →
        (prog.run base .writable u bytes).2 = w.write (vs.flatMap Value.encode) bytes ∧
        w.read (prog.run base .writable u bytes).2 = vs.flatMap Value.encode ∧
        (u.contents (prog.run base .writable u bytes).2).values = vs ∧
        (prog.run base .readOnly u bytes).2 = bytes) ∧
      (∀ c : Contents, c.fits e = true → c.count ≤ u.len →
        w.read (u.write c.bytes bytes) =
          (c.values ++ values.drop c.count.toNat).flatMap Value.encode) ∧
      ∀ dest : Contents, dest.fits e = true → u.len ≤ dest.count →
        u.copyTo bytes dest =
          .ok (Contents.ofValues e (values ++ dest.values.drop u.len.toNat))) ∧
    (∀ a, ((Program.derive (.cast e) .done .done).run base a w bytes).2 = bytes) ∧
    (∀ bs : List UInt8, bs.length = e.size →
      (e.decode bs).fits e = true ∧ (e.decode bs).encode = bs) ∧
    ∀ v : Value, v.fits e = true → e.decode v.encode = v ∧ v.encode.length = e.size := by
  have hcast : ∀ {u}, w.cast base e = .ok u → u.element = e ∧ u.offset = w.offset ∧
      u.byteLength = w.byteLength ∧ u.Within bytes.length := by
    intro u h
    obtain ⟨ho, hl⟩ := byteLength_cast hu h
    exact ⟨(cast_eq_ok h).1 ▸ rfl, ho, hl, hw.cast hu h⟩
  have hread : ∀ {u}, w.cast base e = .ok u → ∀ bytes, u.read bytes = w.read bytes := by
    intro u h bytes
    obtain ⟨-, ho, hl, -⟩ := hcast h
    rw [read, read, ho, hl]
  refine ⟨fun a => ?_, fun u h => ?_, fun a => ?_,
    fun bs hbs => ⟨Element.fits_decode hbs, Element.encode_decode hbs⟩,
    fun v hv => ⟨Value.decode_encode hv, ?_⟩⟩
  · rw [Derivation.apply_cast, if_pos hu]
    simp only [cast_eq, dvd_base_add_iff hbase, ite_not]
    by_cases ha : e.align.toNat ∣ w.offset.toNat
    · by_cases hd : e.size ∣ w.len.toNat
      · simp only [if_pos ha, if_pos hd, Failure.lift, Except.map]
      · simp only [if_pos ha, if_neg hd, Failure.lift, Except.map]
    · simp only [if_neg ha, Failure.lift, Except.map]
  · obtain ⟨rfl, ho, hl, hin⟩ := hcast h
    have hr := hread h bytes
    refine ⟨?_, ?_, fun a i hi => ?_, fun prog vs hvs => ?_, fun c hc hle => ?_,
      fun dest hd hle => hin.copyTo_eq_ofValues hb hd hle⟩
    · rw [(cast_eq_ok h).1, UInt64.toNat_div, Element.toNat_stride]
    · rw [Contents.values_eq_decodeAll, ← hr]
      exact Element.decodeAll_eq_map_range hin.length_read
    · have hget := hr ▸ hin.get_eq hb hi
      rw [Query.answer_get, fetch_of_lt hi, hget]
      rfl
    · rw [← ho] at hvs
      obtain ⟨hwrite, hshow, hvalues⟩ := Program.run_eq_revise hin hb prog base hvs
      refine ⟨?_, hread h _ ▸ hshow, hvalues, Program.run_readOnly_snd ..⟩
      rw [hwrite, write, write, ho]
    · obtain ⟨hs, he⟩ := Contents.sound_of_fits hc
      rw [← hread h, hin.read_write_bytes hb hs he hle]
  · simp only [Program.run]
    split <;> rfl
  · rw [length_encode, Value.element_of_fits hv]

/-- Twelve bytes from the fifth on as three signed numbers, one of them set, two reversed, and the
first assigned anew. -/
theorem Window.cast_faithful_of_slice :
    let bytes : List UInt8 := [1, 2, 3, 4, 255, 255, 255, 255, 0, 1, 0, 0, 9, 9, 9, 9, 7]
    let w : Window := ⟨.u8, 4, 12⟩
    let prog : Program := .update (.set 1 ⟨.i32, [-2]⟩) (.derive (.slice 1 2)
      (.update .reverse .done) (.update (.assign (.ofValues .i32 [⟨.i32, [258]⟩])) .done))
    (64 ∣ placement.toNat ∧ w.element = .u8 ∧ w.Within bytes.length ∧
      bytes.length < UInt64.size) ∧
    (Derivation.cast .i32).apply placement .writable w = .ok (.writable, ⟨.i32, 4, 3⟩) ∧
    (Window.contents ⟨.i32, 4, 3⟩ bytes).values =
      [⟨.i32, [-1]⟩, ⟨.i32, [256]⟩, ⟨.i32, [151587081]⟩] ∧
    (prog.run placement .writable ⟨.i32, 4, 3⟩ bytes).2 =
      [1, 2, 3, 4, 2, 1, 0, 0, 9, 9, 9, 9, 254, 255, 255, 255, 7] := by
  intro bytes w prog
  have hw : w.Within bytes.length := .inr (by decide)
  have hb : bytes.length < UInt64.size := by decide
  have hall := cast_faithful .i32 (by decide : 64 ∣ placement.toNat) rfl hw hb
  obtain ⟨hderive, hview, -⟩ := hall
  have hcast : w.cast placement .i32 = .ok ⟨.i32, 4, 3⟩ := by decide +kernel
  obtain ⟨-, hvalues, -, hprog, -⟩ := hview _ hcast
  have hvs : prog.revise (placement + w.offset) .i32 (contents ⟨.i32, 4, 3⟩ bytes).values =
      [⟨.i32, [258]⟩, ⟨.i32, [151587081]⟩, ⟨.i32, [-2]⟩] := by decide +kernel
  refine ⟨⟨by decide, rfl, hw, hb⟩, (hderive .writable).trans (by decide +kernel), ?_, ?_⟩
  · rw [hvalues]
    decide +kernel
  · rw [(hprog prog _ hvs).1]
    decide +kernel

/-- A type of no size divides the length of an empty run, and the cast of it succeeds. -/
theorem Window.cast_of_empty :
    (Contents.empty .u8).fits .u8 = true ∧
    ¬(∀ (c : Contents) (e : Element), c.fits .u8 = true →
      e.align.toNat ∣ (whole c).offset.toNat →
      ((whole c).cast placement e =
          .error (.arrayTypeMismatch e.name "OutputSliceWouldHaveSlop") ↔
        e.size ≠ 1 ∧ (e.size = 0 ∨ ¬e.size ∣ c.count.toNat))) ∧
    Source.whole.run .u8 .readOnly (some (.empty .u8))
        (.derive (.cast .unit) (.query .length .done) .done) =
      (.ok (.derived (.answered (.length 0) .done) .done), some (.empty .u8)) := by
  refine ⟨by decide, fun h => ?_, by decide +kernel⟩
  have hslop := (h (.empty .u8) .unit (by decide) (by decide)).mpr ⟨by decide, .inl rfl⟩
  have hok : (whole (.empty .u8)).cast placement .unit = .ok ⟨.unit, 0, 0⟩ := by decide +kernel
  rw [hok] at hslop
  cases hslop

end LargeBuffers
