import LargeBuffers.Element

/-! # Values and their bytes

A value is the list of the numbers in its lanes; a floating-point lane is its bit pattern.
Lanes are stored one after the other, each with its least byte first. Bytes and the number
that they spell determine each other (`littleEndian_ofLittleEndian`).
-/

namespace LargeBuffers

/-- The lowest `width` bytes of a number, least byte first. -/
def littleEndian : Nat → Nat → List UInt8
  | 0, _ => []
  | width + 1, n => UInt8.ofNat n :: littleEndian width (n / 256)

def ofLittleEndian : List UInt8 → Nat
  | [] => 0
  | b :: bytes => b.toNat + 256 * ofLittleEndian bytes

@[simp]
theorem length_littleEndian (width n : Nat) : (littleEndian width n).length = width := by
  induction width generalizing n with
  | zero => rfl
  | succ width ih => simp [littleEndian, ih]

theorem ofLittleEndian_lt (bytes : List UInt8) :
    ofLittleEndian bytes < Nat.pow 256 bytes.length := by
  induction bytes with
  | nil => simp [ofLittleEndian]
  | cons b bytes ih =>
    have hb := b.toNat_lt
    change ofLittleEndian (b :: bytes) < Nat.pow 256 bytes.length * 256
    simp only [ofLittleEndian]
    omega

theorem ofLittleEndian_littleEndian (width n : Nat) :
    ofLittleEndian (littleEndian width n) = n % Nat.pow 256 width := by
  induction width generalizing n with
  | zero => simp [littleEndian, ofLittleEndian, Nat.mod_one]
  | succ width ih =>
    change _ = n % (Nat.pow 256 width * 256)
    rw [Nat.mul_comm, littleEndian, ofLittleEndian, ih, Nat.mod_mul, UInt8.toNat_ofNat']

theorem littleEndian_ofLittleEndian (bytes : List UInt8) :
    littleEndian bytes.length (ofLittleEndian bytes) = bytes := by
  induction bytes with
  | nil => rfl
  | cons b bytes ih =>
    have hb := b.toNat_lt
    have hdiv : (b.toNat + 256 * ofLittleEndian bytes) / 256 = ofLittleEndian bytes := by omega
    have hmod : UInt8.ofNat (b.toNat + 256 * ofLittleEndian bytes) = b := by
      apply UInt8.toNat_inj.mp
      rw [UInt8.toNat_ofNat']
      omega
    rw [List.length_cons, ofLittleEndian, littleEndian, hdiv, hmod, ih]

structure Value where
  element : Element
  lanes : List Int
  deriving DecidableEq, Repr

namespace Element

def laneModulus (e : Element) : Nat := Nat.pow 256 e.laneSize

def admits (e : Element) (x : Int) : Bool :=
  if e.signed then -(e.laneModulus / 2 : Nat) ≤ x && x < (e.laneModulus / 2 : Nat)
  else 0 ≤ x && x < e.laneModulus

def encodeLane (e : Element) (x : Int) : List UInt8 :=
  littleEndian e.laneSize (x % e.laneModulus).toNat

def decodeLane (e : Element) (bytes : List UInt8) : Int :=
  let n := ofLittleEndian bytes
  if e.signed then (n : Int).bmod e.laneModulus else n

def decode (e : Element) (bytes : List UInt8) : Value where
  element := e
  lanes := (List.range e.lanes).map fun i =>
    e.decodeLane ((bytes.drop (i * e.laneSize)).take e.laneSize)

end Element

namespace Value

/-- The lanes are those of the type, and each can hold its number. -/
def valid (v : Value) : Bool :=
  v.lanes.length == v.element.lanes && v.lanes.all v.element.admits

def fits (v : Value) (e : Element) : Bool :=
  v.element == e && v.valid

/-- The bytes of a value; absent lanes are zero. -/
def encode (v : Value) : List UInt8 :=
  (List.range v.element.lanes).flatMap fun i => v.element.encodeLane (v.lanes.getD i 0)

end Value

end LargeBuffers
