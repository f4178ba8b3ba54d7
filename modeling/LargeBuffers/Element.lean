/-! # Element types

A value is stored as a number of equally wide lanes. The width of a lane is also the
alignment of the type; the unit type has no lanes and takes no bytes.
-/

namespace LargeBuffers

inductive Element where
  | u8 | i8 | u16 | i16 | u32 | i32 | u64 | i64 | u128 | i128
  | f32 | f64
  | unit
  | u8x3 | u16x3
  deriving DecidableEq, Repr

namespace Element

def lanes : Element → Nat
  | unit => 0
  | u8x3 | u16x3 => 3
  | _ => 1

def laneSize : Element → Nat
  | u8 | i8 | u8x3 | unit => 1
  | u16 | i16 | u16x3 => 2
  | u32 | i32 | f32 => 4
  | u64 | i64 | f64 => 8
  | u128 | i128 => 16

/-- Lanes of these types stand for negative numbers too. -/
def signed : Element → Bool
  | i8 | i16 | i32 | i64 | i128 => true
  | _ => false

def size (e : Element) : Nat := e.lanes * e.laneSize

/-- The distance between neighbouring values, as a word. -/
def stride (e : Element) : UInt64 := UInt64.ofNat e.size

def align (e : Element) : UInt64 := UInt64.ofNat e.laneSize

def name : Element → String
  | u8 => "u8" | i8 => "i8" | u16 => "u16" | i16 => "i16"
  | u32 => "u32" | i32 => "i32" | u64 => "u64" | i64 => "i64"
  | u128 => "u128" | i128 => "i128" | f32 => "f32" | f64 => "f64"
  | unit => "()" | u8x3 => "[u8; 3]" | u16x3 => "[u16; 3]"

theorem toNat_stride (e : Element) : e.stride.toNat = e.size := by
  cases e <;> rfl

theorem toNat_align (e : Element) : e.align.toNat = e.laneSize := by
  cases e <;> rfl

end Element

end LargeBuffers
