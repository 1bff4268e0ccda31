import Orthotope.Binary
import Orthotope.Error

/-!
# Elements

A cube holds elements of one `Kind`: numbers in one of two floating-point formats, integers of 64 or
32 bits, or truth values. `Kind.Elem` is the type of the elements of a kind.

Every kind has a null value, which stands for a missing element, a pattern of 64 bits for each
element (`toBits`, `ofBits`) and a string of bytes, the lowest first (`toBytes`, `ofBytes`). Elements
compare with `same`, for which all patterns that are not numbers are the same. `convert` takes an
element of one kind to another kind.
-/

namespace Orthotope

/-- The kinds of elements. -/
inductive Kind where
  | f64
  | f32
  | i64
  | i32
  | bool
  deriving DecidableEq, Repr

namespace Kind

/-- The elements of a kind. -/
@[reducible]
def Elem : Kind → Type
  | f64 => Binary .double
  | f32 => Binary .single
  | i64 => Int64
  | i32 => Int32
  | bool => Bool

/-- The short name of a kind. -/
def name : Kind → String
  | f64 => "f64"
  | f32 => "f32"
  | i64 => "i64"
  | i32 => "i32"
  | bool => "bool"

/-- The number of bytes that an element takes in a file. -/
def width : Kind → Nat
  | f64 => 8
  | f32 => 4
  | i64 => 8
  | i32 => 4
  | bool => 1

/-- The element that stands for a missing one. -/
def null : (k : Kind) → k.Elem
  | f64 => Binary.nan .double
  | f32 => Binary.nan .single
  | i64 => 0
  | i32 => 0
  | bool => false

instance (k : Kind) : Inhabited k.Elem := ⟨k.null⟩

instance : (k : Kind) → DecidableEq k.Elem
  | f64 => inferInstanceAs (DecidableEq (Binary .double))
  | f32 => inferInstanceAs (DecidableEq (Binary .single))
  | i64 => inferInstanceAs (DecidableEq Int64)
  | i32 => inferInstanceAs (DecidableEq Int32)
  | bool => inferInstanceAs (DecidableEq Bool)

/-! ## Bit patterns -/

/-- The pattern of an element: that of a number is extended with zeros, that of an integer with its
sign. -/
def toBits : (k : Kind) → k.Elem → BitVec 64
  | f64, x => x.bits
  | f32, x => x.bits.setWidth 64
  | i64, n => n.toBitVec
  | i32, n => n.toBitVec.signExtend 64
  | bool, b => if b then 1 else 0

/-- The element of a pattern. Bits beyond the width of the kind do not matter, save that every pattern
other than zero is true. -/
def ofBits : (k : Kind) → BitVec 64 → k.Elem
  | f64, w => ⟨w⟩
  | f32, w => ⟨w.setWidth 32⟩
  | i64, w => Int64.ofBitVec w
  | i32, w => Int32.ofBitVec (w.setWidth 32)
  | bool, w => decide (w ≠ 0)

theorem ofBits_toBits (k : Kind) (x : k.Elem) : k.ofBits (k.toBits x) = x := by
  cases k with
  | f64 => rfl
  | f32 =>
    show (⟨BitVec.setWidth 32 (BitVec.setWidth 64 x.bits)⟩ : Binary .single) = x
    congr 1
    exact BitVec.setWidth_setWidth_of_le _ (by decide)
  | i64 => rfl
  | i32 =>
    have h : (x.toBitVec.signExtend 64).setWidth 32 = x.toBitVec := by
      apply BitVec.eq_of_getLsbD_eq
      intro i hi
      rw [BitVec.getLsbD_setWidth, BitVec.getLsbD_signExtend]
      simp only [hi, Nat.lt_trans hi (by decide : 32 < 64), decide_true, Bool.true_and, if_true]
    exact congrArg Int32.ofBitVec h
  | bool => cases x <;> rfl

/-! ## Bytes -/

/-- The lowest `count` bytes of a number, the lowest first. -/
def littleEndian (n : Nat) : (count : Nat) → List UInt8
  | 0 => []
  | count + 1 => UInt8.ofNat n :: littleEndian (n / 256) count

/-- The number whose bytes are given, the lowest first. -/
def ofLittleEndian : List UInt8 → Nat
  | [] => 0
  | b :: bytes => b.toNat + 256 * ofLittleEndian bytes

@[simp]
theorem length_littleEndian (n count : Nat) : (littleEndian n count).length = count := by
  induction count generalizing n with
  | zero => rfl
  | succ count ih => simp [littleEndian, ih]

theorem ofLittleEndian_littleEndian (n count : Nat) :
    ofLittleEndian (littleEndian n count) = n % 256 ^ count := by
  induction count generalizing n with
  | zero => simp [littleEndian, ofLittleEndian, Nat.mod_one]
  | succ count ih =>
    show (UInt8.ofNat n).toNat + 256 * ofLittleEndian (littleEndian (n / 256) count) = _
    rw [ih, UInt8.toNat_ofNat', show 256 ^ (count + 1) = 256 * 256 ^ count from Nat.pow_succ',
      Nat.mod_mul]

/-- The bytes of an element as a file holds them. -/
def toBytes (k : Kind) (x : k.Elem) : List UInt8 :=
  littleEndian (k.toBits x).toNat k.width

/-- The element of the bytes that a file holds. -/
def ofBytes (k : Kind) (bytes : List UInt8) : k.Elem :=
  k.ofBits (BitVec.ofNat 64 (ofLittleEndian bytes))

/-- The bytes of an element, written into a string of bytes of the right width. A truth value takes
the first byte and leaves the others. -/
def writeBytes (k : Kind) (x : k.Elem) (bytes : List UInt8) : Except Error (List UInt8) :=
  match k, bytes with
  | bool, _ :: rest => .ok (toBytes bool x ++ rest)
  | k, bytes =>
    if bytes.length = k.width then .ok (k.toBytes x) else .error (.misuse .byteWidth)

/-- The element in a string of bytes of the right width. A truth value looks at the first byte
only. -/
def readBytes (k : Kind) (bytes : List UInt8) : Except Error k.Elem :=
  match k, bytes with
  | bool, b :: _ => .ok (ofBytes bool [b])
  | k, bytes => if bytes.length = k.width then .ok (k.ofBytes bytes) else .error (.misuse .byteWidth)

/-! ## Comparison -/

/-- Whether two elements are the same value: both zeros are, and all patterns that are not
numbers. -/
def same : (k : Kind) → k.Elem → k.Elem → Bool
  | f64, x, y => x.equal y || (x.isNaN && y.isNaN)
  | f32, x, y => x.equal y || (x.isNaN && y.isNaN)
  | i64, m, n => decide (m = n)
  | i32, m, n => decide (m = n)
  | bool, a, b => decide (a = b)

/-! ## Conversion -/

/-- The numeric value of an element, by which it is converted. -/
inductive Numeral where
  | whole (n : Int)
  | real {f : Format} (x : Binary f)

/-- The numeric value of an element. True is one and false is zero. -/
def numeral : (k : Kind) → k.Elem → Numeral
  | f64, x => .real x
  | f32, x => .real x
  | i64, n => .whole n.toInt
  | i32, n => .whole n.toInt
  | bool, b => .whole (if b then 1 else 0)

/-- The element of a kind for a numeric value. A whole number keeps its low bits in a narrower integer
and rounds to the nearest floating-point number; any other number loses its fraction in an integer
and stops at the largest and the smallest. Every number but zero is true. -/
def ofNumeral : (k : Kind) → Numeral → k.Elem
  | f64, .whole n => Binary.ofInt .double n
  | f64, .real x => x.convert .double
  | f32, .whole n => Binary.ofInt .single n
  | f32, .real x => x.convert .single
  | i64, .whole n => Int64.ofInt n
  | i64, .real x => Int64.ofInt (x.clamp (-2 ^ 63) (2 ^ 63 - 1))
  | i32, .whole n => Int32.ofInt n
  | i32, .real x => Int32.ofInt (x.clamp (-2 ^ 31) (2 ^ 31 - 1))
  | bool, .whole n => decide (n ≠ 0)
  | bool, .real x => !x.isZero

/-- The element of the kind `target` that an element converts to. -/
def convert (source target : Kind) (x : source.Elem) : target.Elem :=
  if h : source = target then h ▸ x else target.ofNumeral (source.numeral x)

end Kind

end Orthotope
