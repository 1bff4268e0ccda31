import Orthotope.Decimal
import Orthotope.Document.Fault
import Orthotope.Element
import Orthotope.Text

/-!
# Scanning JSON text

The pieces of a JSON text: blanks, words, numbers and strings. A scanner takes the characters that are
left and gives a value and the characters after it, or the first fault.

A number without fraction and exponent is exact if it fits 64 bits. Any other is read as a
floating-point number: its first digits, as many as fit 64 bits, are rounded, and the result is
multiplied or divided by the power of ten, rounded as well.
-/

namespace Orthotope.Scan

/-- Whether a character separates values without meaning. -/
def isBlank (c : Char) : Bool := c = ' ' || c = '\n' || c = '\t' || c = '\r'

/-- The characters after the blanks. -/
def skipBlanks (cs : List Char) : List Char := cs.dropWhile isBlank

/-- The characters after the given letters, which must come next. -/
def expect : List Char → List Char → Except Fault (List Char)
  | [], cs => .ok cs
  | _ :: _, [] => .error .truncated
  | e :: es, c :: cs => if c = e then expect es cs else .error .malformed

/-! ## Numbers -/

/-- A number as JSON text gives it. -/
inductive Number where
  | natural (n : Nat)
  /-- The negative of `n`, which is not zero. -/
  | negative (n : Nat)
  | real (x : Binary .double)

/-- Appends digits to a number as long as the result fits 64 bits. The other digits are left. -/
def collect (n : Nat) : List Char → Nat × List Char
  | [] => (n, [])
  | c :: cs =>
    let next := n * 10 + (c.toNat - '0'.toNat)
    if next ≤ maxWord then collect next cs else (n, c :: cs)
where
  /-- The largest number of 64 bits. -/
  maxWord : Nat := 2 ^ 64 - 1

/-- The power of ten as a floating-point number. -/
def powerOfTen (e : Nat) : Binary .double := Binary.ofRatio .double false (10 ^ e) 1

/-- The largest power of ten that is a floating-point number. -/
def maxPower : Nat := 308

/-- A floating-point number times ten to the power of `e`. Negative powers that are too large are
divided out in steps, at most `fuel` of them. What is too large is a fault. -/
def scale (x : Binary .double) (e : Int) : (fuel : Nat) → Except Fault (Binary .double)
  | 0 => .ok x
  | fuel + 1 =>
    if e.natAbs ≤ maxPower then
      if 0 ≤ e then
        let y := x.mul (powerOfTen e.natAbs)
        if y.isInfinite then .error .malformed else .ok y
      else .ok (x.div (powerOfTen e.natAbs))
    else if x.isZero then .ok x
    else if 0 ≤ e then .error .malformed
    else scale (x.div (powerOfTen maxPower)) (e + maxPower) fuel

/-- The number of the given digits times ten to the power of `e`. -/
def real (negative : Bool) (digits : Nat) (e : Int) : Except Fault Number := do
  let x ← scale (Binary.ofInt .double digits) e 4
  return .real (if negative then x.neg else x)

/-- The largest exponent that is told from larger ones. -/
def maxExponent : Nat := 2 ^ 31 - 1

/-- Reads the exponent of a number, after its letter. `e` is the power of ten so far. -/
def exponent (negative : Bool) (digits : Nat) (e : Int) (cs : List Char) : Except Fault (Number × List Char) := do
  let (down, cs) := match cs with
    | '+' :: cs => (false, cs)
    | '-' :: cs => (true, cs)
    | cs => (false, cs)
  match cs with
  | [] => throw .truncated
  | c :: _ =>
    if !c.isDigit then throw .malformed
    let n := (cs.takeWhile Char.isDigit).foldl (fun n c => n * 10 + (c.toNat - '0'.toNat)) 0
    let rest := cs.dropWhile Char.isDigit
    if n ≤ maxExponent then
      return (← real negative digits (if down then e - n else e + n), rest)
    else if digits ≠ 0 && !down then throw .malformed
    else return (.real (Binary.zero .double negative), rest)

/-- Reads what may follow the fraction of a number. -/
def afterFraction (negative : Bool) (digits : Nat) (e : Int) : List Char → Except Fault (Number × List Char)
  | 'e' :: cs => exponent negative digits e cs
  | 'E' :: cs => exponent negative digits e cs
  | cs => do return (← real negative digits e, cs)

/-- Reads the fraction of a number, after its point. Digits that do not fit are ignored. -/
def fraction (negative : Bool) (digits : Nat) (e : Int) (cs : List Char) : Except Fault (Number × List Char) :=
  match cs with
  | [] => .error .truncated
  | c :: _ =>
    if !c.isDigit then .error .malformed
    else
      let places := cs.takeWhile Char.isDigit
      let (digits, left) := collect digits places
      afterFraction negative digits (e - (places.length - left.length : Nat))
        (cs.dropWhile Char.isDigit)

/-- Reads what may follow the digits of a number. `dropped` of them did not fit. -/
def afterDigits (negative : Bool) (digits dropped : Nat) : List Char → Except Fault (Number × List Char)
  | '.' :: cs => fraction negative digits dropped cs
  | 'e' :: cs => exponent negative digits dropped cs
  | 'E' :: cs => exponent negative digits dropped cs
  | cs =>
    if dropped ≠ 0 then do return (← real negative digits dropped, cs)
    else if !negative then .ok (.natural digits, cs)
    else if 0 < digits ∧ digits ≤ 2 ^ 63 then .ok (.negative digits, cs)
    else .ok (.real (Binary.ofInt .double digits).neg, cs)

/-- Reads a number, after its sign. -/
def number (negative : Bool) (cs : List Char) : Except Fault (Number × List Char) :=
  match cs with
  | [] => .error .truncated
  | '0' :: rest =>
    match rest with
    | c :: _ => if c.isDigit then .error .malformed else afterDigits negative 0 0 rest
    | [] => afterDigits negative 0 0 rest
  | c :: _ =>
    if c.isDigit then
      let (digits, left) := collect 0 (cs.takeWhile Char.isDigit)
      afterDigits negative digits left.length (cs.dropWhile Char.isDigit)
    else .error .malformed

/-! ## Strings -/

/-- The value of a hexadecimal digit. -/
def hexDigit? (c : Char) : Option Nat :=
  if c.isDigit then some (c.toNat - '0'.toNat)
  else if 'a' ≤ c ∧ c ≤ 'f' then some (c.toNat - 'a'.toNat + 10)
  else if 'A' ≤ c ∧ c ≤ 'F' then some (c.toNat - 'A'.toNat + 10)
  else none

/-- The value of hexadecimal digits. -/
def hex? (cs : List Char) : Option Nat :=
  cs.foldlM (fun n c => (hexDigit? c).map (n * 16 + ·)) 0

/-- The fault of an escape that is followed by too few characters: it is malformed if they have four
bytes. -/
def shortEscape (cs : List Char) : Fault :=
  if 4 ≤ (String.ofList cs).utf8ByteSize then .malformed else .truncated

/-- The character that a letter after a backslash stands for. -/
def escape? : Char → Option Char
  | '"' => some '"'
  | '\\' => some '\\'
  | '/' => some '/'
  | 'b' => some '\x08'
  | 'f' => some '\x0c'
  | 'n' => some '\n'
  | 'r' => some '\r'
  | 't' => some '\t'
  | _ => none

/-- Reads a string, after its opening quote. `read` are the characters so far, the last one first.
`high` is the first half of a pair of escapes that stand for one character. -/
def string (read : List Char) (high : Option Nat) : List Char → Except Fault (String × List Char)
  | [] => .error .truncated
  | '\\' :: 'u' :: a :: b :: c :: d :: rest =>
    match hex? [a, b, c, d], high with
    | none, _ => .error .malformed
    | some n, none =>
      if 0xDC00 ≤ n ∧ n ≤ 0xDFFF then .error .malformed
      else if 0xD800 ≤ n ∧ n ≤ 0xDBFF then string read (some n) rest
      else string (Char.ofNat n :: read) none rest
    | some n, some h =>
      if 0xDC00 ≤ n ∧ n ≤ 0xDFFF then
        string (Char.ofNat (0x10000 + (h - 0xD800) * 0x400 + (n - 0xDC00)) :: read) none rest
      else .error .malformed
  | '\\' :: 'u' :: rest => .error (shortEscape rest)
  | ['\\'] => .error .truncated
  | c :: rest =>
    if high.isSome then .error .malformed
    else if c = '"' then .ok (String.ofList read.reverse, rest)
    else if c = '\\' then
      match rest with
      | e :: rest =>
        match escape? e with
        | some c => string (c :: read) none rest
        | none => .error .malformed
      | [] => .error .truncated
    else if c.toNat < 32 then .error .malformed
    else string (c :: read) none rest

/-! ## Values of the wrong type -/

/-- The text of a finite number. A zero, and a number of magnitude 0.00001 or more but below
10000000000000000, has no exponent. -/
def realText {f : Format} (x : Binary f) : String := x.decimalText ⟨-5, 15⟩

/-- What the value that comes next is, in words. The value is read as far as that takes. -/
def describe (cs : List Char) : Except Fault String :=
  match cs with
  | [] => .error .truncated
  | 'n' :: rest => do
    let _ ← expect "ull".toList rest
    return "null"
  | 't' :: rest => do
    let _ ← expect "rue".toList rest
    return "boolean `true`"
  | 'f' :: rest => do
    let _ ← expect "alse".toList rest
    return "boolean `false`"
  | '-' :: rest => do return describeNumber (← number true rest).1
  | '"' :: rest => do return "string " ++ quoted (← string [] none rest).1
  | '[' :: _ => .ok "sequence"
  | '{' :: _ => .ok "map"
  | c :: _ => if c.isDigit then do return describeNumber (← number false cs).1 else .error .malformed
where
  /-- A number in words. -/
  describeNumber : Number → String
    | .natural n => s!"integer `{n}`"
    | .negative n => s!"integer `-{n}`"
    | .real x => s!"floating point `{realText x}`"

/-- The fault of a value that has the wrong type. -/
def wrongType {α : Type} (cs : List Char) : Except Fault α := do
  let _ ← describe cs
  throw .unsuitable

/-- Reads a number by what it may be. -/
def numeric {α : Type} (accept : Number → Option α) (cs : List Char) : Except Fault (α × List Char) := do
  let (n, rest) ← match cs with
    | '-' :: rest => number true rest
    | c :: _ => if c.isDigit then number false cs else wrongType cs
    | [] => throw .truncated
  match accept n with
  | some x => return (x, rest)
  | none => throw .unsuitable

/-! ## Lists -/

/-- Reads the entries of a list, after its opening bracket or after an entry. `first` says that there was
no entry yet. At most `fuel` entries are read. -/
def entries {α : Type} (entry : List Char → Except Fault (α × List Char)) (first : Bool) (cs : List Char) :
    (fuel : Nat) → Except Fault (List α × List Char)
  | 0 => .error .malformed
  | fuel + 1 => do
    let next ← match skipBlanks cs with
      | [] => throw .truncated
      | ']' :: rest => return ([], rest)
      | ',' :: rest =>
        if first then pure (',' :: rest)
        else match skipBlanks rest with
          | [] => throw .truncated
          | ']' :: _ => throw .malformed
          | next => pure next
      | next => if first then pure next else throw .malformed
    let (x, rest) ← entry next
    let (xs, rest) ← entries entry false rest fuel
    return (x :: xs, rest)

/-- Reads a list. -/
def list {α : Type} (entry : List Char → Except Fault (α × List Char)) (cs : List Char) : Except Fault (List α × List Char) :=
  match skipBlanks cs with
  | [] => .error .truncated
  | '[' :: rest => entries entry true rest (rest.length + 1)
  | cs => wrongType cs

end Orthotope.Scan
