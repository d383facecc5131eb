/-!
# Byte sequences

A byte sequence is one big-endian string of bits: its first byte holds the most significant ones.
Shifts keep the length and bring in zeros. Of two sequences that are combined byte by byte, the
shorter one goes on with zeros at its end.
-/

namespace TolerantExpr

abbrev Bytes := List UInt8

namespace Bytes

/-- Move every bit `s < 8` places towards the front. Each byte takes the top bits of the byte
after it. -/
def carryLeft (s : Nat) : Bytes → Bytes
  | [] => []
  | [b] => [UInt8.ofNat (b.toNat <<< s)]
  | b :: c :: bs => UInt8.ofNat (b.toNat <<< s + c.toNat >>> (8 - s)) :: carryLeft s (c :: bs)

/-- Move every bit `s < 8` places towards the back, the byte before the first one being `before`.
Each byte takes the low bits of the byte before it. -/
def carryRight (s : Nat) (before : UInt8) : Bytes → Bytes
  | [] => []
  | b :: bs => UInt8.ofNat (before.toNat <<< (8 - s) + b.toNat >>> s) :: carryRight s b bs

/-- Shift towards the front by `k` bits: whole bytes first, then the bits that are left. -/
def shiftUp (bs : Bytes) (k : Nat) : Bytes :=
  carryLeft (k % 8) (bs.drop (k / 8) ++ List.replicate (min (k / 8) bs.length) 0)

/-- Shift towards the back by `k` bits: whole bytes first, then the bits that are left. -/
def shiftDown (bs : Bytes) (k : Nat) : Bytes :=
  carryRight (k % 8) 0
    (List.replicate (min (k / 8) bs.length) 0 ++ bs.take (bs.length - k / 8))

/-- `<<` on byte sequences: a negative amount shifts the other way. -/
def shiftLeft (bs : Bytes) (amount : Int64) : Bytes :=
  if amount < 0 then bs.shiftDown amount.toInt.natAbs else bs.shiftUp amount.toInt.natAbs

/-- `>>` on byte sequences: a negative amount shifts the other way. -/
def shiftRight (bs : Bytes) (amount : Int64) : Bytes :=
  if amount < 0 then bs.shiftUp amount.toInt.natAbs else bs.shiftDown amount.toInt.natAbs

/-- Combine two sequences byte by byte. -/
def zipPadded (f : UInt8 → UInt8 → UInt8) : Bytes → Bytes → Bytes
  | [], [] => []
  | a :: as, [] => f a 0 :: zipPadded f as []
  | [], b :: bs => f 0 b :: zipPadded f [] bs
  | a :: as, b :: bs => f a b :: zipPadded f as bs

def and : Bytes → Bytes → Bytes := zipPadded (· &&& ·)

def or : Bytes → Bytes → Bytes := zipPadded (· ||| ·)

/-- The order of byte sequences: lexicographic, a proper beginning before what it begins. -/
def compare : Bytes → Bytes → Ordering
  | [], [] => .eq
  | [], _ :: _ => .lt
  | _ :: _, [] => .gt
  | a :: as, b :: bs => if a < b then .lt else if b < a then .gt else compare as bs

/-- One hexadecimal digit, in lower case. -/
def hexChar (n : Nat) : Char := Nat.digitChar n

/-- Two hexadecimal digits for each byte. -/
def hex (bs : Bytes) : String :=
  String.ofList (bs.flatMap fun b => [hexChar (b.toNat / 16), hexChar (b.toNat % 16)])

@[simp] theorem length_carryLeft (s : Nat) (bs : Bytes) : (carryLeft s bs).length = bs.length := by
  fun_induction carryLeft s bs <;> simp_all

@[simp] theorem length_carryRight (s : Nat) (b : UInt8) (bs : Bytes) :
    (carryRight s b bs).length = bs.length := by
  induction bs generalizing b with
  | nil => rfl
  | cons c bs ih => simp [carryRight, ih]

@[simp] theorem length_shiftUp (bs : Bytes) (k : Nat) : (bs.shiftUp k).length = bs.length := by
  simp only [shiftUp, length_carryLeft, List.length_append, List.length_drop, List.length_replicate]
  omega

@[simp] theorem length_shiftDown (bs : Bytes) (k : Nat) : (bs.shiftDown k).length = bs.length := by
  simp only [shiftDown, length_carryRight, List.length_append, List.length_take,
    List.length_replicate]
  omega

end Bytes
end TolerantExpr
