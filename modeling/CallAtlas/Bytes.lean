/-! # Byte strings

Every text this library reads or writes is a list of bytes: source files, names, documents and log
lines may hold any bytes at all, and columns and lengths count bytes. A character literal stands for
its ASCII byte, and `text` turns a string literal into its UTF-8 bytes.

Byte strings are ordered as unsigned bytes, the shorter one first when one starts the other.
-/
namespace CallAtlas

abbrev Bytes := List UInt8

scoped instance coeCharByte : Coe Char UInt8 := ⟨Char.toUInt8⟩

/-- The UTF-8 bytes of a string. -/
def text (s : String) : Bytes := s.toUTF8.data.toList

namespace Bytes

def isDigit (b : UInt8) : Bool := '0' ≤ b && b ≤ '9'

def isLower (b : UInt8) : Bool := 'a' ≤ b && b ≤ 'z'

def isUpper (b : UInt8) : Bool := 'A' ≤ b && b ≤ 'Z'

/-- The value of a hexadecimal digit, in either case. -/
def hexDigit? (b : UInt8) : Option Nat :=
  if isDigit b then some (b.toNat - 48)
  else if 'a' ≤ b && b ≤ 'f' then some (b.toNat - 87)
  else if 'A' ≤ b && b ≤ 'F' then some (b.toNat - 55)
  else none

theorem hexDigit?_lt {b : UInt8} {d : Nat} (h : hexDigit? b = some d) : d < 16 := by
  have hb := b.toNat_lt
  simp only [hexDigit?, isDigit, Bool.and_eq_true, decide_eq_true_eq, UInt8.le_iff_toNat_le] at h
  change (if 48 ≤ b.toNat ∧ b.toNat ≤ 57 then some (b.toNat - 48)
    else if 97 ≤ b.toNat ∧ b.toNat ≤ 102 then some (b.toNat - 87)
    else if 65 ≤ b.toNat ∧ b.toNat ≤ 70 then some (b.toNat - 55) else none) = some d at h
  split at h
  · simp only [Option.some.injEq] at h; omega
  · split at h
    · simp only [Option.some.injEq] at h; omega
    · split at h
      · simp only [Option.some.injEq] at h; omega
      · simp at h

/-! ### Cutting -/

/-- The part before the first `separator` and, if there is one, the part after it. -/
def cut (separator : UInt8) : Bytes → Bytes × Option Bytes
  | [] => ([], none)
  | b :: bs =>
    if b = separator then ([], some bs)
    else
      let (head, tail) := cut separator bs
      (b :: head, tail)

/-- Putting the separator back between the two parts of `cut` gives the text back. -/
theorem cut_join (separator : UInt8) (bs : Bytes) :
    (cut separator bs).1 ++ ((cut separator bs).2.elim [] (separator :: ·)) = bs := by
  induction bs with
  | nil => rfl
  | cons b bs ih =>
    by_cases h : b = separator
    · simp [cut, h]
    · simpa [cut, h] using ih

theorem cut_of_not_mem {separator : UInt8} {bs : Bytes} (h : separator ∉ bs) :
    cut separator bs = (bs, none) := by
  induction bs with
  | nil => rfl
  | cons b bs ih =>
    rw [List.mem_cons, not_or] at h
    simp [cut, Ne.symm h.1, ih h.2]

theorem cut_append {separator : UInt8} {head : Bytes} (tail : Bytes) (h : separator ∉ head) :
    cut separator (head ++ separator :: tail) = (head, some tail) := by
  induction head with
  | nil => simp [cut]
  | cons b head ih =>
    rw [List.mem_cons, not_or] at h
    simp [cut, Ne.symm h.1, ih h.2]

/-- The fields between separators; an empty text is one empty field. -/
def fields (separator : UInt8) : Bytes → List Bytes
  | [] => [[]]
  | b :: bs =>
    if b = separator then [] :: fields separator bs
    else
      match fields separator bs with
      | [] => [[b]]
      | field :: more => (b :: field) :: more

theorem fields_ne_nil (separator : UInt8) (bs : Bytes) : fields separator bs ≠ [] := by
  cases bs with
  | nil => simp [fields]
  | cons b bs =>
    rw [fields]
    split
    · simp
    · split <;> simp

/-- The lines of a text. Each line feed ends a line, and what follows the last one is a line of its
own unless it is empty. -/
def lines (bs : Bytes) : List Bytes :=
  let all := fields '\n' bs
  if all.getLast? = some [] then all.dropLast else all

/-- Drops the bytes that satisfy `p` from both ends. -/
def trim (p : UInt8 → Bool) (bs : Bytes) : Bytes :=
  ((bs.dropWhile p).reverse.dropWhile p).reverse

/-- `parts` with `separator` between any two of them. -/
def join (separator : UInt8) : List Bytes → Bytes
  | [] => []
  | [part] => part
  | part :: more => part ++ separator :: join separator more

/-! ### Order -/

/-- Comparison as unsigned bytes. -/
def order : Bytes → Bytes → Ordering
  | [], [] => .eq
  | [], _ :: _ => .lt
  | _ :: _, [] => .gt
  | a :: as, b :: bs => (compare a b).then (order as bs)

def before (a b : Bytes) : Bool := order a b == .lt

theorem order_self (a : Bytes) : order a a = .eq := by
  induction a with
  | nil => rfl
  | cons a as ih => simp [order, ih]

/-! ### Numbers -/

/-- The decimal digits of a number, without leading zeros. -/
def decimal (n : Nat) : Bytes :=
  if n < 10 then [UInt8.ofNat (48 + n)] else decimal (n / 10) ++ [UInt8.ofNat (48 + n % 10)]

theorem decimal_ne_nil (n : Nat) : decimal n ≠ [] := by
  rw [decimal]
  split <;> simp

/-- The decimal text of an integer, with a minus sign below zero. -/
def signedDecimal : Int → Bytes
  | .ofNat n => decimal n
  | .negSucc n => '-' :: decimal (n + 1)

/-- The number that a list of decimal digits writes; every byte counts as a digit. -/
def readDecimal (digits : Bytes) : Nat :=
  digits.foldl (fun n d => n * 10 + (d.toNat - 48)) 0

theorem readDecimal_append (a : Bytes) (d : UInt8) :
    readDecimal (a ++ [d]) = readDecimal a * 10 + (d.toNat - 48) := by
  simp [readDecimal]

theorem readDecimal_decimal (n : Nat) : readDecimal (decimal n) = n := by
  fun_induction decimal n with
  | case1 n h =>
    simp only [readDecimal, List.foldl_cons, List.foldl_nil, UInt8.toNat_ofNat']
    omega
  | case2 n h ih =>
    rw [readDecimal_append, ih, UInt8.toNat_ofNat']
    omega

/-! ### UTF-8 -/

/-- The UTF-8 bytes of a code point. Surrogates are encoded like any other number, and above
U+1FFFFF the first byte keeps its low eight bits. -/
def utf8 (point : Nat) : Bytes :=
  let tail (shift : Nat) : UInt8 := UInt8.ofNat (0x80 + (point >>> shift) % 64)
  if point < 0x80 then [UInt8.ofNat point]
  else if point < 0x800 then [UInt8.ofNat (0xC0 + point >>> 6), tail 0]
  else if point < 0x10000 then [UInt8.ofNat (0xE0 + point >>> 12), tail 6, tail 0]
  else [UInt8.ofNat (0xF0 ||| point >>> 18), tail 12, tail 6, tail 0]

theorem utf8_ne_nil (point : Nat) : utf8 point ≠ [] := by
  simp only [utf8]
  split
  · simp
  · split
    · simp
    · split <;> simp

end Bytes
end CallAtlas
