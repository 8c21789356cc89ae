/-!
# Bits — bytes as strings of bits, least significant bit first

Deflate packs everything into bytes from the least significant bit upwards, numbers included.
`ofNat` and `toNat` are the two directions for a number of a fixed width, `ofBytes` and `toBytes`
for whole byte strings.  Main statements: `toNat_ofNat` and `toBytes_ofBytes`, so nothing is lost
between the two views.
-/

namespace DeflateEcho

/-- A byte string: what is read, written and compressed. -/
abbrev Bytes := List UInt8

namespace Bits

/-- The `width` lowest bits of `n`, least significant first. -/
def ofNat : (width : Nat) → (n : Nat) → List Bool
  | 0, _ => []
  | width + 1, n => (n % 2 == 1) :: ofNat width (n / 2)

/-- The number that a bit string spells, least significant bit first. -/
def toNat : List Bool → Nat
  | [] => 0
  | b :: bs => b.toNat + 2 * toNat bs

@[simp] theorem length_ofNat (width n : Nat) : (ofNat width n).length = width := by
  induction width generalizing n with
  | zero => rfl
  | succ width ih => simp [ofNat, ih]

theorem toNat_lt (bs : List Bool) : toNat bs < 1 <<< bs.length := by
  induction bs with
  | nil => simp [toNat]
  | cons b bs ih =>
    have hb : b.toNat ≤ 1 := by cases b <;> decide
    simp only [toNat, List.length_cons, Nat.shiftLeft_succ]
    omega

theorem toNat_ofNat (width n : Nat) : toNat (ofNat width n) = n % 1 <<< width := by
  induction width generalizing n with
  | zero => simp [ofNat, toNat, Nat.mod_one]
  | succ width ih =>
    rw [ofNat, toNat, ih, Nat.shiftLeft_succ, Nat.mod_mul]
    rcases Nat.mod_two_eq_zero_or_one n with h | h <;> simp [h]

/-- A bit string is the spelling, in its own length, of the number it spells. -/
theorem ofNat_toNat (bs : List Bool) : ofNat bs.length (toNat bs) = bs := by
  induction bs with
  | nil => rfl
  | cons b bs ih =>
    have hm : (b.toNat + 2 * toNat bs) % 2 = b.toNat := by
      have : b.toNat < 2 := by cases b <;> decide
      omega
    have hd : (b.toNat + 2 * toNat bs) / 2 = toNat bs := by
      have : b.toNat < 2 := by cases b <;> decide
      omega
    rw [List.length_cons, ofNat, toNat, hm, hd, ih]
    cases b <;> rfl

/-- The eight bits of a byte. -/
def ofByte (b : UInt8) : List Bool := ofNat 8 b.toNat

/-- The byte that up to eight bits spell; bits that are not there read as zero. -/
def toByte (bs : List Bool) : UInt8 := UInt8.ofNat (toNat bs)

@[simp] theorem length_ofByte (b : UInt8) : (ofByte b).length = 8 := length_ofNat 8 _

@[simp] theorem toByte_ofByte (b : UInt8) : toByte (ofByte b) = b := by
  have hb : b.toNat % 1 <<< 8 = b.toNat := Nat.mod_eq_of_lt b.toNat_lt
  rw [toByte, ofByte, toNat_ofNat, hb, UInt8.ofNat_toNat]

/-- The bits of a byte string, byte after byte. -/
def ofBytes (bytes : Bytes) : List Bool := bytes.flatMap ofByte

@[simp] theorem ofBytes_nil : ofBytes [] = [] := rfl

@[simp] theorem ofBytes_cons (b : UInt8) (bytes : Bytes) :
    ofBytes (b :: bytes) = ofByte b ++ ofBytes bytes := by simp [ofBytes]

theorem ofBytes_append (xs ys : Bytes) : ofBytes (xs ++ ys) = ofBytes xs ++ ofBytes ys := by
  simp [ofBytes]

@[simp] theorem length_ofBytes (bytes : Bytes) : (ofBytes bytes).length = 8 * bytes.length := by
  induction bytes with
  | nil => rfl
  | cons b bytes ih => simp [ih]; omega

/-- The bytes that a bit string fills, behind those already filled (last one first).  A byte that
is begun and not completed has its missing bits zero. -/
def fillBytes (filled : Bytes) : List Bool → Bytes
  | b0 :: b1 :: b2 :: b3 :: b4 :: b5 :: b6 :: b7 :: bs =>
    fillBytes (toByte [b0, b1, b2, b3, b4, b5, b6, b7] :: filled) bs
  | [] => filled.reverse
  | bs => (toByte bs :: filled).reverse

/-- The bytes that a bit string fills. -/
def toBytes (bs : List Bool) : Bytes := fillBytes [] bs

theorem fillBytes_ofBytes (filled bytes : Bytes) :
    fillBytes filled (ofBytes bytes) = filled.reverse ++ bytes := by
  induction bytes generalizing filled with
  | nil => simp [fillBytes]
  | cons b bytes ih =>
    have key : fillBytes filled (ofByte b ++ ofBytes bytes)
        = fillBytes (toByte (ofByte b) :: filled) (ofBytes bytes) := by
      simp only [ofByte, ofNat, List.cons_append, List.nil_append, fillBytes]
    rw [ofBytes_cons, key, toByte_ofByte, ih]
    simp

theorem toBytes_ofBytes (bytes : Bytes) : toBytes (ofBytes bytes) = bytes := by
  simp [toBytes, fillBytes_ofBytes]

end Bits

end DeflateEcho
