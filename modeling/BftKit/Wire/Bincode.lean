import BftKit.Crypto
import BftKit.Foundation.Reader

/-! # Bincode

The standard configuration: integers take as many bytes as their size needs, little end
first, behind a tag unless they are small; lengths and enum variants are such integers;
arrays of fixed size stand for themselves.
-/

namespace BftKit

open Foundation

/-- The number that little-endian bytes stand for. -/
def leValue : List UInt8 → Nat
  | [] => 0
  | byte :: rest => byte.toNat + 256 * leValue rest

theorem leValue_leBytes {width value : Nat} (hlt : value < 256 ^ width) :
    leValue (leBytes width value) = value := by
  induction width generalizing value with
  | zero =>
      rw [pow_zero] at hlt
      exact (Nat.lt_one_iff.mp hlt).symm
  | succ width ih =>
      have hdiv : value / 256 < 256 ^ width := by
        rw [pow_succ'] at hlt
        exact Nat.div_lt_of_lt_mul hlt
      rw [leBytes, leValue, ih hdiv, UInt8.toNat_ofNat']
      omega

theorem leValue_lt (bytes : List UInt8) : leValue bytes < 256 ^ bytes.length := by
  induction bytes with
  | nil => exact Nat.one_pos
  | cons byte rest ih =>
      have hbyte := byte.toNat_lt
      rw [leValue, List.length_cons, pow_succ']
      omega

namespace Bincode

/-! ## Integers -/

/-- An unsigned integer of at most 64 bits. -/
def encodeInt (value : Nat) : List UInt8 :=
  if value ≤ 250 then [UInt8.ofNat value]
  else if value < 2 ^ 16 then 251 :: leBytes 2 value
  else if value < 2 ^ 32 then 252 :: leBytes 4 value
  else 253 :: leBytes 8 value

theorem length_encodeInt_le (value : Nat) : (encodeInt value).length ≤ 9 := by
  unfold encodeInt
  split
  · exact Nat.le_of_ble_eq_true rfl
  · split
    · simp
    · split <;> simp

theorem length_encodeInt_le_five {value : Nat} (hlt : value < 2 ^ 32) :
    (encodeInt value).length ≤ 5 := by
  unfold encodeInt
  split
  · exact Nat.le_of_ble_eq_true rfl
  · split
    · simp
    · simp

/-- The bytes of an integer behind its tag. -/
def readLe (width : Nat) : Reader Nat := (Reader.take width).bind fun bytes =>
  Reader.pure (leValue bytes.1)

/-- Reads an integer type that has the given number of bytes. -/
def readInt (width : Nat) : Reader Nat := Reader.byte.bind fun tag =>
  if tag.toNat ≤ 250 then Reader.pure tag.toNat
  else if tag = 251 ∧ 2 ≤ width then readLe 2
  else if tag = 252 ∧ 4 ≤ width then readLe 4
  else if tag = 253 ∧ 8 ≤ width then readLe 8
  else Reader.fail "invalid integer type"

theorem readLe_reads {width value : Nat} (hlt : value < 256 ^ width) :
    Reads (readLe width) (leBytes width value) value := by
  apply (Reads.take _ (length_leBytes width value)).map
  dsimp only
  rw [leValue_leBytes hlt]

theorem readInt_reads {width value : Nat} (hwidth : width = 2 ∨ width = 4 ∨ width = 8)
    (hlt : value < 256 ^ width) : Reads (readInt width) (encodeInt value) value := by
  have htagged : ∀ {tag : UInt8} {count : Nat}, ¬ tag.toNat ≤ 250 → value < 256 ^ count →
      (if tag = 251 ∧ 2 ≤ width then readLe 2 else if tag = 252 ∧ 4 ≤ width then readLe 4
        else if tag = 253 ∧ 8 ≤ width then readLe 8
        else Reader.fail "invalid integer type") = readLe count →
      Reads (readInt width) (tag :: leBytes count value) value := by
    intro tag count htag hcount hreader
    refine (Reads.byte tag).bind ?_
    rw [if_neg htag, hreader]
    exact readLe_reads hcount
  unfold encodeInt
  split
  next hsmall =>
    apply (Reads.byte _).map
    have hvalue : (UInt8.ofNat value).toNat = value := by
      rw [UInt8.toNat_ofNat']
      omega
    rw [if_pos (by rw [hvalue]; exact hsmall), hvalue]
  next hlarge =>
    split
    next htwo => exact htagged (by decide) htwo (if_pos ⟨rfl, by omega⟩)
    next htwo =>
      have hwide : 4 ≤ width := by
        rcases hwidth with rfl | rfl | rfl
        · exact absurd hlt htwo
        · exact Nat.le_refl _
        · decide
      split
      next hfour => exact htagged (by decide) hfour ((if_neg (by simp)).trans (if_pos ⟨rfl, hwide⟩))
      next hfour =>
        have hwidest : 8 ≤ width := by
          rcases hwidth with rfl | rfl | rfl
          · exact absurd hlt htwo
          · exact absurd hlt hfour
          · exact Nat.le_refl _
        have height : value < 256 ^ 8 := by
          rcases hwidth with rfl | rfl | rfl
          · exact absurd hlt htwo
          · exact absurd hlt hfour
          · exact hlt
        exact htagged (by decide) height
          ((if_neg (by simp)).trans ((if_neg (by simp)).trans (if_pos ⟨rfl, hwidest⟩)))

theorem readLe_yields (width : Nat) : (readLe width).Yields (· < 256 ^ width) := by
  refine (Reader.Yields.any _).bind ?_
  rintro ⟨bytes, rfl⟩ -
  exact .pure (leValue_lt bytes)

/-- An integer that is read is in the range of its type. -/
theorem readInt_yields {width : Nat} (hwidth : 2 ≤ width) :
    (readInt width).Yields (· < 256 ^ width) := by
  have hwide : ∀ {count : Nat}, count ≤ width → (readLe count).Yields (· < 256 ^ width) :=
    fun hcount bytes value rest hread =>
      Nat.lt_of_lt_of_le (readLe_yields _ bytes value rest hread)
        (Nat.pow_le_pow_right (by decide) hcount)
  refine (Reader.Yields.any _).bind fun tag _ => ?_
  split
  next hsmall =>
    have hpow : 256 ^ 2 ≤ 256 ^ width := Nat.pow_le_pow_right (by decide) hwidth
    exact .pure (by omega)
  next =>
    split
    next htwo => exact hwide htwo.2
    next =>
      split
      next hfour => exact hwide hfour.2
      next =>
        split
        next height => exact hwide height.2
        next => exact .fail _

/-! ## Sequences -/

/-- A vector: its length, then its items. -/
def encodeVec {Item : Type} (encodeItem : Item → List UInt8) (items : List Item) : List UInt8 :=
  encodeInt items.length ++ items.flatMap encodeItem

/-- The number of items of a vector, which is allocated before any of them is read. The
items take the given number of bytes in memory, and no vector takes `isize::MAX` of them. -/
def readCapacity (size : Nat) : Reader Nat := (readInt 8).bind fun count =>
  if count * size < 2 ^ 63 then Reader.pure count else Reader.overflow

def readVec {Item : Type} (size : Nat) (reader : Reader Item) : Reader (List Item) :=
  (readCapacity size).bind fun count => reader.many count

/-- The bytes of a vector are copied as a whole. -/
def encodeBytes (bytes : List UInt8) : List UInt8 := encodeInt bytes.length ++ bytes

def readBytes : Reader (List UInt8) :=
  (readCapacity 1).bind fun count => (Reader.take count).bind fun bytes => Reader.pure bytes.1

def encodeStr (str : String) : List UInt8 := encodeBytes str.toByteArray.data.toList

def readStr : Reader String := readBytes.bind fun bytes =>
  if hvalid : (ByteArray.mk bytes.toArray).IsValidUTF8 then Reader.pure (.ofByteArray _ hvalid)
  else Reader.fail "invalid utf-8"

/-- The index of an enum variant. -/
def encodeVariant (index : Nat) : List UInt8 := encodeInt index

def readVariant : Reader Nat := readInt 4

theorem readCapacity_reads {size count : Nat} (hsize : 0 < size)
    (hcapacity : count * size < 2 ^ 63) : Reads (readCapacity size) (encodeInt count) count := by
  have hcount : count < 256 ^ 8 := by
    have hle := Nat.le_mul_of_pos_right count hsize
    omega
  apply (readInt_reads (.inr (.inr rfl)) hcount).map
  exact if_pos hcapacity

theorem readCapacity_yields (size : Nat) :
    (readCapacity size).Yields fun count => count * size < 2 ^ 63 := by
  refine (Reader.Yields.any _).bind fun count _ => ?_
  split
  next hcapacity => exact .pure hcapacity
  next => exact .overflow

theorem readVec_reads {Item : Type} {size : Nat} {reader : Reader Item}
    {encodeItem : Item → List UInt8} {items : List Item} (hsize : 0 < size)
    (hcapacity : items.length * size < 2 ^ 63)
    (h : ∀ item ∈ items, Reads reader (encodeItem item) item) :
    Reads (readVec size reader) (encodeVec encodeItem items) items :=
  (readCapacity_reads hsize hcapacity).bind (Reads.many h)

theorem readBytes_reads {bytes : List UInt8} (hlength : bytes.length < 2 ^ 63) :
    Reads readBytes (encodeBytes bytes) bytes :=
  (readCapacity_reads Nat.one_pos (by rwa [Nat.mul_one])).bind ((Reads.take bytes rfl).map rfl)

theorem readVec_yields {Item : Type} {size : Nat} {reader : Reader Item} {property : Item → Prop}
    (h : reader.Yields property) :
    (readVec size reader).Yields fun items =>
      items.length * size < 2 ^ 63 ∧ ∀ item ∈ items, property item := by
  refine (readCapacity_yields size).bind fun count hcapacity bytes items rest hread => ?_
  obtain ⟨rfl, hitems⟩ := h.many count bytes items rest hread
  exact ⟨hcapacity, hitems⟩

theorem readBytes_yields : readBytes.Yields fun bytes => bytes.length < 2 ^ 63 := by
  refine (readCapacity_yields 1).bind fun count hcapacity => (Reader.Yields.any _).bind ?_
  rintro ⟨bytes, rfl⟩ -
  rw [Nat.mul_one] at hcapacity
  exact .pure hcapacity

example : readBytes (encodeInt (2 ^ 63 - 1)) = .error .unexpectedEnd ∧
    readBytes (encodeInt (2 ^ 63)) = .error .capacityOverflow := ⟨rfl, rfl⟩

theorem readStr_reads {str : String} (hlength : str.toByteArray.data.toList.length < 2 ^ 63) :
    Reads readStr (encodeStr str) str := by
  apply (readBytes_reads hlength).map
  have hbytes : ByteArray.mk str.toByteArray.data.toList.toArray = str.toByteArray := rfl
  have hvalid : (ByteArray.mk str.toByteArray.data.toList.toArray).IsValidUTF8 :=
    hbytes ▸ str.isValidUTF8
  rw [dif_pos hvalid]

theorem readVariant_reads {index : Nat} (hindex : index < 2 ^ 32) :
    Reads readVariant (encodeVariant index) index :=
  readInt_reads (.inr (.inl rfl)) hindex

end Bincode

end BftKit
