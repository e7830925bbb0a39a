import MuchPIR.Lib.Prog
import MuchPIR.Lib.Regroup

namespace Cppcodec
open Prog Regroup
set_option autoImplicit true

abbrev Bytes := List UInt8

/-- How a codec call ends without returning: an exception, `abort`, or an access outside an array. -/
inductive CodecFault
  | domainError (what : String)
  | symbolError (symbol : UInt8)
  | invalidInputLength (what : String)
  | paddingError
  | aborts
  | outOfRange (index : Nat)
  deriving DecidableEq

/-- `data::put` on a result. -/
abbrev Sink (ω : Type) := UInt8 → Prog ω CodecFault Unit

def fetch (xs : List α) (k : Nat) : Except CodecFault α :=
  match xs[k]? with
  | some x => .ok x
  | none => .error (.outOfRange k)

def byte (b : Bytes) (k : Nat) : Except CodecFault Nat := do
  return (← fetch b k).toNat

def slot (idx : List Nat) (k : Nat) : Prog ω CodecFault Nat := lift (fetch idx k)

/-- A class template such as `base64`. Its indices are computed in `int`, and each is small enough
for the `uint8_t` that returns it. -/
structure BlockCodec where
  binaryBlockSize : Nat
  encodedBlockSize : Nat
  binary_pos : 0 < binaryBlockSize
  numEncodedTailSymbols : Nat → Except CodecFault Nat
  index : Nat → Bytes → Except CodecFault Nat
  indexLast : Nat → Bytes → Except CodecFault Nat
  decodeBlock : {ω : Type} → Sink ω → List Nat → Prog ω CodecFault Unit
  decodeTail : {ω : Type} → Sink ω → List Nat → Nat → Prog ω CodecFault Unit

def base64NumEncodedTailSymbols (numBytes : Nat) : Except CodecFault Nat :=
  if numBytes = 1 then .ok 2
  else if numBytes = 2 then .ok 3
  else .error (.domainError "invalid number of bytes in a tail block")

def base64Index (I : Nat) (b : Bytes) : Except CodecFault Nat :=
  if I = 0 then do return (← byte b 0) >>> 2
  else if I = 1 then do return ((← byte b 0) &&& 0x3) <<< 4 ||| (← byte b 1) >>> 4
  else if I = 2 then do return ((← byte b 1) &&& 0xF) <<< 2 ||| (← byte b 2) >>> 6
  else do return (← byte b 2) &&& 0x3F

def base64IndexLast (I : Nat) (b : Bytes) : Except CodecFault Nat :=
  if I = 1 then do return ((← byte b 0) &&& 0x3) <<< 4
  else if I = 2 then do return ((← byte b 1) &&& 0xF) <<< 2
  else .error (.domainError "invalid last encoding symbol index in a tail")

def base64DecodeBlock (put : Sink ω) (idx : List Nat) : Prog ω CodecFault Unit := do
  let dec := (← slot idx 0) <<< 18 ||| (← slot idx 1) <<< 12 ||| (← slot idx 2) <<< 6 |||
    (← slot idx 3)
  put (UInt8.ofNat (dec >>> 16))
  put (UInt8.ofNat (dec >>> 8 &&& 0xFF))
  put (UInt8.ofNat (dec &&& 0xFF))

def base64DecodeTail (put : Sink ω) (idx : List Nat) (idxLen : Nat) :
    Prog ω CodecFault Unit := do
  if idxLen = 1 then
    throw (.invalidInputLength
      "invalid number of symbols in last base64 block: found 1, expected 2 or 3")
  else do
    put (UInt8.ofNat ((← slot idx 0) <<< 2 + ((← slot idx 1) &&& 0x30) >>> 4))
    if idxLen = 2 then return ()
    else put (UInt8.ofNat (((← slot idx 1) &&& 0xF) <<< 4 + ((← slot idx 2) &&& 0x3C) >>> 2))

def base64 : BlockCodec where
  binaryBlockSize := 3
  encodedBlockSize := 4
  binary_pos := by decide
  numEncodedTailSymbols := base64NumEncodedTailSymbols
  index := base64Index
  indexLast := base64IndexLast
  decodeBlock := base64DecodeBlock
  decodeTail := base64DecodeTail

def base32NumEncodedTailSymbols (numBytes : Nat) : Except CodecFault Nat :=
  if numBytes = 1 then .ok 2
  else if numBytes = 2 then .ok 4
  else if numBytes = 3 then .ok 5
  else if numBytes = 4 then .ok 7
  else .error (.domainError "invalid number of bytes in a tail block")

def base32Index (I : Nat) (b : Bytes) : Except CodecFault Nat :=
  if I = 0 then do return (← byte b 0) >>> 3 &&& 0x1F
  else if I = 1 then do return ((← byte b 0) <<< 2 &&& 0x1C) ||| ((← byte b 1) >>> 6 &&& 0x3)
  else if I = 2 then do return (← byte b 1) >>> 1 &&& 0x1F
  else if I = 3 then do return ((← byte b 1) <<< 4 &&& 0x10) ||| ((← byte b 2) >>> 4 &&& 0xF)
  else if I = 4 then do return ((← byte b 2) <<< 1 &&& 0x1E) ||| ((← byte b 3) >>> 7 &&& 0x1)
  else if I = 5 then do return (← byte b 3) >>> 2 &&& 0x1F
  else if I = 6 then do return ((← byte b 3) <<< 3 &&& 0x18) ||| ((← byte b 4) >>> 5 &&& 0x7)
  else do return (← byte b 4) &&& 0x1F

def base32IndexLast (I : Nat) (b : Bytes) : Except CodecFault Nat :=
  if I = 1 then do return (← byte b 0) <<< 2 &&& 0x1C
  else if I = 3 then do return (← byte b 1) <<< 4 &&& 0x10
  else if I = 4 then do return (← byte b 2) <<< 1 &&& 0x1E
  else if I = 6 then do return (← byte b 3) <<< 3 &&& 0x18
  else .error (.domainError "invalid last encoding symbol index in a tail")

def base32DecodeBlock (put : Sink ω) (idx : List Nat) : Prog ω CodecFault Unit := do
  put (UInt8.ofNat (((← slot idx 0) <<< 3 &&& 0xF8) ||| ((← slot idx 1) >>> 2 &&& 0x7)))
  put (UInt8.ofNat (((← slot idx 1) <<< 6 &&& 0xC0) ||| ((← slot idx 2) <<< 1 &&& 0x3E) |||
    ((← slot idx 3) >>> 4 &&& 0x1)))
  put (UInt8.ofNat (((← slot idx 3) <<< 4 &&& 0xF0) ||| ((← slot idx 4) >>> 1 &&& 0xF)))
  put (UInt8.ofNat (((← slot idx 4) <<< 7 &&& 0x80) ||| ((← slot idx 5) <<< 2 &&& 0x7C) |||
    ((← slot idx 6) >>> 3 &&& 0x3)))
  put (UInt8.ofNat (((← slot idx 6) <<< 5 &&& 0xE0) ||| ((← slot idx 7) &&& 0x1F)))

def base32DecodeTail (put : Sink ω) (idx : List Nat) (idxLen : Nat) :
    Prog ω CodecFault Unit := do
  if idxLen = 1 then
    throw (.invalidInputLength
      "invalid number of symbols in last base32 block: found 1, expected 2, 4, 5 or 7")
  else if idxLen = 3 then
    throw (.invalidInputLength
      "invalid number of symbols in last base32 block: found 3, expected 2, 4, 5 or 7")
  else if idxLen = 6 then
    throw (.invalidInputLength
      "invalid number of symbols in last base32 block: found 6, expected 2, 4, 5 or 7")
  else do
    put (UInt8.ofNat (((← slot idx 0) <<< 3 &&& 0xF8) ||| ((← slot idx 1) >>> 2 &&& 0x7)))
    if idxLen = 2 then return ()
    else do
      put (UInt8.ofNat (((← slot idx 1) <<< 6 &&& 0xC0) ||| ((← slot idx 2) <<< 1 &&& 0x3E) |||
        ((← slot idx 3) >>> 4 &&& 0x1)))
      if idxLen = 4 then return ()
      else do
        put (UInt8.ofNat (((← slot idx 3) <<< 4 &&& 0xF0) ||| ((← slot idx 4) >>> 1 &&& 0xF)))
        if idxLen = 5 then return ()
        else put (UInt8.ofNat (((← slot idx 4) <<< 7 &&& 0x80) |||
          ((← slot idx 5) <<< 2 &&& 0x7C) ||| ((← slot idx 6) >>> 3 &&& 0x3)))

def base32 : BlockCodec where
  binaryBlockSize := 5
  encodedBlockSize := 8
  binary_pos := by decide
  numEncodedTailSymbols := base32NumEncodedTailSymbols
  index := base32Index
  indexLast := base32IndexLast
  decodeBlock := base32DecodeBlock
  decodeTail := base32DecodeTail

def hexIndex (I : Nat) (b : Bytes) : Except CodecFault Nat :=
  if I = 0 then do return (← byte b 0) >>> 4
  else do return (← byte b 0) &&& 0xF

def hexIndexLast (I : Nat) (_ : Bytes) : Except CodecFault Nat :=
  if I = 0 then .ok 0
  else .error (.domainError "invalid last encoding symbol index in a tail")

def hexDecodeBlock (put : Sink ω) (idx : List Nat) : Prog ω CodecFault Unit := do
  put (UInt8.ofNat ((← slot idx 0) <<< 4 ||| (← slot idx 1)))

def hexDecodeTail (_ : Sink ω) (_ : List Nat) (_ : Nat) : Prog ω CodecFault Unit :=
  throw (.invalidInputLength
    ("odd-length hex input is not supported by the streaming octet decoder, " ++
      "use a place-based number decoder instead"))

def hex : BlockCodec where
  binaryBlockSize := 1
  encodedBlockSize := 2
  binary_pos := by decide
  numEncodedTailSymbols _ := .ok 0
  index := hexIndex
  indexLast := hexIndexLast
  decodeBlock := hexDecodeBlock
  decodeTail := hexDecodeTail

def putAll (put : Sink ω) : Bytes → Prog ω CodecFault Unit
  | [] => pure ()
  | b :: bs => do
    put b
    putAll put bs

def bytesOf (ds : List Nat) : Bytes := ds.map UInt8.ofNat

def digitsOf (b : Bytes) : List Nat := b.map UInt8.toNat

/-- How many symbols of `w` bits `n` bytes take. -/
def symbolCount (w n : Nat) : Nat := (8 * n + w - 1) / w

/-- What a block codec does to bits: `w` of them make a symbol, with zeros behind the last byte. -/
structure LawfulBlock (C : BlockCodec) (w : Nat) (lengthError : Nat → String) : Prop where
  width_pos : 0 < w
  width_le : w ≤ 8
  block_bits : w * C.encodedBlockSize = 8 * C.binaryBlockSize
  tail_eq (hpos : 0 < n) (hlt : n < C.binaryBlockSize) :
    C.numEncodedTailSymbols n = .ok (symbolCount w n)
  index_eq {b : Bytes} (hI : I < C.encodedBlockSize) (h : w * (I + 1) ≤ 8 * b.length) :
    C.index I b = .ok (digitAt w (bitAt 8 (digitsOf b)) I)
  indexLast_eq {b : Bytes} (hpos : 0 < b.length) (hlt : b.length < C.binaryBlockSize) :
    C.indexLast (symbolCount w b.length - 1) b =
      .ok (digitAt w (bitAt 8 (digitsOf b)) (symbolCount w b.length - 1))
  decodeBlock_eq {ω : Type} (put : Sink ω) (hlen : idx.length = C.encodedBlockSize)
    (hlt : ∀ d ∈ idx, d < 2 ^ w) :
    C.decodeBlock put idx = putAll put (bytesOf (regroup w 8 C.binaryBlockSize idx))
  decodeTail_eq {ω : Type} (put : Sink ω) (hlen : idx.length = C.encodedBlockSize)
    (hpos : 0 < n) (hlt : n < C.binaryBlockSize) :
    C.decodeTail put idx (symbolCount w n) = putAll put (bytesOf (regroup w 8 n idx))
  decodeTail_throws {ω : Type} (put : Sink ω) (idx : List Nat) (hpos : 0 < k)
    (hlt : k < C.encodedBlockSize) (hk : ∀ n, 0 < n → n < C.binaryBlockSize → symbolCount w n ≠ k) :
    C.decodeTail put idx k = Prog.throw (.invalidInputLength (lengthError k))

theorem LawfulBlock.encoded_pos (hC : LawfulBlock C w message) : 0 < C.encodedBlockSize := by
  have hbits := hC.block_bits
  have hpos := C.binary_pos
  apply Nat.pos_of_ne_zero
  intro hzero
  rw [hzero, Nat.mul_zero] at hbits
  omega

def byteAt (w : Nat) (idx : List Nat) (i : Nat) : UInt8 := UInt8.ofNat (digitAt 8 (bitAt w idx) i)

theorem ofNat_eq_byteAt (h : ∀ j < 8, x.testBit j ↔ bitAt w idx (8 * i + (7 - j))) :
    UInt8.ofNat x = byteAt w idx i := by
  have hx : x % 2 ^ 8 = digitAt 8 (bitAt w idx) i := by
    apply eq_digitAt (Nat.mod_lt _ (by norm_num))
    intro j hj
    rw [Nat.testBit_mod_two_pow, decide_eq_true hj, Bool.true_and, Bool.eq_iff_iff, h j hj]
  rw [byteAt, ← hx]
  apply UInt8.toNat_inj.1
  simp

/-- What an index accessor returns is a symbol's digit when its bits are the digit's. -/
theorem ok_digitAt (hx : x < 2 ^ w) (h : ∀ j < w, x.testBit j ↔ f (w * i + (w - 1 - j))) :
    (Except.ok x : Except ε Nat) = .ok (digitAt w f i) :=
  congrArg Except.ok (eq_digitAt hx fun j hj => Bool.eq_iff_iff.2 (h j hj))

theorem byte_eq {b : Bytes} (h : k < b.length) : byte b k = .ok ((digitsOf b).getD k 0) := by
  rw [byte, fetch, List.getElem?_eq_getElem h, digitsOf]
  simp [List.getElem?_eq_getElem h]

theorem slot_eq {idx : List Nat} (h : k < idx.length) :
    (slot idx k : Prog ω CodecFault Nat) = pure (idx.getD k 0) := by
  rw [slot, fetch, List.getElem?_eq_getElem h, List.getD_eq_getElem _ _ h]
  rfl

theorem getD_lt {idx : List Nat} (h : ∀ d ∈ idx, d < 2 ^ w) (k : Nat) : idx.getD k 0 < 2 ^ w := by
  rcases Nat.lt_or_ge k idx.length with hk | hk
  · rw [List.getD_eq_getElem _ _ hk]
    exact h _ (List.getElem_mem hk)
  · rw [List.getD_eq_default _ _ hk]
    exact Nat.two_pow_pos w

theorem digitsOf_lt (h : d ∈ digitsOf b) : d < 2 ^ 8 := by
  obtain ⟨x, -, rfl⟩ := List.mem_map.1 h
  exact x.toNat_lt

theorem ofNat_and (x : Nat) : UInt8.ofNat (x &&& 0xFF) = UInt8.ofNat x := by
  apply UInt8.toNat_inj.1
  have hmask : x &&& 0xFF = x % 2 ^ 8 := Nat.and_two_pow_sub_one_eq_mod x 8
  simp [hmask]

theorem testBit_of_ge (hd : d < 2 ^ w) (hj : w ≤ j) : d.testBit j = false :=
  Nat.testBit_lt_two_pow (hd.trans_le (Nat.pow_le_pow_right two_pos hj))

section Base64

variable {idx : List Nat}

theorem base64_block (hlt : ∀ d ∈ idx, d < 2 ^ 6) (hi : i < 3) :
    UInt8.ofNat ((idx.getD 0 0 <<< 18 ||| idx.getD 1 0 <<< 12 ||| idx.getD 2 0 <<< 6 |||
      idx.getD 3 0) >>> (16 - 8 * i)) = byteAt 6 idx i := by
  have hz (k : Nat) {j : Nat} (hj : 6 ≤ j) : (idx.getD k 0).testBit j = false :=
    testBit_of_ge (getD_lt hlt k) hj
  apply ofNat_eq_byteAt
  intro j hj
  interval_cases i <;> interval_cases j <;>
    simp +decide [bitAt, hz, -List.getD_eq_getElem?_getD]

theorem base64_byte0 (idx : List Nat) :
    UInt8.ofNat (idx.getD 0 0 <<< 2 + (idx.getD 1 0 &&& 0x30) >>> 4) = byteAt 6 idx 0 := by
  have hlow : (idx.getD 1 0 &&& 0x30) >>> 4 < 2 ^ 2 := by
    have hle := Nat.and_le_right (n := idx.getD 1 0) (m := 0x30)
    omega
  rw [Nat.shiftLeft_add_eq_or_of_lt hlow]
  apply ofNat_eq_byteAt
  intro j hj
  interval_cases j <;> simp +decide [bitAt]

theorem base64_byte1 (idx : List Nat) :
    UInt8.ofNat ((idx.getD 1 0 &&& 0xF) <<< 4 + (idx.getD 2 0 &&& 0x3C) >>> 2) =
      byteAt 6 idx 1 := by
  have hlow : (idx.getD 2 0 &&& 0x3C) >>> 2 < 2 ^ 4 := by
    have hle := Nat.and_le_right (n := idx.getD 2 0) (m := 0x3C)
    omega
  rw [Nat.shiftLeft_add_eq_or_of_lt hlow]
  apply ofNat_eq_byteAt
  intro j hj
  interval_cases j <;> simp +decide [bitAt]

theorem base64_index {b : Bytes} (hI : I < 4) (h : 6 * (I + 1) ≤ 8 * b.length) :
    base64Index I b = .ok (digitAt 6 (bitAt 8 (digitsOf b)) I) := by
  have hb := getD_lt fun d hd => digitsOf_lt (b := b) hd
  have hz (k : Nat) {j : Nat} (hj : 8 ≤ j) : ((digitsOf b).getD k 0).testBit j = false :=
    testBit_of_ge (hb k) hj
  interval_cases I <;>
    simp (disch := omega) only [base64Index, byte_eq, Nat.reduceEqDiff, reduceIte] <;>
    refine ok_digitAt ?_ fun j hj => ?_
  · have h0 := hb 0
    omega
  · interval_cases j <;> simp [bitAt]
  · have h1 := hb 1
    have hle := Nat.and_le_right (n := (digitsOf b).getD 0 0) (m := 0x3)
    exact Nat.or_lt_two_pow (by omega) (by omega)
  · interval_cases j <;> simp +decide [bitAt, hz, -List.getD_eq_getElem?_getD]
  · have h2 := hb 2
    have hle := Nat.and_le_right (n := (digitsOf b).getD 1 0) (m := 0xF)
    exact Nat.or_lt_two_pow (by omega) (by omega)
  · interval_cases j <;> simp +decide [bitAt, hz, -List.getD_eq_getElem?_getD]
  · exact Nat.and_lt_two_pow _ (by norm_num)
  · interval_cases j <;> simp +decide [bitAt]

theorem base64_indexLast {b : Bytes} (hpos : 0 < b.length) (hlt : b.length < 3) :
    base64IndexLast (symbolCount 6 b.length - 1) b =
      .ok (digitAt 6 (bitAt 8 (digitsOf b)) (symbolCount 6 b.length - 1)) := by
  have hend (k : Nat) (hk : b.length ≤ k) : (digitsOf b).getD k 0 = 0 :=
    List.getD_eq_default _ _ (by rwa [digitsOf, List.length_map])
  rcases (by omega : b.length = 1 ∨ b.length = 2) with hlen | hlen
  · have hk : symbolCount 6 1 - 1 = 1 := rfl
    simp (disch := omega) only [hlen, hk, base64IndexLast, byte_eq, Nat.reduceEqDiff, reduceIte]
    refine ok_digitAt ?_ fun j hj => ?_
    · have hle := Nat.and_le_right (n := (digitsOf b).getD 0 0) (m := 0x3)
      omega
    · interval_cases j <;> simp +decide [bitAt, hend, hlen, -List.getD_eq_getElem?_getD]
  · have hk : symbolCount 6 2 - 1 = 2 := rfl
    simp (disch := omega) only [hlen, hk, base64IndexLast, byte_eq, Nat.reduceEqDiff, reduceIte]
    refine ok_digitAt ?_ fun j hj => ?_
    · have hle := Nat.and_le_right (n := (digitsOf b).getD 1 0) (m := 0xF)
      omega
    · interval_cases j <;> simp +decide [bitAt, hend, hlen, -List.getD_eq_getElem?_getD]

theorem base64_decodeBlock (put : Sink ω) (hlen : idx.length = 4) (hlt : ∀ d ∈ idx, d < 2 ^ 6) :
    base64DecodeBlock put idx = putAll put (bytesOf (regroup 6 8 3 idx)) := by
  have h0 := base64_block hlt (i := 0) (by norm_num)
  have h1 := base64_block hlt (i := 1) (by norm_num)
  have h2 := base64_block hlt (i := 2) (by norm_num)
  simp only [Nat.reduceMul, Nat.reduceSub, Nat.shiftRight_zero] at h0 h1 h2
  change _ = putAll put [byteAt 6 idx 0, byteAt 6 idx 1, byteAt 6 idx 2]
  simp (disch := omega) only [base64DecodeBlock, slot_eq, pure_bind, ofNat_and, h0, h1, h2, putAll,
    bind_pure_unit]

theorem base64_decodeTail (put : Sink ω) (hlen : idx.length = 4) (hpos : 0 < n) (hlt : n < 3) :
    base64DecodeTail put idx (symbolCount 6 n) = putAll put (bytesOf (regroup 6 8 n idx)) := by
  rcases (by omega : n = 1 ∨ n = 2) with rfl | rfl
  · have hk : symbolCount 6 1 = 2 := rfl
    change _ = putAll put [byteAt 6 idx 0]
    simp (disch := omega) only [hk, base64DecodeTail, slot_eq, pure_bind, Nat.reduceEqDiff, reduceIte,
      base64_byte0, putAll]
  · have hk : symbolCount 6 2 = 3 := rfl
    change _ = putAll put [byteAt 6 idx 0, byteAt 6 idx 1]
    simp (disch := omega) only [hk, base64DecodeTail, slot_eq, pure_bind, Nat.reduceEqDiff, reduceIte,
      base64_byte0, base64_byte1, putAll, bind_pure_unit]

def base64LengthError (_ : Nat) : String :=
  "invalid number of symbols in last base64 block: found 1, expected 2 or 3"

theorem base64_lawful : LawfulBlock base64 6 base64LengthError where
  width_pos := by norm_num
  width_le := by norm_num
  block_bits := rfl
  tail_eq {n} hpos hlt := by
    change n < 3 at hlt
    interval_cases n <;> rfl
  index_eq := base64_index
  indexLast_eq := base64_indexLast
  decodeBlock_eq := base64_decodeBlock
  decodeTail_eq := base64_decodeTail
  decodeTail_throws {k} _ put idx hpos hlt hk := by
    change k < 4 at hlt
    have h2 : 2 ≠ k := hk 1 (by norm_num) (by decide)
    have h3 : 3 ≠ k := hk 2 (by norm_num) (by decide)
    obtain rfl : k = 1 := by omega
    rfl

end Base64

section Base32

variable {idx : List Nat}

theorem base32_byte0 (idx : List Nat) :
    UInt8.ofNat ((idx.getD 0 0 <<< 3 &&& 0xF8) ||| (idx.getD 1 0 >>> 2 &&& 0x7)) =
      byteAt 5 idx 0 := by
  apply ofNat_eq_byteAt
  intro j hj
  interval_cases j <;> simp +decide [bitAt]

theorem base32_byte1 (idx : List Nat) :
    UInt8.ofNat ((idx.getD 1 0 <<< 6 &&& 0xC0) ||| (idx.getD 2 0 <<< 1 &&& 0x3E) |||
      (idx.getD 3 0 >>> 4 &&& 0x1)) = byteAt 5 idx 1 := by
  apply ofNat_eq_byteAt
  intro j hj
  interval_cases j <;> simp +decide [bitAt, -Nat.and_one_is_mod]

theorem base32_byte2 (idx : List Nat) :
    UInt8.ofNat ((idx.getD 3 0 <<< 4 &&& 0xF0) ||| (idx.getD 4 0 >>> 1 &&& 0xF)) =
      byteAt 5 idx 2 := by
  apply ofNat_eq_byteAt
  intro j hj
  interval_cases j <;> simp +decide [bitAt]

theorem base32_byte3 (idx : List Nat) :
    UInt8.ofNat ((idx.getD 4 0 <<< 7 &&& 0x80) ||| (idx.getD 5 0 <<< 2 &&& 0x7C) |||
      (idx.getD 6 0 >>> 3 &&& 0x3)) = byteAt 5 idx 3 := by
  apply ofNat_eq_byteAt
  intro j hj
  interval_cases j <;> simp +decide [bitAt]

theorem base32_byte4 (idx : List Nat) :
    UInt8.ofNat ((idx.getD 6 0 <<< 5 &&& 0xE0) ||| (idx.getD 7 0 &&& 0x1F)) = byteAt 5 idx 4 := by
  apply ofNat_eq_byteAt
  intro j hj
  interval_cases j <;> simp +decide [bitAt]

theorem base32_mask (x : Nat) (hm : m < 2 ^ 5) (y : Nat) (hm' : m' < 2 ^ 5) :
    (x &&& m) ||| (y &&& m') < 2 ^ 5 :=
  Nat.or_lt_two_pow (Nat.and_lt_two_pow x hm) (Nat.and_lt_two_pow y hm')

theorem base32_index_even {b : Bytes} (hI : I < 4) (h : 5 * (2 * I + 1) ≤ 8 * b.length) :
    base32Index (2 * I) b = .ok (digitAt 5 (bitAt 8 (digitsOf b)) (2 * I)) := by
  interval_cases I <;>
    simp (disch := omega) only [base32Index, byte_eq, Nat.reduceMul, Nat.reduceEqDiff, reduceIte] <;>
    refine ok_digitAt ?_ fun j hj => ?_
  · exact Nat.and_lt_two_pow _ (by norm_num)
  · interval_cases j <;> simp +decide [bitAt]
  · exact Nat.and_lt_two_pow _ (by norm_num)
  · interval_cases j <;> simp +decide [bitAt]
  · exact base32_mask _ (by norm_num) _ (by norm_num)
  · interval_cases j <;> simp +decide [bitAt, -Nat.and_one_is_mod]
  · exact base32_mask _ (by norm_num) _ (by norm_num)
  · interval_cases j <;> simp +decide [bitAt]

theorem base32_index_odd {b : Bytes} (hI : I < 4) (h : 5 * (2 * I + 2) ≤ 8 * b.length) :
    base32Index (2 * I + 1) b = .ok (digitAt 5 (bitAt 8 (digitsOf b)) (2 * I + 1)) := by
  interval_cases I <;>
    simp (disch := omega) only [base32Index, byte_eq, Nat.reduceMul, Nat.reduceAdd, Nat.reduceEqDiff,
      reduceIte] <;>
    refine ok_digitAt ?_ fun j hj => ?_
  · exact base32_mask _ (by norm_num) _ (by norm_num)
  · interval_cases j <;> simp +decide [bitAt]
  · exact base32_mask _ (by norm_num) _ (by norm_num)
  · interval_cases j <;> simp +decide [bitAt]
  · exact Nat.and_lt_two_pow _ (by norm_num)
  · interval_cases j <;> simp +decide [bitAt]
  · exact Nat.and_lt_two_pow _ (by norm_num)
  · interval_cases j <;> simp +decide [bitAt]

theorem base32_index {b : Bytes} (hI : I < 8) (h : 5 * (I + 1) ≤ 8 * b.length) :
    base32Index I b = .ok (digitAt 5 (bitAt 8 (digitsOf b)) I) := by
  obtain ⟨k, rfl | rfl⟩ := Nat.even_or_odd' I
  · exact base32_index_even (by omega) h
  · exact base32_index_odd (by omega) h

theorem base32_indexLast {b : Bytes} (hpos : 0 < b.length) (hlt : b.length < 5) :
    base32IndexLast (symbolCount 5 b.length - 1) b =
      .ok (digitAt 5 (bitAt 8 (digitsOf b)) (symbolCount 5 b.length - 1)) := by
  have hend (k : Nat) (hk : b.length ≤ k) : (digitsOf b).getD k 0 = 0 :=
    List.getD_eq_default _ _ (by rwa [digitsOf, List.length_map])
  have h1 : symbolCount 5 1 - 1 = 1 := rfl
  have h2 : symbolCount 5 2 - 1 = 3 := rfl
  have h3 : symbolCount 5 3 - 1 = 4 := rfl
  have h4 : symbolCount 5 4 - 1 = 6 := rfl
  rcases (by omega : b.length = 1 ∨ b.length = 2 ∨ b.length = 3 ∨ b.length = 4) with
    hlen | hlen | hlen | hlen <;>
    simp (disch := omega) only [hlen, h1, h2, h3, h4, base32IndexLast, byte_eq, Nat.reduceEqDiff, reduceIte]
  all_goals
    refine ok_digitAt (Nat.and_lt_two_pow _ (by norm_num)) fun j hj => ?_
    interval_cases j <;> simp +decide [bitAt, hend, hlen, -List.getD_eq_getElem?_getD]

theorem base32_decodeBlock (put : Sink ω) (hlen : idx.length = 8) (_ : ∀ d ∈ idx, d < 2 ^ 5) :
    base32DecodeBlock put idx = putAll put (bytesOf (regroup 5 8 5 idx)) := by
  change _ = putAll put
    [byteAt 5 idx 0, byteAt 5 idx 1, byteAt 5 idx 2, byteAt 5 idx 3, byteAt 5 idx 4]
  simp (disch := omega) only [base32DecodeBlock, slot_eq, pure_bind, base32_byte0, base32_byte1, base32_byte2,
    base32_byte3, base32_byte4, putAll, bind_pure_unit]

theorem base32_decodeTail (put : Sink ω) (hlen : idx.length = 8) (hpos : 0 < n) (hlt : n < 5) :
    base32DecodeTail put idx (symbolCount 5 n) = putAll put (bytesOf (regroup 5 8 n idx)) := by
  have h1 : symbolCount 5 1 = 2 := rfl
  have h2 : symbolCount 5 2 = 4 := rfl
  have h3 : symbolCount 5 3 = 5 := rfl
  have h4 : symbolCount 5 4 = 7 := rfl
  rcases (by omega : n = 1 ∨ n = 2 ∨ n = 3 ∨ n = 4) with rfl | rfl | rfl | rfl
  · change _ = putAll put [byteAt 5 idx 0]
    simp (disch := omega) only [h1, base32DecodeTail, slot_eq, pure_bind, Nat.reduceEqDiff, reduceIte,
      base32_byte0, putAll]
  · change _ = putAll put [byteAt 5 idx 0, byteAt 5 idx 1]
    simp (disch := omega) only [h2, base32DecodeTail, slot_eq, pure_bind, Nat.reduceEqDiff, reduceIte,
      base32_byte0, base32_byte1, putAll]
  · change _ = putAll put [byteAt 5 idx 0, byteAt 5 idx 1, byteAt 5 idx 2]
    simp (disch := omega) only [h3, base32DecodeTail, slot_eq, pure_bind, Nat.reduceEqDiff, reduceIte,
      base32_byte0, base32_byte1, base32_byte2, putAll]
  · change _ = putAll put [byteAt 5 idx 0, byteAt 5 idx 1, byteAt 5 idx 2, byteAt 5 idx 3]
    simp (disch := omega) only [h4, base32DecodeTail, slot_eq, pure_bind, Nat.reduceEqDiff, reduceIte,
      base32_byte0, base32_byte1, base32_byte2, base32_byte3, putAll, bind_pure_unit]

def base32LengthError (k : Nat) : String :=
  if k = 1 then "invalid number of symbols in last base32 block: found 1, expected 2, 4, 5 or 7"
  else if k = 3 then "invalid number of symbols in last base32 block: found 3, expected 2, 4, 5 or 7"
  else "invalid number of symbols in last base32 block: found 6, expected 2, 4, 5 or 7"

theorem base32_lawful : LawfulBlock base32 5 base32LengthError where
  width_pos := by norm_num
  width_le := by norm_num
  block_bits := rfl
  tail_eq {n} hpos hlt := by
    change n < 5 at hlt
    interval_cases n <;> rfl
  index_eq := base32_index
  indexLast_eq := base32_indexLast
  decodeBlock_eq := base32_decodeBlock
  decodeTail_eq := base32_decodeTail
  decodeTail_throws {k} _ put idx hpos hlt hk := by
    change k < 8 at hlt
    have h2 : 2 ≠ k := hk 1 (by norm_num) (by decide)
    have h4 : 4 ≠ k := hk 2 (by norm_num) (by decide)
    have h5 : 5 ≠ k := hk 3 (by norm_num) (by decide)
    have h7 : 7 ≠ k := hk 4 (by norm_num) (by decide)
    rcases (by omega : k = 1 ∨ k = 3 ∨ k = 6) with rfl | rfl | rfl <;> rfl

end Base32

section Hex

variable {idx : List Nat}

theorem hex_index {b : Bytes} (hI : I < 2) (h : 4 * (I + 1) ≤ 8 * b.length) :
    hexIndex I b = .ok (digitAt 4 (bitAt 8 (digitsOf b)) I) := by
  have h0 := getD_lt (fun d hd => digitsOf_lt (b := b) hd) 0
  interval_cases I <;>
    simp (disch := omega) only [hexIndex, byte_eq, Nat.reduceEqDiff, reduceIte] <;>
    refine ok_digitAt ?_ fun j hj => ?_
  · omega
  · interval_cases j <;> simp [bitAt]
  · exact Nat.and_lt_two_pow _ (by norm_num)
  · interval_cases j <;> simp +decide [bitAt]

theorem hex_decodeBlock (put : Sink ω) (hlen : idx.length = 2) (hlt : ∀ d ∈ idx, d < 2 ^ 4) :
    hexDecodeBlock put idx = putAll put (bytesOf (regroup 4 8 1 idx)) := by
  have hbyte : UInt8.ofNat (idx.getD 0 0 <<< 4 ||| idx.getD 1 0) = byteAt 4 idx 0 := by
    have hz {j : Nat} (hj : 4 ≤ j) : (idx.getD 1 0).testBit j = false :=
      testBit_of_ge (getD_lt hlt 1) hj
    apply ofNat_eq_byteAt
    intro j hj
    interval_cases j <;> simp [bitAt, hz, -List.getD_eq_getElem?_getD]
  change _ = putAll put [byteAt 4 idx 0]
  simp (disch := omega) only [hexDecodeBlock, slot_eq, pure_bind, hbyte, putAll, bind_pure_unit]

def hexLengthError (_ : Nat) : String :=
  "odd-length hex input is not supported by the streaming octet decoder, " ++
    "use a place-based number decoder instead"

theorem hex_lawful : LawfulBlock hex 4 hexLengthError where
  width_pos := by norm_num
  width_le := by norm_num
  block_bits := rfl
  tail_eq hpos hlt := absurd hlt (Nat.not_lt.2 hpos)
  index_eq := hex_index
  indexLast_eq hpos hlt := absurd hlt (Nat.not_lt.2 hpos)
  decodeBlock_eq := hex_decodeBlock
  decodeTail_eq _ _ hpos hlt := absurd hlt (Nat.not_lt.2 hpos)
  decodeTail_throws _ _ _ _ _ := rfl

end Hex

end Cppcodec
