import Mathlib.Data.List.FinRange
import MuchPIR.Cppcodec.Block

namespace Cppcodec
set_option autoImplicit true

/-- A class such as `base64_rfc4648`. `paddingSymbol` is there for those that generate padding. -/
structure CodecVariant where
  alphabet : Bytes
  normalizedSymbol : UInt8 → UInt8
  paddingSymbol : Option UInt8
  requiresPadding : Bool
  isPaddingSymbol : UInt8 → Bool
  isEofSymbol : UInt8 → Bool
  shouldIgnore : UInt8 → Bool

def paddingIdx : Nat := 1 <<< 8
def invalidIdx : Nat := 1 <<< 9
def eofIdx : Nat := 1 <<< 10
def stopCharacterMask : Nat := 0xFFFFFF00

def isStopCharacter (idx : Nat) : Bool := idx &&& stopCharacterMask ≠ 0

namespace CodecVariant

variable (V : CodecVariant)

def generatesPadding : Bool := V.paddingSymbol.isSome

def symbol (idx : Nat) : Except CodecFault UInt8 := fetch V.alphabet idx

def idxIfInAlphabet (c : UInt8) : Nat := (V.alphabet.idxOf? c).getD invalidIdx

def indexOf (c : UInt8) : Nat :=
  if V.idxIfInAlphabet c ≠ invalidIdx then V.idxIfInAlphabet c
  else if V.isEofSymbol c then eofIdx
  else if V.isPaddingSymbol c then paddingIdx
  else invalidIdx

/-- `lookup::for_symbol`, an entry of the table of `index_at`. -/
def lookup (c : UInt8) : Nat := V.indexOf (V.normalizedSymbol c)

def allowsPadding : Bool := (List.range 256).any fun n => V.isPaddingSymbol (UInt8.ofNat n)

def isPadding (idx : Nat) : Bool := if V.allowsPadding then idx = paddingIdx else false

end CodecVariant

def chars (cs : List Char) : Bytes := cs.map Char.toUInt8

def isEqualsSign (c : UInt8) : Bool := c = '='.toUInt8

def isNul (c : UInt8) : Bool := c = 0

/-- `(c >= first && c <= last) ? (c - first + other) : c`. -/
def moveRange (first last other : Char) (c : UInt8) : UInt8 :=
  if first.toUInt8 ≤ c ∧ c ≤ last.toUInt8 then c - first.toUInt8 + other.toUInt8 else c

def base64Rfc4648 : CodecVariant where
  alphabet := chars
    ['A', 'B', 'C', 'D', 'E', 'F', 'G', 'H', 'I', 'J', 'K', 'L', 'M',
      'N', 'O', 'P', 'Q', 'R', 'S', 'T', 'U', 'V', 'W', 'X', 'Y', 'Z',
      'a', 'b', 'c', 'd', 'e', 'f', 'g', 'h', 'i', 'j', 'k', 'l', 'm',
      'n', 'o', 'p', 'q', 'r', 's', 't', 'u', 'v', 'w', 'x', 'y', 'z',
      '0', '1', '2', '3', '4', '5', '6', '7', '8', '9', '+', '/']
  normalizedSymbol c := c
  paddingSymbol := some '='.toUInt8
  requiresPadding := true
  isPaddingSymbol := isEqualsSign
  isEofSymbol := isNul
  shouldIgnore _ := false

def base64Url : CodecVariant where
  alphabet := chars
    ['A', 'B', 'C', 'D', 'E', 'F', 'G', 'H', 'I', 'J', 'K', 'L', 'M',
      'N', 'O', 'P', 'Q', 'R', 'S', 'T', 'U', 'V', 'W', 'X', 'Y', 'Z',
      'a', 'b', 'c', 'd', 'e', 'f', 'g', 'h', 'i', 'j', 'k', 'l', 'm',
      'n', 'o', 'p', 'q', 'r', 's', 't', 'u', 'v', 'w', 'x', 'y', 'z',
      '0', '1', '2', '3', '4', '5', '6', '7', '8', '9', '-', '_']
  normalizedSymbol c := c
  paddingSymbol := some '='.toUInt8
  requiresPadding := true
  isPaddingSymbol := isEqualsSign
  isEofSymbol := isNul
  shouldIgnore _ := false

/-- It derives from `base64_url`, whose padding symbol it still reads. -/
def base64UrlUnpadded : CodecVariant :=
  { base64Url with
    paddingSymbol := none
    requiresPadding := false }

def base32Rfc4648 : CodecVariant where
  alphabet := chars
    ['A', 'B', 'C', 'D', 'E', 'F', 'G', 'H', 'I', 'J', 'K', 'L', 'M',
      'N', 'O', 'P', 'Q', 'R', 'S', 'T', 'U', 'V', 'W', 'X', 'Y', 'Z',
      '2', '3', '4', '5', '6', '7']
  normalizedSymbol := moveRange 'a' 'z' 'A'
  paddingSymbol := some '='.toUInt8
  requiresPadding := true
  isPaddingSymbol := isEqualsSign
  isEofSymbol := isNul
  shouldIgnore _ := false

def base32Hex : CodecVariant where
  alphabet := chars
    ['0', '1', '2', '3', '4', '5', '6', '7', '8', '9',
      'A', 'B', 'C', 'D', 'E', 'F', 'G', 'H', 'I', 'J', 'K',
      'L', 'M', 'N', 'O', 'P', 'Q', 'R', 'S', 'T', 'U', 'V']
  normalizedSymbol := moveRange 'a' 'v' 'A'
  paddingSymbol := some '='.toUInt8
  requiresPadding := true
  isPaddingSymbol := isEqualsSign
  isEofSymbol := isNul
  shouldIgnore _ := false

def base32Crockford : CodecVariant where
  alphabet := chars
    ['0', '1', '2', '3', '4', '5', '6', '7', '8', '9',
      'A', 'B', 'C', 'D', 'E', 'F', 'G', 'H', 'J', 'K', 'M', 'N',
      'P', 'Q', 'R', 'S', 'T', 'V', 'W', 'X', 'Y', 'Z']
  normalizedSymbol c :=
    if c = 'O'.toUInt8 ∨ c = 'o'.toUInt8 then '0'.toUInt8
    else if c = 'I'.toUInt8 ∨ c = 'i'.toUInt8 ∨ c = 'L'.toUInt8 ∨ c = 'l'.toUInt8 then '1'.toUInt8
    else moveRange 'a' 'z' 'A' c
  paddingSymbol := none
  requiresPadding := false
  isPaddingSymbol _ := false
  isEofSymbol := isNul
  shouldIgnore c := c = '-'.toUInt8

def hexLower : CodecVariant where
  alphabet := chars
    ['0', '1', '2', '3', '4', '5', '6', '7', '8', '9', 'a', 'b', 'c', 'd', 'e', 'f']
  normalizedSymbol := moveRange 'A' 'F' 'a'
  paddingSymbol := none
  requiresPadding := false
  isPaddingSymbol _ := false
  isEofSymbol := isNul
  shouldIgnore _ := false

def hexUpper : CodecVariant where
  alphabet := chars
    ['0', '1', '2', '3', '4', '5', '6', '7', '8', '9', 'A', 'B', 'C', 'D', 'E', 'F']
  normalizedSymbol := moveRange 'a' 'f' 'A'
  paddingSymbol := none
  requiresPadding := false
  isPaddingSymbol _ := false
  isEofSymbol := isNul
  shouldIgnore _ := false

/-- What the stream codec needs of a variant for symbols of `w` bits. -/
structure LawfulVariant (V : CodecVariant) (w : Nat) : Prop where
  alphabet_length : V.alphabet.length = 2 ^ w
  /-- A symbol that is written is read back, and never skipped. -/
  symbol_read : ∀ d < 2 ^ w, V.lookup (V.alphabet.getD d 0) = d ∧
    V.shouldIgnore (V.alphabet.getD d 0) = false
  padding_read : ∀ c ∈ V.paddingSymbol, V.lookup c = paddingIdx ∧ V.shouldIgnore c = false
  requires_generates : V.requiresPadding = true → V.generatesPadding = true

/-- The codecs that the headers declare. -/
inductive Codec
  | base64Rfc4648
  | base64Url
  | base64UrlUnpadded
  | base32Rfc4648
  | base32Hex
  | base32Crockford
  | hexLower
  | hexUpper

namespace Codec

def block : Codec → BlockCodec
  | base64Rfc4648 => base64
  | base64Url => base64
  | base64UrlUnpadded => base64
  | base32Rfc4648 => base32
  | base32Hex => base32
  | base32Crockford => base32
  | hexLower => hex
  | hexUpper => hex

def variant : Codec → CodecVariant
  | base64Rfc4648 => Cppcodec.base64Rfc4648
  | base64Url => Cppcodec.base64Url
  | base64UrlUnpadded => Cppcodec.base64UrlUnpadded
  | base32Rfc4648 => Cppcodec.base32Rfc4648
  | base32Hex => Cppcodec.base32Hex
  | base32Crockford => Cppcodec.base32Crockford
  | hexLower => Cppcodec.hexLower
  | hexUpper => Cppcodec.hexUpper

def width : Codec → Nat
  | base64Rfc4648 => 6
  | base64Url => 6
  | base64UrlUnpadded => 6
  | base32Rfc4648 => 5
  | base32Hex => 5
  | base32Crockford => 5
  | hexLower => 4
  | hexUpper => 4

def lengthError : Codec → Nat → String
  | base64Rfc4648 => base64LengthError
  | base64Url => base64LengthError
  | base64UrlUnpadded => base64LengthError
  | base32Rfc4648 => base32LengthError
  | base32Hex => base32LengthError
  | base32Crockford => base32LengthError
  | hexLower => hexLengthError
  | hexUpper => hexLengthError

theorem lawfulBlock (K : Codec) : LawfulBlock K.block K.width K.lengthError := by
  cases K
  · exact base64_lawful
  · exact base64_lawful
  · exact base64_lawful
  · exact base32_lawful
  · exact base32_lawful
  · exact base32_lawful
  · exact hex_lawful
  · exact hex_lawful

theorem lawfulVariant (K : Codec) : LawfulVariant K.variant K.width where
  alphabet_length := by cases K <;> rfl
  symbol_read := by cases K <;> decide +kernel
  padding_read := by cases K <;> decide +kernel
  requires_generates := by cases K <;> decide

end Codec

section Lookup

variable {V : CodecVariant}

theorem isStopCharacter_of_lt (h : idx < 256) : isStopCharacter idx = false := by
  have hall : ∀ i < 256, isStopCharacter i = false := by decide +kernel
  exact hall idx h

theorem idxIfInAlphabet_lt (hV : LawfulVariant V w) (h : V.idxIfInAlphabet c ≠ invalidIdx) :
    V.idxIfInAlphabet c < 2 ^ w := by
  rw [CodecVariant.idxIfInAlphabet] at h ⊢
  rcases hfind : V.alphabet.idxOf? c with _ | i
  · rw [hfind] at h
    exact absurd rfl h
  · obtain ⟨hlt, -⟩ := List.idxOf?_eq_some_iff.1 hfind
    rwa [hV.alphabet_length] at hlt

/-- An index that is not a digit is a stop character. -/
theorem lookup_cases (hV : LawfulVariant V w) (c : UInt8) :
    V.lookup c < 2 ^ w ∨ V.lookup c = eofIdx ∨ V.lookup c = paddingIdx ∨
      V.lookup c = invalidIdx := by
  rw [CodecVariant.lookup, CodecVariant.indexOf]
  split
  · next h => exact Or.inl (idxIfInAlphabet_lt hV h)
  · split
    · exact Or.inr (Or.inl rfl)
    · split
      · exact Or.inr (Or.inr (Or.inl rfl))
      · exact Or.inr (Or.inr (Or.inr rfl))

theorem isPadding_lookup (hV : LawfulVariant V w) (hw : w ≤ 8) (h : V.lookup c = paddingIdx) :
    V.isPadding (V.lookup c) = true := by
  have hallowed : V.allowsPadding = true := by
    rw [CodecVariant.lookup, CodecVariant.indexOf] at h
    split at h
    · next hin =>
      have hlt := idxIfInAlphabet_lt hV hin
      have hpow : 2 ^ w ≤ 256 := Nat.pow_le_pow_right two_pos hw
      rw [h, paddingIdx] at hlt
      omega
    · split at h
      · cases h
      · split at h
        · next hsymbol =>
          refine List.any_eq_true.2 ⟨_, List.mem_range.2 (V.normalizedSymbol c).toNat_lt, ?_⟩
          rwa [UInt8.ofNat_toNat]
        · cases h
  rw [CodecVariant.isPadding, if_pos hallowed, h]
  rfl

theorem eq_of_isPadding (h : V.isPadding idx = true) : idx = paddingIdx := by
  rw [CodecVariant.isPadding] at h
  split at h
  · exact of_decide_eq_true h
  · cases h

end Lookup

end Cppcodec
