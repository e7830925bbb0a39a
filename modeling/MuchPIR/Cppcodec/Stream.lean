import MuchPIR.Cppcodec.Variant

namespace Cppcodec
open Prog
set_option autoImplicit true

section Encode

variable (C : BlockCodec) (V : CodecVariant) (put : Sink ω)

def encBlock (src : Bytes) : Nat → Prog ω CodecFault Unit
  | 0 => pure ()
  | I + 1 => do
    encBlock src I
    let idx ← lift (C.index I src)
    put (← lift (V.symbol idx))

def encTail (src : Bytes) (numSymbols : Nat) : Nat → Prog ω CodecFault Unit
  | 0 => throw .aborts
  | I + 1 => do
    let symbolIndex := C.encodedBlockSize - (I + 1)
    if numSymbols = symbolIndex + 1 then do
      let idx ← lift (C.indexLast symbolIndex src)
      put (← lift (V.symbol idx))
    else do
      let idx ← lift (C.index symbolIndex src)
      put (← lift (V.symbol idx))
      encTail src numSymbols I

def pad (numPaddingCharacters : Nat) : Prog ω CodecFault Unit :=
  match V.paddingSymbol with
  | none => pure ()
  | some c => forRange 0 numPaddingCharacters (fun _ _ => put c) ()

/-- The loop over whole blocks. It ends at the bytes that are left. -/
def encodeBlocks : Nat → Bytes → Prog ω CodecFault Bytes
  | 0, src => pure src
  | blocks + 1, src => do
    encBlock C V put src C.encodedBlockSize
    encodeBlocks blocks (src.drop C.binaryBlockSize)

def encode (src : Bytes) : Prog ω CodecFault Unit := do
  let src ← encodeBlocks C V put (src.length / C.binaryBlockSize) src
  if src.length = 0 then return ()
  else if C.binaryBlockSize ≤ src.length then throw .aborts
  else do
    let numSymbols ← lift (C.numEncodedTailSymbols src.length)
    encTail C V put src numSymbols C.encodedBlockSize
    pad V put (C.encodedBlockSize - numSymbols)

end Encode

section Decode

variable (C : BlockCodec) (V : CodecVariant) (put : Sink ω)

/-- The loop over the symbols, from `alphabet_index_ptr = ptr` on. It ends at a stop character. -/
def readSymbols : Bytes → List Nat → Nat → Prog ω CodecFault (Bytes × List Nat × Nat)
  | [], alphabetIndexes, ptr => pure ([], alphabetIndexes, ptr)
  | c :: src, alphabetIndexes, ptr =>
    if V.shouldIgnore c then readSymbols src alphabetIndexes ptr
    else do
      let alphabetIndexes := alphabetIndexes.set ptr (V.lookup c)
      if isStopCharacter (← slot alphabetIndexes ptr) then
        return (c :: src, alphabetIndexes, ptr)
      else if ptr + 1 = C.encodedBlockSize then do
        C.decodeBlock put alphabetIndexes
        readSymbols src alphabetIndexes 0
      else readSymbols src alphabetIndexes (ptr + 1)

def readPadding (ptr : Nat) : Bytes → List Nat → Nat → Prog ω CodecFault (List Nat × Nat)
  | [], alphabetIndexes, lastIndex => pure (alphabetIndexes, lastIndex)
  | c :: src, alphabetIndexes, lastIndex => do
    let alphabetIndexes := alphabetIndexes.set ptr (V.lookup c)
    let idx ← slot alphabetIndexes ptr
    if idx = eofIdx then return (alphabetIndexes.set ptr paddingIdx, lastIndex)
    else if ¬V.isPadding idx then throw .paddingError
    else if C.encodedBlockSize < lastIndex + 1 then throw .paddingError
    else readPadding ptr src alphabetIndexes (lastIndex + 1)

/-- What `decode` does behind the loop over the symbols. -/
def decodeRest (src : Bytes) (alphabetIndexes : List Nat) (ptr : Nat) :
    Prog ω CodecFault Unit := do
  let idx ← slot alphabetIndexes ptr
  if idx = invalidIdx then do
    let c ← lift (fetch src 0)
    throw (.symbolError c)
  else do
    let (alphabetIndexes, lastIndex) ←
      if V.isPadding idx then
        if ptr = 0 then throw .paddingError
        else readPadding C V ptr (src.drop 1) alphabetIndexes (ptr + 1)
      else pure (alphabetIndexes, ptr)
    if lastIndex = 0 then return ()
    else do
      let idx ← slot alphabetIndexes ptr
      if (V.requiresPadding ∨ V.isPadding idx) ∧ lastIndex ≠ C.encodedBlockSize then
        throw .paddingError
      else if C.encodedBlockSize ≤ ptr then throw .aborts
      else C.decodeTail put alphabetIndexes ptr

def decode (src : Bytes) : Prog ω CodecFault Unit := do
  let start := (List.replicate C.encodedBlockSize 0).set 0 eofIdx
  let (src, alphabetIndexes, ptr) ← readSymbols C V put src start 0
  decodeRest C V put src alphabetIndexes ptr

end Decode

section Sizes

variable (C : BlockCodec) (V : CodecVariant)

def encodedSize (binarySize : UInt64) : UInt64 :=
  let b := UInt64.ofNat C.binaryBlockSize
  let e := UInt64.ofNat C.encodedBlockSize
  if V.generatesPadding then (binarySize + (b - 1) - (binarySize + (b - 1)) % b) * e / b
  else binarySize * e / b + if binarySize * e % b = 0 then 0 else 1

def decodedMaxSize (encodedSize : UInt64) : UInt64 :=
  let b := UInt64.ofNat C.binaryBlockSize
  let e := UInt64.ofNat C.encodedBlockSize
  if V.requiresPadding then encodedSize / e * b
  else encodedSize / e * b + encodedSize % e * b / e

end Sizes

end Cppcodec
