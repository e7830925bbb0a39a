import MuchPIR.Cppcodec.Sizes
import MuchPIR.Lib.Memory

namespace Cppcodec
open Prog
set_option autoImplicit true

/-- The accessors `init`, `put`, `finish` and `size` of a result type. `init` makes the result state
as well. -/
structure ResultType (ω : Type) where
  init : UInt64 → Prog ω CodecFault Unit
  put : Sink ω
  finish : Prog ω CodecFault Unit
  size : ω → Nat

/-- A container with `push_back`. -/
def container : ResultType Bytes where
  init _ := modify fun _ => []
  put c := modify fun result => result ++ [c]
  finish := pure ()
  size := List.length

def resize (size : Nat) (result : Bytes) : Bytes :=
  result.take size ++ List.replicate (size - result.length) 0

/-- `direct_data_access_result_state`, and `array_access_result_state`, which indexes the result
instead of its buffer. -/
structure ArrayResult where
  result : Bytes
  offset : Nat

def arrayAccess : ResultType ArrayResult where
  init capacity := modify fun w => ⟨resize capacity.toNat w.result, 0⟩
  put c := do
    let w ← get
    if w.offset < w.result.length then
      modify fun w => ⟨w.result.set w.offset c, w.offset + 1⟩
    else throw (.outOfRange w.offset)
  finish := modify fun w => { w with result := resize w.offset w.result }
  size w := w.result.length

structure RawResultBuffer where
  memory : Memory
  ptr : Nat
  start : Nat

namespace RawResultBuffer

/-- The constructor: `m_ptr` is behind the buffer. -/
def construct (data capacity : Nat) (memory : Memory) : RawResultBuffer := ⟨memory, data + capacity, data⟩

def size (w : RawResultBuffer) : Nat := w.ptr - w.start

end RawResultBuffer

def rawResultBuffer : ResultType RawResultBuffer where
  init capacity := do
    if (← get).size < capacity.toNat then throw .aborts
    else modify fun w => { w with ptr := w.start }
  put c := modify fun w => { w with memory := w.memory.write w.ptr [c], ptr := w.ptr + 1 }
  finish := pure ()
  size := RawResultBuffer.size

namespace Codec

variable (K : Codec)

/-- `codec::encode` with a result. A failed `assert` aborts. -/
def encodeInto (R : ResultType ω) (binary : Bytes) : Prog ω CodecFault Unit := do
  let encodedBufferSize := encodedSize K.block K.variant (UInt64.ofNat binary.length)
  R.init encodedBufferSize
  encode K.block K.variant R.put binary
  R.finish
  if R.size (← get) ≠ encodedBufferSize.toNat then throw .aborts

/-- `codec::decode` with a result. -/
def decodeInto (R : ResultType ω) (encoded : Bytes) : Prog ω CodecFault Unit := do
  let binaryBufferSize := decodedMaxSize K.block K.variant (UInt64.ofNat encoded.length)
  R.init binaryBufferSize
  decode K.block K.variant R.put encoded
  R.finish
  if binaryBufferSize.toNat < R.size (← get) then throw .aborts

/-- `codec::encode` with a pointer. -/
def encodeRaw (encodedResult encodedBufferSize : Nat) (binary : Bytes) :
    Prog Memory CodecFault Nat :=
  within (RawResultBuffer.construct encodedResult encodedBufferSize) (fun w _ => w.memory) do
    K.encodeInto rawResultBuffer binary
    let encodedSize := (← get).size
    if encodedSize < encodedBufferSize then
      modify fun w => { w with memory := w.memory.write (encodedResult + encodedSize) [0] }
    return encodedSize

/-- `codec::decode` with a pointer. -/
def decodeRaw (binaryResult binaryBufferSize : Nat) (encoded : Bytes) :
    Prog Memory CodecFault Nat :=
  within (RawResultBuffer.construct binaryResult binaryBufferSize) (fun w _ => w.memory) do
    K.decodeInto rawResultBuffer encoded
    return (← get).size

end Codec

section Receives

/-- In front of its capacity, the result is in the state of what was put into it, and it ends with
that. -/
structure Receives (R : ResultType ω) (capacity : Nat) (state final : Bytes → ω) : Prop where
  put : ∀ out c, out.length < capacity → R.put c (state out) = (.ok (), state (out ++ [c]))
  finish : ∀ out, R.finish (state out) = (.ok (), final out)
  size : ∀ out, R.size (final out) = out.length

theorem Receives.putAll_eq {R : ResultType ω} (h : Receives R capacity state final)
    (hfits : out.length + b.length ≤ capacity) :
    putAll R.put b (state out) = (.ok (), state (out ++ b)) := by
  induction b generalizing out with
  | nil =>
    rw [List.append_nil]
    rfl
  | cons c b ih =>
    rw [List.length_cons] at hfits
    have hlength : (out ++ [c]).length = out.length + 1 := List.length_append
    have hput := h.put out c (by omega)
    rw [putAll, bind_of_ok _ hput, ih (by omega), List.append_assoc, List.singleton_append]

theorem container_receives (capacity : Nat) : Receives container capacity id id where
  put _ _ _ := rfl
  finish _ := rfl
  size _ := rfl

theorem length_resize (size : Nat) (result : Bytes) : (resize size result).length = size := by
  rw [resize, List.length_append, List.length_take, List.length_replicate]
  omega

theorem resize_append (out rest : Bytes) : resize out.length (out ++ rest) = out := by
  rw [resize, List.take_left', List.length_append, Nat.sub_eq_zero_of_le (Nat.le_add_right _ _)]
  · exact List.append_nil out
  · rfl

def arrayState (result out : Bytes) : ArrayResult := ⟨out ++ result.drop out.length, out.length⟩

theorem arrayAccess_receives (result : Bytes) :
    Receives arrayAccess result.length (arrayState result) (fun out => ⟨out, out.length⟩) where
  put out c hlt := by
    have hin : out.length < (out ++ result.drop out.length).length := by
      rw [List.length_append, List.length_drop]
      omega
    have hset : (out ++ result.drop out.length).set out.length c =
        out ++ [c] ++ result.drop (out ++ [c]).length := by
      rw [List.set_append_right _ _ le_rfl, Nat.sub_self, List.drop_eq_getElem_cons hlt,
        List.set_cons_zero, List.length_append, List.length_singleton, List.append_assoc]
      rfl
    change (get >>= _) (arrayState result out) = _
    rw [get_bind, arrayState, if_pos hin, arrayState, ← hset, List.length_append]
    rfl
  finish out := by
    change (_, (⟨resize out.length (out ++ result.drop out.length), out.length⟩ : ArrayResult)) = _
    rw [resize_append]
  size _ := rfl

def rawState (memory : Memory) (start : Nat) (out : Bytes) : RawResultBuffer :=
  ⟨memory.write start out, start + out.length, start⟩

theorem rawState_size (memory : Memory) (start : Nat) (out : Bytes) :
    (rawState memory start out).size = out.length := Nat.add_sub_cancel_left start out.length

theorem rawResultBuffer_receives (capacity : Nat) (memory : Memory) (start : Nat) :
    Receives rawResultBuffer capacity (rawState memory start) (rawState memory start) where
  put out c _ := by
    change (_, (⟨(memory.write start out).write (start + out.length) [c],
      start + out.length + 1, start⟩ : RawResultBuffer)) = _
    rw [Memory.write_append, rawState, List.length_append]
    rfl
  finish _ := rfl
  size := rawState_size memory start

end Receives

namespace Codec

section Into

variable (K : Codec) {R : ResultType ω}

theorem encodeInto_eq
    (hsize : (b.length + K.block.binaryBlockSize) * K.block.encodedBlockSize < 2 ^ 64)
    (hinit : R.init (encodedSize K.block K.variant (UInt64.ofNat b.length)) w =
      (.ok (), state []))
    (hR : Receives R (K.encoded b).length state final) :
    K.encodeInto R b w = (.ok (), final (K.encoded b)) := by
  have hencode : encode K.block K.variant R.put b (state []) = (.ok (), state (K.encoded b)) := by
    rw [encode_eq K.lawfulBlock K.lawfulVariant]
    exact hR.putAll_eq (by rw [List.length_nil, Nat.zero_add, encoded])
  rw [encodeInto, bind_of_ok _ hinit, bind_of_ok _ hencode, bind_of_ok _ (hR.finish _), get_bind,
    if_neg (not_not.2 (by rw [hR.size, K.encodedSize_eq b hsize]))]
  rfl

theorem decodeInto_eq (hsize : text.length < 2 ^ 64)
    (hinit : R.init (decodedMaxSize K.block K.variant (UInt64.ofNat text.length)) w =
      (.ok (), state []))
    (hR : Receives R (decodedMaxSize K.block K.variant (UInt64.ofNat text.length)).toNat
      state final) :
    K.decodeInto R text w =
      match K.outcome text with
      | .ok () => (.ok (), final (K.decoded text))
      | .error e => (.error e, state (K.decoded text)) := by
  have hfits := K.decoded_fits text hsize
  have hdecode : decode K.block K.variant R.put text (state []) =
      (K.outcome text, state (K.decoded text)) := by
    rw [decode_eq K.lawfulBlock K.lawfulVariant]
    exact bind_of_ok _ (hR.putAll_eq (by rwa [List.length_nil, Nat.zero_add]))
  rw [decodeInto, bind_of_ok _ hinit]
  generalize K.outcome text = result at hdecode ⊢
  rcases result with e | _
  · exact bind_of_error _ hdecode
  · rw [bind_of_ok _ hdecode, bind_of_ok _ (hR.finish _), get_bind,
      if_neg (by rw [hR.size]; omega)]
    rfl

end Into

section Results

variable (K : Codec)

theorem encodeInto_container (b old : Bytes)
    (hsize : (b.length + K.block.binaryBlockSize) * K.block.encodedBlockSize < 2 ^ 64) :
    K.encodeInto container b old = (.ok (), K.encoded b) :=
  K.encodeInto_eq hsize rfl (container_receives _)

theorem arrayAccess_init (capacity : UInt64) (w : ArrayResult) :
    arrayAccess.init capacity w = (.ok (), arrayState (resize capacity.toNat w.result) []) := rfl

theorem encodeInto_array (b : Bytes) (w : ArrayResult)
    (hsize : (b.length + K.block.binaryBlockSize) * K.block.encodedBlockSize < 2 ^ 64) :
    K.encodeInto arrayAccess b w = (.ok (), ⟨K.encoded b, (K.encoded b).length⟩) := by
  have hR := arrayAccess_receives
    (resize (encodedSize K.block K.variant (UInt64.ofNat b.length)).toNat w.result)
  rw [length_resize, K.encodedSize_eq b hsize] at hR
  refine K.encodeInto_eq hsize ?_ hR
  rw [arrayAccess_init, K.encodedSize_eq b hsize]

theorem decodeInto_arrayAccess (text : Bytes) (w : ArrayResult) (hsize : text.length < 2 ^ 64) :
    K.decodeInto arrayAccess text w =
      match K.outcome text with
      | .ok () => (.ok (), ⟨K.decoded text, (K.decoded text).length⟩)
      | .error e => (.error e, arrayState (resize
          (decodedMaxSize K.block K.variant (UInt64.ofNat text.length)).toNat w.result)
          (K.decoded text)) := by
  have hR := arrayAccess_receives
    (resize (decodedMaxSize K.block K.variant (UInt64.ofNat text.length)).toNat w.result)
  rw [length_resize] at hR
  exact K.decodeInto_eq hsize (arrayAccess_init _ w) hR

theorem decodeInto_container (text old : Bytes) (hsize : text.length < 2 ^ 64) :
    K.decodeInto container text old = (K.outcome text, K.decoded text) := by
  rw [K.decodeInto_eq hsize rfl (container_receives _)]
  rcases K.outcome text with e | _
  · rfl
  · rfl

/-- A string or vector that is used again has what a new one has. After an error it has the size
that it was resized to. -/
theorem decodeInto_array (text : Bytes) (w : ArrayResult) (hsize : text.length < 2 ^ 64) :
    (K.decodeInto arrayAccess text w =
      match K.outcome text with
      | .ok () => (.ok (), ⟨K.decoded text, (K.decoded text).length⟩)
      | .error e => (.error e, arrayState (resize
          (decodedMaxSize K.block K.variant (UInt64.ofNat text.length)).toNat w.result)
          (K.decoded text))) ∧
    ∀ e, K.outcome text = .error e → (K.decodeInto arrayAccess text w).2.result.length =
      (decodedMaxSize K.block K.variant (UInt64.ofNat text.length)).toNat := by
  have hinto := K.decodeInto_arrayAccess text w hsize
  refine ⟨hinto, fun e herror => ?_⟩
  have hfits := K.decoded_fits text hsize
  rw [hinto, herror]
  simp only [arrayState, List.length_append, List.length_drop, length_resize]
  omega

theorem decodeInto_array_hex :
    (hexUpper.decodeInto arrayAccess (chars ['A', 'b']) ⟨[1, 2, 3], 3⟩).2.result = [0xAB] := by
  obtain ⟨hinto, -⟩ := decodeInto_array .hexUpper (chars ['A', 'b']) ⟨[1, 2, 3], 3⟩ (by decide)
  rw [hinto]
  decide +kernel

/-- What is encoded into a string, a vector or a container comes back out of its text, whatever
they held. -/
theorem decodeInto_encodeInto (b : Bytes)
    (hsize : (b.length + K.block.binaryBlockSize) * K.block.encodedBlockSize < 2 ^ 64) :
    ∃ text, (∀ w, K.encodeInto arrayAccess b w = (.ok (), ⟨text, text.length⟩)) ∧
      (∀ old, K.encodeInto container b old = (.ok (), text)) ∧
      (∀ w, K.decodeInto arrayAccess text w = (.ok (), ⟨b, b.length⟩)) ∧
      ∀ old, K.decodeInto container text old = (.ok (), b) := by
  obtain ⟨houtcome, hdecoded⟩ : K.outcome (K.encoded b) = .ok () ∧
      K.decoded (K.encoded b) = b := decoded_encoded K.lawfulBlock K.lawfulVariant b
  have hlength : (K.encoded b).length < 2 ^ 64 := by
    rw [← K.encodedSize_eq b hsize]
    exact UInt64.toNat_lt _
  refine ⟨K.encoded b, fun w => K.encodeInto_array b w hsize,
    fun old => K.encodeInto_container b old hsize, fun w => ?_, fun old => ?_⟩
  · rw [K.decodeInto_arrayAccess _ w hlength, houtcome, hdecoded]
  · rw [K.decodeInto_container _ old hlength, houtcome, hdecoded]

theorem decodeInto_encodeInto_base64 :
    ∃ text, (∀ w, base64Rfc4648.encodeInto arrayAccess [0xFB, 0xEF] w =
        (.ok (), ⟨text, text.length⟩)) ∧
      ∀ old, base64Rfc4648.decodeInto container text old = (.ok (), [0xFB, 0xEF]) := by
  obtain ⟨text, hencode, -, -, hdecode⟩ :=
    decodeInto_encodeInto .base64Rfc4648 [0xFB, 0xEF] (by decide)
  exact ⟨text, hencode, hdecode⟩

end Results

section Raw

variable (K : Codec)

theorem rawResultBuffer_init (capacity : UInt64) (data size : Nat) (m : Memory) :
    rawResultBuffer.init capacity (RawResultBuffer.construct data size m) =
      if size < capacity.toNat then (.error .aborts, RawResultBuffer.construct data size m)
      else (.ok (), rawState m data []) := by
  have hsize : (RawResultBuffer.construct data size m).size = size :=
    Nat.add_sub_cancel_left data size
  change (get >>= _) (RawResultBuffer.construct data size m) = _
  rw [get_bind, hsize]
  split_ifs
  · rfl
  · rw [rawState, Memory.write_nil]
    rfl

/-- With a pointer, the encoder writes the text into the buffer, and a NUL behind it where there is
room. It aborts at once where the text does not fit. -/
theorem encodeRaw_eq (b : Bytes) (m : Memory) (data size : Nat)
    (hsize : (b.length + K.block.binaryBlockSize) * K.block.encodedBlockSize < 2 ^ 64) :
    K.encodeRaw data size b m =
      if size < (K.encoded b).length then (.error .aborts, m)
      else (.ok (K.encoded b).length, m.write data
        (K.encoded b ++ if (K.encoded b).length < size then [0] else [])) := by
  have hinit := rawResultBuffer_init (encodedSize K.block K.variant (UInt64.ofNat b.length))
    data size m
  rw [K.encodedSize_eq b hsize] at hinit
  rw [encodeRaw]
  split_ifs with hfull hroom
  · rw [if_pos hfull] at hinit
    have hinto : K.encodeInto rawResultBuffer b (RawResultBuffer.construct data size m) =
        (.error .aborts, RawResultBuffer.construct data size m) := bind_of_error _ hinit
    rw [within, bind_of_error _ hinto]
    rfl
  · rw [if_neg hfull] at hinit
    have hinto := K.encodeInto_eq hsize hinit (rawResultBuffer_receives _ m data)
    rw [within, bind_of_ok _ hinto, get_bind, rawState_size, if_pos hroom, ← Memory.write_append]
    rfl
  · rw [if_neg hfull] at hinit
    have hinto := K.encodeInto_eq hsize hinit (rawResultBuffer_receives _ m data)
    rw [within, bind_of_ok _ hinto, get_bind, rawState_size, if_neg hroom, List.append_nil]
    rfl

theorem encodeRaw_hex : (hexLower.encodeRaw 100 8 [0xAB] fun _ => 7).1 = .ok 2 := by
  rw [encodeRaw_eq .hexLower [0xAB] (fun _ => 7) 100 8 (by decide)]
  decide +kernel

theorem decodeRaw_run (text : Bytes) (m : Memory) (data size : Nat) (hsize : text.length < 2 ^ 64) :
    K.decodeRaw data size text m =
      if size < (decodedMaxSize K.block K.variant (UInt64.ofNat text.length)).toNat then
        (.error .aborts, m)
      else ((K.outcome text).map fun _ => (K.decoded text).length,
        m.write data (K.decoded text)) := by
  have hinit := rawResultBuffer_init
    (decodedMaxSize K.block K.variant (UInt64.ofNat text.length)) data size m
  rw [decodeRaw]
  split_ifs with hfull
  · rw [if_pos hfull] at hinit
    have hinto : K.decodeInto rawResultBuffer text (RawResultBuffer.construct data size m) =
        (.error .aborts, RawResultBuffer.construct data size m) := bind_of_error _ hinit
    rw [within, bind_of_error _ hinto]
    rfl
  · rw [if_neg hfull] at hinit
    have hinto := K.decodeInto_eq hsize hinit (rawResultBuffer_receives _ m data)
    generalize K.outcome text = result at hinto ⊢
    rcases result with e | _
    · rw [within, bind_of_error _ hinto]
      rfl
    · rw [within, bind_of_ok _ hinto, get_bind, rawState_size]
      rfl

/-- With a pointer, the decoder writes the bytes into the buffer, and nothing outside of it. It aborts
at once where `decoded_max_size` does not fit. -/
theorem decodeRaw_eq (text : Bytes) (m : Memory) (data size : Nat) (hsize : text.length < 2 ^ 64) :
    (K.decodeRaw data size text m =
      if size < (decodedMaxSize K.block K.variant (UInt64.ofNat text.length)).toNat then
        (.error .aborts, m)
      else ((K.outcome text).map fun _ => (K.decoded text).length,
        m.write data (K.decoded text))) ∧
    ((decodedMaxSize K.block K.variant (UInt64.ofNat text.length)).toNat ≤ size →
      (K.decoded text).length ≤ size) ∧
    ∀ a, a < data ∨ data + size ≤ a → (K.decodeRaw data size text m).2 a = m a := by
  have hraw := K.decodeRaw_run text m data size hsize
  have hfits := K.decoded_fits text hsize
  refine ⟨hraw, hfits.trans, fun a ha => ?_⟩
  rw [hraw]
  split_ifs with hfull
  · rfl
  · apply Memory.write_outside
    omega

theorem decodeRaw_hex : (hexLower.decodeRaw 100 1 (chars ['a', 'B']) fun _ => 7).1 = .ok 1 := by
  obtain ⟨hraw, -⟩ := decodeRaw_eq .hexLower (chars ['a', 'B']) (fun _ => 7) 100 1 (by decide)
  rw [hraw]
  decide +kernel

end Raw

end Codec

end Cppcodec
