import MuchPIR.Cppcodec.Result

namespace Cppcodec
open Prog Regroup
set_option autoImplicit true

variable {C : BlockCodec} {V : CodecVariant} {w : Nat} {lengthError : Nat → String}
  (hC : LawfulBlock C w lengthError)

section Encode

include hC

/-- Behind whole blocks the text goes on as if it began there. -/
theorem encoded_append {xs : Bytes} (h : C.binaryBlockSize ∣ xs.length) (ys : Bytes) :
    encoded C V w (xs ++ ys) = encoded C V w xs ++ encoded C V w ys := by
  obtain ⟨k, hk⟩ := h
  have hbits : 8 * (digitsOf xs).length = w * (C.encodedBlockSize * k) := by
    rw [length_digitsOf, hk, ← Nat.mul_assoc, ← hC.block_bits, Nat.mul_assoc]
  have hcount (n : Nat) : symbolCount w (C.binaryBlockSize * k + n) =
      C.encodedBlockSize * k + symbolCount w n :=
    symbolCount_add hC.width_pos hC.block_bits k n
  have hblocks : symbolCount w (C.binaryBlockSize * k) = C.encodedBlockSize * k := by
    have hnone := hcount 0
    rwa [symbolCount_zero hC.width_pos] at hnone
  have hpadding : paddingOf C V (C.encodedBlockSize * k + symbolCount w ys.length) =
      paddingOf C V (symbolCount w ys.length) := by
    rw [paddingOf, paddingOf, Nat.mul_add_mod]
  have hdigits : digitsOf (xs ++ ys) = digitsOf xs ++ digitsOf ys := List.map_append
  rw [encoded, encoded, encoded, List.length_append, hk, hcount, hblocks, hpadding, hdigits,
    regroup_append (by norm_num) hbits, symbols_append, paddingOf_of_dvd (Nat.mul_mod_right _ _),
    List.append_nil, List.append_assoc]

end Encode

section Decode

theorem digits_append {xs : Bytes} (h : ∀ c ∈ xs, V.reads c = true) (ys : Bytes) :
    V.digits (xs ++ ys) = V.digits xs ++ V.digits ys := by
  have htake : xs.takeWhile V.reads = xs := List.takeWhile_eq_self_iff.2 h
  rw [CodecVariant.digits, List.takeWhile_append_of_pos h, List.filter_append, List.map_append,
    CodecVariant.digits, htake, CodecVariant.digits]

theorem decodeOutcome_append {xs : Bytes} (h : ∀ c ∈ xs, V.reads c = true)
    (hblocks : C.encodedBlockSize ∣ (V.digits xs).length) (ys : Bytes) :
    decodeOutcome C V w lengthError (xs ++ ys) = decodeOutcome C V w lengthError ys := by
  obtain ⟨k, hk⟩ := hblocks
  rw [decodeOutcome, decodeOutcome, digits_append h, List.dropWhile_append_of_pos h,
    List.length_append, hk, outcome, outcome, Nat.mul_add_mod]

theorem decodeOutcome_blocks {xs : Bytes} (h : ∀ c ∈ xs, V.reads c = true)
    (hblocks : C.encodedBlockSize ∣ (V.digits xs).length) :
    decodeOutcome C V w lengthError xs = .ok () := by
  have hdrop : xs.dropWhile V.reads = [] := List.dropWhile_eq_nil_iff.2 h
  rw [decodeOutcome, hdrop, outcome, Nat.mod_eq_zero_of_dvd hblocks]
  rfl

theorem written_ok (ds : List Nat) :
    written C w ds (.ok ()) = bytesOf (regroup w 8 (w * ds.length / 8) ds) := rfl

theorem written_error (ds : List Nat) (e : CodecFault) :
    written C w ds (.error e) = bytesOf (regroup w 8
      (C.binaryBlockSize * (ds.length / C.encodedBlockSize)) ds) := rfl

include hC

theorem decoded_append {xs : Bytes} (h : ∀ c ∈ xs, V.reads c = true)
    (hblocks : C.encodedBlockSize ∣ (V.digits xs).length) (ys : Bytes) :
    decoded C V w lengthError (xs ++ ys) =
      decoded C V w lengthError xs ++ decoded C V w lengthError ys := by
  have houtcome : decodeOutcome C V w lengthError (xs ++ ys) =
      decodeOutcome C V w lengthError ys := decodeOutcome_append h hblocks ys
  have hok : decodeOutcome C V w lengthError xs = .ok () := decodeOutcome_blocks h hblocks
  obtain ⟨k, hk⟩ := hblocks
  have hbits : w * (V.digits xs).length = 8 * (C.binaryBlockSize * k) := by
    rw [hk, ← Nat.mul_assoc, hC.block_bits, Nat.mul_assoc]
  have hbytes : w * (V.digits xs).length / 8 = C.binaryBlockSize * k := by
    rw [hbits, Nat.mul_div_cancel_left _ (by norm_num)]
  rw [decoded, decoded, decoded, houtcome, hok, digits_append h]
  rcases decodeOutcome C V w lengthError ys with e | _
  · have hwhole : C.binaryBlockSize *
        ((V.digits xs ++ V.digits ys).length / C.encodedBlockSize) =
        C.binaryBlockSize * k + C.binaryBlockSize * ((V.digits ys).length / C.encodedBlockSize) := by
      rw [List.length_append, hk, Nat.mul_add_div hC.encoded_pos, Nat.mul_add]
    rw [written_error, written_ok, written_error, hwhole, regroup_append hC.width_pos hbits,
      bytesOf_append, hbytes]
  · have hsum : w * (V.digits xs ++ V.digits ys).length / 8 =
        C.binaryBlockSize * k + w * (V.digits ys).length / 8 := by
      rw [List.length_append, Nat.mul_add, hbits, Nat.mul_add_div (by norm_num)]
    rw [written_ok, written_ok, written_ok, hsum, regroup_append hC.width_pos hbits,
      bytesOf_append, hbytes]

end Decode

section Skipped

theorem takeWhile_append_stop {p : UInt8 → Bool} (h : p c = false) (xs ys : Bytes) :
    (xs ++ c :: ys).takeWhile p = xs.takeWhile p := by
  induction xs with
  | nil => exact List.takeWhile_cons_of_neg (by rw [h]; exact Bool.false_ne_true)
  | cons x xs ih => rw [List.cons_append, List.takeWhile_cons, ih, List.takeWhile_cons]

theorem dropWhile_append_stop {p : UInt8 → Bool} (h : p c = false) (xs ys : Bytes) :
    (xs ++ c :: ys).dropWhile p = xs.dropWhile p ++ c :: ys := by
  induction xs with
  | nil => exact List.dropWhile_cons_of_neg (by rw [h]; exact Bool.false_ne_true)
  | cons x xs ih =>
    rw [List.cons_append, List.dropWhile_cons, ih, List.dropWhile_cons]
    split
    · rfl
    · rfl

theorem decode_eof {c : UInt8} (heof : V.lookup c = eofIdx) (hkeep : V.shouldIgnore c = false)
    (text junk : Bytes) :
    decodeOutcome C V w lengthError (text ++ c :: junk) = decodeOutcome C V w lengthError text ∧
      decoded C V w lengthError (text ++ c :: junk) = decoded C V w lengthError text := by
  have hreads : V.reads c = false := by
    rw [CodecVariant.reads, heof, hkeep]
    rfl
  have hdigits : V.digits (text ++ c :: junk) = V.digits text := by
    rw [CodecVariant.digits, takeWhile_append_stop hreads, CodecVariant.digits]
  have hend (rest : Bytes) : V.untilEof (rest ++ c :: junk) = V.untilEof rest :=
    takeWhile_append_stop (by simpa using heof) rest junk
  have houtcome : decodeOutcome C V w lengthError (text ++ c :: junk) =
      decodeOutcome C V w lengthError text := by
    rw [decodeOutcome, decodeOutcome, hdigits, dropWhile_append_stop hreads, outcome, hend, outcome]
  exact ⟨houtcome, by rw [decoded, houtcome, hdigits, decoded]⟩

theorem takeWhile_filter (text : Bytes) :
    (text.filter fun c => !V.shouldIgnore c).takeWhile V.reads =
        (text.takeWhile V.reads).filter (fun c => !V.shouldIgnore c) ∧
      (text.filter fun c => !V.shouldIgnore c).dropWhile V.reads =
        (text.dropWhile V.reads).filter fun c => !V.shouldIgnore c := by
  induction text with
  | nil => exact ⟨rfl, rfl⟩
  | cons c text ih =>
    obtain ⟨htake, hdrop⟩ := ih
    cases hignore : V.shouldIgnore c with
    | true =>
      have hreads : V.reads c = true := by rw [CodecVariant.reads, hignore, Bool.true_or]
      have hskip (src : Bytes) : (c :: src).filter (fun c => !V.shouldIgnore c) =
          src.filter fun c => !V.shouldIgnore c := List.filter_cons_of_neg (by simp [hignore])
      rw [hskip, List.takeWhile_cons_of_pos hreads, List.dropWhile_cons_of_pos hreads, hskip]
      exact ⟨htake, hdrop⟩
    | false =>
      have hkeep (src : Bytes) : (c :: src).filter (fun c => !V.shouldIgnore c) =
          c :: src.filter fun c => !V.shouldIgnore c := List.filter_cons_of_pos (by simp [hignore])
      cases hreads : V.reads c with
      | true =>
        rw [hkeep, List.takeWhile_cons_of_pos hreads, List.takeWhile_cons_of_pos hreads, hkeep,
          List.dropWhile_cons_of_pos hreads, List.dropWhile_cons_of_pos hreads, htake]
        exact ⟨rfl, hdrop⟩
      | false =>
        have hstop : ¬V.reads c = true := by rw [hreads]; exact Bool.false_ne_true
        rw [hkeep, List.takeWhile_cons_of_neg hstop, List.takeWhile_cons_of_neg hstop,
          List.dropWhile_cons_of_neg hstop, List.dropWhile_cons_of_neg hstop, hkeep]
        exact ⟨rfl, rfl⟩

theorem outcome_head (hV : LawfulVariant V w) (hw : w ≤ 8) (hpadding : ∀ c, V.lookup c ≠ paddingIdx)
    (hreads : V.reads c = false) (m : Nat) (xs ys : Bytes) :
    outcome C V w lengthError m (c :: xs) = outcome C V w lengthError m (c :: ys) := by
  rw [CodecVariant.reads, Bool.or_eq_false_iff, Bool.not_eq_false'] at hreads
  rcases lookup_cases hV c with hdigit | heof | hpad | hinvalid
  · have hread := isStopCharacter_of_lt (hdigit.trans_le (Nat.pow_le_pow_right two_pos hw))
    rw [hread] at hreads
    exact absurd hreads.2 Bool.false_ne_true
  · rw [outcome, untilEof_cons_eof heof, outcome, untilEof_cons_eof heof]
  · exact absurd hpad (hpadding c)
  · have hnot : V.lookup c ≠ eofIdx := by rw [hinvalid]; decide
    rw [outcome, untilEof_cons hnot, outcome, untilEof_cons hnot]
    dsimp only
    rw [if_pos hinvalid, if_pos hinvalid]

theorem decode_filter (hV : LawfulVariant V w) (hw : w ≤ 8)
    (hpadding : (∃ c, V.shouldIgnore c = true) → ∀ c, V.lookup c ≠ paddingIdx) (text : Bytes) :
    decodeOutcome C V w lengthError (text.filter fun c => !V.shouldIgnore c) =
        decodeOutcome C V w lengthError text ∧
      decoded C V w lengthError (text.filter fun c => !V.shouldIgnore c) =
        decoded C V w lengthError text := by
  obtain ⟨htake, hdrop⟩ := takeWhile_filter (V := V) text
  have hdigits : V.digits (text.filter fun c => !V.shouldIgnore c) = V.digits text := by
    rw [CodecVariant.digits, htake, List.filter_filter, CodecVariant.digits]
    simp only [Bool.and_self]
  have houtcome : decodeOutcome C V w lengthError (text.filter fun c => !V.shouldIgnore c) =
      decodeOutcome C V w lengthError text := by
    rw [decodeOutcome, decodeOutcome, hdigits, hdrop]
    by_cases hsome : ∃ c, V.shouldIgnore c = true
    · rcases hrest : text.dropWhile V.reads with _ | ⟨c, src⟩
      · rfl
      · have hreads := reads_of_dropWhile hrest
        have hkeep : V.shouldIgnore c = false := by
          rw [CodecVariant.reads, Bool.or_eq_false_iff] at hreads
          exact hreads.1
        rw [List.filter_cons_of_pos (by simp [hkeep])]
        exact outcome_head hV hw (hpadding hsome) hreads _ _ _
    · have hnone (c : UInt8) : (!V.shouldIgnore c) = true := by
        rw [Bool.not_eq_true', Bool.eq_false_iff]
        exact fun h => hsome ⟨c, h⟩
      rw [List.filter_eq_self.2 fun c _ => hnone c]
  exact ⟨houtcome, by rw [decoded, houtcome, hdigits, decoded]⟩

end Skipped

section Renamed

/-- How a text ends when `f` is applied to its symbols. -/
def renamed (f : UInt8 → UInt8) : Except CodecFault Unit → Except CodecFault Unit
  | .error (.symbolError c) => .error (.symbolError (f c))
  | result => result

variable {f : UInt8 → UInt8}

theorem renamed_tailOutcome (f : UInt8 → UInt8) (k : Nat) :
    renamed f (tailOutcome w lengthError k) = tailOutcome w lengthError k := by
  rw [tailOutcome]
  split_ifs
  · rfl
  · rfl

theorem decode_map (hlookup : ∀ c, V.lookup (f c) = V.lookup c)
    (hignore : ∀ c, V.shouldIgnore (f c) = V.shouldIgnore c) (text : Bytes) :
    decodeOutcome C V w lengthError (text.map f) =
        renamed f (decodeOutcome C V w lengthError text) ∧
      decoded C V w lengthError (text.map f) = decoded C V w lengthError text := by
  have hreads : V.reads ∘ f = V.reads := by
    funext c
    simp only [Function.comp_apply, CodecVariant.reads, hlookup, hignore]
  have hlookupf : V.lookup ∘ f = V.lookup := funext hlookup
  have hdigits : V.digits (text.map f) = V.digits text := by
    rw [CodecVariant.digits, List.takeWhile_map, hreads, List.filter_map, List.map_map, hlookupf,
      CodecVariant.digits]
    simp only [Function.comp_def, hignore]
  have hend (rest : Bytes) : V.untilEof (rest.map f) = (V.untilEof rest).map f := by
    rw [CodecVariant.untilEof, List.takeWhile_map, CodecVariant.untilEof]
    simp only [Function.comp_def, hlookup]
  have houtcome (m : Nat) (rest : Bytes) : outcome C V w lengthError m (rest.map f) =
      renamed f (outcome C V w lengthError m rest) := by
    rw [outcome, hend, outcome]
    rcases V.untilEof rest with _ | ⟨c, padding⟩
    · dsimp only [List.map_nil]
      split_ifs
      · rfl
      · rfl
      · exact (renamed_tailOutcome f _).symm
    · simp only [List.map_cons, hlookup, List.length_map, List.all_map, Function.comp_def]
      split_ifs
      · rfl
      · exact (renamed_tailOutcome f _).symm
      · rfl
  have hresult : decodeOutcome C V w lengthError (text.map f) =
      renamed f (decodeOutcome C V w lengthError text) := by
    rw [decodeOutcome, decodeOutcome, hdigits, List.dropWhile_map, hreads, houtcome]
  refine ⟨hresult, ?_⟩
  rw [decoded, hresult, hdigits, decoded]
  rcases decodeOutcome C V w lengthError text with e | _
  · cases e <;> rfl
  · rfl

end Renamed

namespace Codec

variable (K : Codec)

/-- Whole blocks can be encoded in a call of their own. -/
theorem encode_chunks {xs : Bytes} (h : K.block.binaryBlockSize ∣ xs.length) (ys : Bytes)
    (put : Sink ω) :
    encode K.block K.variant put (xs ++ ys) =
      encode K.block K.variant put xs >>= fun _ => encode K.block K.variant put ys := by
  rw [encode_eq K.lawfulBlock K.lawfulVariant, encode_eq K.lawfulBlock K.lawfulVariant,
    encode_eq K.lawfulBlock K.lawfulVariant, encoded_append K.lawfulBlock h, putAll_append]

theorem encode_chunks_base64 :
    encode base64 Cppcodec.base64Rfc4648 container.put ([1, 2, 3] ++ [4]) =
      encode base64 Cppcodec.base64Rfc4648 container.put [1, 2, 3] >>= fun _ =>
        encode base64 Cppcodec.base64Rfc4648 container.put [4] :=
  encode_chunks .base64Rfc4648 (by decide) [4] container.put

/-- Whole blocks of symbols can be decoded in a call of their own, also in front of a text that
fails. -/
theorem decode_chunks {xs : Bytes} (h : ∀ c ∈ xs, K.variant.reads c = true)
    (hblocks : K.block.encodedBlockSize ∣ (K.variant.digits xs).length) (ys : Bytes)
    (put : Sink ω) :
    decode K.block K.variant put (xs ++ ys) =
      decode K.block K.variant put xs >>= fun _ => decode K.block K.variant put ys := by
  have houtcome : K.outcome (xs ++ ys) = K.outcome ys := decodeOutcome_append h hblocks ys
  have hok : K.outcome xs = .ok () := decodeOutcome_blocks h hblocks
  have hdecoded : K.decoded (xs ++ ys) = K.decoded xs ++ K.decoded ys :=
    decoded_append K.lawfulBlock h hblocks ys
  rw [K.decode_put, K.decode_put, K.decode_put, houtcome, hok, hdecoded, putAll_append]
  simp only [bind_assoc, lift_ok_bind]

theorem decode_chunks_crockford :
    decode base32 Cppcodec.base32Crockford container.put
        (chars ['o', 'I', '2', '3', '-', '4', '5', '6', '7'] ++ chars ['8', '9']) =
      decode base32 Cppcodec.base32Crockford container.put
          (chars ['o', 'I', '2', '3', '-', '4', '5', '6', '7']) >>= fun _ =>
        decode base32 Cppcodec.base32Crockford container.put (chars ['8', '9']) :=
  decode_chunks .base32Crockford (by decide +kernel) (by decide +kernel) _ container.put

theorem lookup_nul : K.variant.lookup 0 = eofIdx ∧ K.variant.shouldIgnore 0 = false := by
  cases K <;> decide +kernel

/-- Only the dash of Crockford's base32 is ignored, and that variant has no padding. -/
theorem ignored_unpadded (h : ∃ c, K.variant.shouldIgnore c = true) (c : UInt8) :
    K.variant.lookup c ≠ paddingIdx := by
  intro hpad
  have hread := isPadding_lookup K.lawfulVariant K.lawfulBlock.width_le hpad
  have hallowed : K.variant.allowsPadding = false := by
    obtain ⟨d, hd⟩ := h
    cases K with
    | base32Crockford => decide +kernel
    | _ => cases hd
  rw [CodecVariant.isPadding, hallowed] at hread
  cases hread

/-- The decoder does the same without what is behind a NUL, and without ignored symbols. -/
theorem decode_skips (text junk : Bytes) (put : Sink ω) :
    decode K.block K.variant put (text ++ 0 :: junk) = decode K.block K.variant put text ∧
      decode K.block K.variant put (text.filter fun c => !K.variant.shouldIgnore c) =
        decode K.block K.variant put text := by
  obtain ⟨hnul, hkeep⟩ := K.lookup_nul
  obtain ⟨houtcome, hdecoded⟩ : K.outcome (text ++ 0 :: junk) = K.outcome text ∧
      K.decoded (text ++ 0 :: junk) = K.decoded text := decode_eof hnul hkeep text junk
  obtain ⟨houtcome', hdecoded'⟩ :
      K.outcome (text.filter fun c => !K.variant.shouldIgnore c) = K.outcome text ∧
        K.decoded (text.filter fun c => !K.variant.shouldIgnore c) = K.decoded text :=
    decode_filter K.lawfulVariant K.lawfulBlock.width_le K.ignored_unpadded text
  constructor
  · rw [K.decode_put, K.decode_put, houtcome, hdecoded]
  · rw [K.decode_put, K.decode_put, houtcome', hdecoded']

theorem normalized_twice (c : UInt8) :
    K.variant.normalizedSymbol (K.variant.normalizedSymbol c) = K.variant.normalizedSymbol c ∧
      K.variant.shouldIgnore (K.variant.normalizedSymbol c) = K.variant.shouldIgnore c := by
  have hall : ∀ n < 256,
      K.variant.normalizedSymbol (K.variant.normalizedSymbol (UInt8.ofNat n)) =
        K.variant.normalizedSymbol (UInt8.ofNat n) ∧
      K.variant.shouldIgnore (K.variant.normalizedSymbol (UInt8.ofNat n)) =
        K.variant.shouldIgnore (UInt8.ofNat n) := by
    cases K <;> decide +kernel
  have hc := hall c.toNat c.toNat_lt
  rwa [UInt8.ofNat_toNat] at hc

/-- A text and its normalized one are decoded alike, but an error names the symbol of its text. -/
theorem decode_normalized (text : Bytes) (put : Sink ω) :
    decode K.block K.variant put (text.map K.variant.normalizedSymbol) =
      putAll put (K.decoded text) >>= fun _ =>
        lift (renamed K.variant.normalizedSymbol (K.outcome text)) := by
  obtain ⟨houtcome, hdecoded⟩ : K.outcome (text.map K.variant.normalizedSymbol) =
        renamed K.variant.normalizedSymbol (K.outcome text) ∧
      K.decoded (text.map K.variant.normalizedSymbol) = K.decoded text :=
    decode_map (fun c => congrArg K.variant.indexOf (K.normalized_twice c).1)
      (fun c => (K.normalized_twice c).2) text
  rw [K.decode_put, houtcome, hdecoded]

end Codec

end Cppcodec
