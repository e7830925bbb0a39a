import MuchPIR.Cppcodec.DecodeLaw

namespace Cppcodec
open Prog Regroup
set_option autoImplicit true

section Digits

theorem bytesOf_digitsOf (b : Bytes) : bytesOf (digitsOf b) = b := by
  rw [bytesOf, digitsOf, List.map_map]
  exact (List.map_congr_left fun x _ => UInt8.ofNat_toNat).trans (List.map_id b)

theorem digitsOf_bytesOf (h : ∀ d ∈ ds, d < 2 ^ 8) : digitsOf (bytesOf ds) = ds := by
  rw [bytesOf, digitsOf, List.map_map]
  exact (List.map_congr_left fun d hd => UInt8.toNat_ofNat_of_lt (h d hd)).trans (List.map_id ds)

theorem length_bytesOf (ds : List Nat) : (bytesOf ds).length = ds.length := List.length_map _

end Digits

section Law

variable {C : BlockCodec} {V : CodecVariant} {w : Nat} {lengthError : Nat → String}
  (hC : LawfulBlock C w lengthError) (hV : LawfulVariant V w)

section Text

include hV

theorem reads_symbol (hw : w ≤ 8) (hd : d < 2 ^ w) : V.reads (V.alphabet.getD d 0) = true := by
  obtain ⟨hlookup, -⟩ := hV.symbol_read d hd
  have hlt : d < 256 := hd.trans_le (Nat.pow_le_pow_right two_pos hw)
  rw [CodecVariant.reads, hlookup, isStopCharacter_of_lt hlt, Bool.not_false, Bool.or_true]

theorem digits_symbols (hw : w ≤ 8) (hds : ∀ d ∈ ds, d < 2 ^ w)
    (hrest : ∀ c src, rest = c :: src → V.reads c = false) :
    V.digits (V.symbols ds ++ rest) = ds ∧ (V.symbols ds ++ rest).dropWhile V.reads = rest := by
  induction ds with
  | nil =>
    rcases rest with _ | ⟨c, src⟩
    · exact ⟨rfl, rfl⟩
    · have hstop := hrest c src rfl
      exact ⟨digits_cons_stop hstop, List.dropWhile_cons_of_neg (by rw [hstop]; exact Bool.false_ne_true)⟩
  | cons d ds ih =>
    have hd : d < 2 ^ w := hds d List.mem_cons_self
    obtain ⟨hlookup, hignore⟩ := hV.symbol_read d hd
    have hreads := reads_symbol hV hw hd
    have hstop : isStopCharacter (V.lookup (V.alphabet.getD d 0)) = false := by
      rw [hlookup]
      exact isStopCharacter_of_lt (hd.trans_le (Nat.pow_le_pow_right two_pos hw))
    obtain ⟨hdigits, hdrop⟩ := ih fun e he => hds e (List.mem_cons_of_mem _ he)
    change V.digits (V.alphabet.getD d 0 :: (V.symbols ds ++ rest)) = _ ∧
      (V.alphabet.getD d 0 :: (V.symbols ds ++ rest)).dropWhile V.reads = _
    rw [digits_cons_digit hignore hstop, hlookup, hdigits, List.dropWhile_cons_of_pos hreads]
    exact ⟨rfl, hdrop⟩

end Text

section Count

include hC

/-- The last block of the symbols that `n` bytes take. -/
theorem symbolCount_mod (n : Nat) :
    symbolCount w n % C.encodedBlockSize = symbolCount w (n % C.binaryBlockSize) := by
  have hdiv := Nat.div_add_mod n C.binaryBlockSize
  have hmod := Nat.mod_lt n C.binary_pos
  have hsum := symbolCount_add hC.width_pos hC.block_bits (n / C.binaryBlockSize)
    (n % C.binaryBlockSize)
  rw [hdiv] at hsum
  rw [hsum, Nat.mul_add_mod, Nat.mod_eq_of_lt]
  exact symbolCount_lt hC.width_pos hC.width_le hC.block_bits hmod

theorem tailOutcome_symbolCount (n : Nat) :
    tailOutcome w lengthError (symbolCount w n % C.encodedBlockSize) = .ok () := by
  rw [tailOutcome, symbolCount_mod hC, mul_symbolCount_div hC.width_pos hC.width_le, if_pos rfl]

end Count

section Padding

theorem paddingOf_none (h : V.paddingSymbol = none) (n : Nat) : paddingOf C V n = [] := by
  rw [paddingOf, h]
  rfl

theorem paddingOf_some (h : V.paddingSymbol = some c) (n : Nat) :
    paddingOf C V n = List.replicate
      ((C.encodedBlockSize - n % C.encodedBlockSize) % C.encodedBlockSize) c := by
  rw [paddingOf, h, Option.toList_some, List.flatMap_singleton]

include hV

theorem lookup_of_mem_paddingOf (h : c ∈ paddingOf C V n) :
    V.lookup c = paddingIdx ∧ V.shouldIgnore c = false := by
  cases hsymbol : V.paddingSymbol with
  | none =>
    rw [paddingOf_none hsymbol] at h
    exact absurd h List.not_mem_nil
  | some p =>
    rw [paddingOf_some hsymbol] at h
    rw [List.eq_of_mem_replicate h]
    exact hV.padding_read p hsymbol

theorem reads_paddingOf (h : c ∈ paddingOf C V n) : V.reads c = false := by
  obtain ⟨hlookup, hignore⟩ := lookup_of_mem_paddingOf hV h
  rw [CodecVariant.reads, hlookup, hignore]
  rfl

theorem untilEof_paddingOf (n : Nat) : V.untilEof (paddingOf C V n) = paddingOf C V n := by
  apply List.takeWhile_eq_self_iff.2
  intro c hc
  rw [(lookup_of_mem_paddingOf hV hc).1]
  rfl

end Padding

include hC hV

theorem outcome_encoded (n : Nat) :
    outcome C V w lengthError (symbolCount w n) (paddingOf C V (symbolCount w n)) = .ok () := by
  have htail := tailOutcome_symbolCount hC n
  have hmod := Nat.mod_lt (symbolCount w n) hC.encoded_pos
  rw [outcome, untilEof_paddingOf hV]
  cases hpadding : paddingOf C V (symbolCount w n) with
  | nil =>
    dsimp only
    split_ifs with hzero hrequires
    · rfl
    · -- padding that is required is generated
      obtain ⟨p, hsymbol⟩ := Option.isSome_iff_exists.1 (hV.requires_generates hrequires)
      have hmissing : (C.encodedBlockSize - symbolCount w n % C.encodedBlockSize) %
          C.encodedBlockSize = C.encodedBlockSize - symbolCount w n % C.encodedBlockSize :=
        Nat.mod_eq_of_lt (by omega)
      rw [paddingOf_some hsymbol, List.replicate_eq_nil_iff, hmissing] at hpadding
      omega
    · exact htail
  | cons c padding =>
    have hall (d : UInt8) (hd : d ∈ c :: padding) : V.lookup d = paddingIdx :=
      (lookup_of_mem_paddingOf hV (hpadding ▸ hd)).1
    have hcount : symbolCount w n % C.encodedBlockSize ≠ 0 := by
      intro hzero
      rw [paddingOf_of_dvd hzero] at hpadding
      cases hpadding
    have hpads : (padding.all fun c => V.isPadding (V.lookup c)) = true :=
      List.all_eq_true.2 fun d hd =>
        isPadding_lookup hV hC.width_le (hall d (List.mem_cons_of_mem _ hd))
    have hlength : symbolCount w n % C.encodedBlockSize + (padding.length + 1) =
        C.encodedBlockSize := by
      cases hsymbol : V.paddingSymbol with
      | none =>
        rw [paddingOf_none hsymbol] at hpadding
        cases hpadding
      | some p =>
        have hmissing : (C.encodedBlockSize - symbolCount w n % C.encodedBlockSize) %
            C.encodedBlockSize = C.encodedBlockSize - symbolCount w n % C.encodedBlockSize :=
          Nat.mod_eq_of_lt (by omega)
        rw [← List.length_cons (a := c), ← hpadding, paddingOf_some hsymbol, List.length_replicate,
          hmissing]
        omega
    dsimp only
    rw [hall c List.mem_cons_self, if_neg (by decide), if_pos ⟨hcount, hpads, hlength⟩, htail]

theorem digits_encoded (b : Bytes) :
    V.digits (encoded C V w b) = regroup 8 w (symbolCount w b.length) (digitsOf b) ∧
      (encoded C V w b).dropWhile V.reads = paddingOf C V (symbolCount w b.length) := by
  have hrest (c : UInt8) (src : Bytes)
      (h : paddingOf C V (symbolCount w b.length) = c :: src) : V.reads c = false :=
    reads_paddingOf (C := C) hV (h ▸ List.mem_cons_self)
  exact digits_symbols hV hC.width_le (fun d hd => regroup_lt hd) hrest

/-- The bytes come back from their text. -/
theorem decoded_encoded (b : Bytes) :
    decodeOutcome C V w lengthError (encoded C V w b) = .ok () ∧
      decoded C V w lengthError (encoded C V w b) = b := by
  obtain ⟨hread, hdrop⟩ := digits_encoded hC hV b
  have hok : decodeOutcome C V w lengthError (encoded C V w b) = .ok () := by
    rw [decodeOutcome, hread, hdrop, length_regroup]
    exact outcome_encoded hC hV b.length
  refine ⟨hok, ?_⟩
  have hbytes (d : Nat) (hd : d ∈ digitsOf b) : d < 2 ^ 8 := by
    obtain ⟨x, -, rfl⟩ := List.mem_map.1 hd
    exact x.toNat_lt
  have hback := regroup_regroup hbytes (w := w) (n := symbolCount w b.length)
    (by rw [length_digitsOf]; exact (symbolCount_spec hC.width_pos _).1)
  rw [length_digitsOf] at hback
  rw [decoded, hok, written, hread, length_regroup,
    mul_symbolCount_div hC.width_pos hC.width_le, hback, bytesOf_digitsOf]

omit hC hV

theorem reads_of_dropWhile {text : Bytes} (h : text.dropWhile V.reads = c :: src) :
    V.reads c = false := by
  have hnot := List.head?_dropWhile_not V.reads text
  rw [h] at hnot
  exact hnot

include hC in
/-- The decoder fails on the padding, at a symbol that nothing stands for, or on the symbols of the
last block. -/
theorem decodeOutcome_error {text : Bytes}
    (h : decodeOutcome C V w lengthError text = .error e) :
    e = .paddingError ∨
      (∃ symbols c rest, text = symbols ++ c :: rest ∧ (∀ d ∈ symbols, V.reads d = true) ∧
        V.reads c = false ∧ V.lookup c = invalidIdx ∧ e = .symbolError c) ∨
      ∃ k < C.encodedBlockSize, (∀ n, symbolCount w n ≠ k) ∧
        e = .invalidInputLength (lengthError k) := by
  have htail (k : Nat) (hk : k < C.encodedBlockSize) (h : tailOutcome w lengthError k = .error e) :
      ∃ k < C.encodedBlockSize, (∀ n, symbolCount w n ≠ k) ∧
        e = .invalidInputLength (lengthError k) := by
    rw [tailOutcome] at h
    split_ifs at h with hcount
    refine ⟨k, hk, fun n hn => hcount ?_, (Except.error.inj h).symm⟩
    rw [← hn, mul_symbolCount_div hC.width_pos hC.width_le]
  have hmod := Nat.mod_lt (V.digits text).length hC.encoded_pos
  rw [decodeOutcome, outcome] at h
  rcases hrest : V.untilEof (text.dropWhile V.reads) with _ | ⟨c, padding⟩
  · rw [hrest] at h
    dsimp only at h
    split_ifs at h
    · exact Or.inl (Except.error.inj h).symm
    · exact Or.inr (Or.inr (htail _ hmod h))
  · rw [hrest] at h
    dsimp only at h
    split_ifs at h with hinvalid hfull
    · obtain ⟨src, hdrop⟩ : ∃ src, text.dropWhile V.reads = c :: src := by
        obtain ⟨src, hsrc⟩ := List.takeWhile_prefix (l := text.dropWhile V.reads)
          (p := fun c => decide (V.lookup c ≠ eofIdx))
        exact ⟨padding ++ src, by rw [← hsrc, ← List.cons_append, ← hrest]; rfl⟩
      refine Or.inr (Or.inl ⟨text.takeWhile V.reads, c, src, ?_, ?_,
        reads_of_dropWhile hdrop, hinvalid, (Except.error.inj h).symm⟩)
      · rw [← hdrop, List.takeWhile_append_dropWhile]
      · exact fun d hd => List.mem_takeWhile_imp hd
    · exact Or.inr (Or.inr (htail _ hmod h))
    · exact Or.inl (Except.error.inj h).symm

end Law

namespace Codec

variable (K : Codec)

def encoded (b : Bytes) : Bytes := Cppcodec.encoded K.block K.variant K.width b

def outcome (text : Bytes) : Except CodecFault Unit :=
  decodeOutcome K.block K.variant K.width K.lengthError text

def decoded (text : Bytes) : Bytes :=
  Cppcodec.decoded K.block K.variant K.width K.lengthError text

theorem decode_put (text : Bytes) (put : Sink ω) : decode K.block K.variant put text =
    putAll put (K.decoded text) >>= fun _ => lift (K.outcome text) :=
  decode_eq K.lawfulBlock K.lawfulVariant put text

/-- What the decoder does with a text, for any result, and the errors it ends with. -/
theorem decode_outcome (text : Bytes) :
    (∀ {ω : Type} (put : Sink ω), decode K.block K.variant put text =
      putAll put (K.decoded text) >>= fun _ => lift (K.outcome text)) ∧
    ∀ e, K.outcome text = .error e → e = .paddingError ∨
      (∃ symbols c rest, text = symbols ++ c :: rest ∧
        (∀ d ∈ symbols, K.variant.reads d = true) ∧ K.variant.reads c = false ∧
        K.variant.lookup c = invalidIdx ∧ e = .symbolError c) ∨
      ∃ k < K.block.encodedBlockSize, (∀ n, symbolCount K.width n ≠ k) ∧
        e = .invalidInputLength (K.lengthError k) := by
  exact ⟨fun put => K.decode_put text put, fun e he => decodeOutcome_error K.lawfulBlock he⟩

/-- There is one text that the encoder writes into any result, and from it the decoder writes the
bytes into any result. -/
theorem decode_encode (b : Bytes) : ∃ text,
    (∀ {ω : Type} (put : Sink ω), encode K.block K.variant put b = putAll put text) ∧
      ∀ {ω : Type} (put : Sink ω), decode K.block K.variant put text = putAll put b := by
  obtain ⟨houtcome, hdecoded⟩ := decoded_encoded K.lawfulBlock K.lawfulVariant b
  refine ⟨K.encoded b, fun put => encode_eq K.lawfulBlock K.lawfulVariant put b, fun put => ?_⟩
  rw [encoded, decode_eq K.lawfulBlock K.lawfulVariant put, houtcome, hdecoded]
  exact bind_pure_unit

end Codec

end Cppcodec
