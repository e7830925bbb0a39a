import Mathlib.Data.List.TakeWhile
import MuchPIR.Cppcodec.EncodeLaw

namespace Cppcodec
open Prog Regroup
set_option autoImplicit true

section Reading

variable (C : BlockCodec) (V : CodecVariant) (w : Nat) (lengthError : Nat → String)

/-- The decoder goes on behind `c`. -/
def CodecVariant.reads (c : UInt8) : Bool := V.shouldIgnore c || !isStopCharacter (V.lookup c)

/-- The digits in front of the first stop character. -/
def CodecVariant.digits (text : Bytes) : List Nat :=
  ((text.takeWhile V.reads).filter fun c => !V.shouldIgnore c).map V.lookup

def CodecVariant.untilEof (text : Bytes) : Bytes := text.takeWhile fun c => V.lookup c ≠ eofIdx

/-- A last block of `k` symbols is read when they are as many as some bytes take. -/
def tailOutcome (k : Nat) : Except CodecFault Unit :=
  if symbolCount w (w * k / 8) = k then .ok () else .error (.invalidInputLength (lengthError k))

/-- How a text of `m` digits ends, of which `rest` comes behind the digits. -/
def outcome (m : Nat) (rest : Bytes) : Except CodecFault Unit :=
  let k := m % C.encodedBlockSize
  match V.untilEof rest with
  | [] =>
    if k = 0 then .ok ()
    else if V.requiresPadding then .error .paddingError
    else tailOutcome w lengthError k
  | c :: padding =>
    if V.lookup c = invalidIdx then .error (.symbolError c)
    else if k ≠ 0 ∧ (padding.all fun c => V.isPadding (V.lookup c)) ∧
        k + (padding.length + 1) = C.encodedBlockSize then tailOutcome w lengthError k
    else .error .paddingError

/-- The bytes of the digits: all of them where the text is read, else those of the whole blocks. -/
def written (ds : List Nat) : Except CodecFault Unit → Bytes
  | .ok () => bytesOf (regroup w 8 (w * ds.length / 8) ds)
  | .error _ => bytesOf (regroup w 8
      (C.binaryBlockSize * (ds.length / C.encodedBlockSize)) ds)

def decodeOutcome (text : Bytes) : Except CodecFault Unit :=
  outcome C V w lengthError (V.digits text).length (text.dropWhile V.reads)

/-- What the decoder puts. -/
def decoded (text : Bytes) : Bytes :=
  written C w (V.digits text) (decodeOutcome C V w lengthError text)

end Reading

section Symbols

variable {C : BlockCodec} {V : CodecVariant} {w : Nat} {lengthError : Nat → String}

theorem digits_nil : V.digits [] = [] := rfl

theorem digits_cons_ignored (h : V.shouldIgnore c = true) : V.digits (c :: src) = V.digits src := by
  have hreads : V.reads c = true := by rw [CodecVariant.reads, h, Bool.true_or]
  rw [CodecVariant.digits, List.takeWhile_cons_of_pos hreads, List.filter_cons_of_neg (by simp [h])]
  rfl

theorem digits_cons_digit (h : V.shouldIgnore c = false)
    (hstop : isStopCharacter (V.lookup c) = false) :
    V.digits (c :: src) = V.lookup c :: V.digits src := by
  have hreads : V.reads c = true := by rw [CodecVariant.reads, hstop, Bool.not_false, Bool.or_true]
  rw [CodecVariant.digits, List.takeWhile_cons_of_pos hreads, List.filter_cons_of_pos (by simp [h])]
  rfl

theorem digits_cons_stop (h : V.reads c = false) : V.digits (c :: src) = [] := by
  rw [CodecVariant.digits, List.takeWhile_cons_of_neg (by simp [h])]
  rfl

theorem lookup_lt_of_not_stop (hV : LawfulVariant V w) (h : isStopCharacter (V.lookup c) = false) :
    V.lookup c < 2 ^ w := by
  rcases lookup_cases hV c with hlt | heof | hpad | hinvalid
  · exact hlt
  · rw [heof] at h
    exact absurd h (by decide)
  · rw [hpad] at h
    exact absurd h (by decide)
  · rw [hinvalid] at h
    exact absurd h (by decide)

theorem digits_lt (hV : LawfulVariant V w) (h : d ∈ V.digits text) : d < 2 ^ w := by
  obtain ⟨c, hc, rfl⟩ := List.mem_map.1 h
  obtain ⟨hmem, hkeep⟩ := List.mem_filter.1 hc
  have hreads : V.reads c = true := List.mem_takeWhile_imp hmem
  have hignore : V.shouldIgnore c = false := by simpa using hkeep
  rw [CodecVariant.reads, hignore, Bool.false_or] at hreads
  exact lookup_lt_of_not_stop hV (by simpa using hreads)

end Symbols

section Blocks

variable {C : BlockCodec} {V : CodecVariant} {w : Nat} {lengthError : Nat → String}

/-- The bytes of the whole blocks of a list of digits. -/
def wholeBytes (C : BlockCodec) (w : Nat) (ds : List Nat) : Bytes :=
  bytesOf (regroup w 8 (C.binaryBlockSize * (ds.length / C.encodedBlockSize)) ds)

def remaining (C : BlockCodec) (ds : List Nat) : List Nat :=
  ds.drop (C.encodedBlockSize * (ds.length / C.encodedBlockSize))

theorem wholeBytes_of_lt (h : ds.length < C.encodedBlockSize) : wholeBytes C w ds = [] := by
  rw [wholeBytes, Nat.div_eq_of_lt h]
  rfl

theorem remaining_of_lt (h : ds.length < C.encodedBlockSize) : remaining C ds = ds := by
  rw [remaining, Nat.div_eq_of_lt h]
  rfl

theorem bytesOf_append (xs ys : List Nat) : bytesOf (xs ++ ys) = bytesOf xs ++ bytesOf ys :=
  List.map_append

theorem wholeBytes_block (hC : LawfulBlock C w lengthError) (h : ds.length = C.encodedBlockSize)
    (es : List Nat) :
    wholeBytes C w (ds ++ es) =
      bytesOf (regroup w 8 C.binaryBlockSize ds) ++ wholeBytes C w es := by
  have hdiv : (ds ++ es).length / C.encodedBlockSize = es.length / C.encodedBlockSize + 1 := by
    rw [List.length_append, h, Nat.add_comm, Nat.add_div_right _ hC.encoded_pos]
  have hbits : w * ds.length = 8 * C.binaryBlockSize := by rw [h, hC.block_bits]
  rw [wholeBytes, hdiv, Nat.mul_succ, Nat.add_comm, regroup_append hC.width_pos hbits,
    bytesOf_append, wholeBytes]

theorem remaining_block (hC : LawfulBlock C w lengthError) (h : ds.length = C.encodedBlockSize)
    (es : List Nat) : remaining C (ds ++ es) = remaining C es := by
  have hdiv : (ds ++ es).length / C.encodedBlockSize = es.length / C.encodedBlockSize + 1 := by
    rw [List.length_append, h, Nat.add_comm, Nat.add_div_right _ hC.encoded_pos]
  rw [remaining, hdiv, Nat.mul_succ, Nat.add_comm, ← h, List.drop_length_add_append, remaining, h]

theorem length_remaining (C : BlockCodec) (ds : List Nat) :
    (remaining C ds).length = ds.length % C.encodedBlockSize := by
  have hdiv := Nat.div_add_mod ds.length C.encodedBlockSize
  rw [remaining, List.length_drop]
  omega

end Blocks

section ReadSymbols

variable {C : BlockCodec} {V : CodecVariant} {w : Nat} {lengthError : Nat → String}
  (hC : LawfulBlock C w lengthError) (hV : LawfulVariant V w) (put : Sink ω)

/-- The array of indices in front of a symbol: `ds` are the digits of the unfinished block, and no
index stands for padding or an invalid symbol. -/
structure Slots (C : BlockCodec) (w : Nat) (idx ds : List Nat) : Prop where
  length_eq : idx.length = C.encodedBlockSize
  lt_block : ds.length < C.encodedBlockSize
  take_eq : idx.take ds.length = ds
  digit_lt : ∀ d ∈ ds, d < 2 ^ w
  calm : ∀ d ∈ idx, d ≠ paddingIdx ∧ d ≠ invalidIdx

/-- The array behind the symbols: the slot at the pointer has the stop character, where there is
one. -/
structure Stopped (C : BlockCodec) (V : CodecVariant) (rest : Bytes) (idx ds : List Nat) :
    Prop where
  length_eq : idx.length = C.encodedBlockSize
  lt_block : ds.length < C.encodedBlockSize
  take_eq : idx.take ds.length = ds
  stop : ∀ c src, rest = c :: src → idx.getD ds.length 0 = V.lookup c ∧
    isStopCharacter (V.lookup c) = true
  calm : rest = [] → idx.getD ds.length 0 ≠ paddingIdx ∧ idx.getD ds.length 0 ≠ invalidIdx

theorem take_set_append {idx ds : List Nat} (h : idx.take ds.length = ds)
    (hlt : ds.length < idx.length) (d : Nat) :
    (idx.set ds.length d).take (ds.length + 1) = ds ++ [d] := by
  have hset : ds.length < (idx.set ds.length d).length := by rwa [List.length_set]
  rw [← List.take_append_getElem hset, List.take_set_of_le le_rfl, h, List.getElem_set_self]

theorem calm_set {idx : List Nat} (h : ∀ d ∈ idx, d ≠ paddingIdx ∧ d ≠ invalidIdx) (hd : d < 256)
    (k : Nat) : ∀ e ∈ idx.set k d, e ≠ paddingIdx ∧ e ≠ invalidIdx := by
  intro e he
  rcases List.mem_or_eq_of_mem_set he with he | rfl
  · exact h e he
  · simp only [paddingIdx, invalidIdx]
    omega

theorem Slots.push (h : Slots C w idx ds) (hd : d < 2 ^ w) (hw : w ≤ 8)
    (hlt : ds.length + 1 < C.encodedBlockSize) :
    Slots C w (idx.set ds.length d) (ds ++ [d]) where
  length_eq := by rw [List.length_set, h.length_eq]
  lt_block := by rwa [List.length_append, List.length_singleton]
  take_eq := by
    rw [List.length_append, List.length_singleton]
    exact take_set_append h.take_eq (by rw [h.length_eq]; exact h.lt_block) d
  digit_lt e he := by
    rcases List.mem_append.1 he with he | he
    · exact h.digit_lt e he
    · rwa [List.mem_singleton.1 he]
  calm := calm_set h.calm (hd.trans_le (Nat.pow_le_pow_right two_pos hw)) _

theorem slot_set {idx : List Nat} (h : k < idx.length) (d : Nat) :
    (slot (idx.set k d) k : Prog ω CodecFault Nat) = pure d := by
  have hlen : k < (idx.set k d).length := by rwa [List.length_set]
  rw [slot_eq hlen, List.getD_eq_getElem _ _ hlen, List.getElem_set_self]

include hC hV in
/-- The loop puts the bytes of the whole blocks, and keeps the digits behind them in the array. -/
theorem readSymbols_eq (h : Slots C w idx ds) (src : Bytes) :
    ∃ idx', Stopped C V (src.dropWhile V.reads) idx' (remaining C (ds ++ V.digits src)) ∧
      readSymbols C V put src idx ds.length =
        putAll put (wholeBytes C w (ds ++ V.digits src)) >>= fun _ =>
          pure (src.dropWhile V.reads, idx', (remaining C (ds ++ V.digits src)).length) := by
  induction src generalizing idx ds with
  | nil =>
    have hlt := h.lt_block
    rw [digits_nil, List.append_nil, wholeBytes_of_lt hlt, remaining_of_lt hlt]
    refine ⟨idx, ⟨h.length_eq, hlt, h.take_eq, fun c src hnil => absurd hnil (List.cons_ne_nil c src).symm,
      fun _ => ?_⟩, rfl⟩
    rw [List.getD_eq_getElem _ _ (by rw [h.length_eq]; exact hlt)]
    exact h.calm _ (List.getElem_mem _)
  | cons c src ih =>
    have hlt := h.lt_block
    have hslot : ds.length < idx.length := by rw [h.length_eq]; exact hlt
    rw [readSymbols]
    cases hignore : V.shouldIgnore c with
    | true =>
      have hreads : V.reads c = true := by rw [CodecVariant.reads, hignore, Bool.true_or]
      rw [digits_cons_ignored hignore, List.dropWhile_cons_of_pos hreads, if_pos rfl]
      exact ih h
    | false =>
      rw [if_neg Bool.false_ne_true]
      dsimp only
      rw [slot_set hslot, pure_bind]
      cases hstop : isStopCharacter (V.lookup c) with
      | true =>
        have hreads : V.reads c = false := by rw [CodecVariant.reads, hignore, hstop]; rfl
        rw [if_pos rfl, digits_cons_stop hreads, List.append_nil, wholeBytes_of_lt hlt,
          remaining_of_lt hlt, List.dropWhile_cons_of_neg (by rw [hreads]; exact Bool.false_ne_true)]
        refine ⟨_, ⟨?_, hlt, ?_, fun c' src' heq => ?_, fun hnil => nomatch hnil⟩, rfl⟩
        · rw [List.length_set, h.length_eq]
        · rw [List.take_set_of_le le_rfl, h.take_eq]
        · cases heq
          refine ⟨?_, hstop⟩
          rw [List.getD_eq_getElem _ _ (by rwa [List.length_set]), List.getElem_set_self]
      | false =>
        have hreads : V.reads c = true := by rw [CodecVariant.reads, hignore, hstop]; rfl
        have hd : V.lookup c < 2 ^ w := lookup_lt_of_not_stop hV hstop
        have hlength : (ds ++ [V.lookup c]).length = ds.length + 1 := List.length_append
        rw [if_neg Bool.false_ne_true, digits_cons_digit hignore hstop,
          List.dropWhile_cons_of_pos hreads, List.append_cons]
        split
        · next hfull =>
          -- a block is full: its bytes are put, and the next one begins
          have hblock : idx.set ds.length (V.lookup c) = ds ++ [V.lookup c] := by
            have htake := take_set_append h.take_eq hslot (V.lookup c)
            rwa [List.take_of_length_le (by rw [List.length_set, h.length_eq, hfull])] at htake
          have hlt' : ∀ d ∈ idx.set ds.length (V.lookup c), d < 2 ^ w := by
            rw [hblock]
            intro d hd'
            rcases List.mem_append.1 hd' with hd' | hd'
            · exact h.digit_lt d hd'
            · rwa [List.mem_singleton.1 hd']
          have hnext : Slots C w (idx.set ds.length (V.lookup c)) [] := by
            refine ⟨by rw [List.length_set, h.length_eq], hC.encoded_pos, rfl, ?_, ?_⟩
            · exact fun d hd' => absurd hd' List.not_mem_nil
            · exact calm_set h.calm (hd.trans_le (Nat.pow_le_pow_right two_pos hC.width_le)) _
          obtain ⟨idx', hstopped, hrun⟩ := ih hnext
          rw [List.nil_append] at hstopped hrun
          have hB : (ds ++ [V.lookup c]).length = C.encodedBlockSize := hlength.trans hfull
          rw [remaining_block hC hB, wholeBytes_block hC hB]
          refine ⟨idx', hstopped, ?_⟩
          rw [List.length_nil] at hrun
          rw [hC.decodeBlock_eq put (by rw [List.length_set, h.length_eq]) hlt', hrun, hblock,
            putAll_append, bind_assoc]
        · next hmore =>
          have hlt' : ds.length + 1 < C.encodedBlockSize := by omega
          have hnext := h.push hd hC.width_le hlt'
          rw [← hlength]
          exact ih hnext

include hC in
theorem decodeTail_eq (h : Stopped C V rest idx ds) (hpos : 0 < ds.length) :
    C.decodeTail put idx ds.length =
      match tailOutcome w lengthError ds.length with
      | .ok () => putAll put (bytesOf (regroup w 8 (w * ds.length / 8) ds))
      | .error e => Prog.throw e := by
  have hlt := h.lt_block
  have hw := hC.width_pos
  have hle := hC.width_le
  rw [tailOutcome]
  split_ifs with hcount
  · have hbytes : 0 < w * ds.length / 8 := by
      apply Nat.pos_of_ne_zero
      intro hzero
      rw [hzero, symbolCount_zero hw] at hcount
      omega
    have hbound : w * ds.length / 8 < C.binaryBlockSize := by
      have hmul := Nat.mul_lt_mul_of_pos_left hlt hw
      rw [hC.block_bits] at hmul
      omega
    have htail := hC.decodeTail_eq put h.length_eq hbytes hbound
    rw [hcount] at htail
    rw [htail, ← regroup_take (Nat.mul_div_le _ _), h.take_eq]
  · apply hC.decodeTail_throws put idx hpos hlt
    intro n _ _ hn
    apply hcount
    rw [← hn, mul_symbolCount_div hw hle]

end ReadSymbols

section ReadPadding

variable {C : BlockCodec} {V : CodecVariant}

theorem untilEof_cons_eof (h : V.lookup c = eofIdx) : V.untilEof (c :: src) = [] :=
  List.takeWhile_cons_of_neg (by simpa using h)

theorem untilEof_cons (h : V.lookup c ≠ eofIdx) :
    V.untilEof (c :: src) = c :: V.untilEof src := List.takeWhile_cons_of_pos (by simpa using h)

theorem set_getD {idx : List Nat} (h : ptr < idx.length) (hd : idx.getD ptr 0 = d) :
    idx.set ptr d = idx := by
  rw [← hd, List.getD_eq_getElem _ _ h, List.set_getElem_self]

theorem readPadding_eq {idx : List Nat} (hptr : ptr < idx.length)
    (hpad : idx.getD ptr 0 = paddingIdx) (hlast : last ≤ C.encodedBlockSize) (src : Bytes) :
    readPadding C V ptr src idx last =
      if ((V.untilEof src).all fun c => V.isPadding (V.lookup c)) ∧
        last + (V.untilEof src).length ≤ C.encodedBlockSize
      then (pure (idx, last + (V.untilEof src).length) : Prog ω CodecFault (List Nat × Nat))
      else Prog.throw .paddingError := by
  induction src generalizing last with
  | nil =>
    rw [if_pos ⟨rfl, hlast⟩]
    rfl
  | cons c src ih =>
    rw [readPadding, slot_set hptr, pure_bind, List.set_set, set_getD hptr hpad]
    by_cases heof : V.lookup c = eofIdx
    · rw [if_pos heof, untilEof_cons_eof heof, if_pos ⟨rfl, hlast⟩]
      rfl
    · rw [if_neg heof, untilEof_cons heof, List.all_cons, List.length_cons]
      cases hc : V.isPadding (V.lookup c) with
      | false =>
        rw [if_pos Bool.false_ne_true, Bool.false_and, if_neg fun h => Bool.false_ne_true h.1]
      | true =>
        rw [if_neg (not_not.2 rfl), Bool.true_and, eq_of_isPadding hc, set_getD hptr hpad]
        by_cases hfull : C.encodedBlockSize < last + 1
        · rw [if_pos hfull, if_neg (by omega)]
        · have hsum : last + 1 + (V.untilEof src).length =
              last + ((V.untilEof src).length + 1) := by omega
          rw [if_neg hfull, ih (by omega), hsum]

end ReadPadding

section Decode

variable {C : BlockCodec} {V : CodecVariant} {w : Nat} {lengthError : Nat → String}
  (hC : LawfulBlock C w lengthError) (hV : LawfulVariant V w) (put : Sink ω)

include hC in
theorem bytes_split (ds : List Nat) :
    bytesOf (regroup w 8 (w * ds.length / 8) ds) = wholeBytes C w ds ++
      bytesOf (regroup w 8 (w * (remaining C ds).length / 8) (remaining C ds)) := by
  have hdiv := Nat.div_add_mod ds.length C.encodedBlockSize
  have hbits : w * (C.encodedBlockSize * (ds.length / C.encodedBlockSize)) =
      8 * (C.binaryBlockSize * (ds.length / C.encodedBlockSize)) := by
    rw [← mul_assoc, hC.block_bits, mul_assoc]
  have hcount : w * ds.length / 8 = C.binaryBlockSize * (ds.length / C.encodedBlockSize) +
      w * (remaining C ds).length / 8 := by
    rw [length_remaining, ← Nat.mul_add_div (by norm_num) , ← hbits, ← Nat.mul_add, hdiv]
  rw [hcount, regroup_split hC.width_pos (by omega) hbits, bytesOf_append]
  rfl

/-- How a text ends, as a program. -/
def finish (w : Nat) (put : Sink ω) (ds : List Nat) : Except CodecFault Unit → Prog ω CodecFault Unit
  | .ok () => putAll put (bytesOf (regroup w 8 (w * ds.length / 8) ds))
  | .error e => Prog.throw e

theorem finish_nil (w : Nat) (put : Sink ω) : finish w put [] (.ok ()) = pure () := by
  rw [finish, List.length_nil, Nat.mul_zero]
  rfl

include hC in
/-- The text ends with its symbols. -/
theorem decodeRest_end (h : Stopped C V rest idx ds) (hmod : m % C.encodedBlockSize = ds.length)
    (hcalm : idx.getD ds.length 0 ≠ paddingIdx ∧ idx.getD ds.length 0 ≠ invalidIdx)
    (hend : V.untilEof rest = []) :
    decodeRest C V put rest idx ds.length =
      finish w put ds (outcome C V w lengthError m rest) := by
  have hslot : ds.length < idx.length := by rw [h.length_eq]; exact h.lt_block
  have hpad : V.isPadding (idx.getD ds.length 0) = false :=
    Bool.eq_false_iff.2 fun hp => hcalm.1 (eq_of_isPadding hp)
  have hlt := h.lt_block
  rw [decodeRest, slot_eq hslot, pure_bind, if_neg hcalm.2, hpad, if_neg Bool.false_ne_true,
    pure_bind, outcome, hend, hmod]
  dsimp only
  rcases Nat.eq_zero_or_pos ds.length with hzero | hpos
  · rw [if_pos hzero, if_pos hzero, List.length_eq_zero_iff.1 hzero, finish_nil]
  · rw [if_neg hpos.ne', if_neg hpos.ne', slot_eq hslot, pure_bind, hpad]
    cases hreq : V.requiresPadding with
    | true =>
      rw [if_pos ⟨Or.inl rfl, hlt.ne⟩, if_pos rfl]
      rfl
    | false =>
      rw [if_neg (by simp), if_neg (by omega), if_neg Bool.false_ne_true]
      exact decodeTail_eq hC put h hpos

include hC hV

theorem decodeRest_eq (h : Stopped C V rest idx ds) (hmod : m % C.encodedBlockSize = ds.length) :
    decodeRest C V put rest idx ds.length =
      finish w put ds (outcome C V w lengthError m rest) := by
  have hslot : ds.length < idx.length := by rw [h.length_eq]; exact h.lt_block
  have hlt := h.lt_block
  rcases rest with _ | ⟨c, src⟩
  · exact decodeRest_end hC put h hmod (h.calm rfl) rfl
  · obtain ⟨hc, hstop⟩ := h.stop c src rfl
    rcases lookup_cases hV c with hdigit | heof | hpad | hinvalid
    · have hbyte : V.lookup c < 256 :=
        hdigit.trans_le (Nat.pow_le_pow_right two_pos hC.width_le)
      rw [isStopCharacter_of_lt hbyte] at hstop
      cases hstop
    · apply decodeRest_end hC put h hmod _ (untilEof_cons_eof heof)
      rw [hc, heof]
      decide
    · have hread : V.isPadding (V.lookup c) = true := isPadding_lookup hV hC.width_le hpad
      have heof : V.lookup c ≠ eofIdx := by rw [hpad]; decide
      have hinvalid : V.lookup c ≠ invalidIdx := by rw [hpad]; decide
      rw [decodeRest, slot_eq hslot, pure_bind, hc, if_neg hinvalid, if_pos hread, outcome,
        untilEof_cons heof, hmod]
      dsimp only
      rw [if_neg hinvalid]
      rcases Nat.eq_zero_or_pos ds.length with hzero | hpos
      · rw [if_pos hzero, if_neg (by omega)]
        rfl
      · have hpadding := readPadding_eq (ω := ω) (C := C) (V := V) hslot (hc.trans hpad)
          (Nat.succ_le_of_lt hlt) src
        rw [if_neg hpos.ne', List.drop_one, List.tail_cons, hpadding]
        by_cases hfits : ((V.untilEof src).all fun c => V.isPadding (V.lookup c)) = true ∧
            ds.length + 1 + (V.untilEof src).length ≤ C.encodedBlockSize
        · have hpadded : V.requiresPadding = true ∨ V.isPadding (idx.getD ds.length 0) = true :=
            Or.inr (by rwa [hc])
          rw [if_pos hfits, pure_bind]
          dsimp only
          rw [if_neg (by omega), slot_eq hslot, pure_bind]
          by_cases hfull : ds.length + 1 + (V.untilEof src).length = C.encodedBlockSize
          · rw [if_neg fun hne => hne.2 hfull, if_neg (by omega), decodeTail_eq hC put h hpos,
              if_pos ⟨hpos.ne', hfits.1, by omega⟩]
            rfl
          · rw [if_pos ⟨hpadded, hfull⟩, if_neg fun hall => hfull (by omega)]
            rfl
        · rw [if_neg hfits, if_neg fun hall => hfits ⟨hall.2.1, by omega⟩]
          rfl
    · have heof : V.lookup c ≠ eofIdx := by rw [hinvalid]; decide
      rw [decodeRest, slot_eq hslot, pure_bind, hc, if_pos hinvalid, outcome, untilEof_cons heof]
      dsimp only
      rw [if_pos hinvalid]
      rfl

/-- The decoder puts the bytes and ends as the text says, into any result. -/
theorem decode_eq (text : Bytes) :
    decode C V put text = putAll put (decoded C V w lengthError text) >>= fun _ =>
      lift (decodeOutcome C V w lengthError text) := by
  have hstart : Slots C w ((List.replicate C.encodedBlockSize 0).set 0 eofIdx) [] := by
    refine ⟨by rw [List.length_set, List.length_replicate], hC.encoded_pos, rfl, ?_, ?_⟩
    · exact fun d hd => absurd hd List.not_mem_nil
    · intro d hd
      rcases List.mem_or_eq_of_mem_set hd with hd | rfl
      · rw [List.eq_of_mem_replicate hd]
        decide
      · decide
  obtain ⟨idx, hstopped, hrun⟩ := readSymbols_eq hC hV put hstart text
  rw [List.nil_append, List.length_nil] at hrun
  rw [List.nil_append] at hstopped
  have hmod := (length_remaining C (V.digits text)).symm
  rw [decode, hrun, bind_assoc]
  simp only [pure_bind]
  rw [decodeRest_eq hC hV put hstopped hmod, decoded, ← decodeOutcome]
  rcases decodeOutcome C V w lengthError text with e | _
  · rfl
  · rw [written, bytes_split hC, putAll_append, bind_assoc]
    congr 1
    funext _
    exact (bind_pure_unit ..).symm

end Decode

end Cppcodec
