import MuchPIR.Cppcodec.RoundTrip

namespace Cppcodec
set_option autoImplicit true

def store (s : Bytes) (i : Int) (c : UInt8) : Except CodecFault Bytes :=
  if 0 ≤ i ∧ i < s.length then .ok (s.set i.toNat c) else .error (.outOfRange i.toNat)

/-- The loop that writes digits in reverse order. -/
def uctoaDigits (n : Nat) (s : Bytes) (i : Int) (numChars : Nat) :
    Except CodecFault (Bytes × Nat) := do
  let s ← store s i (UInt8.ofNat (n % 10 + '0'.toNat))
  if 0 < n / 10 then uctoaDigits (n / 10) s (i - 1) (numChars + 1)
  else return (s, numChars + 1)
termination_by n
decreasing_by omega

/-- The loop that moves `count` characters, from `i` on, to the front. -/
def moveChars (distance : Nat) : Nat → Nat → Bytes → Except CodecFault Bytes
  | _, 0, s => .ok s
  | i, count + 1, s => do
    let c ← fetch s (i + distance)
    let s ← store s i c
    moveChars distance (i + 1) count s

def uctoa (n : UInt8) (s : Bytes) : Except CodecFault Bytes := do
  let s ← store s (s.length - 1 : Int) 0
  let (s, numChars) ← uctoaDigits n.toNat s (s.length - 2) 1
  if numChars = s.length then return s
  else moveChars (s.length - numChars) 0 numChars s

def cString (s : Bytes) : Bytes := s.takeWhile fun c => c ≠ 0

/-- `symbol_error::make_error_message`, with what the array `s` has in the beginning. -/
def makeErrorMessage (c : UInt8) (s : Bytes) : Except CodecFault Bytes := do
  let s ← uctoa c s
  return "parse error: character [".toUTF8.toList ++ cString s ++ " '".toUTF8.toList ++ [c] ++
    "'] out of bounds".toUTF8.toList

def what (s : Bytes) : CodecFault → Option Bytes
  | .domainError text => some text.toUTF8.toList
  | .symbolError c => (makeErrorMessage c s).toOption
  | .invalidInputLength text => some text.toUTF8.toList
  | .paddingError => some
      "parse error: codec expects padded input string but padding was invalid".toUTF8.toList
  | .aborts => none
  | .outOfRange _ => none

section Decimal

def decimal (n : Nat) : Bytes := (Nat.toDigits 10 n).map Char.toUInt8

theorem digit_eq (h : d < 10) : d.digitChar.toUInt8 = UInt8.ofNat (d + '0'.toNat) := by
  interval_cases d <;> rfl

theorem decimal_of_lt (h : n < 10) : decimal n = [UInt8.ofNat (n + '0'.toNat)] := by
  rw [decimal, Nat.toDigits_of_lt_base h, List.map_singleton, digit_eq h]

theorem decimal_of_le (h : 10 ≤ n) :
    decimal n = decimal (n / 10) ++ [UInt8.ofNat (n % 10 + '0'.toNat)] := by
  rw [decimal, Nat.toDigits_of_base_le (by norm_num) h, List.map_append, List.map_singleton,
    digit_eq (Nat.mod_lt _ (by norm_num)), decimal]

theorem decimal_length_pos (n : Nat) : 0 < (decimal n).length := by
  rw [decimal, List.length_map]
  exact Nat.length_toDigits_pos

theorem decimal_length_le (n : UInt8) : (decimal n.toNat).length ≤ 3 := by
  rw [decimal, List.length_map, Nat.length_toDigits_le_iff (by norm_num) (by norm_num)]
  exact n.toNat_lt.trans (by norm_num)

theorem nul_not_mem_decimal (n : Nat) : 0 ∉ decimal n := by
  induction n using Nat.strong_induction_on with
  | _ n ih =>
    have hdigit (d : Nat) (hd : d < 10) : (0 : UInt8) ≠ UInt8.ofNat (d + '0'.toNat) := by
      interval_cases d <;> decide
    rcases Nat.lt_or_ge n 10 with hlt | hle
    · rw [decimal_of_lt hlt, List.mem_singleton]
      exact hdigit n hlt
    · rw [decimal_of_le hle, List.mem_append, List.mem_singleton]
      rintro (hmem | heq)
      · exact ih (n / 10) (by omega) hmem
      · exact hdigit (n % 10) (Nat.mod_lt _ (by norm_num)) heq

end Decimal

section Loops

theorem store_eq {i : Nat} {s : Bytes} (h : i < s.length) (c : UInt8) :
    store s i c = .ok (s.take i ++ c :: s.drop (i + 1)) := by
  rw [store, if_pos ⟨Int.natCast_nonneg i, Int.ofNat_lt.2 h⟩, Int.toNat_natCast,
    List.set_eq_take_append_cons_drop, if_pos h]

theorem uctoaDigits_eq {i : Nat} {s : Bytes} (hfits : (decimal n).length ≤ i + 1)
    (hi : i < s.length) (numChars : Nat) :
    uctoaDigits n s i numChars = .ok (s.take (i + 1 - (decimal n).length) ++ decimal n ++
      s.drop (i + 1), numChars + (decimal n).length) := by
  induction n using Nat.strong_induction_on generalizing s i numChars with
  | _ n ih =>
    rw [uctoaDigits, store_eq hi]
    change (if 0 < n / 10 then _ else _) = _
    rcases Nat.lt_or_ge n 10 with hlt | hle
    · have hmod : n % 10 = n := Nat.mod_eq_of_lt hlt
      rw [if_neg (by omega), decimal_of_lt hlt, hmod, List.append_assoc]
      rfl
    · have hlength : (decimal n).length = (decimal (n / 10)).length + 1 := by
        rw [decimal_of_le hle, List.length_append, List.length_singleton]
      have hpos := decimal_length_pos (n / 10)
      obtain ⟨j, rfl⟩ : ∃ j, i = j + 1 := ⟨i - 1, by omega⟩
      have hindex : ((j + 1 : Nat) : Int) - 1 = (j : Nat) := by omega
      have htake : (s.take (j + 1)).length = j + 1 := List.length_take_of_le (by omega)
      have hstored (c : UInt8) (rest : Bytes) :
          j < (s.take (j + 1) ++ c :: rest).length := by
        rw [List.length_append, htake]
        omega
      rw [if_pos (by omega), hindex, ih (n / 10) (by omega) (by omega) (hstored _ _),
        List.take_append_of_le_length (by rw [htake]; omega), List.take_take,
        List.drop_left' htake, Nat.min_eq_left (by omega), decimal_of_le hle, List.length_append,
        List.length_singleton]
      have hstart : j + 1 - (decimal (n / 10)).length =
          j + 1 + 1 - ((decimal (n / 10)).length + 1) := by omega
      have hcount : numChars + 1 + (decimal (n / 10)).length =
          numChars + ((decimal (n / 10)).length + 1) := by omega
      rw [hstart, hcount, List.append_assoc, List.append_assoc, List.append_assoc,
        List.singleton_append]

/-- Each character is read before the loop writes over it. -/
theorem moveChars_eq {s : Bytes} (h : i + count + distance ≤ s.length) :
    moveChars distance i count s =
      .ok (s.take i ++ (s.drop (i + distance)).take count ++ s.drop (i + count)) := by
  induction count generalizing i s with
  | zero => rw [moveChars, List.take_zero, List.append_nil, Nat.add_zero, List.take_append_drop]
  | succ count ih =>
    have hread : i + distance < s.length := by omega
    have htake : (s.take i).length = i := List.length_take_of_le (by omega)
    have hfetch : fetch s (i + distance) = .ok s[i + distance] := by
      rw [fetch, List.getElem?_eq_getElem hread]
    have hstore : store s i s[i + distance] = .ok (s.set i s[i + distance]) := by
      rw [store, if_pos ⟨Int.natCast_nonneg i, Int.ofNat_lt.2 (by omega)⟩, Int.toNat_natCast]
    have hfront : (s.set i s[i + distance]).take (i + 1) = s.take i ++ [s[i + distance]] := by
      rw [List.set_eq_take_append_cons_drop, if_pos (by omega), List.take_append, htake,
        List.take_take]
      simp
    have hcopied : (s.drop (i + distance)).take (count + 1) =
        s[i + distance] :: (s.drop (i + 1 + distance)).take count := by
      rw [List.drop_eq_getElem_cons hread, List.take_succ_cons, Nat.add_right_comm]
    have hrest : i + 1 + count = i + (count + 1) := by omega
    rw [moveChars, hfetch]
    change (store s i s[i + distance] >>= fun s => moveChars distance (i + 1) count s) = _
    rw [hstore]
    change moveChars distance (i + 1) count _ = _
    rw [ih (by rw [List.length_set]; omega), hfront, List.drop_set_of_lt (by omega),
      List.drop_set_of_lt (by omega), hcopied, hrest, List.append_assoc, List.append_assoc,
      List.append_assoc]
    rfl

theorem uctoa_digits (n : UInt8) {s : Bytes} (h : 4 ≤ s.length) :
    ∃ front, front.length + ((decimal n.toNat).length + 1) = s.length ∧
      uctoa n s = if (decimal n.toNat).length + 1 = s.length then
          .ok (front ++ (decimal n.toNat ++ [0]))
        else moveChars front.length 0 ((decimal n.toNat).length + 1)
          (front ++ (decimal n.toNat ++ [0])) := by
  have hdigits := decimal_length_le n
  obtain ⟨m, hm⟩ : ∃ m, s.length = m + 2 := ⟨s.length - 2, by omega⟩
  obtain ⟨t, hstore, ht, hnul⟩ : ∃ t, store s (m + 1 : Nat) 0 = .ok t ∧ t.length = m + 2 ∧
      t.drop (m + 1) = [0] := by
    have htake : (s.take (m + 1)).length = m + 1 := List.length_take_of_le (by omega)
    refine ⟨_, store_eq (by omega) 0, ?_, ?_⟩
    · rw [List.length_append, List.length_cons, List.length_drop, htake]
      omega
    · rw [List.drop_left' htake, List.drop_eq_nil_of_le (by omega)]
  have hlast : (s.length : Int) - 1 = (m + 1 : Nat) := by omega
  have hnext : (t.length : Int) - 2 = (m : Nat) := by omega
  have hrun := uctoaDigits_eq (n := n.toNat) (i := m) (s := t) (by omega) (by omega) 1
  have hfront : (t.take (m + 1 - (decimal n.toNat).length)).length =
      m + 1 - (decimal n.toNat).length := List.length_take_of_le (by omega)
  have hresult : (t.take (m + 1 - (decimal n.toNat).length) ++ decimal n.toNat ++ [0]).length =
      m + 2 := by
    rw [List.length_append, List.length_append, List.length_singleton, hfront]
    omega
  have hdistance : m + 2 - (1 + (decimal n.toNat).length) = m + 1 - (decimal n.toNat).length := by
    omega
  refine ⟨t.take (m + 1 - (decimal n.toNat).length), by rw [hfront, hm]; omega, ?_⟩
  rw [uctoa, hlast, hstore]
  change (uctoaDigits n.toNat t ((t.length : Int) - 2) 1 >>= _) = _
  rw [hnext, hrun, hnul]
  change (if _ = _ then _ else _) = _
  rw [hresult, hfront, hdistance, hm, Nat.add_comm 1, List.append_assoc]
  rfl

theorem uctoa_eq (n : UInt8) {s : Bytes} (h : 4 ≤ s.length) :
    ∃ rest, uctoa n s = .ok (decimal n.toNat ++ 0 :: rest) ∧
      (decimal n.toNat ++ 0 :: rest).length = s.length := by
  obtain ⟨front, hfront, hrun⟩ := uctoa_digits n h
  rw [hrun]
  split_ifs with hfull
  · have hnil : front = [] := List.length_eq_zero_iff.1 (by omega)
    refine ⟨[], by rw [hnil]; rfl, ?_⟩
    rw [List.length_append, List.length_singleton, hfull]
  · have hchars : (decimal n.toNat ++ [0]).length = (decimal n.toNat).length + 1 := by
      rw [List.length_append, List.length_singleton]
    have hfits : 0 + ((decimal n.toNat).length + 1) + front.length ≤
        (front ++ (decimal n.toNat ++ [0])).length := by
      rw [List.length_append, hchars]
      omega
    have hmoved := moveChars_eq hfits
    rw [List.take_zero, List.nil_append, Nat.zero_add, List.drop_left, ← hchars, List.take_length,
      hchars, Nat.zero_add, List.append_assoc, List.singleton_append] at hmoved
    refine ⟨_, hmoved, ?_⟩
    rw [List.length_append, List.length_cons, List.length_drop, List.length_append, hchars]
    omega

end Loops

/-- The message of an error names the symbol and its number, whatever the array had. -/
theorem makeErrorMessage_eq (c : UInt8) {s : Bytes} (h : s.length = 4) :
    makeErrorMessage c s = .ok ("parse error: character [".toUTF8.toList ++ decimal c.toNat ++
      " '".toUTF8.toList ++ [c] ++ "'] out of bounds".toUTF8.toList) := by
  obtain ⟨rest, hrun, -⟩ := uctoa_eq c (s := s) h.ge
  have hstring : cString (decimal c.toNat ++ 0 :: rest) = decimal c.toNat := by
    rw [cString, List.takeWhile_append_of_pos, List.takeWhile_cons_of_neg (by simp), List.append_nil]
    intro d hd
    exact decide_eq_true fun hzero => nul_not_mem_decimal c.toNat (hzero ▸ hd)
  rw [makeErrorMessage, hrun]
  change Except.ok (_ ++ cString (decimal c.toNat ++ 0 :: rest) ++ _ ++ _ ++ _) = _
  rw [hstring]

theorem makeErrorMessage_asterisk :
    makeErrorMessage '*'.toUInt8 [0xC0, 0xFF, 0xEE, 0x00] =
      .ok ("parse error: character [".toUTF8.toList ++ decimal '*'.toUInt8.toNat ++
        " '".toUTF8.toList ++ ['*'.toUInt8] ++ "'] out of bounds".toUTF8.toList) :=
  makeErrorMessage_eq '*'.toUInt8 rfl

theorem Codec.what_outcome (K : Codec) {text s : Bytes} (h : s.length = 4)
    (he : K.outcome text = .error e) : (what s e).isSome := by
  rcases decodeOutcome_error K.lawfulBlock he with rfl | ⟨-, c, -, -, -, -, -, rfl⟩ | ⟨k, -, -, rfl⟩
  · rfl
  · rw [what, makeErrorMessage_eq c h]
    rfl
  · rfl

end Cppcodec
