import Mathlib.Data.List.GetD
import Mathlib.Tactic

set_option autoImplicit true

namespace Regroup

/-- The bits of a list of `w`-bit digits, the most significant bit of each digit first, and zeros
behind its end. -/
def bitAt (w : Nat) (ds : List Nat) (p : Nat) : Bool :=
  (ds.getD (p / w) 0).testBit (w - 1 - p % w)

/-- Digit `i` of `w` bits in a stream of bits. -/
def digitAt (w : Nat) (f : Nat → Bool) (i : Nat) : Nat :=
  Nat.ofBits fun j : Fin w => f (w * i + (w - 1 - j))

/-- The first `n` digits of `w` bits in the bits of a list of `u`-bit digits. -/
def regroup (u w n : Nat) (ds : List Nat) : List Nat := (List.range n).map (digitAt w (bitAt u ds))

section Digit

variable {f g : Nat → Bool}

theorem digitAt_lt (w : Nat) (f : Nat → Bool) (i : Nat) : digitAt w f i < 2 ^ w :=
  Nat.ofBits_lt_two_pow _

theorem testBit_digitAt (hj : j < w) :
    (digitAt w f i).testBit j = f (w * i + (w - 1 - j)) :=
  Nat.testBit_ofBits_lt _ j hj

theorem eq_digitAt (hx : x < 2 ^ w) (h : ∀ j < w, x.testBit j = f (w * i + (w - 1 - j))) :
    x = digitAt w f i := by
  apply Nat.eq_of_testBit_eq
  intro j
  rcases Nat.lt_or_ge j w with hj | hj
  · rw [testBit_digitAt hj, h j hj]
  · have hpow : 2 ^ w ≤ 2 ^ j := Nat.pow_le_pow_right two_pos hj
    rw [Nat.testBit_lt_two_pow (hx.trans_le hpow),
      Nat.testBit_lt_two_pow ((digitAt_lt w f i).trans_le hpow)]

theorem digitAt_congr (h : ∀ j < w, f (w * i + j) = g (w * k + j)) :
    digitAt w f i = digitAt w g k := by
  apply eq_digitAt (digitAt_lt w f i)
  intro j hj
  rw [testBit_digitAt hj, h _ (by omega)]

theorem eq_of_digitAt_eq (hw : 0 < w) (h : digitAt w f (p / w) = digitAt w g (p / w)) :
    f p = g p := by
  have hmod : p % w < w := Nat.mod_lt p hw
  have hpos : w * (p / w) + (w - 1 - (w - 1 - p % w)) = p := by
    have hdiv := Nat.div_add_mod p w
    omega
  have hf := testBit_digitAt (f := f) (i := p / w) (by omega : w - 1 - p % w < w)
  have hg := testBit_digitAt (f := g) (i := p / w) (by omega : w - 1 - p % w < w)
  rw [hpos] at hf hg
  rw [← hf, ← hg, h]

end Digit

section Bits

variable {ds es : List Nat}

theorem bitAt_of_ge (hw : 0 < w) (h : w * ds.length ≤ p) : bitAt w ds p = false := by
  have hdiv : ds.length ≤ p / w := by
    rwa [Nat.le_div_iff_mul_le hw, mul_comm]
  rw [bitAt, List.getD_eq_default _ _ hdiv, Nat.zero_testBit]

theorem bitAt_mul_add (hj : j < w) (i : Nat) :
    bitAt w ds (w * i + j) = (ds.getD i 0).testBit (w - 1 - j) := by
  rw [bitAt, Nat.mul_add_div (by omega), Nat.mul_add_mod, Nat.div_eq_of_lt hj, Nat.mod_eq_of_lt hj,
    Nat.add_zero]

theorem bitAt_append (hw : 0 < w) (p : Nat) :
    bitAt w (ds ++ es) p =
      if p < w * ds.length then bitAt w ds p else bitAt w es (p - w * ds.length) := by
  split
  · next h =>
    have hdiv : p / w < ds.length := Nat.div_lt_of_lt_mul h
    rw [bitAt, bitAt, List.getD_append _ _ _ _ hdiv]
  · next h =>
    have hdiv : ds.length ≤ p / w := by
      rw [Nat.le_div_iff_mul_le hw, mul_comm]
      omega
    rw [bitAt, bitAt, List.getD_append_right _ _ _ _ hdiv, Nat.sub_mul_div, Nat.sub_mul_mod]
    omega

theorem digitAt_bitAt (h : ds.getD i 0 < 2 ^ w) : digitAt w (bitAt w ds) i = ds.getD i 0 := by
  apply (eq_digitAt h _).symm
  intro j hj
  rw [bitAt_mul_add (by omega), show w - 1 - (w - 1 - j) = j by omega]

end Bits

section Lists

variable {ds es : List Nat}

@[simp] theorem length_regroup (u w n : Nat) (ds : List Nat) : (regroup u w n ds).length = n := by
  rw [regroup, List.length_map, List.length_range]

theorem regroup_lt (h : d ∈ regroup u w n ds) : d < 2 ^ w := by
  obtain ⟨i, -, rfl⟩ := List.mem_map.1 h
  exact digitAt_lt w _ i

theorem getD_regroup (h : i < n) : (regroup u w n ds).getD i 0 = digitAt w (bitAt u ds) i := by
  have hlen : i < (regroup u w n ds).length := by rwa [length_regroup]
  rw [List.getD_eq_getElem _ _ hlen]
  simp only [regroup, List.getElem_map, List.getElem_range]

theorem regroup_succ (u w n : Nat) (ds : List Nat) :
    regroup u w (n + 1) ds = regroup u w n ds ++ [digitAt w (bitAt u ds) n] := by
  rw [regroup, List.range_succ, List.map_append]
  rfl

theorem drop_regroup (h : i < n) :
    (regroup u w n ds).drop i = digitAt w (bitAt u ds) i :: (regroup u w n ds).drop (i + 1) := by
  have hlen : i < (regroup u w n ds).length := by rwa [length_regroup]
  rw [List.drop_eq_getElem_cons hlen, ← getD_regroup h, List.getD_eq_getElem _ _ hlen]

/-- Regrouping keeps the bits. -/
theorem bitAt_regroup (hp : p < w * n) : bitAt w (regroup u w n ds) p = bitAt u ds p := by
  have hw : 0 < w := Nat.pos_of_mul_pos_right (Nat.zero_lt_of_lt hp)
  have hdiv : p / w < n := Nat.div_lt_of_lt_mul hp
  have hmod : p % w < w := Nat.mod_lt p hw
  have hpos := Nat.div_add_mod p w
  rw [bitAt, getD_regroup hdiv, testBit_digitAt (by omega)]
  congr 1
  omega

theorem regroup_congr (h : ∀ p < w * n, bitAt u ds p = bitAt v es p) :
    regroup u w n ds = regroup v w n es := by
  apply List.map_congr_left
  intro i hi
  apply digitAt_congr
  intro j hj
  apply h
  have hlt : i + 1 ≤ n := List.mem_range.1 hi
  have hmul := Nat.mul_le_mul_left w hlt
  rw [Nat.mul_succ] at hmul
  omega

theorem regroup_take (h : w * n ≤ u * k) :
    regroup u w n (ds.take k) = regroup u w n ds := by
  apply regroup_congr
  intro p hp
  have hdiv : p / u < k := Nat.div_lt_of_lt_mul (hp.trans_le h)
  rw [bitAt, bitAt, List.getD_eq_getElem?_getD, List.getD_eq_getElem?_getD,
    List.getElem?_take_of_lt hdiv]

theorem regroup_self (hlt : ∀ d ∈ ds, d < 2 ^ w) : regroup w w ds.length ds = ds := by
  apply List.ext_getElem (length_regroup _ _ _ _)
  intro i hi hi'
  have hget : ds.getD i 0 = ds[i] := List.getD_eq_getElem _ _ hi'
  have hbound : ds.getD i 0 < 2 ^ w := hget ▸ hlt _ (List.getElem_mem hi')
  rw [← hget, ← digitAt_bitAt hbound, ← getD_regroup hi', List.getD_eq_getElem _ _ hi]

/-- Enough digits of another width give the first ones back. -/
theorem regroup_regroup (hlt : ∀ d ∈ ds, d < 2 ^ u) (hle : u * ds.length ≤ w * n) :
    regroup w u ds.length (regroup u w n ds) = ds := by
  have hbits : regroup w u ds.length (regroup u w n ds) = regroup u u ds.length ds :=
    regroup_congr fun p hp => bitAt_regroup (hp.trans_le hle)
  rw [hbits, regroup_self hlt]

/-- Two lists regroup to the same digits when they have the same bits there. -/
theorem regroup_eq_iff (hw : 0 < w) :
    regroup u w n ds = regroup v w n es ↔ ∀ p < w * n, bitAt u ds p = bitAt v es p := by
  refine ⟨fun h p hp => ?_, regroup_congr⟩
  have hdiv : p / w < n := Nat.div_lt_of_lt_mul hp
  apply eq_of_digitAt_eq hw
  rw [← getD_regroup hdiv, ← getD_regroup hdiv, h]

/-- Where fewer bits come back, the digits are the same ones if the bits left out are zero. -/
theorem regroup_regroup_eq_iff (hu : 0 < u) (hw : 0 < w) (hlt : ∀ d ∈ ds, d < 2 ^ u) :
    regroup w u ds.length (regroup u w n ds) = ds ↔
      ∀ p, w * n ≤ p → p < u * ds.length → bitAt u ds p = false := by
  have hself : regroup w u ds.length (regroup u w n ds) = ds ↔
      ∀ p < u * ds.length, bitAt w (regroup u w n ds) p = bitAt u ds p := by
    rw [← regroup_eq_iff hu, regroup_self hlt]
  have hbeyond (p : Nat) (hp : w * n ≤ p) : bitAt w (regroup u w n ds) p = false :=
    bitAt_of_ge hw (by rwa [length_regroup])
  rw [hself]
  constructor
  · intro h p hp hlt
    rw [← h p hlt, hbeyond p hp]
  · intro h p hp
    rcases Nat.lt_or_ge p (w * n) with hin | hout
    · exact bitAt_regroup hin
    · rw [hbeyond p hout, h p hout hp]

/-- Regrouping goes block by block where both widths have a boundary. -/
theorem regroup_append (hu : 0 < u) (h : u * ds.length = w * n) (m : Nat) (es : List Nat) :
    regroup u w (n + m) (ds ++ es) = regroup u w n ds ++ regroup u w m es := by
  rw [regroup, List.range_add, List.map_append, List.map_map]
  congr 1
  · apply List.map_congr_left
    intro i hi
    apply digitAt_congr
    intro j hj
    have hlt : i + 1 ≤ n := List.mem_range.1 hi
    have hmul := Nat.mul_le_mul_left w hlt
    rw [Nat.mul_succ] at hmul
    rw [bitAt_append hu, if_pos (by omega)]
  · apply List.map_congr_left
    intro i _
    apply digitAt_congr
    intro j _
    rw [bitAt_append hu, if_neg (by rw [h, Nat.mul_add]; omega), h, Nat.mul_add]
    congr 1
    omega

theorem regroup_split (hu : 0 < u) (hk : k ≤ ds.length) (h : u * k = w * n) (m : Nat) :
    regroup u w (n + m) ds = regroup u w n ds ++ regroup u w m (ds.drop k) := by
  have hlen : u * (ds.take k).length = w * n := by rw [List.length_take_of_le hk, h]
  have happend := regroup_append hu hlen m (ds.drop k)
  rwa [List.take_append_drop, regroup_take h.ge] at happend

end Lists

end Regroup
