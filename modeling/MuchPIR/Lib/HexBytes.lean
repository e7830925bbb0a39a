import MuchPIR.Lib.HexPoly
import MuchPIR.Lib.Memory

namespace HexPoly
set_option autoImplicit true

/-- The two digits of a byte. -/
def bytePair (b : UInt8) : List Char := [digitChar (b.toNat / 16), digitChar (b.toNat % 16)]

theorem isHex_bytePair (b : UInt8) : ∀ c ∈ bytePair b, isHex c = true := by
  have hlt := b.toNat_lt
  intro c hc
  rcases List.mem_cons.1 hc with rfl | hc
  · rw [isHex, digitVal_digitChar (by omega), Option.isSome_some]
  · rw [List.mem_singleton.1 hc, isHex, digitVal_digitChar (Nat.mod_lt _ (by omega)),
      Option.isSome_some]

theorem value_bytePair (b : UInt8) : value 16 (bytePair b) = b.toNat := by
  have hlt := b.toNat_lt
  have hhi : b.toNat / 16 < 16 := by omega
  have hlo : b.toNat % 16 < 16 := Nat.mod_lt _ (by omega)
  simp only [value, bytePair, List.foldl_cons, List.foldl_nil, digitVal_digitChar hhi,
    digitVal_digitChar hlo, Option.getD_some]
  omega

def nibbles (b : UInt8) : List Nat := [b.toNat % 16, b.toNat / 16]

theorem nibbles_lt (bs : List UInt8) : ∀ d ∈ bs.flatMap nibbles, d < 16 := by
  intro d hd
  obtain ⟨b, -, hb⟩ := List.mem_flatMap.1 hd
  have hlt := b.toNat_lt
  rcases List.mem_cons.1 hb with rfl | hb
  · exact Nat.mod_lt _ (by omega)
  · rw [List.mem_singleton.1 hb]
    omega

theorem ofDigits_nibbles (bs : List UInt8) : Nat.ofDigits 16 (bs.flatMap nibbles) = leNat bs := by
  induction bs with
  | nil => rfl
  | cons b bs ih =>
    have hsplit := Nat.mod_add_div b.toNat 16
    rw [List.flatMap_cons, nibbles, List.cons_append, List.cons_append, List.nil_append,
      Nat.ofDigits_cons, Nat.ofDigits_cons, ih, leNat]
    omega

theorem length_flatMap_nibbles (bs : List UInt8) : (bs.flatMap nibbles).length = 2 * bs.length := by
  induction bs with
  | nil => rfl
  | cons b bs ih =>
    rw [List.flatMap_cons, List.length_append, ih, List.length_cons]
    simp only [nibbles, List.length_cons, List.length_nil]
    omega

theorem map_reverse_nibbles (bs : List UInt8) :
    (bs.flatMap nibbles).reverse.map digitChar = bs.reverse.flatMap bytePair := by
  induction bs with
  | nil => rfl
  | cons b bs ih =>
    rw [List.flatMap_cons, List.reverse_append, List.map_append, ih, List.reverse_cons,
      List.flatMap_append]
    rfl

theorem numeral_of_ofDigits {ds : List Nat} (hlt : ∀ d ∈ ds, d < 16) (hne : ds ≠ [])
    (hlast : ds.getLast hne ≠ 0) : numeral 16 (Nat.ofDigits 16 ds) = ds.reverse.map digitChar := by
  have hdigits : Nat.digits 16 (Nat.ofDigits 16 ds) = ds :=
    Nat.digits_ofDigits 16 (by omega) ds hlt fun _ => hlast
  have hzero : Nat.ofDigits 16 ds ≠ 0 := by
    intro h
    rw [h, Nat.digits_zero] at hdigits
    exact hne hdigits.symm
  rw [numeral, if_neg hzero, hdigits]

/-- With a highest byte of two digits nothing is trimmed: the bytes stand in pairs. -/
theorem numeral_leNat (hb : 16 ≤ b.toNat) (bs : List UInt8) :
    numeral 16 (leNat (bs ++ [b])) = (bs ++ [b]).reverse.flatMap bytePair := by
  have hne : (bs ++ [b]).flatMap nibbles ≠ [] := by
    rw [List.flatMap_append]
    exact List.append_ne_nil_of_right_ne_nil _ (List.cons_ne_nil _ _)
  have hlast : ((bs ++ [b]).flatMap nibbles).getLast hne = b.toNat / 16 := by
    simp [List.flatMap_append, nibbles]
  rw [← ofDigits_nibbles, numeral_of_ofDigits (nibbles_lt _) hne (by omega), map_reverse_nibbles]

/-- A highest byte of one digit leaves an odd number of digits. -/
theorem length_numeral_leNat (hb : b.toNat ≠ 0) (hb' : b.toNat < 16) (bs : List UInt8) :
    (numeral 16 (leNat (bs ++ [b]))).length = 2 * bs.length + 1 := by
  have hvalue : leNat (bs ++ [b]) = Nat.ofDigits 16 (bs.flatMap nibbles ++ [b.toNat]) := by
    rw [leNat_append, Nat.ofDigits_append, ofDigits_nibbles, length_flatMap_nibbles, pow_mul,
      Nat.ofDigits_singleton, leNat, leNat]
    norm_num
  have hlt : ∀ d ∈ bs.flatMap nibbles ++ [b.toNat], d < 16 := by
    intro d hd
    rcases List.mem_append.1 hd with hd | hd
    · exact nibbles_lt bs d hd
    · rwa [List.mem_singleton.1 hd]
  rw [hvalue, numeral_of_ofDigits hlt (List.append_ne_nil_of_right_ne_nil _ (List.cons_ne_nil _ _))
    (by rwa [List.getLast_append_singleton]), List.length_map, List.length_reverse,
    List.length_append, length_flatMap_nibbles, List.length_singleton]

theorem flatMap_bytePair_getElem? {bs : List UInt8} (hp : p < bs.length) :
    (bs.flatMap bytePair)[2 * p]? = some (digitChar ((bs.getD p 0).toNat / 16)) ∧
      (bs.flatMap bytePair)[2 * p + 1]? = some (digitChar ((bs.getD p 0).toNat % 16)) := by
  induction bs generalizing p with
  | nil => exact absurd hp (Nat.not_lt_zero p)
  | cons b bs ih =>
    cases p with
    | zero => exact ⟨rfl, rfl⟩
    | succ p => exact ih (Nat.lt_of_succ_lt_succ hp)

end HexPoly
