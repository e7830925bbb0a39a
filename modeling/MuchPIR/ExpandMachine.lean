import MuchPIR.ExpandLaw
import MuchPIR.Machine

namespace MuchPIR
open Prog Machine
set_option autoImplicit true

section Words

/-- A `size_t` value stored in an `int`. -/
def toInt (v : Nat) : Int :=
  if v % 2 ^ 32 < 2 ^ 31 then (v % 2 ^ 32 : Nat) else (v % 2 ^ 32 : Nat) - 2 ^ 32

/-- An `int` value used as an unsigned one of `width` bits. -/
def toUnsigned (width : Nat) (v : Int) : Nat := (v % 2 ^ width).toNat

def subWrap (width x y : Nat) : Nat := (x + (2 ^ width - y)) % 2 ^ width

theorem toInt_of_lt (h : v < 2 ^ 31) : toInt v = v := by
  have hmod : v % 2 ^ 32 = v := Nat.mod_eq_of_lt (by omega)
  rw [toInt, hmod, if_pos h]

theorem toUnsigned_natCast {v : Nat} (h : v < 2 ^ width) : toUnsigned width v = v := by
  have hcast : (v : Int) % 2 ^ width = (v % 2 ^ width : Nat) := by
    rw [Int.natCast_emod]
    norm_cast
  rw [toUnsigned, hcast, Int.toNat_natCast, Nat.mod_eq_of_lt h]

theorem subWrap_of_le (hxy : y ≤ x) (hx : x < 2 ^ width) : subWrap width x y = x - y := by
  have hsum : x + (2 ^ width - y) = x - y + 2 ^ width := by omega
  rw [subWrap, hsum, Nat.add_mod_right, Nat.mod_eq_of_lt (by omega)]

end Words

section Expand

variable (S : Seal) (params : Params) (galkey : S.GaloisKeys)

/-- `galois_elts[i]`, `index_raw` and `index` of level `i`, all of type `int`. -/
def levelInts (n : Nat) (galoisElts : List Int) (i : Nat) : Machine (Int × Int × Int) := do
  check (.shiftLeft i)
  let indexRaw := toInt (subWrap 64 (2 * n % 2 ^ 64) (2 ^ i))
  check (.index i galoisElts.length)
  let galoisElt := galoisElts.getD i 0
  check (.product indexRaw galoisElt)
  check (.divide (2 * n % 2 ^ 64))
  let index := toInt (toUnsigned 64 (indexRaw * galoisElt) % (2 * n % 2 ^ 64))
  return (galoisElt, indexRaw, index)

/-- The butterfly takes its Galois element as a `uint32_t` and its exponents as `size_t`. -/
def checkedButterfly (ints : Int × Int × Int) (temp : List (Option S.Ciphertext)) (a : Nat)
    (newtemp : List (Option S.Ciphertext)) : Machine (List (Option S.Ciphertext)) := do
  check (.index a temp.length)
  check (.index a newtemp.length)
  check (.index (a + temp.length) newtemp.length)
  runSeal (butterfly S params galkey (toUnsigned 32 ints.1) (toUnsigned 64 ints.2.1)
    (toUnsigned 64 ints.2.2) temp a newtemp)

def checkedDouble (two : Plaintext) (temp : List (Option S.Ciphertext)) (a : Nat)
    (newtemp : List (Option S.Ciphertext)) : Machine (List (Option S.Ciphertext)) := do
  check (.index a temp.length)
  check (.index a newtemp.length)
  runSeal (doubleEntry S params two temp a newtemp)

def checkedLevel (galoisElts : List Int) (i : Nat) (temp : List (Option S.Ciphertext)) :
    Machine (List (Option S.Ciphertext)) := do
  check (.level i)
  let ints ← levelInts params.polyModulusDegree galoisElts i
  forRange 0 temp.length (checkedButterfly S params galkey ints temp)
    (List.replicate (2 * temp.length) none)

def checkedLast (galoisElts : List Int) (two : Plaintext) (m last : Nat)
    (temp : List (Option S.Ciphertext)) : Machine (List (Option S.Ciphertext)) := do
  let ints ← levelInts params.polyModulusDegree galoisElts last
  forRange 0 temp.length (fun a newtemp => do
    check (.shiftLeft last)
    if subWrap 32 m (2 ^ last) ≤ a then checkedDouble S params two temp a newtemp
    else checkedButterfly S params galkey ints temp a newtemp)
    (List.replicate (2 * temp.length) none)

/-- `expand_query` in the types of the source. The two copies of it differ in what they do before
the level loop. -/
def checkedExpandQuery (beforeLevels : Machine Unit) (encrypted : S.Ciphertext) (m : Nat) :
    Machine (List (Option S.Ciphertext)) := do
  let logm := Nat.clog 2 m
  let two ← runSeal (SealM.call (.plaintext ['2']) (S.plaintext ['2']))
  let n := params.polyModulusDegree
  if Nat.clog 2 n < logm then
    runSeal (throw (.throws (.logicError "m > n is not allowed.")))
  else do
    let galoisElts := (List.range (Nat.clog 2 n)).map fun i => toInt ((n + 2 ^ i) % 2 ^ 64 / 2 ^ i)
    beforeLevels
    -- `logm - 1` in `uint32_t`: for `m = 1` it is the largest value of the type
    let last := subWrap 32 logm 1
    let temp ← forRange 0 last (checkedLevel S params galkey galoisElts) [some encrypted]
    let newtemp ← checkedLast S params galkey galoisElts two m last temp
    check (.advance m newtemp.length)
    return newtemp.take m

def serverExpandQuery (encrypted : S.Ciphertext) (m : Nat) :
    Machine (List (Option S.Ciphertext)) :=
  checkedExpandQuery S params galkey (pure ()) encrypted m

/-- The client's copy also makes relinearization keys, which it does not use. -/
def clientExpandQuery (relinKeysLocal : Except Exn Unit) (encrypted : S.Ciphertext) (m : Nat) :
    Machine (List (Option S.Ciphertext)) :=
  checkedExpandQuery S params galkey (runSeal (lift (relinKeysLocal.mapError .throws))) encrypted m

end Expand

/-- A run of the expansion to `m` entries in which no operation is undefined, and which makes
`max (⌈log2 m⌉ - 1) 0` passes of the level loop. -/
def ExpandSafe (x : Machine α) (m : Nat) : Prop :=
  (∀ op ∈ (x ⟨[], []⟩).2.ops, op.Defined) ∧
    (x ⟨[], []⟩).2.ops.countP MachineOp.isLevel = Nat.clog 2 m - 1

section Levels

variable {k : Nat}

def intElts (k : Nat) : List Int :=
  (List.range k).map fun i => toInt ((2 ^ k + 2 ^ i) % 2 ^ 64 / 2 ^ i)

theorem length_intElts (k : Nat) : (intElts k).length = k := by
  rw [intElts, List.length_map, List.length_range]

theorem intElts_getD (hk : k ≤ 15) (hi : i < k) :
    (intElts k).getD i 0 = ((2 ^ k + 2 ^ i) / 2 ^ i : Nat) := by
  have hpow : 2 ^ k ≤ 2 ^ 15 := Nat.pow_le_pow_right (by omega) hk
  have hlow : 2 ^ i ≤ 2 ^ k := Nat.pow_le_pow_right (by omega) hi.le
  have hword : (2 ^ k + 2 ^ i) % 2 ^ 64 = 2 ^ k + 2 ^ i := Nat.mod_eq_of_lt (by omega)
  have hdiv : (2 ^ k + 2 ^ i) / 2 ^ i ≤ 2 ^ k + 2 ^ i := Nat.div_le_self _ _
  rw [List.getD_eq_getElem _ _ (by rw [length_intElts]; exact hi)]
  simp only [intElts, List.getElem_map, List.getElem_range, hword]
  exact toInt_of_lt (by omega)

theorem level_product_le (k i : Nat) :
    (2 * 2 ^ k - 2 ^ i) * ((2 ^ k + 2 ^ i) / 2 ^ i) ≤ 2 * 2 ^ k * (2 ^ k + 1) := by
  rw [galoisElt_eq]
  exact Nat.mul_le_mul (Nat.sub_le _ _) (Nat.succ_le_succ (Nat.div_le_self _ _))

def ExactInts (k i : Nat) (ints : Int × Int × Int) : Prop :=
  toUnsigned 32 ints.1 = (2 ^ k + 2 ^ i) / 2 ^ i ∧
    toUnsigned 64 ints.2.1 = 2 * 2 ^ k - 2 ^ i ∧
    toUnsigned 64 ints.2.2 = (2 * 2 ^ k - 2 ^ i) * ((2 ^ k + 2 ^ i) / 2 ^ i) % (2 * 2 ^ k)

/-- Up to degree 16384 the arithmetic of every level is exact. -/
theorem levelInts_spec (hk : k ≤ 14) (hi : i < k) (h : InStep levels calls w) :
    wp (levelInts (2 ^ k) (intElts k) i)
      (fun ints w' => ExactInts k i ints ∧ InStep levels calls w') (fun _ _ => False) w := by
  have hpow : 2 ^ k ≤ 2 ^ 14 := Nat.pow_le_pow_right (by omega) hk
  have hpos : 0 < 2 ^ k := Nat.two_pow_pos k
  have hlow : 2 ^ i ≤ 2 ^ k := Nat.pow_le_pow_right (by omega) hi.le
  have helt := galoisElt_lt hi
  have hmax : 2 * 2 ^ k * (2 ^ k + 1) ≤ 2 * 2 ^ 14 * (2 ^ 14 + 1) :=
    Nat.mul_le_mul (by omega) (by omega)
  have hproduct := (level_product_le k i).trans hmax
  have hdegree : 2 * 2 ^ k % 2 ^ 64 = 2 * 2 ^ k := Nat.mod_eq_of_lt (by omega)
  have hraw : subWrap 64 (2 * 2 ^ k) (2 ^ i) = 2 * 2 ^ k - 2 ^ i :=
    subWrap_of_le (by omega) (by omega)
  have hindex := Nat.mod_lt ((2 * 2 ^ k - 2 ^ i) * ((2 ^ k + 2 ^ i) / 2 ^ i))
    (by omega : 0 < 2 * 2 ^ k)
  have hrawle : 2 * 2 ^ k - 2 ^ i ≤ 2 * 2 ^ k := Nat.sub_le _ _
  unfold ExactInts
  rw [levelInts, hdegree, hraw, intElts_getD (by omega) hi]
  generalize (2 ^ k + 2 ^ i) / 2 ^ i = galoisElt at helt hproduct hindex ⊢
  generalize 2 * 2 ^ k - 2 ^ i = indexRaw at hproduct hindex hrawle ⊢
  have hdivide : (MachineOp.divide (2 * 2 ^ k)).Defined := by
    simp only [MachineOp.Defined]
    omega
  have hshift : (MachineOp.shiftLeft i).Defined := by
    simp only [MachineOp.Defined]
    omega
  have helts : (MachineOp.index i (intElts k).length).Defined := by
    rw [length_intElts]
    exact hi
  have hsigned : (MachineOp.product (indexRaw : Int) galoisElt).Defined := by
    simp only [MachineOp.Defined, ← Nat.cast_mul]
    omega
  simp only [toInt_of_lt (show indexRaw < 2 ^ 31 by omega), ← Nat.cast_mul,
    toUnsigned_natCast (show indexRaw * galoisElt < 2 ^ 64 by omega),
    toInt_of_lt (show indexRaw * galoisElt % (2 * 2 ^ k) < 2 ^ 31 by omega), wp_bind,
    wp_check hshift, wp_check helts, wp_check hsigned, wp_check hdivide, wp_pure]
  refine ⟨⟨toUnsigned_natCast (by omega), toUnsigned_natCast (by omega),
    toUnsigned_natCast (by omega)⟩, h.1, ?_⟩
  exact (((h.2.snoc hshift rfl).snoc helts rfl).snoc hsigned rfl).snoc hdivide rfl

def SomeUndefined (w : MachineWorld) : Prop := ∃ op ∈ w.ops, ¬op.Defined

theorem wp_check_stops {Q : Unit → MachineWorld → Prop} (h : ¬op.Defined) :
    wp (check op) Q (fun _ w => SomeUndefined w) w := by
  rw [wp_check_undefined h]
  exact ⟨op, List.mem_append_right _ (List.mem_singleton_self op), h⟩

/-- There is no Galois element for a level past the last one. -/
theorem levelInts_pastEnd (hk : k < 31) :
    wp (levelInts (2 ^ k) (intElts k) k) (fun _ _ => False) (fun _ w => SomeUndefined w) w := by
  have hshift : (MachineOp.shiftLeft k).Defined := hk
  have helts : ¬(MachineOp.index k (intElts k).length).Defined := by
    rw [length_intElts]
    exact lt_irrefl k
  rw [levelInts, wp_bind, wp_check hshift, wp_bind]
  exact wp_check_stops helts

theorem levelInts_overflow (hk : k = 15) :
    wp (levelInts (2 ^ k) (intElts k) 0) (fun _ _ => False) (fun _ w => SomeUndefined w) w := by
  subst hk
  have hshift : (MachineOp.shiftLeft 0).Defined := by decide
  have helts : (MachineOp.index 0 (intElts 15).length).Defined := by decide
  have hraw : toInt (subWrap 64 (2 * 2 ^ 15 % 2 ^ 64) (2 ^ 0)) = 65535 := by decide
  have helt : (intElts 15).getD 0 0 = 32769 := by decide
  have hproduct : ¬(MachineOp.product 65535 32769).Defined := by decide
  rw [levelInts, hraw, helt, wp_bind, wp_check hshift, wp_bind, wp_check helts, wp_bind]
  exact wp_check_stops hproduct

end Levels

section Lockstep

variable {S : Seal} {params : Params} {galkey : S.GaloisKeys} {k : Nat}

theorem butterfly_length (temp newtemp : List (Option S.Ciphertext)) :
    wp (butterfly S params galkey galoisElt indexRaw index temp a newtemp)
      (fun v _ => v.length = newtemp.length) (fun _ _ => True) log := by
  rw [butterfly]
  apply wp_bind_any
  intro c _
  apply wp_bind_any
  intro rotated _
  apply wp_bind_any
  intro sum _
  apply wp_bind_any
  intro shifted _
  apply wp_bind_any
  intro rotatedshifted _
  apply wp_bind_any
  intro sum' _
  rw [wp_pure, List.length_set, List.length_set]

theorem doubleEntry_length (two : Plaintext) (temp newtemp : List (Option S.Ciphertext)) :
    wp (doubleEntry S params two temp a newtemp) (fun v _ => v.length = newtemp.length)
      (fun _ _ => True) log := by
  rw [doubleEntry]
  apply wp_bind_any
  intro c _
  apply wp_bind_any
  intro doubled _
  rw [wp_pure, List.length_set]

def SameFilled (temp : List (Option S.Ciphertext)) (levels : Nat)
    (v v' : List (Option S.Ciphertext)) (calls : List SealOp) (w : MachineWorld) : Prop :=
  v = v' ∧ v.length = 2 * temp.length ∧ InStep levels calls w

theorem checkedButterfly_inStep {temp newtemp : List (Option S.Ciphertext)}
    (hints : ExactInts k i ints) (ha : a < temp.length) (hlen : newtemp.length = 2 * temp.length)
    (h : InStep levels calls w) :
    Rel (butterfly S params galkey ((2 ^ k + 2 ^ i) / 2 ^ i) (2 * 2 ^ k - 2 ^ i)
        ((2 * 2 ^ k - 2 ^ i) * ((2 ^ k + 2 ^ i) / 2 ^ i) % (2 * 2 ^ k)) temp a newtemp)
      (checkedButterfly S params galkey ints temp a newtemp) (SameFilled temp levels) SomeLevels
      calls w := by
  obtain ⟨helt, hraw, hindex⟩ := hints
  have hread : (MachineOp.index a temp.length).Defined := ha
  have hlow : (MachineOp.index a newtemp.length).Defined := by
    simp only [MachineOp.Defined]
    omega
  have hhigh : (MachineOp.index (a + temp.length) newtemp.length).Defined := by
    simp only [MachineOp.Defined]
    omega
  rw [checkedButterfly, helt, hraw, hindex]
  apply h.check hread rfl
  intro w h
  apply h.check hlow rfl
  intro w h
  apply h.check hhigh rfl
  intro w h
  apply ((h.runSeal _).left (butterfly_length temp newtemp)).mono _ (fun _ _ h => h)
  rintro v v' calls w ⟨⟨hv, h⟩, hfilled⟩
  exact ⟨hv, hfilled.trans hlen, h⟩

theorem checkedDouble_inStep {temp newtemp : List (Option S.Ciphertext)} (ha : a < temp.length)
    (hlen : newtemp.length = 2 * temp.length) (h : InStep levels calls w) :
    Rel (doubleEntry S params two temp a newtemp) (checkedDouble S params two temp a newtemp)
      (SameFilled temp levels) SomeLevels calls w := by
  have hread : (MachineOp.index a temp.length).Defined := ha
  have hwrite : (MachineOp.index a newtemp.length).Defined := by
    simp only [MachineOp.Defined]
    omega
  rw [checkedDouble]
  apply h.check hread rfl
  intro w h
  apply h.check hwrite rfl
  intro w h
  apply ((h.runSeal _).left (doubleEntry_length two temp newtemp)).mono _ (fun _ _ h => h)
  rintro v v' calls w ⟨⟨hv, h⟩, hfilled⟩
  exact ⟨hv, hfilled.trans hlen, h⟩

theorem checkedLevel_inStep {temp : List (Option S.Ciphertext)}
    (hn : params.polyModulusDegree = 2 ^ k) (hk : k ≤ 14) (hi : i < k)
    (h : InStep levels calls w) :
    Rel (expandLevel S params galkey ((List.range k).map fun i => (2 ^ k + 2 ^ i) / 2 ^ i) i temp)
      (checkedLevel S params galkey (intElts k) i temp) (SameFilled temp (levels + 1)) SomeLevels
      calls w := by
  simp only [expandLevel, entry_galoisElts hi, lift_ok_bind, checkedLevel, hn]
  apply h.level
  intro w h
  apply Rel.bind_right (levelInts_spec hk hi h)
  rintro ints w ⟨hints, h⟩
  refine Rel.forRange (fun _ => SameFilled temp (levels + 1)) ?_ ⟨rfl, List.length_replicate, h⟩
  rintro a v v' calls w - ha ⟨rfl, hlen, h⟩
  exact checkedButterfly_inStep hints (by omega) hlen h

theorem checkedLast_inStep {temp : List (Option S.Ciphertext)}
    (hn : params.polyModulusDegree = 2 ^ k) (hk : k ≤ 14) (hlast : last < k) (hm : 2 ^ last < m)
    (hm32 : m < 2 ^ 32) (h : InStep levels calls w) :
    Rel (expandLast S params galkey ((List.range k).map fun i => (2 ^ k + 2 ^ i) / 2 ^ i) two m
        last temp)
      (checkedLast S params galkey (intElts k) two m last temp) (SameFilled temp levels) SomeLevels
      calls w := by
  have hshift : (MachineOp.shiftLeft last).Defined := by
    simp only [MachineOp.Defined]
    omega
  simp only [expandLast, entry_galoisElts hlast, lift_ok_bind, checkedLast, hn,
    subWrap_of_le hm.le hm32]
  apply Rel.bind_right (levelInts_spec hk hlast h)
  rintro ints w ⟨hints, h⟩
  refine Rel.forRange (fun _ => SameFilled temp levels) ?_ ⟨rfl, List.length_replicate, h⟩
  rintro a v v' calls w - ha ⟨rfl, hlen, h⟩
  apply h.check hshift rfl
  intro w h
  split
  · exact checkedDouble_inStep (by omega) hlen h
  · exact checkedButterfly_inStep hints (by omega) hlen h

theorem checkedExpandQuery_inStep (hn : params.polyModulusDegree = 2 ^ k) (hk : k ≤ 14)
    (hm : 2 ≤ m) (hmk : m ≤ 2 ^ k) (hbefore : ∀ w, beforeLevels w = (.ok (), w))
    (encrypted : S.Ciphertext) :
    Rel (expandQuery S params galkey encrypted m)
      (checkedExpandQuery S params galkey beforeLevels encrypted m)
      (fun v v' calls w => v = v' ∧ InStep (Nat.clog 2 m - 1) calls w) SomeLevels [] ⟨[], []⟩ := by
  have hpos : 0 < Nat.clog 2 m := Nat.clog_pos (by omega) hm
  have hclog : Nat.clog 2 m ≤ k := Nat.clog_le_of_le_pow hmk
  have hpow : 2 ^ k ≤ 2 ^ 14 := Nat.pow_le_pow_right (by omega) hk
  have hlow : 2 ^ (Nat.clog 2 m - 1) < m := Nat.pow_pred_clog_lt_self (by omega) hm
  have hhigh : m ≤ 2 ^ (Nat.clog 2 m - 1 + 1) := by
    rw [Nat.sub_add_cancel hpos]
    exact Nat.le_pow_clog (by omega) m
  have hlast : (Nat.clog 2 m + (2 ^ 32 - 1)) % 2 ^ 32 = Nat.clog 2 m - 1 := by omega
  have hstart : InStep 0 [] ⟨[], []⟩ := ⟨rfl, MachineWorld.sane_start []⟩
  simp only [expandQuery, checkedExpandQuery, subWrap, hn, clog_two_pow, if_neg (Nat.not_lt.2 hclog),
    hlast]
  apply Rel.bind (hstart.runSeal _)
  rintro two _ calls w ⟨rfl, h⟩
  apply Rel.bind_right (R := fun _ w' => InStep 0 calls w')
  · exact (wp_of_ok (hbefore w)).2 h
  intro _ w h
  apply Rel.bind (Rel.forRange (fun i temp temp' calls w => temp = temp' ∧ temp.length = 2 ^ i ∧
    InStep i calls w) ?_ ⟨rfl, rfl, h⟩)
  · rintro temp _ calls w ⟨rfl, hlen, h⟩
    rw [zero_add] at hlen h
    apply Rel.bind (checkedLast_inStep hn hk (by omega) hlow (by omega) h)
    rintro v _ calls w ⟨rfl, hfilled, h⟩
    have hadvance : (MachineOp.advance m v.length).Defined := by
      rw [hfilled, hlen, ← pow_succ']
      exact hhigh
    apply h.check hadvance rfl
    intro w h
    exact ⟨rfl, h⟩
  · rintro i temp _ calls w - hi ⟨rfl, hlen, h⟩
    apply (checkedLevel_inStep hn hk (by omega) h).mono _ (fun _ _ h => h)
    rintro v v' calls w ⟨hv, hfilled, h⟩
    exact ⟨hv, by rw [hfilled, hlen, ← pow_succ'], h⟩

theorem expandSafe_of_le (hS : Serves S params galkey (expansionElts params.polyModulusDegree))
    (hn : params.polyModulusDegree = 2 ^ k) (hk : k ≤ 14) (hm : 2 ≤ m) (hmk : m ≤ 2 ^ k)
    (hbefore : ∀ w, beforeLevels w = (.ok (), w)) (encrypted : S.Ciphertext) :
    ExpandSafe (checkedExpandQuery S params galkey beforeLevels encrypted m) m := by
  have hpow : 2 ^ k ≤ 2 ^ 14 := Nat.pow_le_pow_right (by omega) hk
  have htrace : wp (expandQuery S params galkey encrypted m) _ _ [] :=
    expandQuery_trace hm (by omega) (onlyExpansion_nil _) encrypted
  obtain ⟨v, calls, hrun, -⟩ := wp_returns (wp_mono htrace (fun _ _ h => h)
    fun _ _ h => h.2 ⟨by rw [hn]; exact hmk, hS⟩)
  obtain ⟨_, w, hchecked, -, -, hsane⟩ :=
    (checkedExpandQuery_inStep hn hk hm hmk hbefore encrypted).returns hrun
  unfold ExpandSafe
  rw [hchecked]
  exact ⟨hsane.defined, hsane.count_levels⟩

theorem not_expandSafe_of_undefined {x : Machine α}
    (h : wp x (fun _ _ => False) (fun _ w => SomeUndefined w) ⟨[], []⟩) : ¬ExpandSafe x m := by
  obtain ⟨e, w, hrun, op, hop, hundefined⟩ := wp_throws h
  rintro ⟨hdefined, -⟩
  rw [hrun] at hdefined
  exact hundefined (hdefined op hop)

theorem overflow_stops (hn : params.polyModulusDegree = 2 ^ k) (hk : k = 15) (hmk : m ≤ 2 ^ k)
    (htwo : ∃ two, S.plaintext ['2'] = .ok two) (hbefore : ∀ w, beforeLevels w = (.ok (), w))
    (encrypted : S.Ciphertext) :
    wp (checkedExpandQuery S params galkey beforeLevels encrypted m) (fun _ _ => False)
      (fun _ w => SomeUndefined w) ⟨[], []⟩ := by
  have hclog : Nat.clog 2 m ≤ k := Nat.clog_le_of_le_pow hmk
  obtain ⟨two, htwo⟩ := htwo
  simp only [checkedExpandQuery, wp_bind, wp_runSeal, htwo, SealM.wp_call_ok, hn, clog_two_pow,
    if_neg (Nat.not_lt.2 hclog), wp_of_ok (hbefore _)]
  generalize subWrap 32 (Nat.clog 2 m) 1 = last
  cases last with
  | zero =>
    rw [forRange, wp_pure, checkedLast, hn]
    exact wp_bind_throws (levelInts_overflow hk)
  | succ last =>
    have hlevel : (MachineOp.level 0).Defined := trivial
    rw [forRange, wp_bind, checkedLevel, wp_bind, wp_check hlevel, hn]
    exact wp_bind_throws (levelInts_overflow hk)

/-- For `m = 1` the loop runs on after the last level and reads past the Galois elements. -/
theorem single_stops (hS : Serves S params galkey (expansionElts params.polyModulusDegree))
    (hn : params.polyModulusDegree = 2 ^ k) (hk : k ≤ 14)
    (hbefore : ∀ w, beforeLevels w = (.ok (), w)) (encrypted : S.Ciphertext) :
    wp (checkedExpandQuery S params galkey beforeLevels encrypted 1) (fun _ _ => False)
      (fun _ w => SomeUndefined w) ⟨[], []⟩ := by
  obtain ⟨two, htwo⟩ := hS.plaintext
  have hpasses : subWrap 32 0 1 = 2 ^ 32 - 1 := by norm_num [subWrap]
  have helts : expansionElts params.polyModulusDegree =
      (List.range k).map fun i => (2 ^ k + 2 ^ i) / 2 ^ i := by
    rw [hn, expansionElts, clog_two_pow]
  simp only [checkedExpandQuery, Nat.clog_one_right, wp_bind, wp_runSeal, htwo, SealM.wp_call_ok, hn,
    clog_two_pow, Nat.not_lt_zero, if_false, wp_of_ok (hbefore _), hpasses]
  refine wp_mono (wp_forRange (fun i temp w => i ≤ k ∧ temp.length = 2 ^ i ∧
    (∀ a < 2 ^ i, Assigned temp a) ∧ ∃ calls, InStep i calls w ∧
      OnlyExpansion (expansionElts params.polyModulusDegree) calls) ?_ ?_) ?_ (fun _ _ h => h)
  · rintro i temp w - - ⟨hi, hlen, hentries, calls, h, honly⟩
    rcases Nat.lt_or_eq_of_le hi with hlt | rfl
    · have hlevel : i < (expansionElts params.polyModulusDegree).length := by
        rw [helts, List.length_map, List.length_range]
        exact hlt
      have htrace : wp (expandLevel S params galkey (expansionElts params.polyModulusDegree) i temp)
          _ _ calls := expandLevel_trace honly hlevel hlen hentries
      rw [helts] at htrace
      apply wp_mono ((checkedLevel_inStep hn hk hlt h).wp_right htrace)
      · rintro _ w ⟨v, calls, ⟨hvlen, hv, honly⟩, rfl, -, h⟩
        rw [← helts] at honly
        exact ⟨hlt, hvlen, hv, calls, h, honly⟩
      · rintro _ w ⟨e, calls, ⟨-, hno⟩, -⟩
        rw [← helts] at hno
        exact absurd hS hno
    · have hlevel : (MachineOp.level i).Defined := trivial
      rw [checkedLevel, wp_bind, wp_check hlevel, hn]
      exact wp_bind_throws (levelInts_pastEnd (by omega))
  · refine ⟨Nat.zero_le k, rfl, fun a ha => ⟨encrypted, ?_⟩, _, ⟨rfl, MachineWorld.sane_start _⟩, ?_⟩
    · rw [Nat.lt_one_iff.1 ha]
      rfl
    · exact (onlyExpansion_nil _).snoc trivial
  · rintro temp w ⟨hle, -⟩
    omega

theorem checkedExpandQuery_safe_iff
    (hS : Serves S params galkey (expansionElts params.polyModulusDegree))
    (hn : params.polyModulusDegree = 2 ^ k) (hk : k ≤ 15) (hm : 1 ≤ m) (hmk : m ≤ 2 ^ k)
    (hbefore : ∀ w, beforeLevels w = (.ok (), w)) (encrypted : S.Ciphertext) :
    ExpandSafe (checkedExpandQuery S params galkey beforeLevels encrypted m) m ↔ 2 ≤ m ∧ k ≤ 14 := by
  constructor
  · intro hsafe
    by_contra hno
    rcases Nat.lt_or_eq_of_le hk with hlt | hoverflow
    · obtain rfl : m = 1 := by omega
      exact not_expandSafe_of_undefined (single_stops hS hn (by omega) hbefore encrypted) hsafe
    · exact not_expandSafe_of_undefined
        (overflow_stops hn hoverflow hmk hS.plaintext hbefore encrypted) hsafe
  · rintro ⟨hm, hk⟩
    exact expandSafe_of_le hS hn hk hm hmk hbefore encrypted

/-- Of the degrees and the numbers of entries that both copies admit, degree 32768 overflows, and a
single entry sends the level loop past the Galois elements. -/
theorem expandSafe_iff {relinKeysLocal : Except Exn Unit}
    (hS : Serves S params galkey (expansionElts params.polyModulusDegree))
    (hrelin : relinKeysLocal = .ok ()) (hpow : ∃ k, params.polyModulusDegree = 2 ^ k)
    (hdeg : params.polyModulusDegree ≤ 32768) (hm : 1 ≤ m) (hmn : m ≤ params.polyModulusDegree)
    (encrypted : S.Ciphertext) :
    (ExpandSafe (serverExpandQuery S params galkey encrypted m) m ↔
      2 ≤ m ∧ params.polyModulusDegree ≤ 16384) ∧
    (ExpandSafe (clientExpandQuery S params galkey relinKeysLocal encrypted m) m ↔
      2 ≤ m ∧ params.polyModulusDegree ≤ 16384) := by
  obtain ⟨k, hn⟩ := hpow
  have hle (d : Nat) : 2 ^ k ≤ 2 ^ d ↔ k ≤ d := Nat.pow_le_pow_iff_right (by omega)
  have hk : k ≤ 15 := (hle 15).1 (by rwa [hn] at hdeg)
  have hcond : params.polyModulusDegree ≤ 16384 ↔ k ≤ 14 := by
    rw [hn]
    exact hle 14
  rw [hn] at hmn
  rw [hcond]
  constructor
  · exact checkedExpandQuery_safe_iff hS hn hk hm hmn (fun _ => rfl) encrypted
  · apply checkedExpandQuery_safe_iff hS hn hk hm hmn _ encrypted
    intro w
    rw [hrelin]
    rfl

theorem expandSafe_demo :
    ExpandSafe (serverExpandQuery (exactSeal demoParams 0) demoParams
      (generateGaloisKeys (exactSeal demoParams 0) demoParams () (2 ^ 12)) rampQuery 4096) 4096 :=
  (expandSafe_iff (S := exactSeal demoParams 0) ((demo_ideal 0).serves (by norm_num [demoParams]))
    rfl ⟨12, by norm_num [demoParams]⟩ (by decide) (by decide) (by decide) rampQuery).1.2
    (by decide)

/-- Parameters of the largest degree that SEAL has default moduli for. -/
def largeParams : Params := ⟨32768, [0x7fffffffe90001, 0xfffffffff70001], 40961⟩

instance : NeZero largeParams.plainModulus := ⟨by decide⟩

theorem not_expandSafe_32768 :
    ¬ExpandSafe (serverExpandQuery (exactSeal largeParams 0) largeParams
      (generateGaloisKeys (exactSeal largeParams 0) largeParams () (2 ^ 15))
      (fun _ => 0 : Fin 32768 → ZMod 40961) 4096) 4096 := by
  have htwo : (exactSeal largeParams 0).plaintext ['2'] = .ok ⟨[2]⟩ :=
    plaintext_two (exactSeal_lawful 0 (by decide))
  exact not_expandSafe_of_undefined (overflow_stops (k := 15) (by norm_num [largeParams]) rfl
    (by norm_num) ⟨_, htwo⟩ (fun _ => rfl) _)

/-- In the types of the source, as with exact integers, either copy takes the query apart into its
residue classes, and no operation on the way is undefined. -/
theorem checkedExpandQuery_expands {keygen : S.KeyGenerator} {relinKeysLocal : Except Exn Unit}
    {encrypted : S.Ciphertext} (hS : S.Ideal params keygen) (hrelin : relinKeysLocal = .ok ())
    (hn : params.polyModulusDegree = 2 ^ k) (hdeg : params.polyModulusDegree ≤ 16384) (m : UInt32)
    (hm : 2 ≤ m.toNat) (hmn : m.toNat ≤ params.polyModulusDegree)
    (c : Nat → ZMod params.plainModulus)
    (hc : S.msg params keygen encrypted = ∑ j ∈ Finset.range (2 ^ k), c j • params.x ^ j) :
    ∃ v w w', serverExpandQuery S params (generateGaloisKeys S params keygen (2 ^ k)) encrypted
        m.toNat ⟨[], []⟩ = (.ok v, w) ∧
      clientExpandQuery S params (generateGaloisKeys S params keygen (2 ^ k)) relinKeysLocal
        encrypted m.toNat ⟨[], []⟩ = (.ok v, w') ∧
      (∀ op ∈ w.ops ++ w'.ops, op.Defined) ∧ w.calls = w'.calls ∧ v.length = m.toNat ∧
      ∀ a < m.toNat, ∃ e, v[a]? = some (some e) ∧
        S.msg params keygen e = expanded params k c m.toNat (Nat.clog 2 m.toNat - 1) a := by
  have hle : 2 ^ k ≤ 2 ^ 14 := hn ▸ hdeg
  have hk : k ≤ 14 := (Nat.pow_le_pow_iff_right (by omega)).1 hle
  have hmk : m.toNat ≤ 2 ^ k := hn ▸ hmn
  have hbefore (w : MachineWorld) :
      Machine.runSeal (lift (relinKeysLocal.mapError .throws)) w = (.ok (), w) := by
    rw [hrelin]
    rfl
  have hspec : wp (expandQuery S params (generateGaloisKeys S params keygen (2 ^ k)) encrypted
      m.toNat) _ _ [] := expandQuery_spec hS hn hm hmk m.toNat_lt hc
  obtain ⟨v, calls, hrun, hlen, hentries⟩ := wp_returns hspec
  obtain ⟨_, w, hserver, rfl, hcalls, hsane⟩ :=
    (checkedExpandQuery_inStep hn hk hm hmk (fun _ => rfl) encrypted).returns hrun
  obtain ⟨_, w', hclient, rfl, hcalls', hsane'⟩ :=
    (checkedExpandQuery_inStep hn hk hm hmk hbefore encrypted).returns hrun
  refine ⟨v, w, w', hserver, hclient, fun op hop => ?_, hcalls.trans hcalls'.symm, hlen, hentries⟩
  rcases List.mem_append.1 hop with hop | hop
  · exact hsane.defined op hop
  · exact hsane'.defined op hop

theorem checkedExpandQuery_expands_five :
    ∃ v w w', serverExpandQuery (exactSeal demoParams 0) demoParams
        (generateGaloisKeys (exactSeal demoParams 0) demoParams () (2 ^ 12)) rampQuery 5 ⟨[], []⟩ =
        (.ok v, w) ∧
      clientExpandQuery (exactSeal demoParams 0) demoParams
        (generateGaloisKeys (exactSeal demoParams 0) demoParams () (2 ^ 12)) (.ok ()) rampQuery 5
        ⟨[], []⟩ = (.ok v, w') ∧ v.length = 5 := by
  obtain ⟨v, w, w', hserver, hclient, -, -, hlen, -⟩ := checkedExpandQuery_expands (k := 12)
    (demo_ideal 0) rfl (by norm_num [demoParams]) (by decide) 5 (by decide) (by decide) _
    (rampQuery_msg 0)
  exact ⟨v, w, w', hserver, hclient, hlen⟩

end Lockstep

end MuchPIR
