import MuchPIR.Expand

namespace MuchPIR
open Prog Negacyclic
set_option autoImplicit true

variable {S : Seal} {params : Params} {keygen : S.KeyGenerator}

def Holds (keygen : S.KeyGenerator) (v : List (Option S.Ciphertext)) (a : Nat)
    (r : params.Ring) : Prop :=
  ∃ e, v[a]? = some (some e) ∧ S.msg params keygen e = r

theorem Holds.set_ne {v : List (Option S.Ciphertext)} {r : params.Ring}
    (h : Holds keygen v b r) (hne : a ≠ b) (o : Option S.Ciphertext) :
    Holds keygen (v.set a o) b r := by
  obtain ⟨e, he, hr⟩ := h
  exact ⟨e, by rw [List.getElem?_set_ne hne, he], hr⟩

theorem Holds.set_self {v : List (Option S.Ciphertext)} {r : params.Ring}
    (ha : a < v.length) (hr : S.msg params keygen e = r) :
    Holds keygen (v.set a (some e)) a r :=
  ⟨e, List.getElem?_set_self ha, hr⟩

theorem clog_two_pow (k : Nat) : Nat.clog 2 (2 ^ k) = k := Nat.clog_pow 2 k (by omega)

theorem galoisElt_eq (k i : Nat) : (2 ^ k + 2 ^ i) / 2 ^ i = 2 ^ k / 2 ^ i + 1 :=
  Nat.add_div_right _ (Nat.two_pow_pos i)

theorem galoisElt_odd (hi : i < k) : Odd ((2 ^ k + 2 ^ i) / 2 ^ i) := by
  rw [galoisElt_eq k i, Nat.pow_div hi.le (by omega)]
  exact (Nat.even_pow.2 ⟨even_two, by omega⟩).add_one

theorem galoisElt_lt (hi : i < k) : (2 ^ k + 2 ^ i) / 2 ^ i < 2 * 2 ^ k := by
  rw [galoisElt_eq k i]
  have hle : 2 ^ k / 2 ^ i ≤ 2 ^ k := Nat.div_le_self _ _
  have hk : 2 ^ 1 ≤ 2 ^ k := Nat.pow_le_pow_right (by omega) (by omega)
  omega

theorem generateGaloisElts_two_pow (k : Nat) :
    generateGaloisElts (2 ^ k) = (List.range k).map fun i => (2 ^ k + 2 ^ i) / 2 ^ i := by
  rw [generateGaloisElts, getPowerOfTwo, Nat.log_pow (by omega), if_pos rfl, Int.toNat_natCast]

theorem multiplyPowerOfX_spec (hS : S.Lawful params keygen) (c : S.Ciphertext) (index : Nat)
    {E : Fault → List SealOp → Prop} :
    wp (multiplyPowerOfX S params c index)
      (fun d _ => d = S.negacyclicShift c index params.coeffModulus) E log := by
  simp only [multiplyPowerOfX, hS.size_eq, forRange, wp_bind, SealM.wp_call_ok, wp_pure]

variable {k : Nat} {c : Nat → ZMod params.plainModulus}

theorem applyGalois_level (hS : S.Lawful params keygen) (hn : params.polyModulusDegree = 2 ^ k)
    (hi : i < k) (e : S.Ciphertext) :
    ∃ d, S.applyGalois params e ((2 ^ k + 2 ^ i) / 2 ^ i)
      (generateGaloisKeys S params keygen (2 ^ k)) = .ok d := by
  rw [generateGaloisKeys, generateGaloisElts_two_pow]
  apply hS.applyGalois_returns
  · intro g hg
    obtain ⟨i, hi, rfl⟩ := List.mem_map.1 hg
    have hlt := List.mem_range.1 hi
    rw [hn]
    exact ⟨galoisElt_odd hlt, galoisElt_lt hlt⟩
  · exact List.mem_map_of_mem (List.mem_range.2 hi)

/-- A butterfly splits the residue class of its entry in two and doubles it. -/
theorem butterfly_spec (hS : S.Ideal params keygen) (hn : params.polyModulusDegree = 2 ^ k)
    (hi : i < k) (ha : a < 2 ^ i)
    (hold : Holds keygen temp a (2 ^ i * residue params.x (2 ^ k) c (2 ^ i) a)) :
    wp (butterfly S params (generateGaloisKeys S params keygen (2 ^ k))
        ((2 ^ k + 2 ^ i) / 2 ^ i) (2 * 2 ^ k - 2 ^ i)
        ((2 * 2 ^ k - 2 ^ i) * ((2 ^ k + 2 ^ i) / 2 ^ i) % (2 * 2 ^ k)) temp a newtemp)
      (fun v _ => ∃ f h, v = (newtemp.set a (some f)).set (a + temp.length) (some h) ∧
        S.msg params keygen f = 2 ^ (i + 1) * residue params.x (2 ^ k) c (2 ^ (i + 1)) a ∧
        S.msg params keygen h =
          2 ^ (i + 1) * residue params.x (2 ^ k) c (2 ^ (i + 1)) (a + 2 ^ i))
      (fun _ _ => False) log := by
  obtain ⟨e, he, hmsg⟩ := hold
  obtain ⟨rotated, hrot⟩ := applyGalois_level hS.toLawful hn hi e
  obtain ⟨sum, hsum⟩ := hS.add_returns e rotated
  have hodd := galoisElt_odd hi
  have hmrot := hS.msg_applyGalois hodd hrot
  have hx : params.x ^ 2 ^ k = -1 := hn ▸ root_pow
  have hdvd : 2 ^ i ∣ 2 ^ k := pow_dvd_pow 2 hi.le
  have hσ : galois _ hodd params.x = params.x ^ (2 ^ k / 2 ^ i + 1) := by
    rw [← galoisElt_eq k i]
    exact galois_root hodd
  simp only [butterfly, entry_eq_ok he, hrot, hsum, wp_bind, wp_lift_ok, SealM.wp_call_ok]
  apply wp_mono (multiplyPowerOfX_spec hS.toLawful e _) _ (fun _ _ h => h)
  rintro shifted log' rfl
  apply wp_mono (multiplyPowerOfX_spec hS.toLawful rotated _) _ (fun _ _ h => h)
  rintro rotatedshifted log'' rfl
  obtain ⟨sum', hsum'⟩ := hS.add_returns
    (S.negacyclicShift e (2 * 2 ^ k - 2 ^ i) params.coeffModulus)
    (S.negacyclicShift rotated
      ((2 * 2 ^ k - 2 ^ i) * ((2 ^ k + 2 ^ i) / 2 ^ i) % (2 * 2 ^ k)) params.coeffModulus)
  simp only [hsum', SealM.wp_call_ok, wp_pure]
  have hshift := shift_residue_add_galois (c := c) hx (Nat.two_pow_pos k) (Nat.two_pow_pos i) hdvd
    ha hσ
  rw [← galoisElt_eq k i] at hshift
  refine ⟨sum, sum', rfl, ?_, ?_⟩
  · rw [hS.msg_add hsum, hmrot, hmsg, map_mul, map_pow, map_ofNat, ← mul_add,
      residue_add_galois hx (Nat.two_pow_pos i) hdvd ha hσ, ← pow_succ, ← mul_assoc, ← pow_succ]
  · rw [hS.msg_add hsum', hS.msg_negacyclicShift, hS.msg_negacyclicShift, hmrot, hmsg, map_mul,
      map_pow, map_ofNat, mul_left_comm, mul_left_comm (params.x ^ _) (2 ^ i), ← mul_add, hshift,
      ← pow_succ, ← mul_assoc, ← pow_succ]

/-- After `a` passes over entries: those below `a` are assigned, and so are their second halves
as far as `limit`. -/
structure Filled (keygen : S.KeyGenerator) (len limit : Nat) (low high : Nat → params.Ring)
    (a : Nat) (v : List (Option S.Ciphertext)) : Prop where
  length_eq : v.length = 2 * len
  low_holds : ∀ b < a, Holds keygen v b (low b)
  high_holds : ∀ b < a, b < limit → Holds keygen v (b + len) (high b)

theorem Filled.start (len limit : Nat) (low high : Nat → params.Ring) :
    Filled (S := S) keygen len limit low high 0 (List.replicate (2 * len) none) :=
  ⟨List.length_replicate, fun _ h => absurd h (Nat.not_lt_zero _),
    fun _ h => absurd h (Nat.not_lt_zero _)⟩

variable {low high : Nat → params.Ring} {v : List (Option S.Ciphertext)}

theorem Filled.both (h : Filled keygen len limit low high a v) (ha : a < len)
    (hf : S.msg params keygen f = low a) (hg : S.msg params keygen g = high a) :
    Filled keygen len limit low high (a + 1) ((v.set a (some f)).set (a + len) (some g)) := by
  have hlen := h.length_eq
  have hlen' : (v.set a (some f)).length = 2 * len := by rw [List.length_set, hlen]
  refine ⟨by rw [List.length_set, hlen'], ?_, ?_⟩
  · intro b hb
    rcases Nat.lt_succ_iff_lt_or_eq.1 hb with hlt | rfl
    · exact ((h.low_holds b hlt).set_ne (by omega) _).set_ne (by omega) _
    · exact (Holds.set_self (by omega) hf).set_ne (by omega) _
  · intro b hb hlim
    rcases Nat.lt_succ_iff_lt_or_eq.1 hb with hlt | rfl
    · exact ((h.high_holds b hlt hlim).set_ne (by omega) _).set_ne (by omega) _
    · exact Holds.set_self (by omega) hg

theorem Filled.single (h : Filled keygen len limit low high a v) (ha : a < len)
    (hlim : limit ≤ a) (hf : S.msg params keygen f = low a) :
    Filled keygen len limit low high (a + 1) (v.set a (some f)) := by
  have hlen := h.length_eq
  refine ⟨by rw [List.length_set, hlen], ?_, ?_⟩
  · intro b hb
    rcases Nat.lt_succ_iff_lt_or_eq.1 hb with hlt | rfl
    · exact (h.low_holds b hlt).set_ne (by omega) _
    · exact Holds.set_self (by omega) hf
  · intro b hb hlt
    exact (h.high_holds b (by omega) hlt).set_ne (by omega) _

/-- The entries before level `i`: residue class `a` modulo `2 ^ i`, scaled by `2 ^ i`. -/
def AtLevel (keygen : S.KeyGenerator) (k : Nat) (c : Nat → ZMod params.plainModulus) (i : Nat)
    (temp : List (Option S.Ciphertext)) : Prop :=
  temp.length = 2 ^ i ∧
    ∀ a < 2 ^ i, Holds keygen temp a (2 ^ i * residue params.x (2 ^ k) c (2 ^ i) a)

theorem entry_galoisElts (hi : i < k) :
    entry (((List.range k).map fun i => (2 ^ k + 2 ^ i) / 2 ^ i).map some) i =
      .ok ((2 ^ k + 2 ^ i) / 2 ^ i) := by
  apply entry_eq_ok
  rw [List.map_map, List.getElem?_map, List.getElem?_range hi]
  rfl

theorem expandLevel_spec (hS : S.Ideal params keygen) (hn : params.polyModulusDegree = 2 ^ k)
    (hi : i < k) (h : AtLevel keygen k c i temp) :
    wp (expandLevel S params (generateGaloisKeys S params keygen (2 ^ k))
        ((List.range k).map fun i => (2 ^ k + 2 ^ i) / 2 ^ i) i temp)
      (fun v _ => AtLevel keygen k c (i + 1) v) (fun _ _ => False) log := by
  obtain ⟨hlen, hentries⟩ := h
  simp only [expandLevel, entry_galoisElts hi, wp_bind, wp_lift_ok, hn, hlen]
  refine wp_mono (wp_forRange (fun a v _ => Filled keygen (2 ^ i) (2 ^ i)
    (fun a => 2 ^ (i + 1) * residue params.x (2 ^ k) c (2 ^ (i + 1)) a)
    (fun a => 2 ^ (i + 1) * residue params.x (2 ^ k) c (2 ^ (i + 1)) (a + 2 ^ i)) a v)
    ?_ (Filled.start _ _ _ _)) ?_ (fun _ _ h => h)
  · intro a v log' _ ha hv
    apply wp_mono (butterfly_spec hS hn hi (by omega) (hentries a (by omega))) _ (fun _ _ h => h)
    intro _ _ hpost
    obtain ⟨f, g, rfl, hf, hg⟩ := hpost
    rw [hlen]
    exact hv.both (by omega) hf hg
  · intro v _ hv
    refine ⟨by rw [hv.length_eq, pow_succ, mul_comm], fun a ha => ?_⟩
    rw [zero_add] at hv
    by_cases hlt : a < 2 ^ i
    · exact hv.low_holds a hlt
    · have hb : a - 2 ^ i < 2 ^ i := by rw [pow_succ] at ha; omega
      have h := hv.high_holds (a - 2 ^ i) hb hb
      rwa [Nat.sub_add_cancel (by omega)] at h

/-- The value of entry `a` of the expansion to `m` entries, of which the last level is `last`. -/
noncomputable def expanded (params : Params) (k : Nat) (c : Nat → ZMod params.plainModulus)
    (m last a : Nat) : params.Ring :=
  if m - 2 ^ last ≤ a ∧ a < 2 ^ last then
    2 ^ (last + 1) * residue params.x (2 ^ k) c (2 ^ last) a
  else 2 ^ (last + 1) * residue params.x (2 ^ k) c (2 ^ (last + 1)) a

theorem spells_two : HexPoly.Spells ['2'] [⟨2, 0⟩] :=
  HexPoly.Spells.const (List.cons_ne_nil _ _) (List.all_eq_true.1 (by decide))

theorem plaintext_two (hS : S.Lawful params keygen) : S.plaintext ['2'] = .ok ⟨[2]⟩ :=
  hS.plaintext_of_spells spells_two (by decide)

theorem denote_two : (⟨[2]⟩ : Plaintext).denote params = 2 := by
  simp only [Plaintext.denote, ofCoeffs, Nat.cast_ofNat, mul_zero, add_zero, map_ofNat]

theorem doubleEntry_spec (hS : S.Ideal params keygen) (hn : params.polyModulusDegree = 2 ^ k)
    {r : params.Ring} (hold : Holds keygen temp a r) :
    wp (doubleEntry S params ⟨[2]⟩ temp a newtemp)
      (fun v _ => ∃ f, v = newtemp.set a (some f) ∧ S.msg params keygen f = 2 * r)
      (fun _ _ => False) log := by
  obtain ⟨e, he, hr⟩ := hold
  have hpos := Nat.two_pow_pos k
  obtain ⟨d, hd⟩ := hS.multiplyPlain_returns e ⟨[2]⟩ (by rw [hn]; exact hpos) (by decide)
  simp only [doubleEntry, entry_eq_ok he, hd, wp_bind, wp_lift_ok, SealM.wp_call_ok, wp_pure]
  exact ⟨d, rfl, by rw [hS.msg_multiplyPlain hd, denote_two, hr, mul_comm]⟩

theorem expandLast_spec (hS : S.Ideal params keygen) (hn : params.polyModulusDegree = 2 ^ k)
    (hi : last < k) (hm : 2 ^ last < m) (hm' : m ≤ 2 ^ (last + 1))
    (h : AtLevel keygen k c last temp) :
    wp (expandLast S params (generateGaloisKeys S params keygen (2 ^ k))
        ((List.range k).map fun i => (2 ^ k + 2 ^ i) / 2 ^ i) ⟨[2]⟩ m last temp)
      (fun v _ => v.length = 2 ^ (last + 1) ∧ ∀ a < m, Holds keygen v a (expanded params k c m last a))
      (fun _ _ => False) log := by
  obtain ⟨hlen, hentries⟩ := h
  simp only [expandLast, entry_galoisElts hi, wp_bind, wp_lift_ok, hn, hlen]
  refine wp_mono (wp_forRange (fun a v _ => Filled keygen (2 ^ last) (m - 2 ^ last)
    (expanded params k c m last) (fun a => expanded params k c m last (a + 2 ^ last)) a v)
    ?_ (Filled.start _ _ _ _)) ?_ (fun _ _ h => h)
  · intro a v log' _ ha hv
    split
    · next hcorner =>
      apply wp_mono (doubleEntry_spec hS hn (hentries a (by omega))) _ (fun _ _ h => h)
      intro _ _ hpost
      obtain ⟨f, rfl, hf⟩ := hpost
      refine hv.single (by omega) hcorner ?_
      rw [hf, expanded, if_pos ⟨hcorner, by omega⟩, ← mul_assoc, ← pow_succ']
    · next hcorner =>
      apply wp_mono (butterfly_spec hS hn hi (by omega) (hentries a (by omega))) _
        (fun _ _ h => h)
      intro _ _ hpost
      obtain ⟨f, g, rfl, hf, hg⟩ := hpost
      rw [hlen]
      refine hv.both (by omega) ?_ ?_
      · rw [hf, expanded, if_neg (by omega)]
      · rw [hg, expanded, if_neg (by omega)]
  · intro v _ hv
    rw [zero_add] at hv
    refine ⟨by rw [hv.length_eq, pow_succ, mul_comm], fun a ha => ?_⟩
    rw [pow_succ] at hm'
    by_cases hlt : a < 2 ^ last
    · exact hv.low_holds a hlt
    · have h := hv.high_holds (a - 2 ^ last) (by omega) (by omega)
      rwa [Nat.sub_add_cancel (by omega)] at h

theorem Holds.take {r : params.Ring} (h : Holds keygen v a r) (ha : a < m) :
    Holds keygen (v.take m) a r := by
  obtain ⟨e, he, hr⟩ := h
  exact ⟨e, by rw [List.getElem?_take_of_lt ha, he], hr⟩

/-- The expansion of `∑ j, c j * x ^ j`: it returns `m` entries, all assigned. -/
theorem expandQuery_spec (hS : S.Ideal params keygen) (hn : params.polyModulusDegree = 2 ^ k)
    (hm : 2 ≤ m) (hmk : m ≤ 2 ^ k) (hm32 : m < 2 ^ 32)
    (hc : S.msg params keygen encrypted = ∑ j ∈ Finset.range (2 ^ k), c j • params.x ^ j) :
    wp (expandQuery S params (generateGaloisKeys S params keygen (2 ^ k)) encrypted m)
      (fun v _ => v.length = m ∧
        ∀ a < m, Holds keygen v a (expanded params k c m (Nat.clog 2 m - 1) a))
      (fun _ _ => False) log := by
  have hpos : 0 < Nat.clog 2 m := Nat.clog_pos (by omega) hm
  have hk : Nat.clog 2 m ≤ k := Nat.clog_le_of_le_pow hmk
  have h32 : Nat.clog 2 m ≤ 32 := Nat.clog_le_of_le_pow hm32.le
  have hlow : 2 ^ (Nat.clog 2 m - 1) < m := Nat.pow_pred_clog_lt_self (by omega) hm
  have hhigh : m ≤ 2 ^ (Nat.clog 2 m - 1 + 1) := by
    rw [Nat.sub_add_cancel hpos]
    exact Nat.le_pow_clog (by omega) m
  have hlast : (Nat.clog 2 m + (2 ^ 32 - 1)) % 2 ^ 32 = Nat.clog 2 m - 1 := by omega
  simp only [expandQuery, plaintext_two hS.toLawful, wp_bind, SealM.wp_call_ok, hn, clog_two_pow,
    if_neg (Nat.not_lt.2 hk), hlast]
  refine wp_mono (wp_forRange (fun i temp _ => AtLevel keygen k c i temp) ?_ ?_) ?_ (fun _ _ h => h)
  · intro i temp log' _ hi h
    exact expandLevel_spec hS hn (by omega) h
  · refine ⟨rfl, fun a ha => ⟨encrypted, ?_, ?_⟩⟩
    · rw [Nat.lt_one_iff.1 ha]
      rfl
    · rw [Nat.lt_one_iff.1 ha, pow_zero, pow_zero, one_mul, residue_one, hc]
  · intro temp log' h
    rw [zero_add] at h
    apply wp_mono (expandLast_spec hS hn (by omega) hlow hhigh h) _ (fun _ _ h => h)
    intro v _ hpost
    obtain ⟨hlen, hv⟩ := hpost
    refine ⟨by rw [List.length_take, hlen]; omega, fun a ha => (hv a ha).take ha⟩

/-- A polynomial without terms from `m` on is taken apart into its coefficients. -/
theorem expanded_of_support (hc : ∀ j, m ≤ j → j < 2 ^ k → c j = 0) (hlow : 2 ^ last < m)
    (hhigh : m ≤ 2 ^ (last + 1)) (hmk : m ≤ 2 ^ k) (ha : a < m) :
    expanded params k c m last a = 2 ^ (last + 1) * c a • (1 : params.Ring) := by
  rw [expanded]
  split
  · next hcorner =>
    rw [residue_eq_single _ hcorner.2 (by omega)]
    intro j hj hmod hne
    -- the next member of the class is `a + 2 ^ last`, which is already past `m`
    have hge : 2 ^ last ≤ j := by
      by_contra hlt
      exact hne ((Nat.mod_eq_of_lt (Nat.not_le.1 hlt)).symm.trans hmod)
    have hsub := Nat.mod_le (j - 2 ^ last) (2 ^ last)
    rw [← Nat.mod_eq_sub_mod hge, hmod] at hsub
    exact hc j (by omega) hj
  · rw [residue_eq_single _ (by omega) (by omega)]
    intro j hj hmod hne
    have hge : 2 ^ (last + 1) ≤ j := by
      by_contra hlt
      exact hne ((Nat.mod_eq_of_lt (Nat.not_le.1 hlt)).symm.trans hmod)
    exact hc j (by omega) hj

end MuchPIR
