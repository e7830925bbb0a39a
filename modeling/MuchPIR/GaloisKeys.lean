import MuchPIR.ExpandMachine

namespace MuchPIR
open Prog
set_option autoImplicit true

variable {S : Seal} {params : Params} {galkey : S.GaloisKeys} {elts : List Nat} {two : Plaintext}

/-- SEAL with the keys of these Galois elements: `apply_galois` returns where it has the key, and
the other calls of an expansion return. -/
structure KeysOf (S : Seal) (params : Params) (galkey : S.GaloisKeys) (elts : List Nat) : Prop where
  applyGalois : ∀ g c, (∃ d, S.applyGalois params c g galkey = .ok d) ↔ g ∈ elts
  add : ∀ c d, ∃ e, S.add params c d = .ok e
  plaintext : ∃ two, S.plaintext ['2'] = .ok two
  double : ∀ two, S.plaintext ['2'] = .ok two → ∀ c, ∃ d, S.multiplyPlain params c two = .ok d

/-- The Galois elements of an expansion to `m` entries: one for each level. -/
def levelElts (n m : Nat) : List Nat := (List.range (Nat.clog 2 m)).map fun i => (n + 2 ^ i) / 2 ^ i

theorem mem_levelElts : g ∈ levelElts n m ↔ ∃ i < Nat.clog 2 m, (n + 2 ^ i) / 2 ^ i = g := by
  rw [levelElts, List.mem_map]
  simp only [List.mem_range]

theorem KeysOf.serves (h : KeysOf S params galkey elts)
    (hkeys : ∀ g ∈ levelElts params.polyModulusDegree m, g ∈ elts) :
    Serves S params galkey (levelElts params.polyModulusDegree m) where
  applyGalois g hg c := (h.applyGalois g c).2 (hkeys g hg)
  add := h.add
  plaintext := h.plaintext
  double := h.double

theorem entry_levelElts (hi : i < Nat.clog 2 m) :
    entry ((levelElts n m).map some) i = .ok ((n + 2 ^ i) / 2 ^ i) := by
  apply entry_eq_ok
  rw [levelElts, List.getElem?_map, List.getElem?_map, List.getElem?_range hi]
  rfl

section Enough

/-- A level reads its own element only. -/
theorem expandLevel_levelElts (hi : i < Nat.clog 2 m) (hm : m ≤ params.polyModulusDegree)
    (temp : List (Option S.Ciphertext)) :
    expandLevel S params galkey (expansionElts params.polyModulusDegree) i temp =
      expandLevel S params galkey (levelElts params.polyModulusDegree m) i temp := by
  have hn := hi.trans_le (Nat.clog_mono_right 2 hm)
  rw [expandLevel, expandLevel, expansionElts, ← levelElts, entry_levelElts hn, entry_levelElts hi]

theorem expandLast_levelElts (hi : last < Nat.clog 2 m) (hm : m ≤ params.polyModulusDegree)
    (temp : List (Option S.Ciphertext)) :
    expandLast S params galkey (expansionElts params.polyModulusDegree) two m last temp =
      expandLast S params galkey (levelElts params.polyModulusDegree m) two m last temp := by
  have hn := hi.trans_le (Nat.clog_mono_right 2 hm)
  rw [expandLast, expandLast, expansionElts, ← levelElts, entry_levelElts hn, entry_levelElts hi]

theorem expandQuery_served (hm : 2 ≤ m) (hmn : m ≤ params.polyModulusDegree) (hm32 : m < 2 ^ 32)
    (hS : Serves S params galkey (levelElts params.polyModulusDegree m))
    (h : OnlyExpansion (levelElts params.polyModulusDegree m) ops) (encrypted : S.Ciphertext) :
    wp (expandQuery S params galkey encrypted m) (fun _ _ => True) (fun _ _ => False) ops := by
  have hpos : 0 < Nat.clog 2 m := Nat.clog_pos (by omega) hm
  have h32 : Nat.clog 2 m ≤ 32 := Nat.clog_le_of_le_pow hm32.le
  have hhigh : m ≤ 2 ^ (Nat.clog 2 m - 1 + 1) := by
    rw [Nat.sub_add_cancel hpos]
    exact Nat.le_pow_clog (by omega) m
  have hlast : (Nat.clog 2 m + (2 ^ 32 - 1)) % 2 ^ 32 = Nat.clog 2 m - 1 := by omega
  have helts : (List.range (Nat.clog 2 params.polyModulusDegree)).map
      (fun i => (params.polyModulusDegree + 2 ^ i) / 2 ^ i) =
      expansionElts params.polyModulusDegree := rfl
  have hlen : (levelElts params.polyModulusDegree m).length = Nat.clog 2 m := by
    rw [levelElts, List.length_map, List.length_range]
  have hstop : ∀ e ops, NotServed S params galkey (levelElts params.polyModulusDegree m) e ops →
      False := fun _ _ h => h.2 hS
  simp only [expandQuery, wp_bind, hlast, helts]
  apply wp_mono (wp_call_onlyExpansion (.plaintext ['2']) h trivial fun hS => hS.plaintext) _ hstop
  intro two ops hpost
  obtain ⟨htwo, h⟩ := hpost
  rw [if_neg (Nat.not_lt.2 (Nat.clog_mono_right 2 hmn))]
  simp only [wp_bind, wp_pure]
  refine wp_mono (wp_forRange (fun i temp ops => temp.length = 2 ^ i ∧
    (∀ a < 2 ^ i, Assigned temp a) ∧
    OnlyExpansion (levelElts params.polyModulusDegree m) ops) ?_ ?_) ?_ hstop
  · intro i temp ops _ hi hpost
    obtain ⟨hlevel, hentries, h⟩ := hpost
    rw [expandLevel_levelElts (by omega) hmn]
    exact expandLevel_trace h (by omega) hlevel hentries
  · refine ⟨rfl, fun a ha => ⟨encrypted, ?_⟩, h⟩
    rw [Nat.lt_one_iff.1 ha]
    rfl
  · intro temp ops hpost
    rw [zero_add] at hpost
    obtain ⟨hlevel, hentries, h⟩ := hpost
    rw [expandLast_levelElts (by omega) hmn]
    exact wp_mono (expandLast_trace h htwo (by omega) hhigh hlevel hentries) (fun _ _ _ => trivial)
      hstop

end Enough

section Missing

theorem butterfly_misses (hg : ∀ c d, S.applyGalois params c g galkey ≠ .ok d)
    (temp newtemp : List (Option S.Ciphertext)) :
    wp (butterfly S params galkey g indexRaw index temp a newtemp) (fun _ _ => False)
      (fun _ _ => True) ops := by
  rw [butterfly]
  apply wp_bind_any
  intro c ops
  apply wp_bind_throws
  exact SealM.wp_call (fun d hd => hg c d hd) fun _ _ => trivial

theorem expandLevel_length (galoisElts : List Nat) (i : Nat) (temp : List (Option S.Ciphertext)) :
    wp (expandLevel S params galkey galoisElts i temp) (fun v _ => v.length = 2 * temp.length)
      (fun _ _ => True) ops := by
  rw [expandLevel]
  apply wp_bind_any
  intro galoisElt ops
  refine wp_forRange (fun _ (v : List (Option S.Ciphertext)) _ => v.length = 2 * temp.length) ?_
    List.length_replicate
  intro a v ops _ _ hv
  exact wp_mono (butterfly_length temp v) (fun _ _ h => h.trans hv) fun _ _ h => h

theorem forRange_throws {body : Nat → σ → Prog ω ε σ} (hpos : 0 < count)
    (h : wp (body 0 s) (fun _ _ => False) (fun _ _ => True) w) :
    wp (forRange 0 count body s) (fun _ _ => False) (fun _ _ => True) w := by
  obtain ⟨k, rfl⟩ := Nat.exists_eq_succ_of_ne_zero hpos.ne'
  rw [forRange]
  exact wp_bind_throws h

theorem expandLevel_misses (hi : i < Nat.clog 2 n)
    (hg : ∀ c d, S.applyGalois params c ((n + 2 ^ i) / 2 ^ i) galkey ≠ .ok d)
    (temp : List (Option S.Ciphertext)) (hpos : 0 < temp.length) :
    wp (expandLevel S params galkey (levelElts n n) i temp) (fun _ _ => False)
      (fun _ _ => True) ops := by
  rw [expandLevel, entry_levelElts hi, lift_ok_bind]
  exact forRange_throws hpos (butterfly_misses hg _ _)

theorem expandLast_misses (hi : last < Nat.clog 2 n) (hlow : 2 ^ last < m)
    (hg : ∀ c d, S.applyGalois params c ((n + 2 ^ last) / 2 ^ last) galkey ≠ .ok d)
    (temp : List (Option S.Ciphertext)) (hpos : 0 < temp.length) :
    wp (expandLast S params galkey (levelElts n n) two m last temp) (fun _ _ => False)
      (fun _ _ => True) ops := by
  rw [expandLast, entry_levelElts hi, lift_ok_bind]
  apply forRange_throws hpos
  rw [if_neg (by omega)]
  exact butterfly_misses hg _ _

theorem expandQuery_misses (hm : 2 ≤ m) (hm32 : m < 2 ^ 32) (hi : i < Nat.clog 2 m)
    (hg : ∀ c d, S.applyGalois params c
      ((params.polyModulusDegree + 2 ^ i) / 2 ^ i) galkey ≠ .ok d) (encrypted : S.Ciphertext) :
    wp (expandQuery S params galkey encrypted m) (fun _ _ => False) (fun _ _ => True) ops := by
  have hpos : 0 < Nat.clog 2 m := Nat.clog_pos (by omega) hm
  have h32 : Nat.clog 2 m ≤ 32 := Nat.clog_le_of_le_pow hm32.le
  have hlast : (Nat.clog 2 m + (2 ^ 32 - 1)) % 2 ^ 32 = Nat.clog 2 m - 1 := by omega
  have helts : (List.range (Nat.clog 2 params.polyModulusDegree)).map
      (fun i => (params.polyModulusDegree + 2 ^ i) / 2 ^ i) =
      levelElts params.polyModulusDegree params.polyModulusDegree := rfl
  rw [expandQuery]
  apply wp_bind_any
  intro two ops
  dsimp only
  rw [hlast, helts]
  split
  · trivial
  · next hroom =>
    rw [wp_bind]
    -- the levels before `i` may return, level `i` does not
    refine wp_mono (wp_forRange (fun j temp _ => j ≤ i ∧ temp.length = 2 ^ j) ?_
      ⟨Nat.zero_le i, rfl⟩) ?_ fun _ _ h => h
    · intro j temp ops _ hj hpost
      obtain ⟨hle, hlength⟩ := hpost
      rcases hle.eq_or_lt with rfl | hlt
      · exact wp_mono (expandLevel_misses (by omega) hg temp
          (by rw [hlength]; exact Nat.two_pow_pos j)) (fun _ _ h => h.elim) fun _ _ h => h
      · apply wp_mono (expandLevel_length _ j temp) _ fun _ _ h => h
        intro v _ hv
        exact ⟨hlt, by rw [hv, hlength, pow_succ']⟩
    · intro temp ops hpost
      obtain ⟨hle, hlength⟩ := hpost
      rw [zero_add] at hle hlength
      have heq : Nat.clog 2 m - 1 = i := by omega
      rw [heq]
      apply wp_bind_throws
      apply expandLast_misses (by omega) _ hg temp (by rw [hlength]; exact Nat.two_pow_pos _)
      rw [← heq]
      exact Nat.pow_pred_clog_lt_self (by omega) hm

end Missing

theorem expandQuery_returns_iff (hS : KeysOf S params galkey elts) (hm : 2 ≤ m)
    (hmn : m ≤ params.polyModulusDegree) (hm32 : m < 2 ^ 32) (encrypted : S.Ciphertext) :
    (∃ v ops, expandQuery S params galkey encrypted m [] = (.ok v, ops)) ↔
      ∀ i < Nat.clog 2 m, (params.polyModulusDegree + 2 ^ i) / 2 ^ i ∈ elts := by
  constructor
  · rintro ⟨v, ops, hrun⟩ i hi
    by_contra hmissing
    have hg (c d : S.Ciphertext) : S.applyGalois params c
        ((params.polyModulusDegree + 2 ^ i) / 2 ^ i) galkey ≠ .ok d :=
      fun hd => hmissing ((hS.applyGalois _ c).1 ⟨d, hd⟩)
    exact wp_ok (expandQuery_misses hm hm32 hi hg encrypted) hrun
  · intro hkeys
    have hserves := hS.serves (m := m) fun g hg => by
      obtain ⟨i, hi, rfl⟩ := mem_levelElts.1 hg
      exact hkeys i hi
    obtain ⟨v, ops, hrun, -⟩ :=
      wp_returns (expandQuery_served hm hmn hm32 hserves (onlyExpansion_nil _) encrypted)
    exact ⟨v, ops, hrun⟩

theorem levelElts_two_pow (hm : m ≤ 2 ^ k) :
    levelElts (2 ^ k) m = (generateGaloisElts (2 ^ k)).take (Nat.clog 2 m) := by
  have hlog : Nat.clog 2 m ≤ k := Nat.clog_le_of_le_pow hm
  rw [← expansionElts_two_pow, expansionElts, clog_two_pow, ← List.map_take, List.take_range,
    Nat.min_eq_left hlog, levelElts]

/-- An expansion to `m` entries needs the first keys that the client makes, one for each level, and
no other. -/
theorem expandQuery_needs_keys (hS : KeysOf S params galkey elts)
    (hn : params.polyModulusDegree = 2 ^ k) (m : UInt32) (hm : 2 ≤ m.toNat)
    (hmn : m.toNat ≤ 2 ^ k) (encrypted : S.Ciphertext) :
    (∃ v ops, expandQuery S params galkey encrypted m.toNat [] = (.ok v, ops)) ↔
      ∀ g ∈ (generateGaloisElts (2 ^ k)).take (Nat.clog 2 m.toNat), g ∈ elts := by
  have hreturns := expandQuery_returns_iff hS hm (by rw [hn]; exact hmn) m.toNat_lt encrypted
  rw [hreturns, ← levelElts_two_pow hmn, hn]
  constructor
  · intro hkeys g hg
    obtain ⟨i, hi, rfl⟩ := mem_levelElts.1 hg
    exact hkeys i hi
  · intro hkeys i hi
    exact hkeys _ (mem_levelElts.2 ⟨i, hi, rfl⟩)

theorem exactSeal_keysOf [NeZero params.plainModulus] (pad : Nat)
    (hwords : ∀ w ∈ paramWords params, w < 2 ^ 64) (hpos : 0 < params.polyModulusDegree)
    (hodd : ∀ g ∈ elts, Odd g) (hlt : ∀ g ∈ elts, g < 2 * params.polyModulusDegree) :
    KeysOf (exactSeal params pad) params ((exactSeal params pad).galoisKeys params () elts)
      elts where
  applyGalois g c := by
    constructor
    · rintro ⟨d, hd⟩
      simp only [exactSeal] at hd
      split_ifs at hd with hrange hkey
      obtain ⟨hmod, hmem⟩ := hkey
      have hback : 2 * (g / 2) + 1 = g := by omega
      rw [hback] at hmem
      exact of_decide_eq_true hmem
    · intro hg
      exact ⟨_, applyGalois_returns pad c hg (hodd g hg) (hlt g hg)⟩
  add _ _ := ⟨_, rfl⟩
  plaintext := ⟨_, plaintext_two (exactSeal_lawful pad hwords)⟩
  double two htwo c := by
    rw [plaintext_two (exactSeal_lawful pad hwords)] at htwo
    cases htwo
    exact (exactSeal_lawful pad hwords).multiplyPlain_returns c ⟨[2]⟩ hpos (by decide)

theorem expandQuery_needs_keys_five :
    ∃ v ops, expandQuery (exactSeal demoParams 0) demoParams
      ((exactSeal demoParams 0).galoisKeys demoParams () [4097, 2049, 1025]) rampQuery 5 [] =
        (.ok v, ops) := by
  have hkeys : KeysOf (exactSeal demoParams 0) demoParams
      ((exactSeal demoParams 0).galoisKeys demoParams () [4097, 2049, 1025])
      [4097, 2049, 1025] :=
    exactSeal_keysOf 0 (by decide) (by decide) (by decide) (by decide)
  apply (expandQuery_needs_keys (k := 12) hkeys (by norm_num [demoParams]) 5 (by decide)
    (by decide) rampQuery).2
  have hfive : (5 : UInt32).toNat = 5 := rfl
  have hlog : Nat.clog 2 5 = 3 := by
    apply Nat.le_antisymm (Nat.clog_le_of_le_pow (by norm_num))
    exact (Nat.lt_clog_iff_pow_lt (by norm_num)).2 (by norm_num)
  rw [hfive, hlog, generateGaloisElts_two_pow]
  decide

end MuchPIR
