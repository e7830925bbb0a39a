import MuchPIR.Lib.Memory
import MuchPIR.Lib.NegacyclicVector
import MuchPIR.State

namespace MuchPIR
open HexPoly Negacyclic
set_option autoImplicit true

def saveWords (ws : List Nat) : Bytes := ws.flatMap (leBytes 8)

def loadWord (bytes : Bytes) (i : Nat) : Nat := leNat ((bytes.drop (8 * i)).take 8)

theorem length_saveWords (ws : List Nat) : (saveWords ws).length = 8 * ws.length := by
  induction ws with
  | nil => rfl
  | cons w ws ih =>
    rw [saveWords, List.flatMap_cons, List.length_append, length_leBytes, ← saveWords, ih,
      List.length_cons]
    omega

theorem drop_saveWords (ws : List Nat) (rest : Bytes) :
    (saveWords ws ++ rest).drop (8 * ws.length) = rest :=
  List.drop_left' (length_saveWords ws)

theorem loadWord_saveWords {ws : List Nat} (hw : ∀ w ∈ ws, w < 2 ^ 64) (hi : i < ws.length)
    (rest : Bytes) : loadWord (saveWords ws ++ rest) i = ws.getD i 0 := by
  induction ws generalizing i with
  | nil => exact absurd hi (Nat.not_lt_zero i)
  | cons w ws ih =>
    rw [saveWords, List.flatMap_cons, List.append_assoc, ← saveWords]
    cases i with
    | zero =>
      have htake : (leBytes 8 w ++ (saveWords ws ++ rest)).take 8 = leBytes 8 w :=
        List.take_left' (length_leBytes 8 w)
      rw [loadWord, Nat.mul_zero, List.drop_zero, htake, leNat_leBytes, List.getD_cons_zero]
      exact Nat.mod_eq_of_lt (hw w List.mem_cons_self)
    | succ i =>
      have hdrop : (leBytes 8 w ++ (saveWords ws ++ rest)).drop (8 * (i + 1)) =
          (saveWords ws ++ rest).drop (8 * i) := by
        rw [Nat.mul_succ, Nat.add_comm, ← List.drop_drop, List.drop_left' (length_leBytes 8 w)]
      rw [List.getD_cons_succ, ← ih (fun w hw' => hw w (List.mem_cons_of_mem _ hw'))
        (Nat.lt_of_succ_lt_succ hi), loadWord, loadWord, hdrop]

/-- Parameters as words: degree, plain modulus, and the counted coefficient moduli. -/
def paramWords (params : Params) : List Nat :=
  params.polyModulusDegree :: params.plainModulus :: params.coeffModulus.length ::
    params.coeffModulus

def loadParamWords (bytes : Bytes) : Except Exn (Params × Bytes) :=
  if bytes.length < 8 * (3 + loadWord bytes 2) then .error (.runtimeError "I/O error")
  else .ok (⟨loadWord bytes 0, (List.range (loadWord bytes 2)).map fun i => loadWord bytes (3 + i),
    loadWord bytes 1⟩, bytes.drop (8 * (3 + loadWord bytes 2)))

theorem loadParamWords_save {params : Params} (h : ∀ w ∈ paramWords params, w < 2 ^ 64)
    (rest : Bytes) : loadParamWords (saveWords (paramWords params) ++ rest) = .ok (params, rest) := by
  have hlen : (paramWords params).length = 3 + params.coeffModulus.length := by
    rw [paramWords, List.length_cons, List.length_cons, List.length_cons]
    omega
  have hword (i : Nat) (hi : i < 3 + params.coeffModulus.length) :
      loadWord (saveWords (paramWords params) ++ rest) i = (paramWords params).getD i 0 :=
    loadWord_saveWords h (by omega) rest
  have hcount := hword 2 (by omega)
  have hdrop := drop_saveWords (paramWords params) rest
  rw [hlen] at hdrop
  have hmoduli : ((List.range params.coeffModulus.length).map fun i =>
      loadWord (saveWords (paramWords params) ++ rest) (3 + i)) = params.coeffModulus := by
    apply List.ext_getElem
    · rw [List.length_map, List.length_range]
    · intro i hi hi'
      rw [List.getElem_map, List.getElem_range, hword (3 + i) (by omega), Nat.add_comm]
      exact List.getD_eq_getElem _ _ hi'
  rw [loadParamWords, hcount, hword 0 (by omega), hword 1 (by omega)]
  change (if _ < 8 * (3 + params.coeffModulus.length) then _ else Except.ok (Params.mk
    params.polyModulusDegree ((List.range params.coeffModulus.length).map fun i =>
      loadWord (saveWords (paramWords params) ++ rest) (3 + i)) params.plainModulus,
    (saveWords (paramWords params) ++ rest).drop (8 * (3 + params.coeffModulus.length)))) = _
  rw [hmoduli, hdrop, if_neg]
  rw [List.length_append, length_saveWords, hlen]
  omega

def keyWords (keys : Fin n → Bool) : List Nat := List.ofFn fun p => if keys p then 1 else 0

theorem keyWords_getD (keys : Fin n → Bool) (p : Fin n) :
    (keyWords keys).getD p 0 = if keys p then 1 else 0 := by
  rw [keyWords, List.getD_eq_getElem _ _ (by rw [List.length_ofFn]; exact p.isLt),
    List.getElem_ofFn]

theorem keyWords_le_one (keys : Fin n → Bool) : ∀ w ∈ keyWords keys, w ≤ 1 := by
  intro w hw
  obtain ⟨p, rfl⟩ := (List.mem_ofFn' _ _).1 hw
  dsimp only
  split <;> omega

theorem length_le_of_spells (h : Spells s ts) : ts.length ≤ s.length := by
  induction h with
  | const hne _ => exact List.length_pos_iff.2 hne
  | power hne _ _ =>
    have hpos := List.length_pos_iff.2 hne
    simp only [List.length_append, List.length_cons, List.length_nil]
    omega
  | cons _ _ _ _ ih =>
    simp only [List.length_append, List.length_cons]
    omega

section Scheme

variable (params : Params) (pad : Nat)

/-- An exact scheme without secrets: a ciphertext is the message vector, saved as one word for
each coefficient and `pad` bytes more. -/
def exactSeal [NeZero params.plainModulus] : Seal where
  Ciphertext := Fin params.polyModulusDegree → ZMod params.plainModulus
  GaloisKeys := Fin params.polyModulusDegree → Bool
  KeyGenerator := Unit
  Coins := Unit
  comprModeDefault := .none
  plaintext s :=
    match readTerms (s.length + 1) s with
    | some ts => .ok (.ofTerms ts)
    | none => .error (.invalidArgument "unable to parse hex_poly")
  toString p := print p.coeffs
  saveParams _ p := saveWords (paramWords p)
  loadParams := loadParamWords
  saveGaloisKeys _ keys := saveWords (keyWords keys)
  loadGaloisKeys _ bytes :=
    if bytes.length < 8 * params.polyModulusDegree then .error (.runtimeError "I/O error")
    else .ok (fun p => decide (loadWord bytes p = 1), bytes.drop (8 * params.polyModulusDegree))
  saveCiphertext _ c := saveWords (residues c) ++ List.replicate pad 0
  loadCiphertext _ bytes :=
    if bytes.length < 8 * params.polyModulusDegree + pad then .error (.runtimeError "I/O error")
    else .ok (fun p => (loadWord bytes p : ZMod params.plainModulus),
      bytes.drop (8 * params.polyModulusDegree + pad))
  galoisKeys _ _ elts := fun p => decide (2 * (p : Nat) + 1 ∈ elts)
  encrypt _ _ _ p :=
    if p.coeffs.length ≤ params.polyModulusDegree ∧ ∀ k ∈ p.coeffs, k < params.plainModulus then
      .ok (ofResidues _ _ p.coeffs)
    else .error (.invalidArgument "plain is not valid for encryption parameters")
  decrypt _ _ c := .ok ⟨residues c⟩
  size _ := 2
  applyGalois _ c g keys :=
    if h : g / 2 < params.polyModulusDegree then
      if g % 2 = 1 ∧ keys ⟨g / 2, h⟩ then .ok (substPow g c)
      else .error (.invalidArgument "Galois key not present")
    else .error (.invalidArgument "Galois element is not valid")
  add _ c d := .ok (c + d)
  multiplyPlain _ c p :=
    if params.polyModulusDegree < p.coeffs.length then
      .error (.invalidArgument "plain is not valid for encryption parameters")
    else if p.IsZero then .error (.logicError "result ciphertext is transparent")
    else .ok (mulCoeffs c p.coeffs)
  negacyclicShift c index _ := shift index c

variable {params} [NeZero params.plainModulus]

theorem exactSeal_msg (c : Fin params.polyModulusDegree → ZMod params.plainModulus) :
    (exactSeal params pad).msg params () c = toRing c :=
  mk_residues c

theorem residues_lt (c : Fin params.polyModulusDegree → ZMod params.plainModulus) :
    ∀ k ∈ residues c, k < params.plainModulus := by
  intro k hk
  obtain ⟨p, rfl⟩ := (List.mem_ofFn' _ _).1 hk
  exact ZMod.val_lt _

theorem loadGaloisKeys_save (mode : ComprMode) (keys : Fin params.polyModulusDegree → Bool)
    (rest : Bytes) :
    (exactSeal params pad).loadGaloisKeys params
      ((exactSeal params pad).saveGaloisKeys mode keys ++ rest) = .ok (keys, rest) := by
  have hlen : (keyWords keys).length = params.polyModulusDegree := List.length_ofFn
  have hdrop := drop_saveWords (keyWords keys) rest
  have hword (p : Fin params.polyModulusDegree) :
      loadWord (saveWords (keyWords keys) ++ rest) p = if keys p then 1 else 0 := by
    rw [loadWord_saveWords (fun w hw => (keyWords_le_one keys w hw).trans_lt (by norm_num))
      (by rw [hlen]; exact p.isLt), keyWords_getD]
  rw [hlen] at hdrop
  simp only [exactSeal, hword, hdrop]
  rw [if_neg]
  · congr 2
    funext p
    cases keys p <;> rfl
  · rw [List.length_append, length_saveWords, hlen]
    omega

theorem loadCiphertext_save (ht : params.plainModulus ≤ 2 ^ 64) (mode : ComprMode)
    (c : Fin params.polyModulusDegree → ZMod params.plainModulus) (rest : Bytes) :
    (exactSeal params pad).loadCiphertext params
      ((exactSeal params pad).saveCiphertext mode c ++ rest) = .ok (c, rest) := by
  have hlen : (residues c).length = params.polyModulusDegree := List.length_ofFn
  have hdrop := drop_saveWords (residues c) (List.replicate pad 0 ++ rest)
  have hword (p : Fin params.polyModulusDegree) :
      loadWord (saveWords (residues c) ++ (List.replicate pad 0 ++ rest)) p = (c p).val := by
    rw [loadWord_saveWords (fun w hw => (residues_lt c w hw).trans_le ht)
      (by rw [hlen]; exact p.isLt), residues_getD]
  rw [hlen] at hdrop
  simp only [exactSeal, List.append_assoc, hword, ZMod.natCast_zmod_val, ← List.drop_drop, hdrop,
    List.drop_left' List.length_replicate]
  rw [if_neg]
  simp only [List.length_append, length_saveWords, List.length_replicate, hlen]
  omega

theorem applyGalois_returns (c : Fin params.polyModulusDegree → ZMod params.plainModulus)
    {elts : List Nat} (hg : g ∈ elts) (hodd : Odd g) (hlt : g < 2 * params.polyModulusDegree) :
    (exactSeal params pad).applyGalois params c g
      ((exactSeal params pad).galoisKeys params () elts) = .ok (substPow g c) := by
  have hmod := Nat.odd_iff.1 hodd
  have hback : 2 * (g / 2) + 1 = g := by omega
  have hmem : 2 * (g / 2) + 1 ∈ elts := by rwa [hback]
  have hdiv : g / 2 < params.polyModulusDegree := by omega
  simp only [exactSeal, dif_pos hdiv, hmod, hmem, decide_true, and_self, if_true]

theorem exactSeal_lawful (h : ∀ w ∈ paramWords params, w < 2 ^ 64) :
    (exactSeal params pad).Lawful params () where
  plaintext_of_spells {s ts} hs _ := by
    have hread := readTerms_of_spells hs ((length_le_of_spells hs).trans (Nat.le_succ _))
    simp only [exactSeal, hread]
  toString_eq p := rfl
  loadParams_save mode rest := by
    simp only [exactSeal, loadParamWords_save h]
  loadGaloisKeys_save := loadGaloisKeys_save pad
  loadCiphertext_save := loadCiphertext_save pad (h params.plainModulus (by simp [paramWords])).le
  size_eq c := rfl
  encrypt_returns coins p hlen hlt := ⟨ofResidues _ _ p.coeffs, by
    simp only [exactSeal]
    rw [if_pos ⟨hlen, hlt⟩]⟩
  decrypt_returns c := ⟨⟨residues c⟩, rfl, (List.length_ofFn).le, residues_lt c⟩
  applyGalois_returns c elts helts g hg :=
    ⟨substPow g c, applyGalois_returns pad c hg (helts g hg).1 (helts g hg).2⟩
  add_returns _ _ := ⟨_, rfl⟩
  multiplyPlain_returns c p hlen hzero := by
    refine ⟨mulCoeffs c p.coeffs, ?_⟩
    simp only [exactSeal, if_neg (Nat.not_lt.2 hlen), if_neg hzero]
  multiplyPlain_throws c p hbad := by
    rcases Nat.lt_or_ge params.polyModulusDegree p.coeffs.length with hlt | hge
    · refine ⟨.invalidArgument "plain is not valid for encryption parameters", ?_⟩
      simp only [exactSeal, if_pos hlt]
    · refine ⟨.logicError "result ciphertext is transparent", ?_⟩
      simp only [exactSeal, if_neg (Nat.not_lt.2 hge), if_pos (hbad.resolve_left (Nat.not_lt.2 hge))]

section Messages

variable (c d : Fin params.polyModulusDegree → ZMod params.plainModulus)

theorem msg_add : (exactSeal params pad).msg params () (c + d) =
    (exactSeal params pad).msg params () c + (exactSeal params pad).msg params () d := by
  rw [exactSeal_msg, exactSeal_msg, exactSeal_msg, toRing_add]

theorem msg_substPow (hn : 0 < params.polyModulusDegree) (hg : Odd g) :
    (exactSeal params pad).msg params () (substPow g c) =
      galois g hg ((exactSeal params pad).msg params () c) := by
  rw [exactSeal_msg, exactSeal_msg, toRing_substPow hn hg]

theorem msg_mulCoeffs (hn : 0 < params.polyModulusDegree) (p : Plaintext) :
    (exactSeal params pad).msg params () (mulCoeffs c p.coeffs) =
      (exactSeal params pad).msg params () c * p.denote params := by
  rw [exactSeal_msg, exactSeal_msg, toRing_mulCoeffs hn]
  rfl

theorem msg_shift (hn : 0 < params.polyModulusDegree) (index : Nat) :
    (exactSeal params pad).msg params () (shift index c) =
      params.x ^ index * (exactSeal params pad).msg params () c := by
  rw [exactSeal_msg, exactSeal_msg, toRing_shift hn]

end Messages

theorem exactSeal_ideal (hn : 0 < params.polyModulusDegree)
    (h : ∀ w ∈ paramWords params, w < 2 ^ 64) : (exactSeal params pad).Ideal params () where
  toLawful := exactSeal_lawful pad h
  msg_encrypt {coins p c} henc := by
    simp only [exactSeal] at henc
    split at henc
    · next hp =>
      cases henc
      rw [exactSeal_msg, toRing_ofResidues hp.1]
      rfl
    · cases henc
  msg_add {c d e} hadd := by
    cases hadd
    exact msg_add pad c d
  msg_applyGalois {g c keys d} hg hgal := by
    simp only [exactSeal] at hgal
    split at hgal
    · split at hgal
      · cases hgal
        exact msg_substPow pad c hn hg
      · cases hgal
    · cases hgal
  msg_multiplyPlain {c p d} hmul := by
    simp only [exactSeal] at hmul
    split at hmul
    · cases hmul
    · split at hmul
      · cases hmul
      · cases hmul
        exact msg_mulCoeffs pad c hn p
  msg_negacyclicShift c index := msg_shift pad c hn index

theorem length_saveCiphertext (mode : ComprMode)
    (c : Fin params.polyModulusDegree → ZMod params.plainModulus) :
    ((exactSeal params pad).saveCiphertext mode c).length = 8 * params.polyModulusDegree + pad := by
  change (saveWords (residues c) ++ List.replicate pad (0 : UInt8)).length = _
  rw [List.length_append, length_saveWords, List.length_replicate, residues, List.length_ofFn]

theorem exactSeal_fits (hcipher : 8 * params.polyModulusDegree + pad ≤ cipherSize2Bytes)
    (hparam : 8 * (3 + params.coeffModulus.length) ≤ parameterBytes) :
    FitsSlots (exactSeal params pad) params := by
  constructor
  · have hlen : (saveWords (paramWords params)).length = 8 * (paramWords params).length :=
      length_saveWords _
    have hwords : (paramWords params).length = 3 + params.coeffModulus.length := by
      rw [paramWords, List.length_cons, List.length_cons, List.length_cons]
      omega
    rw [hwords] at hlen
    exact hlen.le.trans hparam
  · exact fun c => (length_saveCiphertext pad _ c).le.trans hcipher

end Scheme

/-- The client's parameters, with SEAL's default moduli for degree 4096. -/
def demoParams : Params := ⟨4096, [0xffffee001, 0xffffc4001, 0x1ffffe0001], 40961⟩

instance : NeZero demoParams.plainModulus := ⟨by decide⟩

theorem demo_ideal (pad : Nat) : (exactSeal demoParams pad).Ideal demoParams () :=
  exactSeal_ideal pad (by decide) (by decide)

theorem demo_fits : FitsSlots (exactSeal demoParams 0) demoParams :=
  exactSeal_fits 0 (by decide) (by decide)

/-- The query with coefficient `p` at power `p`. -/
def rampQuery : Fin demoParams.polyModulusDegree → ZMod demoParams.plainModulus := fun p => (p : Nat)

theorem rampQuery_msg (pad : Nat) : (exactSeal demoParams pad).msg demoParams () rampQuery =
    ∑ j ∈ Finset.range (2 ^ 12), ((j : Nat) : ZMod demoParams.plainModulus) • demoParams.x ^ j := by
  rw [exactSeal_msg, toRing]
  exact (Finset.sum_range fun j => ((j : Nat) : ZMod demoParams.plainModulus) •
    demoParams.x ^ j).symm

end MuchPIR
