import MuchPIR.ExpandSemantics
import MuchPIR.Server

namespace MuchPIR
open Prog Server
set_option autoImplicit true

variable {S : Seal} {params : Params} {keygen : S.KeyGenerator}

/-- The rows that the server can multiply: not all zero, at most `n` bytes, the last one ASCII. -/
def Accepted (n : Nat) (row : Bytes) : Prop :=
  (∃ b ∈ row, b ≠ 0) ∧ row.length ≤ n ∧ (row.getD (row.length - 1) 0).toNat < 0x80

instance (n : Nat) (row : Bytes) : Decidable (Accepted n row) :=
  have : Decidable (∃ b ∈ row, b ≠ 0) := List.decidableBEx _ row
  inferInstanceAs (Decidable (_ ∧ _ ∧ _))

theorem accepted_iff (n : Nat) (row : Bytes) :
    Accepted n row ↔ (row.getD (row.length - 1) 0).toNat < 0x80 ∧
      (rowPlain row).coeffs.length ≤ n ∧ ¬(rowPlain row).IsZero := by
  have hzero : ¬(rowPlain row).IsZero ↔ ∃ b ∈ row, b ≠ 0 := by
    rw [rowPlain_isZero]
    push Not
    rfl
  rw [Accepted, hzero]
  constructor
  · rintro ⟨hne, hlen, hlast⟩
    exact ⟨hlast, (rowPlain_length_le row).trans hlen, hne⟩
  · rintro ⟨hlast, hlen, hne⟩
    rw [rowPlain_of_nonzero hne, List.length_reverse, List.length_map] at hlen
    exact ⟨hne, hlen, hlast⟩

theorem encodeRow_spec (hS : S.Lawful params keygen) (row : Bytes) :
    wp (encodeRow S row)
      (fun plain _ => (row.getD (row.length - 1) 0).toNat < 0x80 ∧ plain = rowPlain row)
      (fun _ _ => ¬(row.getD (row.length - 1) 0).toNat < 0x80) log := by
  by_cases hne : row = []
  · subst hne
    have hread : S.plaintext ['0', '0'] = .ok (rowPlain []) := by
      rw [hS.plaintext_of_spells spells_zero (by decide)]
      rfl
    simp only [encodeRow, stringToHexPoly_nil, hread, wp_bind, wp_lift_ok, SealM.wp_call_ok]
    exact ⟨by decide, trivial⟩
  · by_cases hlast : (row.getD (row.length - 1) 0).toNat < 128
    · simp only [encodeRow, stringToHexPoly_eq hne, if_pos hlast, hS.plaintext_rowText hne,
        wp_bind, wp_lift_ok, SealM.wp_call_ok]
      exact ⟨hlast, trivial⟩
    · simp only [encodeRow, stringToHexPoly_eq hne, if_neg hlast, wp_bind, wp_lift_error]
      exact hlast

theorem multiplyRow_spec (hS : S.Ideal params keygen) (c : S.Ciphertext)
    (hlast : (row.getD (row.length - 1) 0).toNat < 0x80) :
    wp (SealM.call op (S.multiplyPlain params c (rowPlain row)))
      (fun d _ => Accepted params.polyModulusDegree row ∧
        S.msg params keygen d = S.msg params keygen c * (rowPlain row).denote params)
      (fun _ _ => ¬Accepted params.polyModulusDegree row) log := by
  by_cases hacc : Accepted params.polyModulusDegree row
  · obtain ⟨-, hlen, hzero⟩ := (accepted_iff _ row).1 hacc
    obtain ⟨d, hd⟩ := hS.multiplyPlain_returns c (rowPlain row) hlen hzero
    rw [hd, SealM.wp_call_ok]
    exact ⟨hacc, hS.msg_multiplyPlain hd⟩
  · have hbad : params.polyModulusDegree < (rowPlain row).coeffs.length ∨ (rowPlain row).IsZero := by
      by_contra hno
      push Not at hno
      exact hacc ((accepted_iff _ row).2 ⟨hlast, hno.1, hno.2⟩)
    obtain ⟨e, he⟩ := hS.multiplyPlain_throws c (rowPlain row) hbad
    rw [he, SealM.wp_call_error]
    exact hacc

/-- The message unloads as given parameters, the keys of a client, and a ciphertext. -/
def Unloads (S : Seal) (params : Params) (keygen : S.KeyGenerator) (query : Bytes)
    (c : S.Ciphertext) : Prop :=
  ∃ s1 s2 s3, S.loadParams query = .ok (params, s1) ∧
    S.loadGaloisKeys params s1 =
      .ok (generateGaloisKeys S params keygen params.polyModulusDegree, s2) ∧
    S.loadCiphertext params s2 = .ok (c, s3)

theorem loadQuery_spec (hq : Unloads S params keygen query c) :
    wp (loadQuery S query)
      (fun r _ => r = (params, generateGaloisKeys S params keygen params.polyModulusDegree, c))
      (fun _ _ => False) log := by
  obtain ⟨s1, s2, s3, hparams, hkeys, hc⟩ := hq
  simp only [loadQuery, hparams, hkeys, hc, wp_bind, SealM.wp_call_ok, wp_pure]

section Slots

variable (S params)

def slotsBefore (dims : Nat → S.Ciphertext) (jj : Nat) : Field → Option Bytes
  | .param => some (S.saveParams S.comprModeDefault params)
  | .accum => none
  | .dim1 i => if i < jj then some (S.saveCiphertext S.comprModeDefault (dims i)) else none

def slots (dims : Nat → S.Ciphertext) (accum : S.Ciphertext) : Field → Option Bytes
  | .param => some (S.saveParams S.comprModeDefault params)
  | .accum => some (S.saveCiphertext S.comprModeDefault accum)
  | .dim1 i => if i < polyDegree then some (S.saveCiphertext S.comprModeDefault (dims i)) else none

variable {S} (dims : Nat → S.Ciphertext)

theorem update_slotsBefore_param :
    Function.update (fun _ => none) .param (some (S.saveParams S.comprModeDefault params)) =
      slotsBefore S params dims 0 := by
  funext f
  cases f <;> rfl

theorem update_slotsBefore (jj : Nat) :
    Function.update (slotsBefore S params dims jj) (.dim1 jj)
      (some (S.saveCiphertext S.comprModeDefault (dims jj))) =
      slotsBefore S params dims (jj + 1) := by
  funext f
  by_cases hf : f = .dim1 jj
  · rw [hf, Function.update_self, slotsBefore, if_pos (Nat.lt_succ_self jj)]
  · rw [Function.update_of_ne hf]
    cases f with
    | param => rfl
    | accum => rfl
    | dim1 i =>
      have hne : i ≠ jj := fun h => hf (by rw [h])
      have hlt : i < jj ↔ i < jj + 1 := by omega
      simp only [slotsBefore, hlt]

theorem update_slotsBefore_accum (accum : S.Ciphertext) :
    Function.update (slotsBefore S params dims polyDegree) .accum
      (some (S.saveCiphertext S.comprModeDefault accum)) = slots S params dims accum := by
  funext f
  cases f <;> rfl

theorem update_slots_accum (accum accum' : S.Ciphertext) :
    Function.update (slots S params dims accum) .accum
      (some (S.saveCiphertext S.comprModeDefault accum')) = slots S params dims accum' := by
  funext f
  cases f <;> rfl

end Slots

/-- As long as SEAL's objects fit, the first `jj` entries of the expanded query are in the state. -/
def SavedBefore (S : Seal) (params : Params) (dims : Nat → S.Ciphertext) (jj : Nat)
    (b : Bytea) : Prop :=
  FitsSlots S params → fields.Represents b.data (slotsBefore S params dims jj)

theorem storeExpanded_spec {v : List (Option S.Ciphertext)} {dims : Nat → S.Ciphertext}
    (hv : ∀ a < v.length, v[a]? = some (some (dims a))) (h : SavedBefore S params dims 0 new) :
    wp (storeExpanded S v new) (fun new' _ => SavedBefore S params dims v.length new')
      (fun _ _ => False) w := by
  rw [storeExpanded]
  refine wp_mono (wp_forRange (fun jj new' _ => SavedBefore S params dims jj new') ?_ h) ?_
    (fun _ _ h => h)
  · intro jj new' w' _ hjj h
    simp only [entry_eq_ok (hv jj (by omega)), wp_bind, wp_lift_ok, wp_storeInto]
    intro hfit
    rw [← update_slotsBefore]
    exact Bytea.represents_store (h hfit) (.dim1 jj) (hfit.dim1 jj (dims jj))
  · intro new' w' h
    rwa [zero_add] at h

structure Running (S : Seal) (params : Params) (dims : Nat → S.Ciphertext) (k : Nat)
    (accum : S.Ciphertext) (b : Bytea) : Prop where
  rowIdx_eq : b.rowIdx = k
  holds : fields.Represents b.data (slots S params dims accum)

namespace Running

variable {dims : Nat → S.Ciphertext} {accum : S.Ciphertext}

theorem load_param (h : Running S params dims k accum b) :
    fields.load b.data .param = S.saveParams S.comprModeDefault params :=
  (h.holds .param _ rfl).1

theorem load_accum (h : Running S params dims k accum b) :
    fields.load b.data .accum = S.saveCiphertext S.comprModeDefault accum :=
  (h.holds .accum _ rfl).1

theorem load_dim1 (h : Running S params dims k accum b) (hjj : jj < polyDegree) :
    fields.load b.data (.dim1 jj) = S.saveCiphertext S.comprModeDefault (dims jj) :=
  (h.holds (.dim1 jj) _ (if_pos hjj)).1

theorem next (h : Running S params dims k accum b) (hfit : FitsSlots S params)
    (hk : k + 1 < 2 ^ 64) (accum' : S.Ciphertext) :
    Running S params dims (k + 1) accum'
      ((b.store .accum (S.saveCiphertext S.comprModeDefault accum')).setRowIdx
        ((b.store .accum (S.saveCiphertext S.comprModeDefault accum')).rowIdx + 1)) where
  rowIdx_eq := by
    rw [Bytea.rowIdx_store, h.rowIdx_eq]
    exact Bytea.rowIdx_setRowIdx _ hk
  holds := by
    have hstore := Bytea.represents_store h.holds .accum (hfit.accum accum')
    rw [update_slots_accum] at hstore
    exact Bytea.represents_setRowIdx hstore _

end Running

variable {k : Nat} {coeffs : Nat → ZMod params.plainModulus}

/-- The expansion of the query, in the order of the state's `dim1`. -/
def Expanded (params : Params) (keygen : S.KeyGenerator) (k : Nat)
    (coeffs : Nat → ZMod params.plainModulus) (dims : Nat → S.Ciphertext) : Prop :=
  ∀ jj < polyDegree, S.msg params keygen (dims jj) = expanded params k coeffs dbSize 11 jj

theorem clog_dbSize : Nat.clog 2 dbSize = 12 := by
  have hpow : dbSize = 2 ^ 12 := by norm_num [dbSize]
  rw [hpow, Nat.clog_pow 2 12 (by omega)]

theorem expandQuery_dims (hS : S.Ideal params keygen) (hn : params.polyModulusDegree = 2 ^ k)
    (hk : 12 ≤ k)
    (hc : S.msg params keygen c = ∑ j ∈ Finset.range (2 ^ k), coeffs j • params.x ^ j) :
    wp (expandQuery S params (generateGaloisKeys S params keygen params.polyModulusDegree) c dbSize)
      (fun v _ => v.length = polyDegree ∧ ∃ dims, Expanded params keygen k coeffs dims ∧
        ∀ a < polyDegree, v[a]? = some (some (dims a)))
      (fun _ _ => False) log := by
  have hle : dbSize ≤ 2 ^ k := Nat.pow_le_pow_right two_pos hk
  rw [hn]
  apply wp_mono (expandQuery_spec hS hn (by rw [dbSize]; omega) hle (by rw [dbSize]; omega) hc) _
    (fun _ _ h => h)
  intro v log' hpost
  obtain ⟨hlen, hv⟩ := hpost
  rw [clog_dbSize] at hv
  have hnonempty : Nonempty S.Ciphertext := ⟨c⟩
  choose! dims hdims using hv
  exact ⟨hlen, dims, fun jj hjj => (hdims jj hjj).2, fun a ha => (hdims a ha).1⟩

theorem firstTransition_spec (hS : S.Ideal params keygen)
    (hn : params.polyModulusDegree = 2 ^ k) (hk : 12 ≤ k)
    (hq : Unloads S params keygen query c)
    (hc : S.msg params keygen c = ∑ j ∈ Finset.range (2 ^ k), coeffs j • params.x ^ j)
    (hzero : w.state.rowIdx = 0) :
    wp (pirSelectInternal S palloc query row)
      (fun _ w' => Accepted params.polyModulusDegree row ∧ ∃ dims accum,
        Expanded params keygen k coeffs dims ∧
        (FitsSlots S params → Running S params dims 1 accum w'.state) ∧
        S.msg params keygen accum = S.msg params keygen (dims 0) * (rowPlain row).denote params)
      (fun _ _ => ¬Accepted params.polyModulusDegree row) w := by
  have hnever {P : Fault → World → Prop} : ∀ e w, False → P e w := fun _ _ h => h.elim
  simp only [pirSelectInternal, wp_bind, wp_get, if_pos hzero, firstCall, wp_runSeal]
  apply wp_mono (loadQuery_spec hq) _ (fun _ _ h => h.elim)
  rintro _ ops rfl
  apply wp_mono (expandQuery_dims hS hn hk hc) _ (fun _ _ h => h.elim)
  intro hcubeDim1 ops' hpost
  obtain ⟨hlen, dims, hexp, hdims⟩ := hpost
  rw [wp_storeInto]
  have hparam : SavedBefore S params dims 0
      (Bytea.store ⟨stateTSize, palloc⟩ .param (S.saveParams S.comprModeDefault params)) := by
    intro hfit
    rw [← update_slotsBefore_param]
    exact Bytea.represents_store (Layout.represents_none _) .param hfit.param
  rw [← hlen] at hdims
  apply wp_mono (storeExpanded_spec hdims hparam) _ hnever
  intro nstate w3 hslots
  rw [hlen] at hdims hslots
  apply wp_mono (encodeRow_spec hS.toLawful row) _
    (fun _ _ h => fun hacc => h ((accepted_iff _ row).1 hacc).1)
  intro _ ops3 hpost
  obtain ⟨hlast, rfl⟩ := hpost
  simp only [entry_eq_ok (hdims 0 (by rw [polyDegree]; omega)), wp_lift_ok]
  apply wp_mono (multiplyRow_spec hS (dims 0) hlast) _ (fun _ _ h => h)
  intro accum ops4 hpost
  obtain ⟨hacc, hmsg⟩ := hpost
  simp only [wp_storeInto, wp_pure, wp_modify]
  refine ⟨hacc, dims, accum, hexp, fun hfit => ⟨?_, ?_⟩, hmsg⟩
  · exact Bytea.rowIdx_setRowIdx _ (by norm_num)
  · have hstore := Bytea.represents_store (hslots hfit) .accum (hfit.accum accum)
    rw [update_slotsBefore_accum] at hstore
    exact Bytea.represents_setRowIdx hstore 1

theorem laterTransition_spec (hS : S.Ideal params keygen) (hfit : FitsSlots S params)
    {dims : Nat → S.Ciphertext} {accum : S.Ciphertext}
    (hpos : 0 < k) (hk : k < dbSize) (h : Running S params dims k accum w.state) :
    wp (pirSelectInternal S palloc query row)
      (fun _ w' => Accepted params.polyModulusDegree row ∧ ∃ accum',
        Running S params dims (k + 1) accum' w'.state ∧
        S.msg params keygen accum' = S.msg params keygen accum +
          S.msg params keygen (dims k) * (rowPlain row).denote params)
      (fun _ _ => ¬Accepted params.polyModulusDegree row) w := by
  have hparam := hS.loadParams_saved S.comprModeDefault
  have hdim1 := hS.loadCiphertext_saved S.comprModeDefault (dims k)
  have haccum := hS.loadCiphertext_saved S.comprModeDefault accum
  simp only [pirSelectInternal, laterCall, wp_bind, wp_get, h.rowIdx_eq,
    if_neg (Nat.pos_iff_ne_zero.1 hpos), if_neg (Nat.not_lt.2 hk.le), wp_loadField, h.load_param,
    h.load_dim1 hk, h.load_accum, hparam, hdim1, haccum, wp_runSeal, SealM.wp_call_ok]
  apply wp_mono (encodeRow_spec hS.toLawful row) _
    (fun _ _ h => fun hacc => h ((accepted_iff _ row).1 hacc).1)
  intro _ ops hpost
  obtain ⟨hlast, rfl⟩ := hpost
  apply wp_mono (multiplyRow_spec hS (dims k) hlast) _ (fun _ _ h => h)
  intro product ops' hpost
  obtain ⟨hacc, hmsg⟩ := hpost
  obtain ⟨result, hresult⟩ := hS.add_returns product accum
  simp only [hresult, SealM.wp_call_ok, wp_storeField, wp_modify]
  have hdb : dbSize = 4096 := rfl
  refine ⟨hacc, result, h.next hfit (by omega) result, ?_⟩
  rw [hS.msg_add hresult, hmsg, add_comm]

noncomputable def selected (params : Params) (r : Nat → params.Ring) (k : Nat)
    (rows : List Bytes) : params.Ring :=
  ∑ i ∈ Finset.range rows.length, r (k + i) * (rowPlain (rows.getD i [])).denote params

theorem selected_cons (r : Nat → params.Ring) (k : Nat) (row : Bytes) (rows : List Bytes) :
    selected params r k (row :: rows) =
      r k * (rowPlain row).denote params + selected params r (k + 1) rows := by
  rw [selected, selected, List.length_cons, Finset.sum_range_succ', add_comm]
  congr 1
  apply Finset.sum_congr rfl
  intro i _
  rw [List.getD_cons_succ, Nat.add_right_comm, Nat.add_assoc]

theorem laterTransitions_spec (hS : S.Ideal params keygen) (hfit : FitsSlots S params)
    {dims : Nat → S.Ciphertext} {accum : S.Ciphertext}
    (hpos : 0 < k) (hk : k + rows.length ≤ dbSize) (h : Running S params dims k accum w.state) :
    wp (transitions S palloc query rows)
      (fun _ w' => (∀ row ∈ rows, Accepted params.polyModulusDegree row) ∧ ∃ accum',
        Running S params dims (k + rows.length) accum' w'.state ∧
        S.msg params keygen accum' = S.msg params keygen accum +
          selected params (fun i => S.msg params keygen (dims i)) k rows)
      (fun _ _ => ¬∀ row ∈ rows, Accepted params.polyModulusDegree row) w := by
  induction rows generalizing k accum w with
  | nil =>
    refine ⟨fun _ h => absurd h List.not_mem_nil, accum, h, ?_⟩
    rw [selected, List.length_nil, Finset.sum_range_zero, add_zero]
  | cons row rows ih =>
    rw [List.length_cons] at hk
    rw [transitions, wp_bind]
    apply wp_mono (laterTransition_spec hS hfit hpos (by omega) h)
    · intro _ w' hpost
      obtain ⟨hacc, accum', h', hmsg⟩ := hpost
      apply wp_mono (ih (Nat.succ_pos k) (by omega) h')
      · intro _ w'' hpost
        obtain ⟨hall, accum'', h'', hmsg'⟩ := hpost
        refine ⟨List.forall_mem_cons.2 ⟨hacc, hall⟩, accum'', ?_, ?_⟩
        · rwa [List.length_cons, Nat.add_comm rows.length, ← Nat.add_assoc]
        · rw [hmsg', hmsg, selected_cons, add_assoc]
      · exact fun _ _ hno hall => hno (List.forall_mem_cons.1 hall).2
    · exact fun _ _ hno hall => hno (List.forall_mem_cons.1 hall).1

theorem transitions_spec (hS : S.Ideal params keygen) (hfit : FitsSlots S params)
    (hn : params.polyModulusDegree = 2 ^ k) (hk : 12 ≤ k)
    (hq : Unloads S params keygen query c)
    (hc : S.msg params keygen c = ∑ j ∈ Finset.range (2 ^ k), coeffs j • params.x ^ j)
    (hne : rows ≠ []) (hrows : rows.length ≤ dbSize) (hzero : w.state.rowIdx = 0) :
    wp (transitions S palloc query rows)
      (fun _ w' => (∀ row ∈ rows, Accepted params.polyModulusDegree row) ∧ ∃ dims accum,
        Expanded params keygen k coeffs dims ∧ Running S params dims rows.length accum w'.state ∧
        S.msg params keygen accum =
          selected params (fun i => S.msg params keygen (dims i)) 0 rows)
      (fun _ _ => ¬∀ row ∈ rows, Accepted params.polyModulusDegree row) w := by
  cases rows with
  | nil => exact absurd rfl hne
  | cons row rows =>
    rw [List.length_cons] at hrows
    rw [transitions, wp_bind]
    apply wp_mono (firstTransition_spec hS hn hk hq hc hzero)
    · intro _ w' hpost
      obtain ⟨hacc, dims, accum, hexp, hrun, hmsg⟩ := hpost
      apply wp_mono (laterTransitions_spec hS hfit one_pos (by omega) (hrun hfit))
      · intro _ w'' hpost
        obtain ⟨hall, accum', hrun', hmsg'⟩ := hpost
        refine ⟨List.forall_mem_cons.2 ⟨hacc, hall⟩, dims, accum', hexp, ?_, ?_⟩
        · rwa [List.length_cons, add_comm]
        · rw [hmsg', hmsg, selected_cons, zero_add]
      · exact fun _ _ hno hall => hno (List.forall_mem_cons.1 hall).2
    · exact fun _ _ hno hall => hno (List.forall_mem_cons.1 hall).1

theorem run_returns (palloc junk : Memory) (hS : S.Ideal params keygen) (hfit : FitsSlots S params)
    (hn : params.polyModulusDegree = 2 ^ k) (hk : 12 ≤ k)
    (hq : Unloads S params keygen query c)
    (hc : S.msg params keygen c = ∑ j ∈ Finset.range (2 ^ k), coeffs j • params.x ^ j)
    (hne : rows ≠ []) (hrows : rows.length ≤ dbSize)
    (hall : ∀ row ∈ rows, Accepted params.polyModulusDegree row) :
    ∃ dims first accum₁ w accum, Expanded params keygen k coeffs dims ∧
      run S palloc junk query (rows.take 1) = (.ok (), first) ∧
      Running S params dims 1 accum₁ first.state ∧
      run S palloc junk query rows = (.ok (), w) ∧
      Running S params dims rows.length accum w.state ∧
      S.msg params keygen accum =
        selected params (fun i => S.msg params keygen (dims i)) 0 rows := by
  obtain ⟨row, rest, rfl⟩ := List.exists_cons_of_ne_nil hne
  rw [List.length_cons] at hrows
  obtain ⟨hhead, htail⟩ := List.forall_mem_cons.1 hall
  have hcall : wp (pirSelectInternal S palloc query row) _ _ (startWorld junk) :=
    firstTransition_spec hS hn hk hq hc (rowIdx_startWorld junk)
  obtain ⟨_, first, hfirst, -, dims, accum₁, hexp, hrun₁, hmsg₁⟩ :=
    wp_returns (wp_mono hcall (fun _ _ h => h) fun _ _ h => h hhead)
  have hcalls : wp (transitions S palloc query rest) _ _ first :=
    laterTransitions_spec hS hfit one_pos (by omega) (hrun₁ hfit)
  obtain ⟨_, w, hrest, -, accum, hrun, hmsg⟩ :=
    wp_returns (wp_mono hcalls (fun _ _ h => h) fun _ _ h => h htail)
  refine ⟨dims, first, accum₁, w, accum, hexp, ?_, hrun₁ hfit, ?_, ?_, ?_⟩
  · rw [run, List.take_succ_cons, List.take_zero, transitions, transitions, bind_pure_unit]
    exact hfirst
  · rw [run, transitions, bind_of_ok _ hfirst]
    exact hrest
  · rwa [List.length_cons, add_comm]
  · rw [hmsg, hmsg₁, selected_cons, zero_add]

theorem run_throws (palloc junk : Memory) (hS : S.Ideal params keygen) (hfit : FitsSlots S params)
    (hn : params.polyModulusDegree = 2 ^ k) (hk : 12 ≤ k)
    (hq : Unloads S params keygen query c)
    (hc : S.msg params keygen c = ∑ j ∈ Finset.range (2 ^ k), coeffs j • params.x ^ j)
    (hrows : rows.length ≤ dbSize)
    (hno : ¬∀ row ∈ rows, Accepted params.polyModulusDegree row) :
    ∃ e w, run S palloc junk query rows = (.error e, w) := by
  have hne : rows ≠ [] := by
    rintro rfl
    exact hno fun _ h => absurd h List.not_mem_nil
  have hcalls : wp (transitions S palloc query rows) _ _ (startWorld junk) :=
    transitions_spec hS hfit hn hk hq hc hne hrows (rowIdx_startWorld junk)
  obtain ⟨e, w, hrun, -⟩ := wp_throws (wp_mono hcalls (fun _ _ h => hno h.1) fun _ _ h => h)
  exact ⟨e, w, hrun⟩

/-- The accumulator of a query without terms from 4096 on. -/
theorem selected_expanded {dims : Nat → S.Ciphertext} (hk : 12 ≤ k)
    (hexp : Expanded params keygen k coeffs dims)
    (hsupp : ∀ j, dbSize ≤ j → j < 2 ^ k → coeffs j = 0) (hrows : rows.length ≤ dbSize) :
    selected params (fun i => S.msg params keygen (dims i)) 0 rows =
      4096 * ∑ i ∈ Finset.range rows.length,
        coeffs i • (rowPlain (rows.getD i [])).denote params := by
  have hle : dbSize ≤ 2 ^ k := Nat.pow_le_pow_right two_pos hk
  rw [selected, Finset.mul_sum]
  apply Finset.sum_congr rfl
  intro i hi
  have hlt : i < polyDegree := (Finset.mem_range.1 hi).trans_le hrows
  rw [zero_add, hexp i hlt, expanded_of_support hsupp (by rw [dbSize]; omega)
    (by rw [dbSize]; omega) hle hlt, mul_assoc, smul_one_mul]
  norm_num

end MuchPIR
