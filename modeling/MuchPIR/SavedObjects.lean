import MuchPIR.Executor

namespace MuchPIR
open Prog Server
set_option autoImplicit true

/-- The parameters that a query begins with, and its expansion. -/
def Opens (S : Seal) (query : Bytes) (params : Params) (v : List (Option S.Ciphertext)) : Prop :=
  ∃ glKeys dimension1, (loadQuery S query []).1 = .ok (params, glKeys, dimension1) ∧
    (expandQuery S params glKeys dimension1 dbSize []).1 = .ok v

/-- The bytes of `dim1[k]` as a later call finds them. The guard lets a call read behind `dim1`,
where the datum has ended. -/
inductive EntryBytes (S : Seal) (behind : Memory) (v : List (Option S.Ciphertext)) :
    Nat → Bytes → Prop
  | saved {k : Nat} : v[k]? = some (some c) →
    EntryBytes S behind v k (S.saveCiphertext S.comprModeDefault c)
  | stray : EntryBytes S behind v polyDegree (fields.load behind (.dim1 polyDegree))

/-- The first entry, weighted with a row. -/
def FirstSum (S : Seal) (params : Params) (v : List (Option S.Ciphertext)) (row : Bytes)
    (d : S.Ciphertext) : Prop :=
  ∃ c plain, v[0]? = some (some c) ∧ EncodedAs S row plain ∧ S.multiplyPlain params c plain = .ok d

/-- Entry `k`, weighted with a row and added to `a`, all as SEAL reads them back. -/
def NextSum (S : Seal) (behind : Memory) (params : Params) (v : List (Option S.Ciphertext)) (k : Nat)
    (a : S.Ciphertext) (row : Bytes) (d : S.Ciphertext) : Prop :=
  ∃ params' bytes c a' plain p,
    (∃ s, S.loadParams (S.saveParams S.comprModeDefault params) = .ok (params', s)) ∧
    EntryBytes S behind v k bytes ∧ (∃ s, S.loadCiphertext params' bytes = .ok (c, s)) ∧
    (∃ s, S.loadCiphertext params' (S.saveCiphertext S.comprModeDefault a) = .ok (a', s)) ∧
    EncodedAs S row plain ∧ S.multiplyPlain params' c plain = .ok p ∧ S.add params' p a' = .ok d

/-- The sums of the first `k` entries, weighted with the rows of some table. -/
inductive WeightedSum (S : Seal) (behind : Memory) (params : Params)
    (v : List (Option S.Ciphertext)) : Nat → S.Ciphertext → Prop
  | first : FirstSum S params v row d → WeightedSum S behind params v 1 d
  | next : WeightedSum S behind params v k a → NextSum S behind params v k a row d →
    WeightedSum S behind params v (k + 1) d

/-- What SEAL saves for a query fits: its parameters, the entries of its expansion and their weighted
sums. The last entry has eight bytes less than the others. -/
structure SavesFit (S : Seal) (behind : Memory) (query : Bytes) : Prop where
  param : ∀ params v, Opens S query params v →
    (S.saveParams S.comprModeDefault params).length ≤ parameterBytes
  entry : ∀ params v, Opens S query params v → ∀ (jj : Nat) c, v[jj]? = some (some c) →
    (S.saveCiphertext S.comprModeDefault c).length ≤ cipherSize2Bytes
  last : ∀ params v, Opens S query params v → ∀ c, v[4095]? = some (some c) →
    (S.saveCiphertext S.comprModeDefault c).length ≤ 119992
  sum : ∀ params v, Opens S query params v → ∀ k c, WeightedSum S behind params v k c →
    (S.saveCiphertext S.comprModeDefault c).length ≤ cipherSize2Bytes

variable {S : Seal} {palloc behind junk : Memory} {query : Bytes} {params : Params}
  {v : List (Option S.Ciphertext)}

section Opens

theorem Opens.unique (h : Opens S query params v) (h' : Opens S query params' v') :
    params' = params ∧ v' = v := by
  obtain ⟨glKeys, dimension1, hquery, hv⟩ := h
  obtain ⟨glKeys', dimension1', hquery', hv'⟩ := h'
  rw [hquery] at hquery'
  cases hquery'
  rw [hv] at hv'
  exact ⟨rfl, (Except.ok.inj hv').symm⟩

theorem Opens.entries (h : Opens S query params v) :
    v.length = polyDegree ∧ ∀ jj < polyDegree, Assigned v jj := by
  obtain ⟨glKeys, dimension1, -, hv⟩ := h
  have htrace : wp (expandQuery S params glKeys dimension1 dbSize) _ _ [] :=
    expandQuery_trace (by norm_num [dbSize]) (by norm_num [dbSize]) (onlyExpansion_nil _) dimension1
  rcases hx : expandQuery S params glKeys dimension1 dbSize [] with ⟨e | v', ops⟩
  · rw [hx] at hv
    cases hv
  · rw [hx] at hv
    cases hv
    obtain ⟨hlen, hassigned, -⟩ := wp_ok htrace hx
    exact ⟨hlen, hassigned⟩

theorem Opens.loadParams (h : Opens S query params v) :
    ∃ rest, S.loadParams query = .ok (params, rest) := by
  obtain ⟨glKeys, dimension1, hquery, -⟩ := h
  rcases hx : loadQuery S query [] with ⟨e | r, ops⟩
  · rw [hx] at hquery
    cases hquery
  · rw [hx] at hquery
    cases hquery
    exact wp_ok (loadQuery_params S query) hx

end Opens

/-- Where the bytes of a copy come from. -/
def SavedOf (S : Seal) (behind : Memory) (query : Bytes) (f : Field) (bytes : Bytes) : Prop :=
  ∃ params v, Opens S query params v ∧
    match f with
    | .param => bytes = S.saveParams S.comprModeDefault params
    | .accum => ∃ k c, WeightedSum S behind params v k c ∧
        bytes = S.saveCiphertext S.comprModeDefault c
    | .dim1 jj => ∃ c, v[jj]? = some (some c) ∧ bytes = S.saveCiphertext S.comprModeDefault c

def Sourced (S : Seal) (behind : Memory) (query : Bytes) (log : List Event) : Prop :=
  ∀ f bytes, .store f bytes ∈ log → SavedOf S behind query f bytes

theorem Sourced.fitsDatum (h : Sourced S behind query log) (hsaves : SavesFit S behind query) :
    FitsDatum log where
  fits f bytes hmem := by
    obtain ⟨params, v, hopen, hsaved⟩ := h f bytes hmem
    cases f with
    | param =>
      obtain rfl := hsaved
      exact hsaves.param params v hopen
    | accum =>
      obtain ⟨k, c, hc, rfl⟩ := hsaved
      exact hsaves.sum params v hopen k c hc
    | dim1 jj =>
      obtain ⟨c, hc, rfl⟩ := hsaved
      exact hsaves.entry params v hopen jj c hc
  last bytes hmem := by
    obtain ⟨params, v, hopen, c, hc, rfl⟩ := h _ bytes hmem
    exact hsaves.last params v hopen c hc

theorem Sourced.sealOps (h : Sourced S behind query log) (ops : List SealOp) :
    Sourced S behind query (log ++ ops.map .sealOp) :=
  fun f bytes hmem => h f bytes ((store_mem_sealOps ops).1 hmem)

theorem Sourced.load (h : Sourced S behind query log) (f : Field) (bytes : Bytes) :
    Sourced S behind query (log ++ [.load f bytes]) :=
  fun g x hmem => h g x (store_mem_load.1 hmem)

theorem Sourced.store (h : Sourced S behind query log) (hf : SavedOf S behind query f bytes) :
    Sourced S behind query (log ++ [.store f bytes]) := by
  intro g x hmem
  rcases List.mem_append.1 hmem with hmem | hmem
  · exact h g x hmem
  · cases List.mem_singleton.1 hmem
    exact hf

/-- A call that has not yet changed the transition value `b`: all that is stored so far is saved of
the query, and `stored` is among it. -/
structure Copying (S : Seal) (behind : Memory) (query : Bytes) (b : Bytea)
    (stored : Field → Bytes → Prop) (w : World) : Prop where
  state_eq : w.state = b
  sourced : Sourced S behind query w.log
  includes : ∀ f bytes, stored f bytes → .store f bytes ∈ w.log

section Copying

variable {b : Bytea} {stored : Field → Bytes → Prop}

theorem Copying.runSeal (h : Copying S behind query b stored w) (x : SealM α) :
    wp (Server.runSeal x) (fun a w' => (x []).1 = .ok a ∧ Copying S behind query b stored w')
      (fun e w' => (x []).1 = .error e ∧ Copying S behind query b stored w') w := by
  have hnext (ops : List SealOp) :
      Copying S behind query b stored { w with log := w.log ++ ops.map .sealOp } :=
    ⟨h.state_eq, h.sourced.sealOps ops,
      fun f bytes hmem => List.mem_append_left _ (h.includes f bytes hmem)⟩
  rw [wp_runSeal, wp]
  rcases x [] with ⟨e | a, ops⟩
  · exact ⟨rfl, hnext ops⟩
  · exact ⟨rfl, hnext ops⟩

theorem Copying.call {x : Except Exn α} (h : Copying S behind query b stored w) (op : SealOp) :
    wp (Server.runSeal (SealM.call op x))
      (fun a w' => x = .ok a ∧ Copying S behind query b stored w')
      (fun _ w' => (∃ e, x = .error e) ∧ Copying S behind query b stored w') w := by
  apply wp_mono (h.runSeal (SealM.call op x))
  · rintro a w' ⟨hx, h⟩
    cases x with
    | ok a' =>
      cases hx
      exact ⟨rfl, h⟩
    | error e => cases hx
  · rintro e w' ⟨hx, h⟩
    cases x with
    | ok a' => cases hx
    | error e' => exact ⟨⟨e', rfl⟩, h⟩

theorem Copying.storeInto {stored' : Field → Bytes → Prop}
    (h : Copying S behind query b stored w) (hf : SavedOf S behind query f bytes)
    (hstored : ∀ g x, stored' g x → stored g x ∨ g = f ∧ x = bytes) :
    Copying S behind query b stored' { w with log := w.log ++ [.store f bytes] } := by
  refine ⟨h.state_eq, h.sourced.store hf, fun g x hx => ?_⟩
  rcases hstored g x hx with hold | ⟨rfl, rfl⟩
  · exact List.mem_append_left _ (h.includes g x hold)
  · exact List.mem_append_right _ (List.mem_singleton.2 rfl)

theorem Copying.loadField {E : Fault → World → Prop} (h : Copying S behind query b stored w)
    (f : Field) :
    wp (Server.loadField f)
      (fun bytes w' => bytes = fields.load b.data f ∧ Copying S behind query b stored w') E w :=
  ⟨by rw [h.state_eq], h.state_eq, h.sourced.load f _,
    fun g x hx => List.mem_append_left _ (h.includes g x hx)⟩

end Copying

theorem EncodedAs.value (h : EncodedAs S row plain) : (encodeRow S row []).1 = .ok plain := by
  obtain ⟨hexPoly, htext, hplain⟩ := h
  rw [encodeRow, htext, lift_ok_bind, hplain]
  rfl

theorem encodedAs_of_value (h : (encodeRow S row []).1 = .ok plain) : EncodedAs S row plain := by
  have htrace := encodeRow_trace S row
  rcases hx : encodeRow S row [] with ⟨e | a, ops⟩
  · rw [hx] at h
    cases h
  · rw [hx] at h
    cases h
    exact (wp_ok htrace hx).1

theorem EncodedAs.unique (h : EncodedAs S row plain) (h' : EncodedAs S row plain') :
    plain = plain' := by
  have hvalue := h.value
  rw [h'.value] at hvalue
  exact (Except.ok.inj hvalue).symm

theorem FirstSum.unique (h : FirstSum S params v row d) (h' : FirstSum S params v row d') :
    d = d' := by
  obtain ⟨c, plain, hc, hplain, hmul⟩ := h
  obtain ⟨c', plain', hc', hplain', hmul'⟩ := h'
  rw [hc] at hc'
  cases hc'
  rw [← hplain.unique hplain', hmul] at hmul'
  exact Except.ok.inj hmul'

theorem EntryBytes.unique (hlen : v.length = polyDegree) (h : EntryBytes S behind v k bytes)
    (h' : EntryBytes S behind v k bytes') : bytes = bytes' := by
  have hout (c : S.Ciphertext) : v[polyDegree]? ≠ some (some c) := by
    rw [List.getElem?_eq_none hlen.le]
    simp
  cases h with
  | saved hc =>
    cases h' with
    | saved hc' =>
      rw [hc] at hc'
      cases hc'
      rfl
    | stray => exact absurd hc (hout _)
  | stray =>
    cases h' with
    | saved hc' => exact absurd hc' (hout _)
    | stray => rfl

theorem EntryBytes.le (hlen : v.length = polyDegree) (h : EntryBytes S behind v k bytes) :
    k ≤ polyDegree := by
  cases h with
  | saved hc =>
    rw [← hlen]
    exact (List.getElem?_eq_some_iff.1 hc).1.le
  | stray => exact le_rfl

theorem NextSum.le (hlen : v.length = polyDegree) (h : NextSum S behind params v k a row d) :
    k ≤ polyDegree := by
  obtain ⟨_, _, _, _, _, _, -, hbytes, -⟩ := h
  exact hbytes.le hlen

theorem NextSum.unique (hlen : v.length = polyDegree) (h : NextSum S behind params v k a row d)
    (h' : NextSum S behind params v k a row d') : d = d' := by
  obtain ⟨params₁, bytes, c, a₁, plain, p, ⟨_, hload⟩, hbytes, ⟨_, hc⟩, ⟨_, ha⟩, hplain, hmul,
    hadd⟩ := h
  obtain ⟨params₂, bytes', c', a₂, plain', p', ⟨_, hload'⟩, hbytes', ⟨_, hc'⟩, ⟨_, ha'⟩, hplain',
    hmul', hadd'⟩ := h'
  rw [hload] at hload'
  cases hload'
  rw [← hbytes.unique hlen hbytes', hc] at hc'
  cases hc'
  rw [ha] at ha'
  cases ha'
  rw [← hplain.unique hplain', hmul] at hmul'
  cases hmul'
  rw [hadd] at hadd'
  exact Except.ok.inj hadd'

section FirstCall

/-- What the first call saves before it comes to its row, up to entry `jj`. -/
def OpenedBefore (S : Seal) (params : Params) (v : List (Option S.Ciphertext)) (jj : Nat) :
    Field → Bytes → Prop
  | .param, bytes => bytes = S.saveParams S.comprModeDefault params
  | .accum, _ => False
  | .dim1 i, bytes => i < jj ∧ ∃ c, v[i]? = some (some c) ∧
      bytes = S.saveCiphertext S.comprModeDefault c

variable {b : Bytea}

theorem storeExpanded_sourced {nstate : Bytea} (hopen : Opens S query params v)
    (h : Copying S behind query b (OpenedBefore S params v 0) w) :
    wp (storeExpanded S v nstate)
      (fun _ w' => Copying S behind query b (OpenedBefore S params v polyDegree) w')
      (fun _ _ => False) w := by
  obtain ⟨hlen, hassigned⟩ := hopen.entries
  rw [storeExpanded, hlen]
  refine wp_mono (wp_forRange (fun jj _ w' =>
    Copying S behind query b (OpenedBefore S params v jj) w') ?_ h) ?_ fun _ _ h => h
  · intro jj nstate w' _ hjj h
    obtain ⟨c, hc⟩ := hassigned jj (by omega)
    simp only [wp_bind, entry_eq_ok hc, wp_lift_ok, wp_storeInto]
    refine h.storeInto ⟨params, v, hopen, c, hc, rfl⟩ fun g x hx => ?_
    cases g with
    | param => exact Or.inl hx
    | accum => exact hx.elim
    | dim1 i =>
      obtain ⟨hi, d, hd, rfl⟩ := hx
      rcases Nat.lt_succ_iff_lt_or_eq.1 hi with hlt | rfl
      · exact Or.inl ⟨hlt, d, hd, rfl⟩
      · rw [hc] at hd
        cases hd
        exact Or.inr ⟨rfl, rfl⟩
  · intro _ w' h
    rwa [zero_add] at h

/-- The log of a first call, also of one that throws: where the query opens, its parameters and all
entries of its expansion are stored. -/
structure Opened (S : Seal) (behind : Memory) (query : Bytes) (log : List Event) : Prop where
  sourced : Sourced S behind query log
  stores : ∀ params v, Opens S query params v → ∀ f bytes,
    OpenedBefore S params v polyDegree f bytes → .store f bytes ∈ log

theorem Copying.opened (hopen : Opens S query params v)
    (h : Copying S behind query b (OpenedBefore S params v polyDegree) w) :
    Opened S behind query w.log := by
  refine ⟨h.sourced, fun params' v' hopen' f bytes hf => ?_⟩
  obtain ⟨rfl, rfl⟩ := hopen.unique hopen'
  exact h.includes f bytes hf

theorem Copying.storeParam (hopen : Opens S query params v)
    (h : Copying S behind query b (fun _ _ => False) w) :
    Copying S behind query b (OpenedBefore S params v 0)
      { w with log := w.log ++ [.store .param (S.saveParams S.comprModeDefault params)] } := by
  refine h.storeInto ⟨params, v, hopen, rfl⟩ fun g x hx => ?_
  cases g with
  | param => exact Or.inr ⟨rfl, hx⟩
  | accum => exact hx.elim
  | dim1 i => exact absurd hx.1 (Nat.not_lt_zero i)

/-- The row of the first call, once the expansion is stored. -/
theorem encodeFirst_opened (hopen : Opens S query params v)
    (h : Copying S behind query b (OpenedBefore S params v polyDegree) w) {nstate : Bytea} :
    wp (do
        let plain ← Server.runSeal (encodeRow S row)
        let first ← lift (entry v 0)
        let mulResult ← Server.runSeal (SealM.call (.multiplyPlain (.dim1 0) plain)
          (S.multiplyPlain params first plain))
        let nstate ← storeInto nstate .accum (S.saveCiphertext S.comprModeDefault mulResult)
        return nstate.setRowIdx 1)
      (fun _ w' => Opened S behind query w'.log ∧ ∃ d log, FirstSum S params v row d ∧
        w'.log = log ++ [.store .accum (S.saveCiphertext S.comprModeDefault d)])
      (fun _ w' => Opened S behind query w'.log ∧ ∀ d, ¬FirstSum S params v row d) w := by
  obtain ⟨first, hfirst⟩ := hopen.entries.2 0 (by decide)
  simp only [wp_bind]
  refine wp_mono (h.runSeal (encodeRow S row)) (fun plain w1 hpost => ?_) fun e w' hpost => ?_
  · obtain ⟨hencode, h⟩ := hpost
    have hplain := encodedAs_of_value hencode
    simp only [entry_eq_ok hfirst, wp_lift_ok]
    refine wp_mono (h.call _) (fun d w2 hpost => ?_) fun e w' hpost => ?_
    · obtain ⟨hmul, h⟩ := hpost
      have hsum : FirstSum S params v row d := ⟨first, plain, hfirst, hplain, hmul⟩
      rw [wp_storeInto, wp_pure]
      have haccum : Copying S behind query b (OpenedBefore S params v polyDegree) _ :=
        h.storeInto (f := .accum) ⟨params, v, hopen, 1, d, .first hsum, rfl⟩ fun _ _ hx => Or.inl hx
      exact ⟨haccum.opened hopen, d, w2.log, hsum, rfl⟩
    · obtain ⟨⟨_, hmul⟩, h⟩ := hpost
      refine ⟨h.opened hopen, fun d hsum => ?_⟩
      obtain ⟨c, plain', hc, hplain', hmul'⟩ := hsum
      rw [hfirst] at hc
      cases hc
      rw [hplain.unique hplain', hmul'] at hmul
      cases hmul
  · obtain ⟨hencode, h⟩ := hpost
    refine ⟨h.opened hopen, fun d hsum => ?_⟩
    obtain ⟨_, plain, -, hplain, -⟩ := hsum
    rw [hplain.value] at hencode
    cases hencode

theorem firstCall_opened (row : Bytes) (h : Copying S behind query b (fun _ _ => False) w) :
    wp (firstCall S palloc query row)
      (fun _ w' => Opened S behind query w'.log ∧ ∃ params v d log, Opens S query params v ∧
        FirstSum S params v row d ∧
        w'.log = log ++ [.store .accum (S.saveCiphertext S.comprModeDefault d)])
      (fun _ w' => Opened S behind query w'.log ∧
        ∀ params v d, Opens S query params v → ¬FirstSum S params v row d) w := by
  have hclosed {w' : World} (h : Sourced S behind query w'.log)
      (hno : ∀ params v, ¬Opens S query params v) : Opened S behind query w'.log ∧
        ∀ params v d, Opens S query params v → ¬FirstSum S params v row d :=
    ⟨⟨h, fun _ _ hopen => absurd hopen (hno _ _)⟩, fun _ _ _ hopen => absurd hopen (hno _ _)⟩
  rw [firstCall, wp_bind]
  refine wp_mono (h.runSeal (loadQuery S query)) ?_ fun e w' hpost => ?_
  · rintro ⟨params, glKeys, dimension1⟩ w1 ⟨hquery, h⟩
    rw [wp_bind]
    refine wp_mono (h.runSeal _) ?_ fun e w' hpost => ?_
    · rintro v w2 ⟨hexpand, h⟩
      have hopen : Opens S query params v := ⟨glKeys, dimension1, hquery, hexpand⟩
      rw [wp_bind, wp_storeInto, wp_bind]
      apply wp_mono (storeExpanded_sourced hopen (h.storeParam hopen)) _ fun _ _ h => h.elim
      intro nstate w3 h
      refine wp_mono (encodeFirst_opened hopen h) (fun _ w' hpost => ?_) fun e w' hpost => ?_
      · obtain ⟨h, d, log, hsum, hlog⟩ := hpost
        exact ⟨h, params, v, d, log, hopen, hsum, hlog⟩
      · obtain ⟨h, hno⟩ := hpost
        refine ⟨h, fun params' v' d hopen' hsum => ?_⟩
        obtain ⟨rfl, rfl⟩ := hopen.unique hopen'
        exact hno d hsum
    · obtain ⟨hexpand, h⟩ := hpost
      refine hclosed h.sourced fun params' v hopen => ?_
      obtain ⟨_, _, hquery', hv⟩ := hopen
      rw [hquery] at hquery'
      cases hquery'
      rw [hexpand] at hv
      cases hv
  · obtain ⟨hquery, h⟩ := hpost
    refine hclosed h.sourced fun params v hopen => ?_
    obtain ⟨_, _, hquery', -⟩ := hopen
    rw [hquery] at hquery'
    cases hquery'

end FirstCall

end MuchPIR
