import MuchPIR.ExpandTrace
import MuchPIR.Server

namespace MuchPIR
open Prog Server
set_option autoImplicit true

def Event.rowProduct : Event → Option (Nat × Plaintext)
  | .sealOp op => op.rowProduct
  | _ => none

def Saved (S : Seal) : Field → Bytes → Prop
  | .param, bytes => ∃ params, bytes = S.saveParams S.comprModeDefault params
  | .accum, bytes => ∃ c, bytes = S.saveCiphertext S.comprModeDefault c
  | .dim1 _, bytes => ∃ c, bytes = S.saveCiphertext S.comprModeDefault c

/-- What the events of one call are: loads from `source`, stores, and products of a row. -/
structure Trace (S : Seal) (source : Bytea) (loaded stored : Field → Prop)
    (products : List (Nat × Plaintext)) (evs : List Event) : Prop where
  loads : ∀ f bytes, .load f bytes ∈ evs → loaded f ∧ bytes = fields.load source.data f
  stores : ∀ f, (∃ bytes, .store f bytes ∈ evs) ↔ stored f
  saved : ∀ f bytes, .store f bytes ∈ evs → Saved S f bytes
  products_eq : evs.filterMap Event.rowProduct = products

variable {S : Seal} {loaded stored allowed : Field → Prop} {products : List (Nat × Plaintext)}

theorem Trace.nil (S : Seal) (source : Bytea) : Trace S source loaded (fun _ => False) [] [] where
  loads := fun _ _ h => absurd h List.not_mem_nil
  stores := fun _ => ⟨fun ⟨_, h⟩ => absurd h List.not_mem_nil, False.elim⟩
  saved := fun _ _ h => absurd h List.not_mem_nil
  products_eq := rfl

theorem Trace.sealOps (h : Trace S source loaded stored products evs) (hops : NoRows ops) :
    Trace S source loaded stored products (evs ++ ops.map .sealOp) where
  loads f bytes hmem := by
    rcases List.mem_append.1 hmem with hmem | hmem
    · exact h.loads f bytes hmem
    · obtain ⟨op, -, hop⟩ := List.mem_map.1 hmem
      cases hop
  stores f := by
    rw [← h.stores f]
    simp only [store_mem_sealOps]
  saved f bytes hmem := h.saved f bytes ((store_mem_sealOps ops).1 hmem)
  products_eq := by
    have hnone : ∀ e ∈ ops.map Event.sealOp, e.rowProduct = none := by
      intro e he
      obtain ⟨op, hop, rfl⟩ := List.mem_map.1 he
      exact hops op hop
    rw [List.filterMap_append, h.products_eq, List.filterMap_eq_nil_iff.2 hnone, List.append_nil]

theorem Trace.product (h : Trace S source loaded stored products evs) (k : Nat) (plain : Plaintext) :
    Trace S source loaded stored (products ++ [(k, plain)])
      (evs ++ [.sealOp (.multiplyPlain (.dim1 k) plain)]) where
  loads f bytes hmem := by
    simp only [List.mem_append, List.mem_singleton, reduceCtorEq, or_false] at hmem
    exact h.loads f bytes hmem
  stores f := by
    rw [← h.stores f]
    simp only [List.mem_append, List.mem_singleton, reduceCtorEq, or_false]
  saved f bytes hmem := by
    simp only [List.mem_append, List.mem_singleton, reduceCtorEq, or_false] at hmem
    exact h.saved f bytes hmem
  products_eq := by
    rw [List.filterMap_append, h.products_eq]
    rfl

theorem Trace.load (h : Trace S source loaded stored products evs) (hf : loaded f) :
    Trace S source loaded stored products (evs ++ [.load f (fields.load source.data f)]) where
  loads g bytes hmem := by
    rcases List.mem_append.1 hmem with hmem | hmem
    · exact h.loads g bytes hmem
    · cases List.mem_singleton.1 hmem
      exact ⟨hf, rfl⟩
  stores g := by
    rw [← h.stores g]
    simp only [store_mem_load]
  saved g bytes hmem := h.saved g bytes (store_mem_load.1 hmem)
  products_eq := by
    rw [List.filterMap_append, h.products_eq]
    exact List.append_nil _

theorem Trace.store (h : Trace S source loaded stored products evs) (hf : Saved S f bytes) :
    Trace S source loaded (fun g => stored g ∨ g = f) products (evs ++ [.store f bytes]) where
  loads g bytes' hmem := by
    simp only [List.mem_append, List.mem_singleton, reduceCtorEq, or_false] at hmem
    exact h.loads g bytes' hmem
  stores g := by
    rw [← h.stores g]
    simp only [List.mem_append, List.mem_singleton, Event.store.injEq, exists_or]
    exact or_congr_right ⟨fun ⟨_, hg, _⟩ => hg, fun hg => ⟨bytes, hg, rfl⟩⟩
  saved g bytes' hmem := by
    rcases List.mem_append.1 hmem with hmem | hmem
    · exact h.saved g bytes' hmem
    · cases List.mem_singleton.1 hmem
      exact hf
  products_eq := by
    rw [List.filterMap_append, h.products_eq]
    exact List.append_nil _

/-- A call that started in `w` and has reached `w'`: the transition value is as it was, and `new`
is `base` with the stores made so far. -/
def After (S : Seal) (w : World) (base : Bytea) (loaded stored : Field → Prop)
    (products : List (Nat × Plaintext)) (new : Bytea) (w' : World) : Prop :=
  w'.state = w.state ∧ ∃ evs, w'.log = w.log ++ evs ∧ new = replay base evs ∧
    Trace S w.state loaded stored products evs

/-- A call that threw: the transition value is as it was. -/
def Aborted (S : Seal) (w : World) (loaded allowed : Field → Prop) (w' : World) : Prop :=
  w'.state = w.state ∧ ∃ evs stored products, w'.log = w.log ++ evs ∧
    Trace S w.state loaded stored products evs ∧ ∀ f, stored f → allowed f

theorem After.start (S : Seal) (w : World) (base : Bytea) (loaded : Field → Prop) :
    After S w base loaded (fun _ => False) [] base w :=
  ⟨rfl, [], (List.append_nil _).symm, rfl, Trace.nil S _⟩

theorem After.aborted (h : After S w base loaded stored products new w')
    (hs : ∀ f, stored f → allowed f) : Aborted S w loaded allowed w' := by
  obtain ⟨hstate, evs, hlog, -, htrace⟩ := h
  exact ⟨hstate, evs, stored, products, hlog, htrace, hs⟩

theorem After.sealOps (h : After S w base loaded stored products new w') (hops : NoRows ops) :
    After S w base loaded stored products new { w' with log := w'.log ++ ops.map .sealOp } := by
  obtain ⟨hstate, evs, hlog, hnew, htrace⟩ := h
  refine ⟨hstate, evs ++ ops.map .sealOp, ?_, ?_, htrace.sealOps hops⟩
  · rw [hlog, List.append_assoc]
  · rw [replay_append, ← hnew]
    clear hnew hlog htrace
    induction ops with
    | nil => rfl
    | cons op ops ih => exact ih fun o ho => hops o (List.mem_cons_of_mem _ ho)

theorem After.runSeal {x : SealM α} {R : α → Prop}
    (h : After S w base loaded stored products new w') (hs : ∀ f, stored f → allowed f)
    (hx : wp x (fun a ops => R a ∧ NoRows ops) (fun _ ops => NoRows ops) []) :
    wp (Server.runSeal x) (fun a w'' => R a ∧ After S w base loaded stored products new w'')
      (fun _ w'' => Aborted S w loaded allowed w'') w' := by
  rw [wp_runSeal]
  apply wp_mono hx
  · intro a ops hpost
    obtain ⟨ha, hops⟩ := hpost
    exact ⟨ha, h.sealOps hops⟩
  · intro e ops hops
    exact (h.sealOps hops).aborted hs

theorem After.call {x : Except Exn α} (h : After S w base loaded stored products new w')
    (hs : ∀ f, stored f → allowed f) (hop : op.rowProduct = none) :
    wp (Server.runSeal (SealM.call op x))
      (fun a w'' => x = .ok a ∧ After S w base loaded stored products new w'')
      (fun _ w'' => Aborted S w loaded allowed w'') w' :=
  h.runSeal hs (SealM.wp_call (fun _ ha => ⟨ha, noRows_nil.snoc hop⟩) fun _ _ => noRows_nil.snoc hop)

theorem After.multiplyRow {x : Except Exn α} (h : After S w base loaded stored products new w')
    (hs : ∀ f, stored f → allowed f) :
    wp (Server.runSeal (SealM.call (.multiplyPlain (.dim1 k) plain) x))
      (fun a w'' => x = .ok a ∧ After S w base loaded stored (products ++ [(k, plain)]) new w'')
      (fun _ w'' => Aborted S w loaded allowed w'') w' := by
  obtain ⟨hstate, evs, hlog, hnew, htrace⟩ := h
  have hafter : After S w base loaded stored (products ++ [(k, plain)]) new
      { w' with log := w'.log ++ [.sealOp (.multiplyPlain (.dim1 k) plain)] } := by
    refine ⟨hstate, evs ++ [.sealOp (.multiplyPlain (.dim1 k) plain)], ?_, ?_,
      htrace.product k plain⟩
    · rw [hlog, List.append_assoc]
    · rw [replay_append, ← hnew]
      rfl
  rw [wp_runSeal]
  exact SealM.wp_call (fun _ ha => ⟨ha, hafter⟩) fun _ _ => hafter.aborted hs

theorem After.load (h : After S w base loaded stored products new w') (hf : loaded f) :
    After S w base loaded stored products new
      { w' with log := w'.log ++ [.load f (fields.load w'.state.data f)] } := by
  obtain ⟨hstate, evs, hlog, hnew, htrace⟩ := h
  refine ⟨hstate, evs ++ [.load f (fields.load w.state.data f)], ?_, ?_, htrace.load hf⟩
  · rw [hlog, List.append_assoc, hstate]
  · rw [replay_append, ← hnew]
    rfl

theorem After.store (h : After S w base loaded stored products new w') (hf : Saved S f bytes) :
    After S w base loaded (fun g => stored g ∨ g = f) products (new.store f bytes)
      { w' with log := w'.log ++ [.store f bytes] } := by
  obtain ⟨hstate, evs, hlog, hnew, htrace⟩ := h
  refine ⟨hstate, evs ++ [.store f bytes], ?_, ?_, htrace.store hf⟩
  · rw [hlog, List.append_assoc]
  · rw [replay_append, ← hnew]
    rfl

/-- `plain` is what SEAL reads from the text of `row`. -/
def EncodedAs (S : Seal) (row : Bytes) (plain : Plaintext) : Prop :=
  ∃ hexPoly, stringToHexPoly row = .ok hexPoly ∧ S.plaintext hexPoly = .ok plain

theorem encodeRow_trace (S : Seal) (row : Bytes) :
    wp (encodeRow S row) (fun plain ops => EncodedAs S row plain ∧ NoRows ops)
      (fun _ ops => NoRows ops) [] := by
  simp only [encodeRow, wp_bind]
  apply wp_lift _ (fun _ _ => noRows_nil)
  intro hexPoly htext
  exact SealM.wp_call (fun plain hplain => ⟨⟨hexPoly, htext, hplain⟩, noRows_nil.snoc rfl⟩)
    fun _ _ => noRows_nil.snoc rfl

theorem loadQuery_trace (S : Seal) (query : Bytes) :
    wp (loadQuery S query) (fun _ ops => True ∧ NoRows ops) (fun _ ops => NoRows ops) [] := by
  have hstop : ∀ (e : Fault) (ops : List SealOp), NoRows ops → NoRows ops := fun _ _ h => h
  simp only [loadQuery, wp_bind]
  apply wp_mono (wp_call_noRows noRows_nil rfl _) _ hstop
  rintro ⟨params, stream⟩ ops h
  apply wp_mono (wp_call_noRows h rfl _) _ hstop
  rintro ⟨glKeys, stream⟩ ops h
  apply wp_mono (wp_call_noRows h rfl _) _ hstop
  rintro ⟨dimension1, stream⟩ ops h
  exact ⟨trivial, h⟩

def StoredBefore (jj : Nat) (f : Field) : Prop := f = .param ∨ ∃ i < jj, f = .dim1 i

theorem StoredBefore.inStruct (hjj : jj ≤ polyDegree) (h : StoredBefore jj f) : f.InStruct := by
  rcases h with rfl | ⟨i, hi, rfl⟩
  · exact trivial
  · exact lt_of_lt_of_le hi hjj

theorem storedBefore_zero : (fun g => False ∨ g = Field.param) = StoredBefore 0 := by
  funext g
  simp only [StoredBefore, Nat.not_lt_zero, false_and, exists_false, or_false, false_or]

theorem storedBefore_succ (jj : Nat) :
    (fun g => StoredBefore jj g ∨ g = .dim1 jj) = StoredBefore (jj + 1) := by
  funext g
  apply propext
  constructor
  · rintro ((rfl | ⟨i, hi, rfl⟩) | rfl)
    · exact Or.inl rfl
    · exact Or.inr ⟨i, by omega, rfl⟩
    · exact Or.inr ⟨jj, by omega, rfl⟩
  · rintro (rfl | ⟨i, hi, rfl⟩)
    · exact Or.inl (Or.inl rfl)
    · rcases Nat.lt_succ_iff_lt_or_eq.1 hi with hlt | rfl
      · exact Or.inl (Or.inr ⟨i, hlt, rfl⟩)
      · exact Or.inr rfl

theorem inStruct_iff (f : Field) : f.InStruct ↔ StoredBefore polyDegree f ∨ f = .accum := by
  cases f with
  | param => exact iff_of_true trivial (Or.inl (Or.inl rfl))
  | accum => exact iff_of_true trivial (Or.inr rfl)
  | dim1 jj =>
    constructor
    · exact fun h => Or.inl (Or.inr ⟨jj, h, rfl⟩)
    · rintro ((h | ⟨i, hi, h⟩) | h)
      · cases h
      · cases h
        exact hi
      · cases h

theorem storedBefore_accum :
    (fun g => StoredBefore polyDegree g ∨ g = .accum) = Field.InStruct :=
  funext fun g => propext (inStruct_iff g).symm

theorem inStruct_accum : (fun g => Field.InStruct g ∨ g = .accum) = Field.InStruct := by
  funext g
  apply propext
  apply or_iff_left_of_imp
  rintro rfl
  exact trivial

theorem storeExpanded_trace {v : List (Option S.Ciphertext)} (hlen : v.length = polyDegree)
    (h : After S w base loaded (StoredBefore 0) products new w') :
    wp (storeExpanded S v new)
      (fun new' w'' => After S w base loaded (StoredBefore polyDegree) products new' w'')
      (fun _ w'' => Aborted S w loaded Field.InStruct w'') w' := by
  rw [storeExpanded, hlen]
  refine wp_mono (wp_forRange (fun jj new' w'' =>
    After S w base loaded (StoredBefore jj) products new' w'') ?_ h) ?_ (fun _ _ h => h)
  · intro jj new' w'' _ hjj h
    simp only [wp_bind]
    refine wp_lift (fun c _ => ?_) fun _ _ => h.aborted fun f hf => hf.inStruct (by omega)
    rw [wp_storeInto, ← storedBefore_succ]
    exact h.store (f := .dim1 jj) ⟨c, rfl⟩
  · intro new' w'' h
    rwa [zero_add] at h

/-- The first call, whatever SEAL does. It stores every member exactly where it belongs, in new
memory, and a throw leaves the transition value alone. -/
theorem firstCall_trace (S : Seal) (palloc : Memory) (query row : Bytes) (w : World) :
    wp (firstCall S palloc query row)
      (fun new w' => ∃ plain stores, EncodedAs S row plain ∧ new = Bytea.setRowIdx stores 1 ∧
        After S w ⟨stateTSize, palloc⟩ (fun _ => False) Field.InStruct [(0, plain)] stores w')
      (fun _ w' => Aborted S w (fun _ => False) Field.InStruct w') w := by
  have hstop : ∀ (e : Fault) (w' : World), Aborted S w (fun _ => False) Field.InStruct w' →
      Aborted S w (fun _ => False) Field.InStruct w' := fun _ _ h => h
  have hnone : ∀ f : Field, False → f.InStruct := fun _ h => h.elim
  have hall : ∀ f, StoredBefore polyDegree f → f.InStruct := fun f hf => hf.inStruct le_rfl
  simp only [firstCall, wp_bind]
  apply wp_mono ((After.start S w ⟨stateTSize, palloc⟩ (fun _ => False)).runSeal hnone
    (loadQuery_trace S query)) _ hstop
  rintro ⟨params, glKeys, dimension1⟩ w1 ⟨-, h⟩
  have hexpand : wp (expandQuery S params glKeys dimension1 dbSize)
      (fun v ops => v.length = polyDegree ∧ NoRows ops) (fun _ ops => NoRows ops) [] :=
    wp_mono (expandQuery_trace (by norm_num [dbSize]) (by norm_num [dbSize]) (onlyExpansion_nil _)
      dimension1) (fun _ _ h => ⟨h.1, h.2.2.noRows⟩) fun _ _ h => h.1.noRows
  apply wp_mono (h.runSeal hnone hexpand) _ hstop
  intro hcubeDim1 w2 hpost
  obtain ⟨hlen, h⟩ := hpost
  rw [wp_storeInto]
  have hparam := h.store (f := .param) ⟨params, rfl⟩
  rw [storedBefore_zero] at hparam
  apply wp_mono (storeExpanded_trace hlen hparam) _ hstop
  intro nstate w3 h
  apply wp_mono (h.runSeal hall (encodeRow_trace S row)) _ hstop
  intro plain w4 hpost
  obtain ⟨hplain, h⟩ := hpost
  refine wp_lift (fun first _ => ?_) fun _ _ => h.aborted hall
  apply wp_mono (h.multiplyRow hall) _ hstop
  intro mulResult w5 hpost
  obtain ⟨-, h⟩ := hpost
  rw [wp_storeInto, wp_pure]
  have haccum := h.store (f := .accum) ⟨mulResult, rfl⟩
  rw [storedBefore_accum] at haccum
  exact ⟨plain, _, hplain, rfl, haccum⟩

def LoadedAt (k : Nat) (f : Field) : Prop := f = .param ∨ f = .dim1 k ∨ f = .accum

theorem laterCall_capped (S : Seal) (row : Bytes) (w : World) (h : dbSize < w.state.rowIdx) :
    laterCall S row w = (.ok (), w) := by
  simp only [laterCall, get_bind, if_pos h]
  rfl

/-- A later call before the guard, whatever SEAL does. It reads the parameters, the entry at the
counter and the accumulator, and changes nothing before it stores the new accumulator. -/
theorem laterCall_trace (S : Seal) (row : Bytes) (w : World) (h : w.state.rowIdx ≤ dbSize) :
    wp (laterCall S row)
      (fun _ w' => ∃ plain evs bytes, EncodedAs S row plain ∧ Saved S .accum bytes ∧
        w'.log = w.log ++ (evs ++ [.store .accum bytes]) ∧
        Trace S w.state (LoadedAt w.state.rowIdx) (fun _ => False) [(w.state.rowIdx, plain)] evs ∧
        w'.state = (w.state.store .accum bytes).setRowIdx (w.state.rowIdx + 1))
      (fun _ w' => Aborted S w (LoadedAt w.state.rowIdx) (fun _ => False) w') w := by
  have hstop : ∀ (e : Fault) (w' : World), Aborted S w (LoadedAt w.state.rowIdx) (fun _ => False) w' →
      Aborted S w (LoadedAt w.state.rowIdx) (fun _ => False) w' := fun _ _ h => h
  have hnone : ∀ f : Field, False → False := fun _ h => h
  simp only [laterCall, wp_bind, wp_get, if_neg (Nat.not_lt.2 h), wp_loadField]
  have hstart := (After.start S w w.state (LoadedAt w.state.rowIdx)).load (f := .param) (Or.inl rfl)
  apply wp_mono (hstart.call hnone rfl) _ hstop
  rintro ⟨params, stream⟩ w1 ⟨-, h⟩
  have hdim1 := h.load (f := .dim1 w.state.rowIdx) (Or.inr (Or.inl rfl))
  apply wp_mono (hdim1.call hnone rfl) _ hstop
  rintro ⟨hcube1, stream⟩ w2 ⟨-, h⟩
  have haccum := h.load (f := .accum) (Or.inr (Or.inr rfl))
  apply wp_mono (haccum.call hnone rfl) _ hstop
  rintro ⟨accum, stream⟩ w3 ⟨-, h⟩
  apply wp_mono (h.runSeal hnone (encodeRow_trace S row)) _ hstop
  intro plain w4 hpost
  obtain ⟨hplain, h⟩ := hpost
  apply wp_mono (h.multiplyRow hnone) _ hstop
  intro product w5 hpost
  obtain ⟨-, h⟩ := hpost
  apply wp_mono (h.call hnone rfl) _ hstop
  intro result w6 hpost
  obtain ⟨-, hstate, evs, hlog, -, htrace⟩ := hpost
  simp only [wp_storeField, wp_modify]
  refine ⟨plain, evs, S.saveCiphertext S.comprModeDefault result, hplain, ⟨result, rfl⟩, ?_,
    htrace, ?_⟩
  · rw [hlog, List.append_assoc]
  · rw [hstate, Bytea.rowIdx_store]

section Transition

variable (S : Seal) (palloc : Memory) (query row : Bytes) (w : World)

theorem firstTransition_trace (h : w.state.rowIdx = 0) :
    wp (pirSelectInternal S palloc query row)
      (fun _ w' => ∃ plain evs, EncodedAs S row plain ∧ w'.log = w.log ++ evs ∧
        Trace S w.state (fun _ => False) Field.InStruct [(0, plain)] evs ∧
        w'.state = (replay ⟨stateTSize, palloc⟩ evs).setRowIdx 1)
      (fun _ w' => Aborted S w (fun _ => False) Field.InStruct w') w := by
  simp only [pirSelectInternal, wp_bind, wp_get, if_pos h]
  apply wp_mono (firstCall_trace S palloc query row w) _ (fun _ _ h => h)
  intro new w' hpost
  obtain ⟨plain, stores, hplain, rfl, -, evs, hlog, rfl, htrace⟩ := hpost
  exact ⟨plain, evs, hplain, hlog, htrace, rfl⟩

theorem laterTransition_trace (hpos : 0 < w.state.rowIdx) (h : w.state.rowIdx ≤ dbSize) :
    wp (pirSelectInternal S palloc query row)
      (fun _ w' => ∃ plain evs bytes, EncodedAs S row plain ∧ Saved S .accum bytes ∧
        w'.log = w.log ++ (evs ++ [.store .accum bytes]) ∧
        Trace S w.state (LoadedAt w.state.rowIdx) (fun _ => False) [(w.state.rowIdx, plain)] evs ∧
        w'.state = (w.state.store .accum bytes).setRowIdx (w.state.rowIdx + 1))
      (fun _ w' => Aborted S w (LoadedAt w.state.rowIdx) (fun _ => False) w') w := by
  simp only [pirSelectInternal, wp_bind, wp_get, if_neg (Nat.pos_iff_ne_zero.1 hpos)]
  exact laterCall_trace S row w h

theorem transition_capped (h : dbSize < w.state.rowIdx) :
    pirSelectInternal S palloc query row w = (.ok (), w) := by
  rw [pirSelectInternal, get_bind, if_neg (by omega)]
  exact laterCall_capped S row w h

end Transition

end MuchPIR
