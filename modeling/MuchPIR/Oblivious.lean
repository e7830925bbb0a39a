import MuchPIR.AggregateLaw
import MuchPIR.SameCalls

namespace MuchPIR
open Prog Server
set_option autoImplicit true

/-- What an observer sees of a member: the parameters, and of a ciphertext only that it is there. -/
def Field.visible : Field → Bytes → Bytes
  | .param, bytes => bytes
  | _, _ => []

theorem Field.visible_of_ne {f : Field} (hf : f ≠ .param) (x y : Bytes) :
    f.visible x = f.visible y := by
  cases f with
  | param => exact absurd rfl hf
  | accum => rfl
  | dim1 jj => rfl

def Event.visible : Event → Event
  | .sealOp op => .sealOp op
  | .store f bytes => .store f (f.visible bytes)
  | .load f bytes => .load f (f.visible bytes)

def World.view (w : World) : List Event := w.log.map Event.visible

section Members

variable (S : Seal) (params : Params)

/-- What two runs have in one member: the same parameters, or two ciphertexts. -/
def Twins : Field → Bytes → Bytes → Prop
  | .param, x, y => x = S.saveParams S.comprModeDefault params ∧ y = x
  | _, x, y => (∃ c, x = S.saveCiphertext S.comprModeDefault c) ∧
      ∃ c, y = S.saveCiphertext S.comprModeDefault c

def TwinStates (kept : Field → Prop) (b b' : Bytea) : Prop :=
  fields.Paired (Twins S params) kept (Field.dim1 polyDegree).offset b.data b'.data

end Members

variable {S : Seal} {params : Params} {keygen keygen' : S.KeyGenerator}

theorem Twins.visible_eq (h : Twins S params f x y) : f.visible x = f.visible y := by
  cases f with
  | param => exact h.2.symm
  | accum => rfl
  | dim1 jj => rfl

theorem Twins.dim1 (jj : Nat) (c d : S.Ciphertext) :
    Twins S params (.dim1 jj) (S.saveCiphertext S.comprModeDefault c)
      (S.saveCiphertext S.comprModeDefault d) := ⟨⟨c, rfl⟩, d, rfl⟩

theorem Twins.accum (c d : S.Ciphertext) :
    Twins S params .accum (S.saveCiphertext S.comprModeDefault c)
      (S.saveCiphertext S.comprModeDefault d) := ⟨⟨c, rfl⟩, d, rfl⟩

theorem Twins.length_le (hfit : FitsSlots S params) (h : Twins S params f x y) :
    x.length ≤ f.capacity ∧ y.length ≤ f.capacity := by
  cases f with
  | param =>
    obtain ⟨rfl, rfl⟩ := h
    exact ⟨hfit.param, hfit.param⟩
  | accum =>
    obtain ⟨⟨c, rfl⟩, d, rfl⟩ := h
    exact ⟨hfit.accum c, hfit.accum d⟩
  | dim1 jj =>
    obtain ⟨⟨c, rfl⟩, d, rfl⟩ := h
    exact ⟨hfit.dim1 jj c, hfit.dim1 jj d⟩

def LoadAlike (S : Seal) (params : Params) (x y : Bytes) : Prop :=
  Alike Any (S.loadCiphertext params x) (S.loadCiphertext params y)

theorem Twins.loadAlike (hS : S.Lawful params keygen) (hf : f ≠ .param)
    (h : Twins S params f x y) : LoadAlike S params x y := by
  cases f with
  | param => exact absurd rfl hf
  | accum =>
    obtain ⟨⟨c, rfl⟩, d, rfl⟩ := h
    exact loadCiphertext_alike hS c d
  | dim1 jj =>
    obtain ⟨⟨c, rfl⟩, d, rfl⟩ := h
    exact loadCiphertext_alike hS c d

theorem TwinStates.store (hfit : FitsSlots S params) (h : TwinStates S params kept b b')
    (hf : Field.InStruct f) (hxy : Twins S params f x y) :
    TwinStates S params (fun g => kept g ∨ g = f) (b.store f x) (b'.store f y) :=
  Layout.Paired.store h hxy (hxy.length_le hfit).1 (hxy.length_le hfit).2 hf.end_le

theorem TwinStates.setRowIdx (h : TwinStates S params kept b b') (v : Nat) :
    TwinStates S params kept (b.setRowIdx v) (b'.setRowIdx v) := by
  have hbelow (m : Memory) (a : Nat) (ha : 8 ≤ a) : m.writeU64 0 v a = m a := by
    apply Memory.write_outside
    rw [length_leBytes]
    exact Or.inr ha
  exact Layout.Paired.congr h 8 Field.le_offset (Field.le_offset _) (hbelow b.data)
    (hbelow b'.data)

structure Lockstep (S : Seal) (params : Params) (w w' : World) : Prop where
  view_eq : w.view = w'.view
  rowIdx_eq : w.state.rowIdx = w'.state.rowIdx
  twins : 0 < w.state.rowIdx → TwinStates S params Field.InStruct w.state w'.state

/-- Two runs in a call that started in `w` and `w'`, before it changes the state. -/
structure During (w w' v v' : World) : Prop where
  state_eq : v.state = w.state
  state_eq' : v'.state = w'.state
  view_eq : v.view = v'.view

theorem During.refl (h : Lockstep S params w w') : During w w' w w' := ⟨rfl, rfl, h.view_eq⟩

theorem During.lockstep (h : During w w' v v') (hw : Lockstep S params w w') :
    Lockstep S params v v' where
  view_eq := h.view_eq
  rowIdx_eq := by rw [h.state_eq, h.state_eq', hw.rowIdx_eq]
  twins hpos := by
    rw [h.state_eq] at hpos
    rw [h.state_eq, h.state_eq']
    exact hw.twins hpos

theorem view_append {log log' evs evs' : List Event}
    (h : log.map Event.visible = log'.map Event.visible)
    (hevs : evs.map Event.visible = evs'.map Event.visible) :
    (log ++ evs).map Event.visible = (log' ++ evs').map Event.visible := by
  rw [List.map_append, List.map_append, h, hevs]

theorem During.runSeal {x : SealM α} {y : SealM β} {R : α → β → Prop} (h : During w w' v v')
    (hxy : Rel x y (fun a b ops ops' => R a b ∧ ops = ops') (fun ops ops' => ops = ops') [] []) :
    Rel (Server.runSeal x) (Server.runSeal y) (fun a b u u' => R a b ∧ During w w' u u')
      (fun u u' => During w w' u u') v v' := by
  unfold Prog.Rel at hxy ⊢
  rw [Server.runSeal, Server.runSeal, within, within]
  generalize x [] = r at hxy ⊢
  generalize y [] = s at hxy ⊢
  rcases r with ⟨_ | a, ops⟩ <;> rcases s with ⟨_ | b, ops'⟩
  · exact ⟨h.state_eq, h.state_eq', view_append h.view_eq (by rw [hxy])⟩
  · exact hxy.elim
  · exact hxy.elim
  · obtain ⟨hab, rfl⟩ := hxy
    exact ⟨hab, h.state_eq, h.state_eq', view_append h.view_eq rfl⟩

theorem During.call {x : Except Exn α} {y : Except Exn β} {R : α → β → Prop}
    (h : During w w' v v') (hxy : Alike R x y) :
    Rel (Server.runSeal (SealM.call op x)) (Server.runSeal (SealM.call op y))
      (fun a b u u' => R a b ∧ During w w' u u') (fun u u' => During w w' u u') v v' :=
  h.runSeal (SealM.same_call hxy [])

theorem During.lift {x : Except Fault α} {y : Except Fault β} {R : α → β → Prop}
    (h : During w w' v v') (hxy : Alike R x y) :
    Rel (Prog.lift x : Server α) (Prog.lift y : Server β)
      (fun a b u u' => R a b ∧ During w w' u u') (fun u u' => During w w' u u') v v' := by
  cases x with
  | ok a =>
    cases y with
    | ok b => exact ⟨hxy, h⟩
    | error e => exact hxy.elim
  | error e =>
    cases y with
    | ok b => exact hxy.elim
    | error e' => exact h

theorem During.storeInto (hfit : FitsSlots S params) (h : During w w' v v')
    (hb : TwinStates S params kept b b') (hf : Field.InStruct f) (hxy : Twins S params f x y) :
    Rel (Server.storeInto b f x) (Server.storeInto b' f y)
      (fun new new' u u' => TwinStates S params (fun g => kept g ∨ g = f) new new' ∧
        During w w' u u') (fun u u' => During w w' u u') v v' := by
  refine ⟨hb.store hfit hf hxy, h.state_eq, h.state_eq', view_append h.view_eq ?_⟩
  rw [List.map_singleton, List.map_singleton, Event.visible, Event.visible, hxy.visible_eq]

theorem During.loadField {R : Bytes → Bytes → Prop} (h : During w w' v v')
    (hf : f.visible (fields.load w.state.data f) = f.visible (fields.load w'.state.data f))
    (hR : R (fields.load w.state.data f) (fields.load w'.state.data f)) :
    Rel (Server.loadField f) (Server.loadField f) (fun x y u u' => R x y ∧ During w w' u u')
      (fun u u' => During w w' u u') v v' := by
  rw [← h.state_eq, ← h.state_eq'] at hf hR
  refine ⟨hR, h.state_eq, h.state_eq', view_append h.view_eq ?_⟩
  rw [List.map_singleton, List.map_singleton, Event.visible, Event.visible, hf]

theorem During.storeAccum (hfit : FitsSlots S params) (h : During w w' v v')
    (hw : Lockstep S params w w') (htwins : TwinStates S params Field.InStruct w.state w'.state)
    (c d : S.Ciphertext) {E : World → World → Prop} :
    Rel
      (Server.storeField .accum (S.saveCiphertext S.comprModeDefault c) >>= fun _ =>
        modify fun u => { u with state := u.state.setRowIdx (u.state.rowIdx + 1) })
      (Server.storeField .accum (S.saveCiphertext S.comprModeDefault d) >>= fun _ =>
        modify fun u => { u with state := u.state.setRowIdx (u.state.rowIdx + 1) })
      (fun _ _ u u' => Lockstep S params u u') E v v' := by
  have hxy : Twins S params .accum (S.saveCiphertext S.comprModeDefault c)
      (S.saveCiphertext S.comprModeDefault d) := Twins.accum c d
  have hstore := htwins.store hfit (f := .accum) trivial hxy
  rw [inStruct_accum] at hstore
  rw [← h.state_eq, ← h.state_eq'] at hstore
  have hrow : v.state.rowIdx = v'.state.rowIdx := by rw [h.state_eq, h.state_eq', hw.rowIdx_eq]
  refine ⟨view_append h.view_eq rfl, ?_, fun _ => ?_⟩
  · change ((v.state.store _ _).setRowIdx _).rowIdx = ((v'.state.store _ _).setRowIdx _).rowIdx
    rw [Bytea.rowIdx_store, Bytea.rowIdx_store, hrow, Bytea.rowIdx_setRowIdx_mod,
      Bytea.rowIdx_setRowIdx_mod]
  · change TwinStates S params _ ((v.state.store _ _).setRowIdx _)
      ((v'.state.store _ _).setRowIdx _)
    rw [Bytea.rowIdx_store, Bytea.rowIdx_store, hrow]
    exact hstore.setRowIdx _

theorem storeExpanded_lockstep (hfit : FitsSlots S params) {v v' : List (Option S.Ciphertext)}
    (hv : SameShape v v') (hlen : v.length = polyDegree)
    (hb : TwinStates S params (StoredBefore 0) b b') (h : During w w' u u') :
    Rel (storeExpanded S v b) (storeExpanded S v' b')
      (fun new new' u u' => TwinStates S params (StoredBefore polyDegree) new new' ∧
        During w w' u u') (fun u u' => During w w' u u') u u' := by
  rw [storeExpanded, storeExpanded, ← hv.length_eq, hlen]
  refine Rel.mono (Rel.forRange (fun jj new new' u u' =>
    TwinStates S params (StoredBefore jj) new new' ∧ During w w' u u') ?_ ⟨hb, h⟩) ?_
    (fun _ _ h => h)
  · rintro jj new new' u u' - hjj ⟨hb, h⟩
    apply Rel.bind (h.lift (entry_alike hv jj))
    intro c c' u u' hpost
    obtain ⟨-, h⟩ := hpost
    have hlt : jj < polyDegree := by omega
    rw [← storedBefore_succ]
    exact h.storeInto hfit hb hlt (Twins.dim1 jj c c')
  · rintro new new' u u' hend
    rwa [zero_add] at hend

structure Queries (S : Seal) (params : Params) (keygen keygen' : S.KeyGenerator)
    (query query' : Bytes) : Prop where
  lawful : S.Lawful params keygen
  lawful' : S.Lawful params keygen'
  fits : FitsSlots S params
  degree : ∃ k, params.polyModulusDegree = 2 ^ k
  unloads : ∃ c, Unloads S params keygen query c
  unloads' : ∃ c, Unloads S params keygen' query' c

section Calls

variable {query query' : Bytes} (hQ : Queries S params keygen keygen' query query')
  (palloc : Memory) (row : Bytes)

include hQ

theorem expandQuery_lockstep (c c' : S.Ciphertext) :
    Rel (expandQuery S params (generateGaloisKeys S params keygen params.polyModulusDegree) c
        dbSize)
      (expandQuery S params (generateGaloisKeys S params keygen' params.polyModulusDegree) c'
        dbSize)
      (fun v v' ops ops' => (SameShape v v' ∧ v.length = polyDegree) ∧ ops = ops')
      (fun ops ops' => ops = ops') [] [] := by
  obtain ⟨k, hn⟩ := hQ.degree
  have htrace : wp (expandQuery S params
      (generateGaloisKeys S params keygen params.polyModulusDegree) c dbSize) _ _ [] :=
    expandQuery_trace (by norm_num [dbSize]) (by norm_num [dbSize]) (onlyExpansion_nil _) c
  apply Rel.mono ((expandQuery_same hQ.lawful hQ.lawful' hn c c' dbSize []).left htrace) _
    (fun _ _ h => h)
  intro v v' ops ops' hpost
  obtain ⟨⟨hshape, hops⟩, hlen, -⟩ := hpost
  exact ⟨⟨hshape, hlen⟩, hops⟩

theorem firstCall_lockstep (h : During w w' u u') :
    Rel (firstCall S palloc query row) (firstCall S palloc query' row)
      (fun new new' v v' => ((new.rowIdx = 1 ∧ new'.rowIdx = 1) ∧
        TwinStates S params Field.InStruct new new') ∧ During w w' v v')
      (fun v v' => During w w' v v') u u' := by
  obtain ⟨c, s1, s2, s3, hparams, hkeys, hc⟩ := hQ.unloads
  obtain ⟨c', s1', s2', s3', hparams', hkeys', hc'⟩ := hQ.unloads'
  have hload : Same (fun a b =>
      a = (params, generateGaloisKeys S params keygen params.polyModulusDegree, c) ∧
      b = (params, generateGaloisKeys S params keygen' params.polyModulusDegree, c'))
      (loadQuery S query) (loadQuery S query') := by
    apply Same.bind (SealM.same_call (alike_exact hparams hparams'))
    intro _ _ hpost
    obtain ⟨rfl, rfl⟩ := hpost
    apply Same.bind (SealM.same_call (alike_exact hkeys hkeys'))
    intro _ _ hpost
    obtain ⟨rfl, rfl⟩ := hpost
    apply Same.bind (SealM.same_call (alike_exact hc hc'))
    intro _ _ hpost
    obtain ⟨rfl, rfl⟩ := hpost
    exact Same.pure ⟨rfl, rfl⟩
  rw [firstCall, firstCall]
  apply Rel.bind (h.runSeal (hload []))
  intro _ _ v v' hpost
  obtain ⟨⟨rfl, rfl⟩, h⟩ := hpost
  apply Rel.bind (h.runSeal (expandQuery_lockstep hQ c c'))
  intro hcubeDim1 hcubeDim1' v v' hpost
  obtain ⟨⟨hshape, hlen⟩, h⟩ := hpost
  apply Rel.bind (h.storeInto hQ.fits (Layout.Paired.refl _ _ _) (f := .param) trivial ⟨rfl, rfl⟩)
  intro new new' v v' hpost
  obtain ⟨hb, h⟩ := hpost
  rw [storedBefore_zero] at hb
  apply Rel.bind (storeExpanded_lockstep hQ.fits hshape hlen hb h)
  intro new new' v v' hpost
  obtain ⟨hb, h⟩ := hpost
  apply Rel.bind (h.runSeal (Same.refl (encodeRow S row) []))
  intro plain _ v v' hpost
  obtain ⟨rfl, h⟩ := hpost
  apply Rel.bind (h.lift (entry_alike hshape 0))
  intro first first' v v' hpost
  obtain ⟨-, h⟩ := hpost
  apply Rel.bind (h.call (multiplyPlain_alike hQ.lawful first first' plain))
  intro mulResult mulResult' v v' hpost
  obtain ⟨-, h⟩ := hpost
  apply Rel.bind (h.storeInto hQ.fits hb (f := .accum) trivial (Twins.accum mulResult mulResult'))
  intro new new' v v' hpost
  obtain ⟨hb, h⟩ := hpost
  rw [storedBefore_accum] at hb
  exact Rel.pure ⟨⟨⟨Bytea.rowIdx_setRowIdx _ (by norm_num), Bytea.rowIdx_setRowIdx _ (by norm_num)⟩,
    hb.setRowIdx 1⟩, h⟩

/-- The entry at the counter. Past the end of `dim1` both runs read the same foreign bytes. -/
theorem loadEntry_alike (hw : TwinStates S params Field.InStruct b b') (k : Nat) :
    LoadAlike S params (fields.load b.data (.dim1 k)) (fields.load b'.data (.dim1 k)) := by
  rcases Nat.lt_or_ge k polyDegree with hlt | hge
  · exact (hw.related (.dim1 k) hlt).loadAlike hQ.lawful Field.noConfusion
  · have hoffset : (Field.dim1 polyDegree).offset ≤ (Field.dim1 k).offset := by
      have hmul := Nat.mul_le_mul_left (8 + cipherSize2Bytes) (Nat.succ_le_succ hge)
      simp only [Field.offset, Nat.succ_eq_add_one] at hmul ⊢
      omega
    have hbytes : fields.load b.data (.dim1 k) = fields.load b'.data (.dim1 k) :=
      Layout.Paired.load_eq hw hoffset
    rw [hbytes]
    exact alike_any

theorem laterCall_lockstep (hw : Lockstep S params w w') (hpos : 0 < w.state.rowIdx) :
    Rel (laterCall S row) (laterCall S row) (fun _ _ v v' => Lockstep S params v v')
      (fun v v' => Lockstep S params v v') w w' := by
  have htwins := hw.twins hpos
  have hparam : Twins S params .param (fields.load w.state.data .param)
      (fields.load w'.state.data .param) := htwins.related .param trivial
  have haccum : Twins S params .accum (fields.load w.state.data .accum)
      (fields.load w'.state.data .accum) := htwins.related .accum trivial
  have hread := hQ.lawful.loadParams_saved S.comprModeDefault
  rw [laterCall]
  apply Rel.get_bind
  rw [← hw.rowIdx_eq]
  dsimp only
  split
  · exact hw
  · refine Rel.mono (E := During w w') ?_ (fun _ _ _ _ h => h) fun _ _ h => h.lockstep hw
    have h := During.refl hw
    apply Rel.bind (h.loadField (R := Twins S params .param) hparam.visible_eq hparam)
    intro s1 _ v v' hpost
    obtain ⟨⟨hs1, rfl⟩, h⟩ := hpost
    rw [hs1, hread]
    apply Rel.bind (h.call (alike_exact rfl rfl))
    intro _ _ v v' hpost
    obtain ⟨⟨rfl, rfl⟩, h⟩ := hpost
    apply Rel.bind (h.loadField (R := LoadAlike S params)
      (Field.visible_of_ne Field.noConfusion _ _)
      (loadEntry_alike hQ htwins w.state.rowIdx))
    intro s2 s2' v v' hpost
    obtain ⟨hs2, h⟩ := hpost
    apply Rel.bind (h.call hs2)
    rintro ⟨hcube1, rest⟩ ⟨hcube1', rest'⟩ v v' ⟨-, h⟩
    apply Rel.bind (h.loadField (R := Twins S params .accum) haccum.visible_eq haccum)
    intro s3 s3' v v' hpost
    obtain ⟨hs3, h⟩ := hpost
    apply Rel.bind (h.call (hs3.loadAlike hQ.lawful Field.noConfusion))
    rintro ⟨accum, rest⟩ ⟨accum', rest'⟩ v v' ⟨-, h⟩
    apply Rel.bind (h.runSeal (Same.refl (encodeRow S row) []))
    intro plain _ v v' hpost
    obtain ⟨rfl, h⟩ := hpost
    apply Rel.bind (h.call (multiplyPlain_alike hQ.lawful hcube1 hcube1' plain))
    intro product product' v v' hpost
    obtain ⟨-, h⟩ := hpost
    apply Rel.bind (h.call (add_alike hQ.lawful product product' accum accum'))
    intro result result' v v' hpost
    obtain ⟨-, h⟩ := hpost
    exact h.storeAccum hQ.fits hw htwins result result'

theorem transition_lockstep (hw : Lockstep S params w w') :
    Rel (pirSelectInternal S palloc query row) (pirSelectInternal S palloc query' row)
      (fun _ _ v v' => Lockstep S params v v') (fun v v' => Lockstep S params v v') w w' := by
  rw [pirSelectInternal, pirSelectInternal]
  apply Rel.get_bind
  rw [← hw.rowIdx_eq]
  split
  · have h : During w w' w w' := ⟨rfl, rfl, hw.view_eq⟩
    apply Rel.bind ((firstCall_lockstep hQ palloc row h).mono (fun _ _ _ _ h => h)
      fun _ _ h => h.lockstep hw)
    intro new new' v v' hpost
    obtain ⟨⟨⟨hone, hone'⟩, htwins⟩, h⟩ := hpost
    exact ⟨h.view_eq, hone.trans hone'.symm, fun _ => htwins⟩
  · next hpos => exact laterCall_lockstep hQ row hw (Nat.pos_of_ne_zero hpos)

theorem aggregate_lockstep (column : List (Option Bytes)) (hw : Lockstep S params w w') :
    Rel (aggregate S palloc query column) (aggregate S palloc query' column)
      (fun _ _ v v' => Lockstep S params v v') (fun v v' => Lockstep S params v v') w w' := by
  induction column generalizing w w' with
  | nil => exact hw
  | cons value column ih =>
    cases value with
    | none => exact ih hw
    | some row =>
      apply Rel.bind (transition_lockstep hQ palloc row hw)
      intro _ _ v v' hv
      exact ih hv

end Calls

structure QueryShape where
  params : Params
  galoisElts : List Nat
  ciphertexts : Nat

def HasShape (S : Seal) (keygen : S.KeyGenerator) (query : Bytes) (shape : QueryShape) : Prop :=
  ∃ cs : List S.Ciphertext, cs.length = shape.ciphertexts ∧
    query = S.saveParams .none shape.params ++
      S.saveGaloisKeys S.comprModeDefault (S.galoisKeys shape.params keygen shape.galoisElts) ++
      (cs.map (S.saveCiphertext .none)).flatten

theorem hasShape_queryMessage (c : S.Ciphertext) :
    HasShape S keygen (queryMessage S params keygen c)
      ⟨params, generateGaloisElts params.polyModulusDegree, 1⟩ :=
  ⟨[c], rfl, by
    rw [List.map_singleton, List.flatten_singleton]
    rfl⟩

theorem le_hcubeLoop (n D fuel hcubeDim hcubeLen : Nat) :
    hcubeDim ≤ (hcubeLoop n D fuel hcubeDim hcubeLen).1 := by
  induction fuel generalizing hcubeDim hcubeLen with
  | zero => exact le_rfl
  | succ fuel ih =>
    rw [hcubeLoop]
    split
    · exact (Nat.le_succ _).trans (ih _ _)
    · exact le_rfl

theorem getHcubeParam_pos (hdeg : n < 2 ^ 64 - 1) : 0 < (getHcubeParam n D).1 := by
  rw [getHcubeParam, hcubeLoop, if_pos hdeg]
  exact le_hcubeLoop _ _ _ _ _

theorem head_dims {dims : List (List α)} (hdims : dims.map List.length = List.replicate d 1)
    (hd : 0 < d) : ∃ c, dims.head?.bind List.head? = some c := by
  obtain ⟨e, rfl⟩ := Nat.exists_eq_succ_of_ne_zero hd.ne'
  rcases dims with _ | ⟨_ | ⟨c, _⟩, _⟩
  · cases hdims
  · cases hdims
  · exact ⟨c, rfl⟩

section Client

variable (hS : S.Lawful params keygen) (ht : 1 < params.plainModulus) (coins : Nat → S.Coins)

include hS ht

theorem queryDims_returns (hcubeLen hcubeDim rowIndex : Nat) (log : List SealOp) :
    wp (queryDims S params keygen coins params.polyModulusDegree hcubeLen hcubeDim rowIndex)
      (fun dims ops => dims.map List.length = List.replicate hcubeDim 1 ∧
        ops = log ++ List.replicate hcubeDim .encrypt) (fun _ _ => False) log := by
  induction hcubeDim generalizing rowIndex log with
  | zero => exact ⟨rfl, (List.append_nil _).symm⟩
  | succ hcubeDim ih =>
    obtain ⟨c, hc⟩ := encrypt_oneHot hS ht (coins hcubeDim) (rowIndex % hcubeLen)
    simp only [queryDims, wp_bind, hc, SealM.wp_call_ok, wp_pure]
    apply wp_mono (ih _ _) _ (fun _ _ h => h)
    intro dims ops hpost
    obtain ⟨hdims, rfl⟩ := hpost
    constructor
    · rw [List.map_append, hdims, List.replicate_succ']
      rfl
    · rw [List.append_assoc, List.singleton_append, ← List.replicate_succ]

/-- The client's part: which calls it makes depends on the size of the table only. -/
theorem buildQuery_returns (hdeg : params.polyModulusDegree < 2 ^ 64 - 1) (rowIndex D : Nat) :
    ∃ c, buildQuery S params keygen coins rowIndex D [] =
      (.ok (queryMessage S params keygen c),
        List.replicate (getHcubeParam params.polyModulusDegree D).1 .encrypt) := by
  have hbuild : wp (buildQuery S params keygen coins rowIndex D)
      (fun query ops => (∃ c, query = queryMessage S params keygen c) ∧
        ops = List.replicate (getHcubeParam params.polyModulusDegree D).1 .encrypt)
      (fun _ _ => False) [] := by
    simp only [buildQuery, generateQuery, wp_bind]
    apply wp_mono (queryDims_returns hS ht coins _ _ _ _) _ (fun _ _ h => h)
    intro dims ops hpost
    obtain ⟨hdims, rfl⟩ := hpost
    obtain ⟨c, hc⟩ := head_dims hdims (getHcubeParam_pos hdeg)
    rw [hc]
    exact ⟨⟨c, rfl⟩, rfl⟩
  obtain ⟨query, ops, hquery, ⟨c, rfl⟩, rfl⟩ := wp_returns hbuild
  exact ⟨c, hquery⟩

end Client

def SameView (w w' : World) : Prop := w.view = w'.view ∧ w.state.rowIdx = w'.state.rowIdx

/-- Two clients ask for rows `i` and `j` of one table. Their messages have one shape, and both runs
of the server make the same calls on the same slots, with the same counter after every row. -/
def Indistinguishable (S : Seal) (params : Params) (keygen keygen' : S.KeyGenerator)
    (coins coins' : Nat → S.Coins) (palloc junk : Memory) (D i j : Nat)
    (table : List (Option Bytes)) : Prop :=
  ∃ query query' ops, buildQuery S params keygen coins i D [] = (.ok query, ops) ∧
    buildQuery S params keygen' coins' j D [] = (.ok query', ops) ∧
    HasShape S keygen query ⟨params, generateGaloisElts params.polyModulusDegree, 1⟩ ∧
    HasShape S keygen' query' ⟨params, generateGaloisElts params.polyModulusDegree, 1⟩ ∧
    (∀ rows, Rel (aggregate S palloc query (table.take rows))
      (aggregate S palloc query' (table.take rows)) (fun _ _ w w' => SameView w w')
      (fun w w' => SameView w w') (startWorld junk) (startWorld junk)) ∧
    Rel (pirSelect S palloc query table) (pirSelect S palloc query' table)
      (fun _ _ w w' => SameView w w') (fun w w' => SameView w w') (startWorld junk)
      (startWorld junk)

/-- The run does not depend on the queried index, except for what the ciphertexts hold. -/
theorem oblivious {k : Nat} (hS : S.Lawful params keygen) (hS' : S.Lawful params keygen')
    (hfit : FitsSlots S params) (hn : params.polyModulusDegree = 2 ^ k)
    (hdeg : params.polyModulusDegree < 2 ^ 64 - 1) (ht : 1 < params.plainModulus)
    (coins coins' : Nat → S.Coins) (palloc junk : Memory) (D i j : Nat)
    (table : List (Option Bytes)) :
    Indistinguishable S params keygen keygen' coins coins' palloc junk D i j table := by
  obtain ⟨c, hquery⟩ := buildQuery_returns hS ht coins hdeg i D
  obtain ⟨c', hquery'⟩ := buildQuery_returns hS' ht coins' hdeg j D
  have hQ : Queries S params keygen keygen' (queryMessage S params keygen c)
      (queryMessage S params keygen' c') :=
    ⟨hS, hS', hfit, ⟨k, hn⟩, ⟨c, unloads_queryMessage hS c⟩, ⟨c', unloads_queryMessage hS' c'⟩⟩
  have hstart : Lockstep S params (startWorld junk) (startWorld junk) := by
    refine ⟨rfl, rfl, fun hpos => ?_⟩
    rw [rowIdx_startWorld] at hpos
    exact absurd hpos (lt_irrefl 0)
  have hview {w w' : World} (h : Lockstep S params w w') : SameView w w' :=
    ⟨h.view_eq, h.rowIdx_eq⟩
  refine ⟨_, _, _, hquery, hquery', hasShape_queryMessage c, hasShape_queryMessage c',
    fun rows => ?_, ?_⟩
  · exact (aggregate_lockstep hQ palloc (table.take rows) hstart).mono (fun _ _ _ _ h => hview h)
      fun _ _ h => hview h
  · apply Rel.bind ((aggregate_lockstep hQ palloc table hstart).mono (fun _ _ _ _ h => h)
      fun _ _ h => hview h)
    intro _ _ w w' hw
    have hfinal := (During.refl hw).loadField (f := .accum) (R := fun _ _ => True)
      (Field.visible_of_ne Field.noConfusion _ _) trivial
    exact hfinal.mono (fun _ _ _ _ h => hview (h.2.lockstep hw)) fun _ _ h => hview (h.lockstep hw)

theorem oblivious_two_names :
    Indistinguishable (exactSeal demoParams 0) demoParams () () (fun _ => ()) (fun _ => ())
      (fun _ => 0) (fun _ => 0) 1024 0 1 (twoNames.map some) :=
  oblivious (k := 12) (demo_ideal 0).toLawful (demo_ideal 0).toLawful demo_fits
    (by norm_num [demoParams]) (by norm_num [demoParams]) (by decide) (fun _ => ()) (fun _ => ())
    (fun _ => 0) (fun _ => 0) 1024 0 1 (twoNames.map some)

end MuchPIR
