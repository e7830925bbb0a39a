import MuchPIR.Lib.Cost
import MuchPIR.RowCap

namespace MuchPIR
open Prog Server
set_option autoImplicit true

/-- A kind of work: a call into SEAL, or an access to a member of the state. -/
inductive Work
  | loadParams
  | loadGaloisKeys
  | loadCiphertext
  | plaintext
  | encrypt
  | decrypt
  | substitution (galoisElt : Nat)
  | add
  | shift
  | doubling
  | product
  | store
  | load
  deriving DecidableEq

namespace Work

def IsSubstitution : Work → Prop
  | substitution _ => True
  | _ => False

instance : DecidablePred IsSubstitution := fun k => by
  cases k <;> unfold IsSubstitution <;> infer_instance

end Work

def SealOp.work : SealOp → Work
  | .loadParams => .loadParams
  | .loadGaloisKeys => .loadGaloisKeys
  | .loadCiphertext => .loadCiphertext
  | .plaintext _ => .plaintext
  | .encrypt => .encrypt
  | .decrypt => .decrypt
  | .applyGalois g => .substitution g
  | .add => .add
  | .negacyclicShift _ => .shift
  | .multiplyPlain (.temp _) _ => .doubling
  | .multiplyPlain _ _ => .product

def Event.work : Event → Work
  | .sealOp op => op.work
  | .store _ _ => .store
  | .load _ _ => .load

def callWork (ops : List SealOp) : Multiset Work := ops.map SealOp.work

def eventWork (log : List Event) : Multiset Work := log.map Event.work

def World.work (w : World) : Multiset Work := eventWork w.log

theorem callWork_append (ops ops' : List SealOp) :
    callWork (ops ++ ops') = callWork ops + callWork ops' := by
  rw [callWork, List.map_append, ← Multiset.coe_add]
  rfl

theorem eventWork_append (log evs : List Event) :
    eventWork (log ++ evs) = eventWork log + eventWork evs := by
  rw [eventWork, List.map_append, ← Multiset.coe_add]
  rfl

theorem eventWork_sealOps (ops : List SealOp) : eventWork (ops.map .sealOp) = callWork ops := by
  rw [eventWork, List.map_map]
  rfl

section Expand

variable {S : Seal} {params : Params} {galkey : S.GaloisKeys}

theorem spends_call (op : SealOp) (x : Except Exn α) :
    Spends callWork {op.work} (fun a => x = .ok a) (SealM.call op x) := by
  intro ops
  exact SealM.wp_call (fun a ha => ⟨ha, callWork_append ops [op]⟩) fun _ _ => trivial

def shiftWork : Multiset Work := 2 • {.shift}

/-- A ciphertext of two polynomials is shifted twice, each time as a whole. -/
theorem multiplyPowerOfX_work (hsize : ∀ c, S.size c = 2) (c : S.Ciphertext) (index : Nat) :
    Spends callWork shiftWork (fun _ => True) (multiplyPowerOfX S params c index) := by
  rw [multiplyPowerOfX, hsize]
  apply Spends.forRange_const (fun _ _ => True) _ trivial
  intro i d _ _
  exact (spends_call (.negacyclicShift index) _).mono fun _ _ => trivial

def butterflyWork (galoisElt : Nat) : Multiset Work :=
  {.substitution galoisElt} + 2 • {.add} + 2 • shiftWork

theorem butterfly_work (hsize : ∀ c, S.size c = 2) (galoisElt indexRaw index a : Nat)
    (temp newtemp : List (Option S.Ciphertext)) :
    Spends callWork (butterflyWork galoisElt) (fun v => v.length = newtemp.length)
      (butterfly S params galkey galoisElt indexRaw index temp a newtemp) := by
  have hsum : butterflyWork galoisElt = 0 + ({.substitution galoisElt} +
      ({.add} + (shiftWork + (shiftWork + ({.add} + 0))))) := by
    rw [butterflyWork, two_nsmul, two_nsmul]
    abel
  rw [hsum, butterfly]
  apply Spends.bind (Spends.lift (R := fun _ => True) fun _ _ => trivial)
  intro c _
  apply Spends.bind (spends_call (.applyGalois galoisElt) _)
  intro rotated _
  apply Spends.bind (spends_call .add _)
  intro sum _
  apply Spends.bind (multiplyPowerOfX_work hsize c indexRaw)
  intro shifted _
  apply Spends.bind (multiplyPowerOfX_work hsize rotated index)
  intro rotatedshifted _
  apply Spends.bind (spends_call .add _)
  intro sum' _
  apply Spends.pure
  rw [List.length_set, List.length_set]

theorem doubleEntry_work (two : Plaintext) (temp newtemp : List (Option S.Ciphertext)) (a : Nat) :
    Spends callWork {.doubling} (fun v => v.length = newtemp.length)
      (doubleEntry S params two temp a newtemp) := by
  have hsum : ({.doubling} : Multiset Work) = 0 + ({.doubling} + 0) := by abel
  rw [hsum, doubleEntry]
  apply Spends.bind (Spends.lift (R := fun _ => True) fun _ _ => trivial)
  intro c _
  apply Spends.bind (spends_call (.multiplyPlain (.temp a) two) _)
  intro doubled _
  apply Spends.pure
  rw [List.length_set]

theorem entry_map_some {elts : List Nat} (h : entry (elts.map some) i = .ok g) :
    g = elts.getD i 0 := by
  rw [entry, List.getElem?_map] at h
  rw [List.getD_eq_getElem?_getD]
  rcases hget : elts[i]? with _ | g'
  · rw [hget] at h
    cases h
  · rw [hget] at h
    cases h
    rfl

theorem expandLevel_work (hsize : ∀ c, S.size c = 2) (galoisElts : List Nat) (i : Nat)
    (temp : List (Option S.Ciphertext)) :
    Spends callWork (temp.length • butterflyWork (galoisElts.getD i 0))
      (fun v => v.length = 2 * temp.length) (expandLevel S params galkey galoisElts i temp) := by
  rw [← zero_add (temp.length • _), expandLevel]
  apply Spends.bind (Spends.lift fun _ => entry_map_some)
  rintro galoisElt rfl
  dsimp only
  apply Spends.forRange_const (fun _ (v : List (Option S.Ciphertext)) =>
    v.length = 2 * temp.length) _ List.length_replicate
  intro a v _ hv
  exact (butterfly_work hsize _ _ _ a temp v).mono fun _ h => h.trans hv

theorem sum_corner {M : Type} [AddCommMonoid M] (c d : M) (h : limit ≤ n) :
    ∑ a ∈ Finset.range n, (if limit ≤ a then d else c) = limit • c + (n - limit) • d := by
  obtain ⟨k, rfl⟩ := Nat.exists_eq_add_of_le h
  have hlow : ∑ a ∈ Finset.range limit, (if limit ≤ a then d else c) = limit • c := by
    rw [Finset.sum_congr rfl fun a ha => if_neg (Nat.not_le.2 (Finset.mem_range.1 ha)),
      Finset.sum_const, Finset.card_range]
  have hhigh : ∑ a ∈ Finset.range k, (if limit ≤ limit + a then d else c) = k • d := by
    rw [Finset.sum_congr rfl fun a _ => if_pos (Nat.le_add_right limit a), Finset.sum_const,
      Finset.card_range]
  rw [Finset.sum_range_add, hlow, hhigh, Nat.add_sub_cancel_left]

theorem expandLast_work (hsize : ∀ c, S.size c = 2) (galoisElts : List Nat) (two : Plaintext)
    {temp : List (Option S.Ciphertext)} (hlimit : m - 2 ^ last ≤ temp.length) :
    Spends callWork ((m - 2 ^ last) • butterflyWork (galoisElts.getD last 0) +
        (temp.length - (m - 2 ^ last)) • {.doubling})
      (fun v => v.length = 2 * temp.length)
      (expandLast S params galkey galoisElts two m last temp) := by
  rw [← sum_corner _ _ hlimit, ← zero_add (Finset.sum _ _), expandLast]
  apply Spends.bind (Spends.lift fun _ => entry_map_some)
  rintro galoisElt rfl
  dsimp only
  apply Spends.forRange (fun _ (v : List (Option S.Ciphertext)) => v.length = 2 * temp.length)
    (fun a => if m - 2 ^ last ≤ a then {.doubling} else butterflyWork (galoisElts.getD last 0)) _
    List.length_replicate
  intro a v _ hv
  split
  · exact (doubleEntry_work two temp v a).mono fun _ h => h.trans hv
  · exact (butterfly_work hsize _ _ _ a temp v).mono fun _ h => h.trans hv

/-- The work of an expansion to `m` entries in degree `n`: every butterfly doubles an entry, and the
last level makes up the difference to a power of two by doublings. -/
def expansionWork (n m : Nat) : Multiset Work :=
  let last := Nat.clog 2 m - 1
  {.plaintext} + (∑ i ∈ Finset.range last, 2 ^ i • butterflyWork ((n + 2 ^ i) / 2 ^ i) +
    ((m - 2 ^ last) • butterflyWork ((n + 2 ^ last) / 2 ^ last) +
      (2 ^ (last + 1) - m) • {.doubling}))

theorem expansionElts_getD (hi : i < Nat.clog 2 n) :
    (expansionElts n).getD i 0 = (n + 2 ^ i) / 2 ^ i := by
  have hlen : i < (expansionElts n).length := by
    rw [expansionElts, List.length_map, List.length_range]
    exact hi
  rw [List.getD_eq_getElem _ _ hlen]
  simp only [expansionElts, List.getElem_map, List.getElem_range]

theorem expandQuery_work (hsize : ∀ c, S.size c = 2) (hm : 2 ≤ m) (hm32 : m < 2 ^ 32)
    (encrypted : S.Ciphertext) :
    Spends callWork (expansionWork params.polyModulusDegree m) (fun v => v.length = m)
      (expandQuery S params galkey encrypted m) := by
  have hpos : 0 < Nat.clog 2 m := Nat.clog_pos (by omega) hm
  have h32 : Nat.clog 2 m ≤ 32 := Nat.clog_le_of_le_pow hm32.le
  have hhigh : m ≤ 2 ^ (Nat.clog 2 m - 1 + 1) := by
    rw [Nat.sub_add_cancel hpos]
    exact Nat.le_pow_clog (by omega) m
  have hlow : 2 ^ (Nat.clog 2 m - 1) < m := Nat.pow_pred_clog_lt_self (by omega) hm
  have hlast : (Nat.clog 2 m + (2 ^ 32 - 1)) % 2 ^ 32 = Nat.clog 2 m - 1 := by omega
  have helts : (List.range (Nat.clog 2 params.polyModulusDegree)).map
      (fun i => (params.polyModulusDegree + 2 ^ i) / 2 ^ i) =
      expansionElts params.polyModulusDegree := rfl
  rw [expansionWork, expandQuery]
  apply Spends.bind (spends_call (.plaintext ['2']) _)
  intro two _
  dsimp only
  rw [hlast, helts]
  split
  · exact Spends.throw _
  · next hroom =>
    apply Spends.bind (Spends.forRange (fun i (temp : List (Option S.Ciphertext)) =>
      temp.length = 2 ^ i)
      (fun i => 2 ^ i • butterflyWork ((params.polyModulusDegree + 2 ^ i) / 2 ^ i)) ?_ rfl)
    · intro temp hlen
      have hdoubled : 2 ^ (Nat.clog 2 m - 1) - (m - 2 ^ (Nat.clog 2 m - 1)) =
          2 ^ (Nat.clog 2 m - 1 + 1) - m := by
        rw [pow_succ']
        omega
      have hlimit : m - 2 ^ (Nat.clog 2 m - 1) ≤ temp.length := by
        rw [pow_succ'] at hhigh
        omega
      have hwork : Spends callWork _ _ (expandLast S params galkey
          (expansionElts params.polyModulusDegree) two m (Nat.clog 2 m - 1) temp) :=
        expandLast_work hsize _ two hlimit
      rw [hlen, hdoubled, expansionElts_getD (by omega)] at hwork
      rw [← add_zero (_ + _)]
      apply Spends.bind hwork
      intro newtemp hfilled
      apply Spends.pure
      rw [List.length_take, hfilled, ← pow_succ']
      exact Nat.min_eq_left hhigh
    · intro i temp hi hlen
      have hwork : Spends callWork _ _ (expandLevel S params galkey
          (expansionElts params.polyModulusDegree) i temp) := expandLevel_work hsize _ i temp
      rw [hlen, expansionElts_getD (by omega)] at hwork
      exact hwork.mono fun v hv => by rw [hv, pow_succ']

end Expand

section Server

variable {S : Seal}

theorem spends_runSeal {x : SealM α} {R : α → Prop} (h : Spends callWork c R x) :
    Spends World.work c R (Server.runSeal x) := by
  intro w
  rw [wp_runSeal]
  have hwork (ops : List SealOp) (hops : callWork ops = callWork [] + c) :
      eventWork (w.log ++ ops.map .sealOp) = eventWork w.log + c := by
    rw [eventWork_append, eventWork_sealOps, hops]
    exact congrArg _ (zero_add c)
  exact wp_mono (h []) (fun a ops hpost => ⟨hpost.1, hwork ops hpost.2⟩) fun _ _ _ => trivial

theorem spends_serverCall (op : SealOp) (x : Except Exn α) :
    Spends World.work {op.work} (fun a => x = .ok a) (Server.runSeal (SealM.call op x)) :=
  spends_runSeal (spends_call op x)

theorem spends_loadField (f : Field) :
    Spends World.work {.load} (fun _ => True) (loadField f) := by
  intro w
  rw [wp_loadField]
  exact ⟨trivial, eventWork_append w.log [_]⟩

theorem spends_storeInto (b : Bytea) (f : Field) (bytes : Bytes) :
    Spends World.work {.store} (fun _ => True) (storeInto b f bytes) := by
  intro w
  rw [wp_storeInto]
  exact ⟨trivial, eventWork_append w.log [_]⟩

theorem spends_storeField (f : Field) (bytes : Bytes) :
    Spends World.work {.store} (fun _ => True) (storeField f bytes) := by
  intro w
  rw [wp_storeField]
  exact ⟨trivial, eventWork_append w.log [_]⟩

theorem spends_setState (g : World → Bytea) :
    Spends World.work 0 (fun _ => True)
      (modify fun w => { w with state := g w } : Server Unit) := fun _ => ⟨trivial, (add_zero _).symm⟩

theorem encodeRow_work (row : Bytes) :
    Spends callWork {.plaintext} (fun _ => True) (encodeRow S row) := by
  rw [← zero_add ({.plaintext} : Multiset Work), encodeRow]
  apply Spends.bind (Spends.lift (R := fun _ => True) fun _ _ => trivial)
  intro hexPoly _
  exact (spends_call (.plaintext hexPoly) _).mono fun _ _ => trivial

def queryWork : Multiset Work := {.loadParams} + ({.loadGaloisKeys} + {.loadCiphertext})

theorem loadQuery_work (hparams : S.loadParams query = .ok (params, rest)) :
    Spends callWork queryWork (fun r => r.1 = params) (loadQuery S query) := by
  rw [queryWork, loadQuery]
  apply Spends.bind (spends_call .loadParams _)
  rintro ⟨params', stream⟩ hload
  rw [hparams] at hload
  cases hload
  apply Spends.bind (spends_call .loadGaloisKeys _)
  rintro ⟨glKeys, stream⟩ _
  rw [← add_zero ({.loadCiphertext} : Multiset Work)]
  apply Spends.bind (spends_call .loadCiphertext _)
  rintro ⟨dimension1, stream⟩ _
  exact Spends.pure rfl

theorem storeExpanded_work (v : List (Option S.Ciphertext)) (nstate : Bytea) :
    Spends World.work (v.length • {.store}) (fun _ => True) (storeExpanded S v nstate) := by
  rw [storeExpanded]
  apply Spends.forRange_const (fun _ _ => True) _ trivial
  intro jj b _ _
  rw [← zero_add ({.store} : Multiset Work)]
  apply Spends.bind (Spends.lift (R := fun _ => True) fun _ _ => trivial)
  intro c _
  exact spends_storeInto _ _ _

/-- The work of the first call: the query is expanded and every entry is stored. -/
def firstWork (n : Nat) : Multiset Work :=
  queryWork + expansionWork n dbSize + {.plaintext} + {.product} + (dbSize + 2) • {.store}

theorem firstCall_work (hsize : ∀ c, S.size c = 2)
    (hparams : S.loadParams query = .ok (params, rest)) (palloc : Memory) (row : Bytes) :
    Spends World.work (firstWork params.polyModulusDegree) (fun _ => True)
      (firstCall S palloc query row) := by
  have hsum : firstWork params.polyModulusDegree =
      queryWork + (expansionWork params.polyModulusDegree dbSize + ({.store} +
        (dbSize • {.store} + ({.plaintext} + (0 + ({.product} + ({.store} + 0))))))) := by
    rw [firstWork, add_nsmul, two_nsmul]
    abel
  rw [hsum, firstCall]
  apply Spends.bind (spends_runSeal (loadQuery_work hparams))
  rintro ⟨_, glKeys, dimension1⟩ rfl
  apply Spends.bind (spends_runSeal (expandQuery_work hsize (by norm_num [dbSize])
    (by norm_num [dbSize]) dimension1))
  intro hcubeDim1 hlen
  apply Spends.bind (spends_storeInto _ _ _)
  intro nstate _
  rw [← hlen]
  apply Spends.bind (storeExpanded_work hcubeDim1 nstate)
  intro nstate _
  apply Spends.bind (spends_runSeal (encodeRow_work row))
  intro plain _
  apply Spends.bind (Spends.lift (R := fun _ => True) fun _ _ => trivial)
  intro first _
  apply Spends.bind (spends_serverCall (.multiplyPlain (.dim1 0) plain) _)
  intro mulResult _
  apply Spends.bind (spends_storeInto _ _ _)
  intro nstate _
  exact Spends.pure trivial

def laterWork : Multiset Work :=
  {.loadParams} + 2 • {.loadCiphertext} + {.plaintext} + {.product} + {.add} + 3 • {.load} +
    {.store}

theorem laterCall_work (row : Bytes) (h : w.state.rowIdx ≤ dbSize) :
    wp (laterCall S row) (fun _ w' => w'.work = w.work + laterWork) (fun _ _ => True) w := by
  have hsum : laterWork = {.load} + ({.loadParams} + ({.load} + ({.loadCiphertext} + ({.load} +
      ({.loadCiphertext} + ({.plaintext} + ({.product} + ({.add} + ({.store} + 0))))))))) := by
    have hthree : 3 • ({.load} : Multiset Work) = {.load} + {.load} + {.load} := by
      rw [succ_nsmul, two_nsmul]
    rw [laterWork, hthree, two_nsmul]
    abel
  rw [laterCall, wp_bind, wp_get]
  dsimp only
  rw [if_neg (Nat.not_lt.2 h), hsum]
  generalize w.state.rowIdx = k
  refine wp_mono ((?_ : Spends World.work _ (fun _ => True) _) w) (fun _ _ h => h.2) fun _ _ h => h
  apply Spends.bind (spends_loadField .param)
  intro s1 _
  apply Spends.bind (spends_serverCall .loadParams _)
  rintro ⟨params, stream⟩ _
  apply Spends.bind (spends_loadField (.dim1 k))
  intro s2 _
  apply Spends.bind (spends_serverCall .loadCiphertext _)
  rintro ⟨hcube1, stream⟩ _
  apply Spends.bind (spends_loadField .accum)
  intro s3 _
  apply Spends.bind (spends_serverCall .loadCiphertext _)
  rintro ⟨accum, stream⟩ _
  apply Spends.bind (spends_runSeal (encodeRow_work row))
  intro plain _
  apply Spends.bind (spends_serverCall (.multiplyPlain (.dim1 k) plain) _)
  intro product _
  apply Spends.bind (spends_serverCall .add _)
  intro result _
  apply Spends.bind (spends_storeField .accum _)
  intro _ _
  exact spends_setState _

variable {palloc junk : Memory}

/-- A run of `count` calls: the counter stops behind 4096, and with it the work. -/
structure Worked (n count : Nat) (w : World) : Prop where
  rowIdx_eq : w.state.rowIdx = min (count + 1) (dbSize + 1)
  work_eq : w.work = firstWork n + min count dbSize • laterWork

theorem firstTransition_worked (hsize : ∀ c, S.size c = 2)
    (hparams : S.loadParams query = .ok (params, rest)) (row : Bytes) :
    wp (pirSelectInternal S palloc query row)
      (fun _ w' => Worked params.polyModulusDegree 0 w') (fun _ _ => True) (startWorld junk) := by
  have hcounted := wp_mono (firstTransition_counted S palloc junk query row)
    (fun _ _ h => h.1.rowIdx_eq) (fun _ _ _ => trivial)
  refine wp_mono (wp_and hcounted (?_ : wp _ (fun _ w' => w'.work =
    firstWork params.polyModulusDegree) (fun _ _ => True) _)) ?_ fun _ _ _ => trivial
  · rw [pirSelectInternal, wp_bind, wp_get, if_pos (rowIdx_startWorld junk), wp_bind]
    apply wp_mono (firstCall_work hsize hparams palloc row _) _ (fun _ _ _ => trivial)
    intro new w' hpost
    rw [wp_modify]
    exact hpost.2.trans (zero_add _)
  · intro _ w' hpost
    obtain ⟨hrow, hwork⟩ := hpost
    exact ⟨hrow, by rw [hwork, Nat.zero_min, zero_nsmul, add_zero]⟩

theorem laterTransition_worked (h : Worked n count w) :
    wp (pirSelectInternal S palloc query row) (fun _ w' => Worked n (count + 1) w')
      (fun _ _ => True) w := by
  have hrow := h.rowIdx_eq
  have hpos : 0 < w.state.rowIdx := by omega
  rcases Nat.lt_or_ge dbSize w.state.rowIdx with hcap | hle
  · apply (wp_of_ok (transition_capped S palloc query row w hcap)).2
    refine ⟨by omega, ?_⟩
    rw [h.work_eq]
    congr 2
    omega
  · refine wp_mono (wp_and (laterTransition_rowIdx hpos hle) (?_ : wp _ (fun _ w' => w'.work =
      w.work + laterWork) (fun _ _ => True) _)) ?_ fun _ _ _ => trivial
    · rw [pirSelectInternal, wp_bind, wp_get, if_neg (Nat.pos_iff_ne_zero.1 hpos)]
      exact laterCall_work row hle
    · intro _ w' hpost
      obtain ⟨hnext, hwork⟩ := hpost
      have hmin : min (count + 1) dbSize = min count dbSize + 1 := by omega
      exact ⟨by omega, by rw [hwork, h.work_eq, hmin, succ_nsmul, add_assoc]⟩

end Server

theorem map_expansionWork (f : Multiset Work →+ Nat) (hp : f {.plaintext} = 0)
    (hb : ∀ g, f (butterflyWork g) = b) (hd : f {.doubling} = d) (hm : 2 ≤ m) (n : Nat) :
    f (expansionWork n m) = (m - 1) * b + (2 ^ Nat.clog 2 m - m) * d := by
  have hlow : 2 ^ (Nat.clog 2 m - 1) < m := Nat.pow_pred_clog_lt_self (by omega) hm
  have hpos : 0 < 2 ^ (Nat.clog 2 m - 1) := Nat.two_pow_pos _
  have hlog : Nat.clog 2 m - 1 + 1 = Nat.clog 2 m :=
    Nat.sub_add_cancel (Nat.clog_pos (by omega) hm)
  have hlevels : ∑ i ∈ Finset.range (Nat.clog 2 m - 1), 2 ^ i = 2 ^ (Nat.clog 2 m - 1) - 1 := by
    rw [Nat.geomSum_eq le_rfl, Nat.div_one]
  have hpasses : 2 ^ (Nat.clog 2 m - 1) - 1 + (m - 2 ^ (Nat.clog 2 m - 1)) = m - 1 := by omega
  rw [expansionWork]
  simp only [map_add, map_sum, map_nsmul, hp, hb, hd, smul_eq_mul, ← Finset.sum_mul, hlevels, hlog]
  rw [← hpasses, add_mul, zero_add, add_assoc]

section Counts

variable {S : Seal} {params : Params} {galkey : S.GaloisKeys}

/-- The calls of an expansion to `m` entries: `m - 1` substitutions, with the first of the client's
keys only, whatever the query holds. -/
theorem expandQuery_calls (hsize : ∀ c, S.size c = 2) (m : UInt32) (hm : 2 ≤ m.toNat)
    (hrun : expandQuery S params galkey encrypted m.toNat [] = (.ok v, ops)) :
    callWork ops = expansionWork params.polyModulusDegree m.toNat ∧
      (callWork ops).countP Work.IsSubstitution = m.toNat - 1 ∧
      (callWork ops).count .add = 2 * (m.toNat - 1) ∧
      (callWork ops).count .shift = 4 * (m.toNat - 1) ∧
      (callWork ops).count .doubling = 2 ^ Nat.clog 2 m.toNat - m.toNat := by
  have hwork : Spends callWork _ _ (expandQuery S params galkey encrypted m.toNat) :=
    expandQuery_work hsize hm m.toNat_lt encrypted
  have hcalls : callWork ops = expansionWork params.polyModulusDegree m.toNat :=
    (hwork.of_ok hrun).2.trans (zero_add _)
  rw [hcalls]
  refine ⟨rfl, ?_, ?_, ?_, ?_⟩
  · have h := map_expansionWork (Multiset.countPAddMonoidHom Work.IsSubstitution) rfl (b := 1)
      (d := 0) (fun _ => rfl) rfl hm params.polyModulusDegree
    rwa [mul_one, mul_zero, add_zero] at h
  · have h := map_expansionWork (Multiset.countAddMonoidHom .add) rfl (b := 2) (d := 0)
      (fun _ => rfl) rfl hm params.polyModulusDegree
    rwa [mul_zero, add_zero, mul_comm] at h
  · have h := map_expansionWork (Multiset.countAddMonoidHom .shift) rfl (b := 4) (d := 0)
      (fun _ => rfl) rfl hm params.polyModulusDegree
    rwa [mul_zero, add_zero, mul_comm] at h
  · have h := map_expansionWork (Multiset.countAddMonoidHom .doubling) rfl (b := 0)
      (d := 1) (fun _ => rfl) rfl hm params.polyModulusDegree
    rwa [mul_zero, zero_add, mul_one] at h

/-- An expansion to five entries takes four substitutions and three doublings. -/
theorem expandQuery_calls_five :
    ∃ v ops, expandQuery (exactSeal demoParams 0) demoParams
        (generateGaloisKeys (exactSeal demoParams 0) demoParams () (2 ^ 12)) rampQuery 5 [] =
        (.ok v, ops) ∧ callWork ops = expansionWork demoParams.polyModulusDegree 5 ∧
      (callWork ops).countP Work.IsSubstitution = 4 := by
  have hspec : wp (expandQuery (exactSeal demoParams 0) demoParams
      (generateGaloisKeys (exactSeal demoParams 0) demoParams () (2 ^ 12)) rampQuery 5) _ _ [] :=
    expandQuery_spec (k := 12) (demo_ideal 0) (by norm_num [demoParams]) (by norm_num)
      (by norm_num) (by norm_num) (rampQuery_msg 0)
  obtain ⟨v, ops, hrun, -⟩ := wp_returns hspec
  have hcalls := expandQuery_calls (S := exactSeal demoParams 0) (fun _ => rfl) 5 (by decide) hrun
  exact ⟨v, ops, hrun, hcalls.1, hcalls.2.1⟩

theorem Worked.map_work (h : Worked n count w) (f : Multiset Work →+ Nat) (hp : f {.plaintext} = 0)
    (hq : f queryWork = 0) (hb : ∀ g, f (butterflyWork g) = b) (hproduct : f {.product} = p)
    (hstore : f {.store} = s) (hlater : f laterWork = l) :
    f w.work = 4095 * b + p + 4098 * s + min count 4096 * l := by
  have hexp := map_expansionWork f hp hb rfl (m := dbSize) (by norm_num [dbSize]) n
  have hnone : 2 ^ Nat.clog 2 dbSize - dbSize = 0 := by
    rw [clog_dbSize]
    norm_num [dbSize]
  rw [hnone, zero_mul, add_zero] at hexp
  rw [h.work_eq, firstWork]
  simp only [map_add, map_nsmul, hexp, hp, hq, hproduct, hstore, hlater, smul_eq_mul, zero_add,
    add_zero]
  rfl

theorem run_worked {palloc junk : Memory} (hsize : ∀ c, S.size c = 2) (hne : rows ≠ [])
    (hrun : run S palloc junk query rows = (.ok (), w)) :
    ∃ params rest, S.loadParams query = .ok (params, rest) ∧
      Worked params.polyModulusDegree (rows.length - 1) w := by
  obtain ⟨row, rows, rfl⟩ := List.exists_cons_of_ne_nil hne
  rcases hparams : S.loadParams query with e | ⟨params, rest⟩
  · have hthrow : wp (transitions S palloc query (row :: rows)) (fun _ _ => False)
        (fun _ _ => True) (startWorld junk) := by
      rw [transitions]
      apply wp_bind_throws
      rw [pirSelectInternal, wp_bind, wp_get, if_pos (rowIdx_startWorld junk)]
      apply wp_bind_throws
      rw [firstCall]
      apply wp_bind_throws
      rw [wp_runSeal, loadQuery, hparams]
      exact wp_bind_throws (SealM.wp_call_error.2 trivial)
    exact (wp_ok hthrow hrun).elim
  · refine ⟨params, rest, rfl, ?_⟩
    have hworked : wp (transitions S palloc query (row :: rows))
        (fun _ w' => Worked params.polyModulusDegree rows.length w') (fun _ _ => True)
        (startWorld junk) := by
      rw [transitions, wp_bind]
      apply wp_mono (firstTransition_worked hsize hparams row) _ (fun _ _ h => h)
      intro _ w' h
      exact wp_transitions (fun i => Worked params.polyModulusDegree i)
        (fun i hi w h => laterTransition_worked h) h
    exact (wp_of_ok hrun).1 hworked

/-- The work of a run over `rows`: one expansion, then the same few calls for every row until the
counter has passed 4096, and none from there on. -/
theorem run_calls {palloc junk : Memory} (hsize : ∀ c, S.size c = 2) (hne : rows ≠ [])
    (hrun : run S palloc junk query rows = (.ok (), w)) :
    ∃ params rest, S.loadParams query = .ok (params, rest) ∧
      w.work = firstWork params.polyModulusDegree + min (rows.length - 1) 4096 • laterWork ∧
      w.work.countP Work.IsSubstitution = 4095 ∧
      w.work.count .add = 8190 + min (rows.length - 1) 4096 ∧
      w.work.count .shift = 16380 ∧
      w.work.count .product = 1 + min (rows.length - 1) 4096 ∧
      w.work.count .store = 4098 + min (rows.length - 1) 4096 ∧
      w.work.count .load = 3 * min (rows.length - 1) 4096 := by
  obtain ⟨params, rest, hparams, hworked⟩ := run_worked hsize hne hrun
  refine ⟨params, rest, hparams, hworked.work_eq, ?_, ?_, ?_, ?_, ?_, ?_⟩
  · have h := hworked.map_work (Multiset.countPAddMonoidHom Work.IsSubstitution) rfl rfl (b := 1)
      (p := 0) (s := 0) (l := 0) (fun _ => rfl) rfl rfl rfl
    rwa [mul_zero] at h
  · have h := hworked.map_work (Multiset.countAddMonoidHom .add) rfl rfl (b := 2) (p := 0) (s := 0)
      (l := 1) (fun _ => rfl) rfl rfl rfl
    rwa [mul_one] at h
  · have h := hworked.map_work (Multiset.countAddMonoidHom .shift) rfl rfl (b := 4) (p := 0)
      (s := 0) (l := 0) (fun _ => rfl) rfl rfl rfl
    rwa [mul_zero] at h
  · have h := hworked.map_work (Multiset.countAddMonoidHom .product) rfl rfl (b := 0) (p := 1)
      (s := 0) (l := 1) (fun _ => rfl) rfl rfl rfl
    rwa [mul_one] at h
  · have h := hworked.map_work (Multiset.countAddMonoidHom .store) rfl rfl (b := 0) (p := 0)
      (s := 1) (l := 1) (fun _ => rfl) rfl rfl rfl
    rwa [mul_one, mul_one] at h
  · have h := hworked.map_work (Multiset.countAddMonoidHom .load) rfl rfl (b := 0) (p := 0)
      (s := 0) (l := 3) (fun _ => rfl) rfl rfl rfl
    exact h.trans (by omega)

theorem run_calls_two_names :
    ∃ w, run (exactSeal demoParams 0) (fun _ => 0) (fun _ => 0)
        (queryMessage (exactSeal demoParams 0) demoParams () rampQuery) twoNames = (.ok (), w) ∧
      w.work.countP Work.IsSubstitution = 4095 ∧ w.work.count .product = 2 := by
  have hne : twoNames ≠ [] := List.cons_ne_nil _ _
  obtain ⟨w, hrun⟩ := demo_run_returns 0 (fun _ => 0) (fun _ => 0) (by decide) hne (by decide)
    (by decide)
  obtain ⟨-, -, -, -, hsub, -, -, hproduct, -, -⟩ :=
    run_calls (S := exactSeal demoParams 0) (fun _ => rfl) hne hrun
  exact ⟨w, hrun, hsub, hproduct⟩

end Counts

end MuchPIR
