import MuchPIR.Lib.Memory

set_option autoImplicit true

/-- Places of length-prefixed records in one memory: a 64-bit length, then room for `capacity`
bytes. The places do not meet. -/
structure Layout (ι : Type) where
  offset : ι → Nat
  capacity : ι → Nat
  capacity_lt (i : ι) : capacity i < 2 ^ 64
  disjoint : i ≠ j →
    offset i + 8 + capacity i ≤ offset j ∨ offset j + 8 + capacity j ≤ offset i

namespace Layout

variable {ι : Type} (L : Layout ι)

/-- Write the length and copy the bytes. Nothing compares the length with the capacity. -/
def store (m : Memory) (i : ι) (bytes : List UInt8) : Memory :=
  (m.writeU64 (L.offset i) bytes.length).write (L.offset i + 8) bytes

def load (m : Memory) (i : ι) : List UInt8 :=
  m.read (L.offset i + 8) (m.readU64 (L.offset i))

theorem store_outside {m : Memory} {bytes : List UInt8}
    (h : a < L.offset i ∨ L.offset i + 8 + bytes.length ≤ a) : L.store m i bytes a = m a := by
  rw [store, Memory.write_outside (by omega), Memory.writeU64, Memory.write_outside]
  rw [length_leBytes]
  omega

theorem length_load (m : Memory) (i : ι) : (L.load m i).length = m.readU64 (L.offset i) :=
  Memory.length_read _ _ _

theorem load_store_self (m : Memory) (i : ι) {bytes : List UInt8} (h : bytes.length < 2 ^ 64) :
    L.load (L.store m i bytes) i = bytes := by
  have hlen : (L.store m i bytes).readU64 (L.offset i) = bytes.length := by
    rw [store, Memory.readU64_write_disjoint (Or.inl (le_refl _)), Memory.readU64_writeU64,
      Nat.mod_eq_of_lt h]
  rw [load, hlen]
  exact Memory.read_write _ _ _

theorem load_store_ne {m : Memory} {bytes : List UInt8} (hij : i ≠ j)
    (hfit : bytes.length ≤ L.capacity i) (hold : (L.load m j).length ≤ L.capacity j) :
    L.load (L.store m i bytes) j = L.load m j := by
  have hdis := L.disjoint hij
  rw [length_load] at hold
  have hlen : (L.store m i bytes).readU64 (L.offset j) = m.readU64 (L.offset j) :=
    Memory.readU64_congr fun a _ _ => L.store_outside (by omega)
  rw [load, load, hlen]
  exact Memory.read_congr fun a _ _ => L.store_outside (by omega)

/-- The records that `r` names are in the memory, within their places. -/
def Represents (m : Memory) (r : ι → Option (List UInt8)) : Prop :=
  ∀ i bytes, r i = some bytes → L.load m i = bytes ∧ bytes.length ≤ L.capacity i

variable {L} {m m' : Memory} {r : ι → Option (List UInt8)}

theorem represents_none (m : Memory) : L.Represents m fun _ => none := by
  intro i bytes h
  cases h

theorem Represents.store [DecidableEq ι] (h : L.Represents m r)
    (hfit : bytes.length ≤ L.capacity i) :
    L.Represents (L.store m i bytes) (Function.update r i (some bytes)) := by
  intro j bytes' hj
  by_cases hij : i = j
  · subst hij
    rw [Function.update_self] at hj
    cases hj
    exact ⟨L.load_store_self m i (lt_of_le_of_lt hfit (L.capacity_lt i)), hfit⟩
  · rw [Function.update_of_ne (Ne.symm hij)] at hj
    obtain ⟨hload, hlen⟩ := h j bytes' hj
    refine ⟨?_, hlen⟩
    rw [L.load_store_ne hij hfit (by rw [hload]; exact hlen), hload]

theorem load_congr (hm : ∀ a, L.offset i ≤ a → m a = m' a) : L.load m i = L.load m' i := by
  have hword : m.readU64 (L.offset i) = m'.readU64 (L.offset i) :=
    Memory.readU64_congr fun a ha _ => hm a ha
  rw [load, load, hword]
  exact Memory.read_congr fun a ha _ => hm a (by omega)

/-- Two memories: the records in `kept` are within their places and related, and from `top` on the
memories agree. -/
structure Paired (L : Layout ι) (R : ι → List UInt8 → List UInt8 → Prop) (kept : ι → Prop)
    (top : Nat) (m m' : Memory) : Prop where
  related : ∀ i, kept i → R i (L.load m i) (L.load m' i)
  fits : ∀ i, kept i → (L.load m i).length ≤ L.capacity i ∧ (L.load m' i).length ≤ L.capacity i
  beyond : ∀ a, top ≤ a → m a = m' a

namespace Paired

variable {R : ι → List UInt8 → List UInt8 → Prop} {kept : ι → Prop} {top : Nat}

theorem refl (R : ι → List UInt8 → List UInt8 → Prop) (top : Nat) (m : Memory) :
    L.Paired R (fun _ => False) top m m :=
  ⟨fun _ h => h.elim, fun _ h => h.elim, fun _ _ => rfl⟩

theorem load_eq (h : L.Paired R kept top m m') (hi : top ≤ L.offset i) :
    L.load m i = L.load m' i :=
  load_congr fun a ha => h.beyond a (hi.trans ha)

theorem store {x y : List UInt8} (h : L.Paired R kept top m m') (hR : R i x y)
    (hx : x.length ≤ L.capacity i) (hy : y.length ≤ L.capacity i)
    (htop : L.offset i + 8 + L.capacity i ≤ top) :
    L.Paired R (fun j => kept j ∨ j = i) top (L.store m i x) (L.store m' i y) := by
  have hcap := L.capacity_lt i
  have hself := L.load_store_self m i (hx.trans_lt hcap)
  have hself' := L.load_store_self m' i (hy.trans_lt hcap)
  have hkeep (j : ι) (hj : kept j) (hij : i ≠ j) : L.load (L.store m i x) j = L.load m j ∧
      L.load (L.store m' i y) j = L.load m' j :=
    ⟨L.load_store_ne hij hx (h.fits j hj).1, L.load_store_ne hij hy (h.fits j hj).2⟩
  refine ⟨fun j hj => ?_, fun j hj => ?_, fun a ha => ?_⟩
  · by_cases hij : i = j
    · subst hij
      rwa [hself, hself']
    · obtain ⟨hm, hm'⟩ := hkeep j (hj.resolve_right (Ne.symm hij)) hij
      rw [hm, hm']
      exact h.related j (hj.resolve_right (Ne.symm hij))
  · by_cases hij : i = j
    · subst hij
      rw [hself, hself']
      exact ⟨hx, hy⟩
    · obtain ⟨hm, hm'⟩ := hkeep j (hj.resolve_right (Ne.symm hij)) hij
      rw [hm, hm']
      exact h.fits j (hj.resolve_right (Ne.symm hij))
  · rw [L.store_outside (by omega), L.store_outside (by omega)]
    exact h.beyond a ha

theorem congr {v v' : Memory} (h : L.Paired R kept top m m') (base : Nat)
    (hbase : ∀ i, base ≤ L.offset i) (htop : base ≤ top) (hm : ∀ a, base ≤ a → v a = m a)
    (hm' : ∀ a, base ≤ a → v' a = m' a) : L.Paired R kept top v v' := by
  have hload {u w : Memory} (hu : ∀ a, base ≤ a → u a = w a) (i : ι) : L.load u i = L.load w i :=
    load_congr fun a ha => hu a ((hbase i).trans ha)
  refine ⟨fun i hi => ?_, fun i hi => ?_, fun a ha => ?_⟩
  · rw [hload hm, hload hm']
    exact h.related i hi
  · rw [hload hm, hload hm']
    exact h.fits i hi
  · rw [hm a (by omega), hm' a (by omega)]
    exact h.beyond a ha

end Paired

end Layout
