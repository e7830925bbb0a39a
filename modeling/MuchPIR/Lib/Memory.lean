import Mathlib.Data.List.GetD
import Mathlib.Data.Nat.Digits.Defs
import Mathlib.Tactic

set_option autoImplicit true

abbrev Memory := Nat → UInt8

/-- The `width` low bytes of a number, least significant first. -/
def leBytes : Nat → Nat → List UInt8
  | 0, _ => []
  | width + 1, v => UInt8.ofNat v :: leBytes width (v / 256)

def leNat : List UInt8 → Nat
  | [] => 0
  | b :: bs => b.toNat + 256 * leNat bs

@[simp] theorem length_leBytes (width v : Nat) : (leBytes width v).length = width := by
  induction width generalizing v with
  | zero => rfl
  | succ width ih => simp only [leBytes, List.length_cons, ih]

theorem leNat_leBytes (width v : Nat) : leNat (leBytes width v) = v % 256 ^ width := by
  induction width generalizing v with
  | zero => simp only [leBytes, leNat, pow_zero, Nat.mod_one]
  | succ width ih =>
    have hb : (UInt8.ofNat v).toNat = v % 256 := by simp
    simp only [leBytes, leNat, ih, hb]
    rw [pow_succ', Nat.mod_mul]

theorem leNat_append (xs ys : List UInt8) :
    leNat (xs ++ ys) = leNat xs + 256 ^ xs.length * leNat ys := by
  induction xs with
  | nil => rw [List.nil_append, leNat, List.length_nil, pow_zero, one_mul, zero_add]
  | cons x xs ih =>
    rw [List.cons_append, leNat, leNat, ih, List.length_cons, pow_succ']
    ring

theorem leNat_lt (bs : List UInt8) : leNat bs < 256 ^ bs.length := by
  induction bs with
  | nil => exact Nat.one_pos
  | cons b bs ih =>
    have hb := b.toNat_lt
    rw [leNat, List.length_cons, pow_succ']
    omega

theorem leNat_replicate_zero (k : Nat) : leNat (List.replicate k 0) = 0 := by
  induction k with
  | zero => rfl
  | succ k ih =>
    rw [List.replicate_succ, leNat, ih]
    rfl

namespace Memory

/-- `memcpy` of `bytes` to address `off`. -/
def write (m : Memory) (off : Nat) (bytes : List UInt8) : Memory := fun a =>
  if off ≤ a ∧ a < off + bytes.length then bytes.getD (a - off) 0 else m a

def read (m : Memory) (off len : Nat) : List UInt8 := (List.range len).map fun i => m (off + i)

def writeU64 (m : Memory) (off v : Nat) : Memory := m.write off (leBytes 8 v)

def readU64 (m : Memory) (off : Nat) : Nat := leNat (m.read off 8)

@[simp] theorem length_read (m : Memory) (off len : Nat) : (m.read off len).length = len := by
  simp only [read, List.length_map, List.length_range]

theorem write_outside {m : Memory} {bytes : List UInt8}
    (h : a < off ∨ off + bytes.length ≤ a) : m.write off bytes a = m a := by
  unfold write
  rw [if_neg (by omega)]

theorem write_append (m : Memory) (off : Nat) (xs ys : List UInt8) :
    (m.write off xs).write (off + xs.length) ys = m.write off (xs ++ ys) := by
  funext a
  simp only [write, List.length_append]
  rcases Nat.lt_or_ge a (off + xs.length) with hin | hout
  · rw [if_neg (by omega)]
    by_cases hle : off ≤ a
    · rw [if_pos ⟨hle, hin⟩, if_pos ⟨hle, by omega⟩, List.getD_append _ _ _ _ (by omega)]
    · rw [if_neg (by omega), if_neg (by omega)]
  · by_cases hlt : a < off + xs.length + ys.length
    · rw [if_pos ⟨hout, hlt⟩, if_pos ⟨by omega, by omega⟩,
        List.getD_append_right _ _ _ _ (by omega), Nat.sub_add_eq]
    · rw [if_neg (by omega), if_neg (by omega), if_neg (by omega)]

@[simp] theorem write_nil (m : Memory) (off : Nat) : m.write off [] = m := by
  funext a
  exact write_outside (by rw [List.length_nil]; omega)

theorem read_congr {m m' : Memory} (h : ∀ a, off ≤ a → a < off + len → m a = m' a) :
    m.read off len = m'.read off len := by
  unfold read
  apply List.map_congr_left
  intro i hi
  have hlt := List.mem_range.1 hi
  exact h _ (by omega) (by omega)

theorem readU64_congr {m m' : Memory} (h : ∀ a, off ≤ a → a < off + 8 → m a = m' a) :
    m.readU64 off = m'.readU64 off :=
  congrArg leNat (read_congr h)

@[simp] theorem read_write (m : Memory) (off : Nat) (bytes : List UInt8) :
    (m.write off bytes).read off bytes.length = bytes := by
  apply List.ext_getElem
  · exact length_read _ _ _
  · intro i hi hi'
    simp only [read, write, List.getElem_map, List.getElem_range]
    rw [if_pos ⟨by omega, by omega⟩, Nat.add_sub_cancel_left]
    exact List.getD_eq_getElem _ _ hi'

theorem read_write_disjoint {m : Memory} {bytes : List UInt8}
    (h : off' + len ≤ off ∨ off + bytes.length ≤ off') :
    (m.write off bytes).read off' len = m.read off' len :=
  read_congr fun _ _ _ => write_outside (by omega)

theorem readU64_write_disjoint {m : Memory} {bytes : List UInt8}
    (h : off' + 8 ≤ off ∨ off + bytes.length ≤ off') :
    (m.write off bytes).readU64 off' = m.readU64 off' :=
  congrArg leNat (read_write_disjoint h)

theorem readU64_writeU64 (m : Memory) (off v : Nat) :
    (m.writeU64 off v).readU64 off = v % 2 ^ 64 := by
  have h := read_write m off (leBytes 8 v)
  rw [length_leBytes] at h
  unfold readU64 writeU64
  rw [h, leNat_leBytes]
  norm_num

theorem read_add (m : Memory) (off k l : Nat) :
    m.read off (k + l) = m.read off k ++ m.read (off + k) l := by
  simp only [read, List.range_add, List.map_append, List.map_map]
  congr 1
  apply List.map_congr_left
  intro i _
  exact congrArg m (Nat.add_assoc off k i).symm

/-- Words read one after the other spell the same number as their bytes. -/
theorem ofDigits_readU64 (m : Memory) (count : Nat) :
    Nat.ofDigits (2 ^ 64) ((List.range count).map fun i => m.readU64 (8 * i)) =
      leNat (m.read 0 (8 * count)) := by
  induction count with
  | zero => rfl
  | succ count ih =>
    have hpow : (256 : Nat) ^ (8 * count) = (2 ^ 64) ^ count := by
      rw [pow_mul]
      norm_num
    rw [List.range_succ, List.map_append, Nat.ofDigits_append, ih, List.length_map,
      List.length_range, Nat.mul_succ, read_add, leNat_append, length_read, hpow, Nat.zero_add]
    simp only [List.map_cons, List.map_nil, Nat.ofDigits_singleton, readU64]

end Memory
