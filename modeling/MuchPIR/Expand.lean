import MuchPIR.Seal

namespace MuchPIR
open Prog Negacyclic
set_option autoImplicit true

/-- `v[a]` of a `vector<Ciphertext>` as an argument of an evaluator call. A default-constructed
entry (`none`) is refused there. -/
def entry (v : List (Option α)) (a : Nat) : Except Fault α :=
  match v[a]? with
  | none => .error (.outOfRange a)
  | some none =>
    .error (.throws (.invalidArgument "encrypted is not valid for encryption parameters"))
  | some (some c) => .ok c

theorem entry_eq_ok {v : List (Option α)} (h : v[a]? = some (some c)) : entry v a = .ok c := by
  rw [entry, h]

def getPowerOfTwo (value : Nat) : Int := if 2 ^ Nat.log 2 value = value then Nat.log 2 value else -1

def generateGaloisElts (N : Nat) : List Nat :=
  (List.range (getPowerOfTwo N).toNat).map fun i => (N + 2 ^ i) / 2 ^ i

def generateGaloisKeys (S : Seal) (params : Params) (keygen : S.KeyGenerator) (N : Nat) :
    S.GaloisKeys :=
  S.galoisKeys params keygen (generateGaloisElts N)

section Expand

variable (S : Seal) (params : Params) (galkey : S.GaloisKeys)

/-- Every pass of the loop shifts the whole of `encrypted` once more into `destination`. -/
def multiplyPowerOfX (encrypted : S.Ciphertext) (index : Nat) : SealM S.Ciphertext :=
  forRange 0 (S.size encrypted) (fun _ _ =>
    SealM.call (.negacyclicShift index)
      (.ok (S.negacyclicShift encrypted index params.coeffModulus))) encrypted

def butterfly (galoisElt indexRaw index : Nat) (temp : List (Option S.Ciphertext)) (a : Nat)
    (newtemp : List (Option S.Ciphertext)) : SealM (List (Option S.Ciphertext)) := do
  let c ← lift (entry temp a)
  let rotated ← SealM.call (.applyGalois galoisElt) (S.applyGalois params c galoisElt galkey)
  let sum ← SealM.call .add (S.add params c rotated)
  let shifted ← multiplyPowerOfX S params c indexRaw
  let rotatedshifted ← multiplyPowerOfX S params rotated index
  let sum' ← SealM.call .add (S.add params shifted rotatedshifted)
  return (newtemp.set a (some sum)).set (a + temp.length) (some sum')

def expandLevel (galoisElts : List Nat) (i : Nat) (temp : List (Option S.Ciphertext)) :
    SealM (List (Option S.Ciphertext)) := do
  let galoisElt ← lift (entry (galoisElts.map some) i)
  let n := params.polyModulusDegree
  let indexRaw := 2 * n - 2 ^ i
  let index := indexRaw * galoisElt % (2 * n)
  forRange 0 temp.length (butterfly S params galkey galoisElt indexRaw index temp)
    (List.replicate (2 * temp.length) none)

def doubleEntry (two : Plaintext) (temp : List (Option S.Ciphertext)) (a : Nat)
    (newtemp : List (Option S.Ciphertext)) : SealM (List (Option S.Ciphertext)) := do
  let c ← lift (entry temp a)
  let doubled ← SealM.call (.multiplyPlain (.temp a) two) (S.multiplyPlain params c two)
  return newtemp.set a (some doubled)

def expandLast (galoisElts : List Nat) (two : Plaintext) (m last : Nat)
    (temp : List (Option S.Ciphertext)) : SealM (List (Option S.Ciphertext)) := do
  let galoisElt ← lift (entry (galoisElts.map some) last)
  let n := params.polyModulusDegree
  let indexRaw := 2 * n - 2 ^ last
  let index := indexRaw * galoisElt % (2 * n)
  forRange 0 temp.length (fun a newtemp =>
    if m - 2 ^ last ≤ a then doubleEntry S params two temp a newtemp
    else butterfly S params galkey galoisElt indexRaw index temp a newtemp)
    (List.replicate (2 * temp.length) none)

/-- Hypercube expansion along one dimension. `logm - 1` is computed in `uint32_t`, the `int` products
of a level exactly. -/
def expandQuery (encrypted : S.Ciphertext) (m : Nat) : SealM (List (Option S.Ciphertext)) := do
  let logm := Nat.clog 2 m
  let two ← SealM.call (.plaintext ['2']) (S.plaintext ['2'])
  let n := params.polyModulusDegree
  if Nat.clog 2 n < logm then throw (.throws (.logicError "m > n is not allowed."))
  else do
    let galoisElts := (List.range (Nat.clog 2 n)).map fun i => (n + 2 ^ i) / 2 ^ i
    let last := (logm + (2 ^ 32 - 1)) % 2 ^ 32
    let temp ← forRange 0 last (expandLevel S params galkey galoisElts) [some encrypted]
    let newtemp ← expandLast S params galkey galoisElts two m last temp
    return newtemp.take m

end Expand

end MuchPIR
