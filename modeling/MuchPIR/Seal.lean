import MuchPIR.Lib.HexPoly
import MuchPIR.Lib.Negacyclic
import MuchPIR.Lib.Prog

namespace MuchPIR
open Negacyclic
set_option autoImplicit true

abbrev Bytes := List UInt8

inductive Exn
  | logicError (what : String)
  | invalidArgument (what : String)
  | runtimeError (what : String)
  deriving DecidableEq

/-- Why a call ends without returning: an exception, or an index outside its container. -/
inductive Fault
  | throws (e : Exn)
  | outOfRange (index : Int)
  deriving DecidableEq

structure Params where
  polyModulusDegree : Nat
  coeffModulus : List Nat
  plainModulus : Nat
  deriving DecidableEq

/-- `seal::Plaintext`: the coefficient array, constant term first. -/
structure Plaintext where
  coeffs : List Nat
  deriving DecidableEq

def Plaintext.IsZero (p : Plaintext) : Prop := ∀ c ∈ p.coeffs, c = 0

instance (p : Plaintext) : Decidable p.IsZero := by
  unfold Plaintext.IsZero
  infer_instance

inductive ComprMode
  | none
  | deflate
  deriving DecidableEq

/-- The part of SEAL that the client and the server call. A `KeyGenerator` holds one client's
keys, and `Coins` is the randomness of one encryption. -/
structure Seal where
  Ciphertext : Type
  GaloisKeys : Type
  KeyGenerator : Type
  Coins : Type
  comprModeDefault : ComprMode
  plaintext : List Char → Except Exn Plaintext
  toString : Plaintext → List Char
  saveParams : ComprMode → Params → Bytes
  loadParams : Bytes → Except Exn (Params × Bytes)
  saveGaloisKeys : ComprMode → GaloisKeys → Bytes
  loadGaloisKeys : Params → Bytes → Except Exn (GaloisKeys × Bytes)
  saveCiphertext : ComprMode → Ciphertext → Bytes
  loadCiphertext : Params → Bytes → Except Exn (Ciphertext × Bytes)
  galoisKeys : Params → KeyGenerator → List Nat → GaloisKeys
  encrypt : Params → KeyGenerator → Coins → Plaintext → Except Exn Ciphertext
  decrypt : Params → KeyGenerator → Ciphertext → Except Exn Plaintext
  size : Ciphertext → Nat
  applyGalois : Params → Ciphertext → Nat → GaloisKeys → Except Exn Ciphertext
  add : Params → Ciphertext → Ciphertext → Except Exn Ciphertext
  multiplyPlain : Params → Ciphertext → Plaintext → Except Exn Ciphertext
  negacyclicShift : Ciphertext → Nat → List Nat → Ciphertext

/-- Which ciphertext is multiplied by a plaintext: an entry of the expansion's `temp`, an entry of
the expanded query, or a ciphertext outside both. -/
inductive Operand
  | temp (a : Nat)
  | dim1 (jj : Nat)
  | single
  deriving DecidableEq

inductive SealOp
  | loadParams
  | loadGaloisKeys
  | loadCiphertext
  | plaintext (hexPoly : List Char)
  | encrypt
  | decrypt
  | applyGalois (galoisElt : Nat)
  | add
  | negacyclicShift (index : Nat)
  | multiplyPlain (operand : Operand) (plain : Plaintext)
  deriving DecidableEq

/-- Code that only calls SEAL. Its world is the list of calls made. -/
abbrev SealM := Prog (List SealOp) Fault

namespace SealM

def call (op : SealOp) (x : Except Exn α) : SealM α := fun log =>
  (x.mapError Fault.throws, log ++ [op])

variable {Q : α → List SealOp → Prop} {E : Fault → List SealOp → Prop}

@[simp] theorem wp_call_ok :
    Prog.wp (call op (.ok a)) Q E log ↔ Q a (log ++ [op]) := Iff.rfl

@[simp] theorem wp_call_error :
    Prog.wp (call op (.error e)) Q E log ↔ E (.throws e) (log ++ [op]) := Iff.rfl

theorem wp_call {x : Except Exn α} (hQ : ∀ a, x = .ok a → Q a (log ++ [op]))
    (hE : ∀ e, x = .error e → E (.throws e) (log ++ [op])) : Prog.wp (call op x) Q E log := by
  cases x with
  | ok a => exact hQ a rfl
  | error e => exact hE e rfl

end SealM

abbrev Params.Ring (params : Params) : Type :=
  NegacyclicRing params.polyModulusDegree (ZMod params.plainModulus)

noncomputable abbrev Params.x (params : Params) : params.Ring := AdjoinRoot.root _

noncomputable def Plaintext.denote (params : Params) (p : Plaintext) : params.Ring :=
  AdjoinRoot.mk _ (ofCoeffs p.coeffs)

/-- The coefficient array that SEAL reads from a polynomial text: up to the first power, or empty
when every coefficient is zero. -/
def Plaintext.ofTerms (ts : List HexPoly.Term) : Plaintext :=
  if ∀ t ∈ ts, t.coeff = 0 then ⟨[]⟩ else ⟨HexPoly.toCoeffs ts⟩

namespace Seal

noncomputable def msg (S : Seal) (params : Params) (keygen : S.KeyGenerator) (c : S.Ciphertext) :
    params.Ring :=
  match S.decrypt params keygen c with
  | .ok p => p.denote params
  | .error _ => 0

/-- When SEAL's calls return, under parameters and keys that it accepts: no outcome depends on
what a ciphertext encrypts. -/
structure Lawful (S : Seal) (params : Params) (keygen : S.KeyGenerator) : Prop where
  plaintext_of_spells : HexPoly.Spells s ts → (∀ t ∈ ts, t.coeff < 2 ^ 64) →
    S.plaintext s = .ok (.ofTerms ts)
  toString_eq (p : Plaintext) : S.toString p = HexPoly.print p.coeffs
  loadParams_save (mode : ComprMode) (rest : Bytes) :
    S.loadParams (S.saveParams mode params ++ rest) = .ok (params, rest)
  loadGaloisKeys_save (mode : ComprMode) (keys : S.GaloisKeys) (rest : Bytes) :
    S.loadGaloisKeys params (S.saveGaloisKeys mode keys ++ rest) = .ok (keys, rest)
  loadCiphertext_save (mode : ComprMode) (c : S.Ciphertext) (rest : Bytes) :
    S.loadCiphertext params (S.saveCiphertext mode c ++ rest) = .ok (c, rest)
  size_eq (c : S.Ciphertext) : S.size c = 2
  encrypt_returns (coins : S.Coins) (p : Plaintext) :
    p.coeffs.length ≤ params.polyModulusDegree → (∀ k ∈ p.coeffs, k < params.plainModulus) →
    ∃ c, S.encrypt params keygen coins p = .ok c
  decrypt_returns (c : S.Ciphertext) : ∃ p, S.decrypt params keygen c = .ok p ∧
    p.coeffs.length ≤ params.polyModulusDegree ∧ ∀ k ∈ p.coeffs, k < params.plainModulus
  applyGalois_returns (c : S.Ciphertext) (elts : List Nat) :
    (∀ g ∈ elts, Odd g ∧ g < 2 * params.polyModulusDegree) →
    ∀ g ∈ elts, ∃ d, S.applyGalois params c g (S.galoisKeys params keygen elts) = .ok d
  add_returns (c d : S.Ciphertext) : ∃ e, S.add params c d = .ok e
  multiplyPlain_returns (c : S.Ciphertext) (p : Plaintext) :
    p.coeffs.length ≤ params.polyModulusDegree → ¬p.IsZero →
    ∃ d, S.multiplyPlain params c p = .ok d
  multiplyPlain_throws (c : S.Ciphertext) (p : Plaintext) :
    params.polyModulusDegree < p.coeffs.length ∨ p.IsZero →
    ∃ e, S.multiplyPlain params c p = .error e

/-- The ideal scheme: every call acts exactly on what the ciphertexts decrypt to. -/
structure Ideal (S : Seal) (params : Params) (keygen : S.KeyGenerator) : Prop
    extends S.Lawful params keygen where
  msg_encrypt : S.encrypt params keygen coins p = .ok c → S.msg params keygen c = p.denote params
  msg_add : S.add params c d = .ok e →
    S.msg params keygen e = S.msg params keygen c + S.msg params keygen d
  msg_applyGalois (hg : Odd g) : S.applyGalois params c g keys = .ok d →
    S.msg params keygen d = galois g hg (S.msg params keygen c)
  msg_multiplyPlain : S.multiplyPlain params c p = .ok d →
    S.msg params keygen d = S.msg params keygen c * p.denote params
  msg_negacyclicShift (c : S.Ciphertext) (index : Nat) :
    S.msg params keygen (S.negacyclicShift c index params.coeffModulus) =
      params.x ^ index * S.msg params keygen c

theorem Lawful.loadParams_saved {S : Seal} {params : Params} {keygen : S.KeyGenerator}
    (hS : S.Lawful params keygen) (mode : ComprMode) :
    S.loadParams (S.saveParams mode params) = .ok (params, []) := by
  have h := hS.loadParams_save mode []
  rwa [List.append_nil] at h

theorem Lawful.loadCiphertext_saved {S : Seal} {params : Params} {keygen : S.KeyGenerator}
    (hS : S.Lawful params keygen) (mode : ComprMode) (c : S.Ciphertext) :
    S.loadCiphertext params (S.saveCiphertext mode c) = .ok (c, []) := by
  have h := hS.loadCiphertext_save mode c []
  rwa [List.append_nil] at h

theorem Lawful.decrypt_spec {S : Seal} {params : Params} {keygen : S.KeyGenerator}
    (hS : S.Lawful params keygen) (c : S.Ciphertext) :
    ∃ p, S.decrypt params keygen c = .ok p ∧ p.denote params = S.msg params keygen c ∧
      p.coeffs.length ≤ params.polyModulusDegree ∧ ∀ k ∈ p.coeffs, k < params.plainModulus := by
  obtain ⟨p, hp, hlen, hlt⟩ := hS.decrypt_returns c
  refine ⟨p, hp, ?_, hlen, hlt⟩
  simp only [msg, hp]

end Seal

end MuchPIR
