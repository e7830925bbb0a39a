import MuchPIR.Server

namespace MuchPIR
open Prog HexPoly
set_option autoImplicit true

/-- The encryption parameters of the client; the coefficient moduli are SEAL's default ones. -/
def clientParams (bfvDefault : List Nat) : Params := ⟨4096, bfvDefault, 40961⟩

theorem exists_root (v d : Nat) : ∃ r, v ≤ r ^ (d + 1) := ⟨v, Nat.le_self_pow (Nat.succ_ne_zero d) v⟩

/-- `ceil( pow( v, 1/(d+1) ) )` in the real numbers: the casts to `double` and back, the quotient,
`pow` and `ceil` are all exact. -/
def ceilRoot (v d : Nat) : Nat := Nat.find (exists_root v d)

def hcubeLoop (polyDegree dbSize : Nat) : Nat → Nat → Nat → Nat × Nat
  | 0, hcubeDim, hcubeLen => (hcubeDim, hcubeLen)
  | fuel + 1, hcubeDim, hcubeLen =>
    if polyDegree < hcubeLen then
      hcubeLoop polyDegree dbSize fuel (hcubeDim + 1) (ceilRoot dbSize hcubeDim)
    else (hcubeDim, hcubeLen)

/-- The dimensions of the smallest hypercube, and its side. A 64-bit size needs at most 64
dimensions. -/
def getHcubeParam (polyDegree dbSize : Nat) : Nat × Nat :=
  hcubeLoop polyDegree dbSize 64 0 (2 ^ 64 - 1)

def oneHot (polyModDegree subIndex : Nat) : Plaintext :=
  ⟨(List.replicate polyModDegree 0).set subIndex 1⟩

section Query

variable (S : Seal) (params : Params) (keygen : S.KeyGenerator) (coins : Nat → S.Coins)

def queryDims (polyModDegree hcubeLen : Nat) : Nat → Nat → SealM (List (List S.Ciphertext))
  | 0, _ => pure []
  | hcubeDim + 1, rowIndex => do
    let subIndex := rowIndex % hcubeLen
    let dest ← SealM.call .encrypt
      (S.encrypt params keygen (coins hcubeDim) (oneHot polyModDegree subIndex))
    let result ← queryDims polyModDegree hcubeLen hcubeDim (rowIndex / hcubeLen)
    return result ++ [[dest]]

def generateQuery (rowIndex dbSize polyModDegree : Nat) : SealM (List (List S.Ciphertext)) :=
  queryDims S params keygen coins polyModDegree (getHcubeParam polyModDegree dbSize).2
    (getHcubeParam polyModDegree dbSize).1 rowIndex

/-- The query message: parameters, Galois keys and the ciphertext, one after the other. -/
def queryMessage (heQuery : S.Ciphertext) : Bytes :=
  S.saveParams .none params ++
    S.saveGaloisKeys S.comprModeDefault
      (generateGaloisKeys S params keygen params.polyModulusDegree) ++
    S.saveCiphertext .none heQuery

def buildQuery (rowIndex dbSize : Nat) : SealM Bytes := do
  let heQuery ← generateQuery S params keygen coins rowIndex dbSize params.polyModulusDegree
  match heQuery.head?.bind List.head? with
  | some c => return queryMessage S params keygen c
  | none => throw (.outOfRange 0)

end Query

inductive Output
  | char (byte : UInt8)
  | endl
  deriving DecidableEq

def find : List Char → Option Nat
  | [] => none
  | c :: s => if [' ', '+', ' '].isPrefixOf (c :: s) then some 0 else (find s).map (· + 1)

theorem find_lt (h : find s = some pos) : pos < s.length := by
  induction s generalizing pos with
  | nil => cases h
  | cons c s ih =>
    rw [find] at h
    split at h
    · cases h
      exact Nat.succ_pos _
    · obtain ⟨p, hp, rfl⟩ := Option.map_eq_some_iff.1 h
      exact Nat.succ_lt_succ (ih hp)

/-- `ss >> std::hex >> cha`: the longest prefix of digits. An empty stream leaves `cha` as it is. -/
def readHex (cha : Nat) (token : List Char) : Nat :=
  match token.dropWhile Char.isWhitespace with
  | [] => cha
  | s => value 16 (s.takeWhile isHex)

def parseTerms (cha : Nat) (queryRes : List Char) : List Output :=
  match _h : find queryRes with
  | some pos =>
    let token := (queryRes.take pos).take 2
    .char (UInt8.ofNat (readHex cha token)) ::
      parseTerms (readHex cha token) (queryRes.drop (pos + 3))
  | none => [.char (UInt8.ofNat (readHex cha (queryRes.take 2))), .endl]
termination_by queryRes.length
decreasing_by
  have hlt := find_lt _h
  rw [List.length_drop]
  omega

section Result

variable (S : Seal) (params : Params) (keygen : S.KeyGenerator) (coins : S.Coins)

/-- Decrypt the result, take out the factor of the expansion, and decode the row. -/
def showResult (cha : Nat) (data : Bytes) : SealM (List Output) := do
  let (result, _) ← SealM.call .loadCiphertext (S.loadCiphertext params data)
  let decryptedResult ← SealM.call .decrypt (S.decrypt params keygen result)
  let inverse ← SealM.call (.plaintext ['9', 'F', 'F', '7']) (S.plaintext ['9', 'F', 'F', '7'])
  let temp ← SealM.call .encrypt (S.encrypt params keygen coins inverse)
  let result ← SealM.call (.multiplyPlain .single decryptedResult)
    (S.multiplyPlain params temp decryptedResult)
  let decryptedResult ← SealM.call .decrypt (S.decrypt params keygen result)
  return parseTerms cha (S.toString decryptedResult)

end Result

theorem ceilRoot_zero (v : Nat) : ceilRoot v 0 = v := by
  rw [ceilRoot, Nat.find_eq_iff]
  simp only [zero_add, pow_one]
  exact ⟨le_rfl, fun r hr => Nat.not_le.2 hr⟩

theorem getHcubeParam_of_le {polyDegree dbSize : Nat} (hdb : dbSize ≤ polyDegree)
    (hdeg : polyDegree < 2 ^ 64 - 1) :
    getHcubeParam polyDegree dbSize = (1, dbSize) := by
  rw [getHcubeParam, hcubeLoop, if_pos hdeg, hcubeLoop, ceilRoot_zero, if_neg (Nat.not_lt.2 hdb)]

theorem encrypt_oneHot {S : Seal} {params : Params} {keygen : S.KeyGenerator}
    (hS : S.Lawful params keygen) (ht : 1 < params.plainModulus) (coins : S.Coins) (i : Nat) :
    ∃ c, S.encrypt params keygen coins (oneHot params.polyModulusDegree i) = .ok c := by
  apply hS.encrypt_returns
  · rw [oneHot, List.length_set, List.length_replicate]
  · intro a ha
    rw [oneHot] at ha
    rcases List.mem_or_eq_of_mem_set ha with ha | rfl
    · rw [List.eq_of_mem_replicate ha]
      omega
    · exact ht

end MuchPIR
