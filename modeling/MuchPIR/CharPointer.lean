import MuchPIR.Encoding
import MuchPIR.Lib.HexBytes
import MuchPIR.Machine

namespace MuchPIR
open Prog Machine HexPoly Polynomial
set_option autoImplicit true

/-- The argument of `char_to_poly( char * )`: the bytes before the NUL, and the memory behind it. -/
structure CString where
  bytes : Bytes
  noNul : ∀ b ∈ bytes, b ≠ 0
  beyond : Memory

namespace CString

def strlen (s : CString) : Nat := s.bytes.length

def data (s : CString) : Memory := fun a =>
  if a < s.strlen then s.bytes.getD a 0 else if a = s.strlen then 0 else s.beyond a

/-- The bytes that `char_to_poly( char * )` allocates, and also the bytes that it copies. -/
def paddedSize (s : CString) : Nat := s.strlen - s.strlen % 8 + 8

def lenInt (s : CString) : Nat := (s.strlen + 7) / 8

def sourceRead (s : CString) : MachineOp := .span 0 s.paddedSize (s.strlen + 1)

def bufferWrite (s : CString) : MachineOp := .span (8 - s.strlen % 8) s.paddedSize s.paddedSize

def wordsRead (s : CString) : MachineOp := .span 0 (8 * s.lenInt) s.paddedSize

/-- The buffer after `memset` and `memcpy`, in memory that `malloc` does not clear. What is copied
beyond its end is never read. -/
def dataPadded (s : CString) (malloc : Memory) : Memory :=
  (malloc.write 0 (List.replicate s.paddedSize 0)).write (8 - s.strlen % 8)
    (s.data.read 0 s.paddedSize)

def dataInt (s : CString) (malloc : Memory) : List Nat :=
  (List.range s.lenInt).map fun i => (s.dataPadded malloc).readU64 (8 * i)

end CString

section CharPointer

/-- `hex_str[ pos ]`. Behind the last digit stands a NUL, and nothing further is defined. -/
def digitAt (hexStr : List Char) (pos : Nat) : Machine Char := do
  note (.index pos hexStr.length)
  if pos ≤ hexStr.length then return hexStr.getD pos (Char.ofNat 0)
  else throw (.undefined (.index pos hexStr.length))

/-- The pair of digits that begins `2 * k` digits before the end of the first `rest` words. -/
def writeDigits (hexStr : List Char) (rest k : Nat) (stream : List Char) :
    Machine (List Char) := do
  let hi ← digitAt hexStr (rest * 16 - 2 * k)
  let lo ← digitAt hexStr (rest * 16 - (2 * k - 1))
  return stream ++ [hi, lo]

def powerText (power : Nat) : List Char := 'x' :: '^' :: (numeral 10 power ++ [' ', '+', ' '])

/-- One pass of the loop: the eight bytes of a word, of which the very last has no power. -/
def writeWord (hexStr : List Char) (lenInt jj : Nat) (stream : List Char) :
    Machine (List Char) := do
  let stream ← forRange 1 7 (fun k stream => do
    let stream ← writeDigits hexStr (lenInt - jj) k stream
    return stream ++ powerText ((lenInt - jj) * 8 - k)) stream
  let stream ← writeDigits hexStr (lenInt - jj) 8 stream
  if jj = lenInt - 1 then return stream
  else return stream ++ powerText ((lenInt - jj) * 8 - 8)

variable (uintToHexString : List Nat → List Char) (malloc : Memory)

/-- `char_to_poly( char * )`: the padded words as one number in hexadecimal, cut into bytes. -/
def charPointerToPoly (s : CString) : Machine (List Char) := do
  note (.span 0 s.paddedSize s.paddedSize)
  note s.sourceRead
  note s.bufferWrite
  note s.wordsRead
  let hexStr := uintToHexString (s.dataInt malloc)
  forRange 0 s.lenInt (writeWord hexStr s.lenInt) []

end CharPointer

section Buffer

variable (s : CString)

/-- The bytes of the buffer: the padding stands before the string. -/
def CString.padded : Bytes := List.replicate (8 - s.strlen % 8) 0 ++ s.bytes

/-- The part of the buffer that is read as words. -/
def CString.inWords : Bytes := s.padded.take (8 * s.lenInt)

theorem length_padded : s.padded.length = s.paddedSize := by
  rw [CString.padded, List.length_append, List.length_replicate, CString.paddedSize, CString.strlen]
  omega

theorem words_le : 8 * s.lenInt ≤ s.paddedSize := by
  rw [CString.lenInt, CString.paddedSize]
  omega

theorem length_inWords : s.inWords.length = 8 * s.lenInt := by
  rw [CString.inWords, List.length_take, length_padded]
  exact Nat.min_eq_left (words_le s)

theorem dataPadded_eq (malloc : Memory) (ha : a < s.paddedSize) :
    s.dataPadded malloc a = s.padded.getD a 0 := by
  have hsize : s.paddedSize = s.strlen - s.strlen % 8 + 8 := rfl
  have hfront : (List.replicate (8 - s.strlen % 8) (0 : UInt8)).length = 8 - s.strlen % 8 :=
    List.length_replicate
  rw [CString.dataPadded, CString.padded, Memory.write, Memory.length_read]
  by_cases h : 8 - s.strlen % 8 ≤ a
  · have hin : a - (8 - s.strlen % 8) < s.strlen := by omega
    rw [if_pos ⟨h, by omega⟩, List.getD_append_right _ _ _ _ (by omega), hfront, Memory.read,
      List.getD_eq_getElem _ _ (by rw [List.length_map, List.length_range]; omega),
      List.getElem_map, List.getElem_range, Nat.zero_add, CString.data, if_pos hin]
  · rw [if_neg (by omega), Memory.write, List.length_replicate, if_pos ⟨by omega, by omega⟩,
      List.getD_append _ _ _ _ (by omega), List.getD_replicate _ (by omega),
      List.getD_replicate _ (by omega)]

theorem read_dataPadded (malloc : Memory) :
    (s.dataPadded malloc).read 0 (8 * s.lenInt) = s.inWords := by
  have hle := words_le s
  apply List.ext_getElem
  · rw [Memory.length_read, length_inWords]
  · intro i hi hi'
    rw [Memory.length_read] at hi
    have hlt : i < s.padded.length := by
      rw [length_padded]
      omega
    simp only [Memory.read, List.getElem_map, List.getElem_range, Nat.zero_add, CString.inWords,
      List.getElem_take]
    rw [dataPadded_eq s malloc (by omega), List.getD_eq_getElem _ _ hlt]

theorem ofDigits_dataInt (malloc : Memory) :
    Nat.ofDigits (2 ^ 64) (s.dataInt malloc) = leNat s.inWords := by
  rw [CString.dataInt, Memory.ofDigits_readU64, read_dataPadded]

theorem dataInt_lt (malloc : Memory) : ∀ word ∈ s.dataInt malloc, word < 2 ^ 64 := by
  intro word hword
  obtain ⟨i, -, rfl⟩ := List.mem_map.1 hword
  have hlt := leNat_lt ((s.dataPadded malloc).read (8 * i) 8)
  rw [Memory.length_read] at hlt
  exact hlt.trans_eq (by norm_num)

end Buffer

/-- What SEAL's `uint_to_hex_string` does: it prints the number that the words spell, least
significant word first, without leading zeros. -/
def PrintsHex (uintToHexString : List Nat → List Char) : Prop :=
  ∀ words, (∀ word ∈ words, word < 2 ^ 64) →
    uintToHexString words = numeral 16 (Nat.ofDigits (2 ^ 64) words)

theorem PrintsHex.dataInt {uintToHexString : List Nat → List Char}
    (h : PrintsHex uintToHexString) (s : CString) (malloc : Memory) :
    uintToHexString (s.dataInt malloc) = numeral 16 (leNat s.inWords) := by
  rw [h _ (dataInt_lt s malloc), ofDigits_dataInt]

/-- The text of a byte string in pairs of digits, with the powers falling to zero. -/
def bytesText : Bytes → List Char
  | [] => []
  | b :: rest => bytePair b ++ if rest = [] then [] else powerText rest.length ++ bytesText rest

theorem bytesText_cons (b : UInt8) (hne : rest ≠ []) :
    bytesText (b :: rest) = bytePair b ++ powerText rest.length ++ bytesText rest := by
  rw [bytesText, if_neg hne, List.append_assoc]

theorem bytesText_spells (hne : data ≠ []) : Spells (bytesText data) (rowTerms data) := by
  induction data with
  | nil => exact absurd rfl hne
  | cons b rest ih =>
    have hpair : bytePair b ≠ [] := List.cons_ne_nil _ _
    by_cases hrest : rest = []
    · subst hrest
      have h := Spells.const hpair (isHex_bytePair b)
      rw [value_bytePair] at h
      rw [bytesText, if_pos rfl, List.append_nil]
      exact h
    · have hhead : ∀ t ∈ (rowTerms rest).head?, t.power < rest.length := by
        intro t ht
        cases rest with
        | nil => exact absurd rfl hrest
        | cons c rest =>
          cases ht
          exact Nat.lt_succ_self _
      have h := Spells.cons hpair (isHex_bytePair b) hhead (ih hrest)
      rw [value_bytePair] at h
      rw [bytesText_cons b hrest, powerText, List.append_assoc, List.cons_append, List.cons_append,
        List.append_assoc]
      exact h

def Written (data : Bytes) (i : Nat) (stream : List Char) : Prop :=
  stream ++ bytesText (data.drop i) = bytesText data

theorem Written.step (h : Written data i stream) (hi : i + 1 < data.length) :
    Written data (i + 1)
      (stream ++ bytePair (data.getD i 0) ++ powerText (data.length - 1 - i)) := by
  have hne : data.drop (i + 1) ≠ [] := by
    rw [Ne, List.drop_eq_nil_iff]
    omega
  have hpower : (data.drop (i + 1)).length = data.length - 1 - i := by
    rw [List.length_drop]
    omega
  unfold Written at h ⊢
  rw [List.drop_eq_getElem_cons (by omega), bytesText_cons _ hne, hpower,
    ← List.getD_eq_getElem data 0 (by omega)] at h
  rw [← h]
  simp only [List.append_assoc]

theorem Written.last (h : Written data i stream) (hi : i + 1 = data.length) :
    Written data (i + 1) (stream ++ bytePair (data.getD i 0)) := by
  have hnil : data.drop (i + 1) = [] := List.drop_eq_nil_iff.2 (by omega)
  unfold Written at h ⊢
  rw [List.drop_eq_getElem_cons (by omega), hnil, bytesText, if_pos rfl, List.append_nil,
    ← List.getD_eq_getElem data 0 (by omega)] at h
  rw [hnil, bytesText, List.append_nil, h]

/-- Every digit position so far lies inside the string. -/
def DigitsInside (w : MachineWorld) : Prop := ∀ pos size, .index pos size ∈ w.ops → pos < size

theorem DigitsInside.snoc (h : DigitsInside w) (hpos : pos < size) :
    DigitsInside { w with ops := w.ops ++ [.index pos size] } := by
  intro pos' size' hmem
  rcases List.mem_append.1 hmem with hmem | hmem
  · exact h pos' size' hmem
  · cases List.mem_singleton.1 hmem
    exact hpos

section Digits

variable {data : Bytes} {hexStr stream : List Char} {E : MachineFault → MachineWorld → Prop}

theorem digitAt_spec (hc : hexStr[pos]? = some c) (h : DigitsInside w) :
    wp (digitAt hexStr pos) (fun c' w' => c' = c ∧ DigitsInside w') E w := by
  obtain ⟨hpos, rfl⟩ := List.getElem?_eq_some_iff.1 hc
  simp only [digitAt, wp_bind, wp_note]
  rw [if_pos hpos.le, wp_pure]
  exact ⟨List.getD_eq_getElem _ _ hpos, h.snoc hpos⟩

theorem writeDigits_spec (hhex : hexStr = data.reverse.flatMap bytePair) (hk : 1 ≤ k) (hk' : k ≤ 8)
    (hrest : 0 < rest) (hi : i + 1 + (rest * 8 - k) = data.length) (h : DigitsInside w) :
    wp (writeDigits hexStr rest k stream)
      (fun stream' w' => stream' = stream ++ bytePair (data.getD i 0) ∧ DigitsInside w') E w := by
  have hp : rest * 8 - k < data.reverse.length := by
    rw [List.length_reverse]
    omega
  have hbyte : data.reverse.getD (rest * 8 - k) 0 = data.getD i 0 := by
    have hback : data.length - 1 - (rest * 8 - k) = i := by omega
    rw [List.getD_eq_getElem _ _ hp, List.getElem_reverse, List.getD_eq_getElem _ _ (by omega)]
    simp only [hback]
  have hlo : rest * 16 - (2 * k - 1) = 2 * (rest * 8 - k) + 1 := by omega
  have hhi : rest * 16 - 2 * k = 2 * (rest * 8 - k) := by omega
  have hdigits := flatMap_bytePair_getElem? hp
  rw [hbyte, ← hhex] at hdigits
  rw [writeDigits, hlo, hhi, wp_bind]
  apply wp_mono (digitAt_spec hdigits.1 h) _ (fun _ _ h => h)
  rintro _ w ⟨rfl, h⟩
  rw [wp_bind]
  apply wp_mono (digitAt_spec hdigits.2 h) _ (fun _ _ h => h)
  rintro _ w ⟨rfl, h⟩
  exact ⟨rfl, h⟩

/-- A pass over word `jj` writes its eight bytes. -/
theorem writeWord_spec (hhex : hexStr = data.reverse.flatMap bytePair)
    (hlen : data.length = 8 * lenInt) (hjj : jj < lenInt) (hw : Written data (8 * jj) stream)
    (h : DigitsInside w) :
    wp (writeWord hexStr lenInt jj stream)
      (fun stream' w' => Written data (8 * (jj + 1)) stream' ∧ DigitsInside w') E w := by
  rw [writeWord, wp_bind]
  refine wp_mono (wp_forRange (fun k stream w => Written data (8 * jj + k - 1) stream ∧
    DigitsInside w) ?_ ⟨hw, h⟩) ?_ (fun _ _ h => h)
  · rintro k stream w hk hk' ⟨hw, h⟩
    have hpower : data.length - 1 - (8 * jj + k - 1) = (lenInt - jj) * 8 - k := by omega
    rw [wp_bind]
    apply wp_mono (writeDigits_spec hhex hk (by omega) (by omega)
      (by omega : 8 * jj + k - 1 + 1 + ((lenInt - jj) * 8 - k) = data.length) h) _ (fun _ _ h => h)
    rintro _ w ⟨rfl, h⟩
    have hstep := hw.step (by omega)
    have hnext : 8 * jj + k - 1 + 1 = 8 * jj + (k + 1) - 1 := by omega
    rw [hpower, hnext] at hstep
    exact ⟨hstep, h⟩
  · rintro stream w ⟨hw, h⟩
    have hpower : data.length - 1 - (8 * jj + (1 + 7) - 1) = (lenInt - jj) * 8 - 8 := by omega
    have hnext : 8 * jj + (1 + 7) - 1 + 1 = 8 * (jj + 1) := by omega
    rw [wp_bind]
    apply wp_mono (writeDigits_spec hhex (by omega) le_rfl (by omega)
      (by omega : 8 * jj + (1 + 7) - 1 + 1 + ((lenInt - jj) * 8 - 8) = data.length) h) _
      (fun _ _ h => h)
    rintro _ w ⟨rfl, h⟩
    split
    · have hlast := hw.last (by omega)
      rw [hnext] at hlast
      exact ⟨hlast, h⟩
    · have hstep := hw.step (by omega)
      rw [hpower, hnext] at hstep
      exact ⟨hstep, h⟩

end Digits

def Lasting (P : MachineWorld → Prop) : Prop :=
  ∀ (w : MachineWorld) (op : MachineOp), P w → P { w with ops := w.ops ++ [op] }

theorem lasting_mem (op : MachineOp) : Lasting fun w => op ∈ w.ops :=
  fun _ _ h => List.mem_append_left _ h

/-- Some digit position lies outside the string. -/
def DigitOutside (w : MachineWorld) : Prop := ∃ pos size, .index pos size ∈ w.ops ∧ size ≤ pos

theorem lasting_digitOutside : Lasting DigitOutside := by
  rintro w op ⟨pos, size, hmem, hle⟩
  exact ⟨pos, size, List.mem_append_left _ hmem, hle⟩

theorem digitOutside_snoc (w : MachineWorld) (h : size ≤ pos) :
    DigitOutside { w with ops := w.ops ++ [.index pos size] } :=
  ⟨pos, size, List.mem_append_right _ (List.mem_singleton_self _), h⟩

section Keeps

variable {hexStr stream : List Char} {P : MachineWorld → Prop}

theorem digitAt_keeps (hP : Lasting P) (pos : Nat) (h : P w) :
    wp (digitAt hexStr pos) (fun _ w' => P w') (fun _ w' => P w') w := by
  simp only [digitAt, wp_bind, wp_note]
  split
  · exact hP w _ h
  · exact hP w _ h

theorem writeDigits_keeps (hP : Lasting P) (rest k : Nat) (h : P w) :
    wp (writeDigits hexStr rest k stream) (fun stream' w' => stream ⊆ stream' ∧ P w')
      (fun _ w' => P w') w := by
  rw [writeDigits, wp_bind]
  apply wp_mono (digitAt_keeps hP _ h) _ (fun _ _ h => h)
  intro high w h
  rw [wp_bind]
  apply wp_mono (digitAt_keeps hP _ h) _ (fun _ _ h => h)
  intro low w h
  exact ⟨List.subset_append_left _ _, h⟩

theorem writeWord_keeps (hP : Lasting P) (lenInt jj : Nat) (h : P w) :
    wp (writeWord hexStr lenInt jj stream) (fun stream' w' => stream ⊆ stream' ∧ P w')
      (fun _ w' => P w') w := by
  rw [writeWord, wp_bind]
  refine wp_mono (wp_forRange (fun _ stream' w' => stream ⊆ stream' ∧ P w') ?_
    ⟨List.Subset.refl _, h⟩) ?_ (fun _ _ h => h)
  · rintro k stream' w - - ⟨hsub, h⟩
    rw [wp_bind]
    apply wp_mono (writeDigits_keeps hP _ k h) _ (fun _ _ h => h)
    rintro stream'' w ⟨hsub', h⟩
    exact ⟨List.subset_append_of_subset_left _ (List.Subset.trans hsub hsub'), h⟩
  · rintro stream' w ⟨hsub, h⟩
    rw [wp_bind]
    apply wp_mono (writeDigits_keeps hP _ 8 h) _ (fun _ _ h => h)
    rintro stream'' w ⟨hsub', h⟩
    split
    · exact ⟨List.Subset.trans hsub hsub', h⟩
    · exact ⟨List.subset_append_of_subset_left _ (List.Subset.trans hsub hsub'), h⟩

end Keeps

/-- The NUL behind the digits has been written to the stream. -/
def Spoilt (stream : List Char) (w : MachineWorld) : Prop :=
  Char.ofNat 0 ∈ stream ∧ DigitOutside w

section Trimmed

variable {hexStr stream : List Char}

/-- The first digits of all are the last of the string, where a trimmed string is too short. -/
theorem firstDigits_spoilt (hpos : 0 < rest) (hshort : hexStr.length < rest * 16)
    (w : MachineWorld) :
    wp (writeDigits hexStr rest 1 []) Spoilt (fun _ w' => DigitOutside w') w := by
  have hread : (rest * 16 - 2 ≤ hexStr.length ∧ hexStr.length ≤ rest * 16 - 1) ∨
      hexStr.length < rest * 16 - 2 := by omega
  simp only [writeDigits, digitAt, wp_bind, wp_note, Nat.mul_one]
  rcases hread with ⟨hhigh, hlow⟩ | hhigh
  · rw [if_pos hhigh, wp_pure]
    have hout := digitOutside_snoc
      { w with ops := w.ops ++ [.index (rest * 16 - 2) hexStr.length] } hlow
    split
    · refine ⟨?_, hout⟩
      rw [List.getD_eq_default _ _ hlow]
      exact List.mem_append_right _ (List.mem_cons_of_mem _ (List.mem_singleton_self _))
    · exact hout
  · rw [if_neg (Nat.not_le.2 hhigh), wp_throw]
    exact digitOutside_snoc w hhigh.le

theorem writeDigits_spoilt (rest k : Nat) (h : Spoilt stream w) :
    wp (writeDigits hexStr rest k stream) Spoilt (fun _ w' => DigitOutside w') w :=
  wp_mono (writeDigits_keeps lasting_digitOutside rest k h.2) (fun _ _ h' => ⟨h'.1 h.1, h'.2⟩)
    fun _ _ h => h

theorem firstWord_spoilt (hpos : 0 < lenInt) (hshort : hexStr.length < lenInt * 16)
    (w : MachineWorld) :
    wp (writeWord hexStr lenInt 0 []) Spoilt (fun _ w' => DigitOutside w') w := by
  rw [writeWord, wp_bind]
  refine wp_mono (wp_forRange (fun k stream w => k = 1 ∧ stream = [] ∨ Spoilt stream w) ?_
    (Or.inl ⟨rfl, rfl⟩)) ?_ (fun _ _ h => h)
  · rintro k stream w - - (⟨rfl, rfl⟩ | h)
    · rw [wp_bind]
      apply wp_mono (firstDigits_spoilt hpos hshort w) _ (fun _ _ h => h)
      intro stream w h
      exact Or.inr ⟨List.mem_append_left _ h.1, h.2⟩
    · rw [wp_bind]
      apply wp_mono (writeDigits_spoilt _ k h) _ (fun _ _ h => h)
      intro stream w h
      exact Or.inr ⟨List.mem_append_left _ h.1, h.2⟩
  · rintro stream w (⟨h, -⟩ | h)
    · omega
    · rw [wp_bind]
      apply wp_mono (writeDigits_spoilt _ 8 h) _ (fun _ _ h => h)
      intro stream w h
      split
      · exact h
      · exact ⟨List.mem_append_left _ h.1, h.2⟩

end Trimmed

section Run

variable {uintToHexString : List Nat → List Char} {malloc : Memory} {s : CString}

def CString.bufferOps (s : CString) : List MachineOp :=
  [.span 0 s.paddedSize s.paddedSize, s.sourceRead, s.bufferWrite, s.wordsRead]

theorem wp_charPointerToPoly {Q : List Char → MachineWorld → Prop}
    {E : MachineFault → MachineWorld → Prop} :
    wp (charPointerToPoly uintToHexString malloc s) Q E ⟨[], []⟩ ↔
      wp (forRange 0 s.lenInt (writeWord (uintToHexString (s.dataInt malloc)) s.lenInt) []) Q E
        ⟨[], s.bufferOps⟩ := Iff.rfl

theorem digitsInside_bufferOps (s : CString) : DigitsInside ⟨[], s.bufferOps⟩ := by
  intro pos size h
  simp only [CString.bufferOps, CString.sourceRead, CString.bufferWrite, CString.wordsRead,
    List.mem_cons, reduceCtorEq, List.not_mem_nil, or_self] at h

/-- With all digits there, the text is that of the words' bytes. -/
theorem charPointerToPoly_full
    (hhex : uintToHexString (s.dataInt malloc) = s.inWords.reverse.flatMap bytePair) :
    wp (charPointerToPoly uintToHexString malloc s)
      (fun text w => text = bytesText s.inWords ∧ DigitsInside w) (fun _ _ => False) ⟨[], []⟩ := by
  rw [wp_charPointerToPoly]
  refine wp_mono (wp_forRange (fun jj stream w => Written s.inWords (8 * jj) stream ∧
    DigitsInside w) ?_ ⟨rfl, digitsInside_bufferOps s⟩) ?_ (fun _ _ h => h)
  · rintro jj stream w - hjj ⟨hw, h⟩
    exact writeWord_spec hhex (length_inWords s) (by omega) hw h
  · rintro text w ⟨hw, h⟩
    have hend : s.inWords.drop (8 * (0 + s.lenInt)) = [] := by
      rw [List.drop_eq_nil_iff, length_inWords, Nat.zero_add]
    unfold Written at hw
    rw [hend, bytesText, List.append_nil] at hw
    exact ⟨hw, h⟩

theorem charPointerToPoly_trimmed (hpos : 0 < s.lenInt)
    (hshort : (uintToHexString (s.dataInt malloc)).length < s.lenInt * 16) :
    wp (charPointerToPoly uintToHexString malloc s) Spoilt (fun _ w' => DigitOutside w')
      ⟨[], []⟩ := by
  rw [wp_charPointerToPoly]
  refine wp_mono (wp_forRange (fun jj stream w => jj = 0 ∧ stream = [] ∨ Spoilt stream w) ?_
    (Or.inl ⟨rfl, rfl⟩)) ?_ (fun _ _ h => h)
  · rintro jj stream w - - (⟨rfl, rfl⟩ | h)
    · exact wp_mono (firstWord_spoilt hpos hshort w) (fun _ _ h => Or.inr h) fun _ _ h => h
    · exact wp_mono (writeWord_keeps lasting_digitOutside _ jj h.2)
        (fun _ _ h' => Or.inr ⟨h'.1 h.1, h'.2⟩) fun _ _ h => h
  · rintro text w (⟨h, -⟩ | h)
    · omega
    · exact h

theorem mem_ops_of_mem_bufferOps (hop : op ∈ s.bufferOps) :
    op ∈ (charPointerToPoly uintToHexString malloc s ⟨[], []⟩).2.ops := by
  have hrun : wp (charPointerToPoly uintToHexString malloc s) (fun _ w => op ∈ w.ops)
      (fun _ w => op ∈ w.ops) ⟨[], []⟩ := by
    rw [wp_charPointerToPoly]
    refine wp_forRange (fun _ _ (w : MachineWorld) => op ∈ w.ops) (fun jj stream w _ _ h => ?_) hop
    exact wp_mono (writeWord_keeps (lasting_mem op) _ jj h) (fun _ _ h => h.2) fun _ _ h => h
  exact wp_final (P := fun w : MachineWorld => op ∈ w.ops) hrun

end Run

end MuchPIR
