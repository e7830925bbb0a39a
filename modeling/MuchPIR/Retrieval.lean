import MuchPIR.ClientSemantics

namespace MuchPIR
open Prog Server
set_option autoImplicit true

/-- A whole retrieval: the message of the client, the aggregate over a column, and what the client
writes for the answer. -/
def retrieve (S : Seal) (params : Params) (keygen : S.KeyGenerator) (coins : Nat → S.Coins)
    (coins' : S.Coins) (palloc junk : Memory) (cha rowIndex dbSize : Nat)
    (column : List (Option Bytes)) : Except Fault (List Output) := do
  let query ← (buildQuery S params keygen coins rowIndex dbSize []).1
  let data ← (pirSelect S palloc query column (startWorld junk)).1
  (showResult S params keygen coins' cha data []).1

theorem retrieve_eq {S : Seal} {params : Params} {keygen : S.KeyGenerator} {coins : Nat → S.Coins}
    {coins' : S.Coins} {palloc junk : Memory}
    (hquery : buildQuery S params keygen coins i D [] = (.ok query, log))
    (hdata : (pirSelect S palloc query column (startWorld junk)).1 = .ok data) :
    retrieve S params keygen coins coins' palloc junk cha i D column =
      (showResult S params keygen coins' cha data []).1 := by
  simp only [retrieve, hquery]
  change (pirSelect S palloc query column (startWorld junk)).1 >>= _ = _
  rw [hdata]
  rfl

structure TextRow (row : Bytes) : Prop where
  length_pos : 1 ≤ row.length
  length_le : row.length ≤ 4096
  noNul : ∀ b ∈ row, b ≠ 0
  asciiEnd : (row.getD (row.length - 1) 0).toNat < 0x80

theorem TextRow.ne_nil (h : TextRow row) : row ≠ [] := List.length_pos_iff.1 h.length_pos

theorem TextRow.accepted (h : TextRow row) : Accepted 4096 row := by
  obtain ⟨b, rest, rfl⟩ := List.exists_cons_of_ne_nil h.ne_nil
  exact ⟨⟨b, List.mem_cons_self, h.noNul b List.mem_cons_self⟩, h.length_le, h.asciiEnd⟩

variable {S : Seal} {bfvDefault : List Nat} {keygen : S.KeyGenerator}

theorem reduceOption_map_some (rows : List Bytes) : (rows.map some).reduceOption = rows := by
  induction rows with
  | nil => rfl
  | cons row rows ih => rw [List.map_cons, List.reduceOption_cons_of_some, ih]

theorem pirSelect_of_run {palloc junk : Memory}
    (h : run S palloc junk query column.reduceOption = (.ok (), w)) :
    (pirSelect S palloc query column (startWorld junk)).1 =
      .ok (fields.load w.state.data .accum) := by
  rw [pirSelect, aggregate_eq, bind_of_ok _ h]
  rfl

theorem clientQuery (hS : S.Ideal (clientParams bfvDefault) keygen) (coins : Nat → S.Coins)
    (hi : i < D) (hD : D ≤ 4096) :
    ∃ c log, buildQuery S (clientParams bfvDefault) keygen coins i D [] =
        (.ok (queryMessage S (clientParams bfvDefault) keygen c), log) ∧
      S.msg (clientParams bfvDefault) keygen c = (clientParams bfvDefault).x ^ i := by
  have hdeg : 4096 < 2 ^ 64 - 1 := by norm_num
  have hmodulus : 1 < 40961 := by omega
  have hbuild : wp (buildQuery S (clientParams bfvDefault) keygen coins i D) _ _ [] :=
    buildQuery_spec hS coins hdeg hmodulus hi hD
  obtain ⟨query, log, hquery, c, rfl, hc⟩ := wp_returns hbuild
  exact ⟨c, log, hquery, hc⟩

theorem serverAnswer (palloc junk : Memory) {rows : List Bytes}
    (hS : S.Ideal (clientParams bfvDefault) keygen)
    (hfit : FitsSlots S (clientParams bfvDefault))
    (hc : S.msg (clientParams bfvDefault) keygen c = (clientParams bfvDefault).x ^ i)
    (hi : i < 4096) (hpos : 1 ≤ rows.length) (hrows : rows.length ≤ 4096)
    (htext : ∀ row ∈ rows, TextRow row) :
    ∃ accum, (pirSelect S palloc (queryMessage S (clientParams bfvDefault) keygen c)
        (rows.map some) (startWorld junk)).1 = .ok (S.saveCiphertext S.comprModeDefault accum) ∧
      S.msg (clientParams bfvDefault) keygen accum = if i < rows.length then
        4096 * (rowPlain (rows.getD i [])).denote (clientParams bfvDefault) else 0 := by
  have hpow : (clientParams bfvDefault).polyModulusDegree = 2 ^ 12 := by norm_num [clientParams]
  obtain ⟨w, accum, hrun, hload, hmsg⟩ := run_answer palloc junk hS hfit hpow
    le_rfl (unloads_queryMessage hS.toLawful c) hc hi (List.length_pos_iff.1 hpos) hrows
    fun row hrow => (htext row hrow).accepted
  refine ⟨accum, ?_, hmsg⟩
  rw [← reduceOption_map_some rows] at hrun
  rw [pirSelect_of_run hrun, hload]

/-- Retrieval is correct: the client writes the bytes of the row that it asked for. -/
theorem retrieve_row {D i : Nat} {rows : List Bytes}
    (hS : S.Ideal (clientParams bfvDefault) keygen) (hfit : FitsSlots S (clientParams bfvDefault))
    (coins : Nat → S.Coins) (coins' : S.Coins) (palloc junk : Memory) (cha : Nat)
    (hD : 1 ≤ D ∧ D ≤ 4096) (hpos : 1 ≤ rows.length) (hrows : rows.length ≤ 4096)
    (htext : ∀ row ∈ rows, TextRow row) (hi : i < min rows.length D) :
    retrieve S (clientParams bfvDefault) keygen coins coins' palloc junk cha i D (rows.map some) =
      .ok ((rows.getD i []).map .char ++ [.endl]) := by
  obtain ⟨hiN, hiD⟩ := Nat.lt_min.1 hi
  obtain ⟨c, log, hquery, hc⟩ := clientQuery hS coins hiD hD.2
  obtain ⟨accum, hanswer, hmsg⟩ := serverAnswer palloc junk hS hfit hc
    (by omega) hpos hrows htext
  have hrow : TextRow (rows.getD i []) := by
    rw [List.getD_eq_getElem _ _ hiN]
    exact htext _ (List.getElem_mem hiN)
  rw [if_pos hiN] at hmsg
  have hshow : wp (showResult S (clientParams bfvDefault) keygen coins' cha
      (S.saveCiphertext S.comprModeDefault accum)) _ _ [] :=
    showResult_row hS coins' cha hmsg hrow.ne_nil hrow.length_le hrow.noNul
  obtain ⟨out, log', hout, rfl⟩ := wp_returns hshow
  rw [retrieve_eq hquery hanswer, hout]

theorem twoNames_text : ∀ row ∈ twoNames, TextRow row := by
  intro row hrow
  rcases List.mem_cons.1 hrow with rfl | hrow
  · exact ⟨by decide, by decide, List.forall_mem_ne'.2 (by decide), by decide⟩
  · rw [List.mem_singleton.1 hrow]
    exact ⟨by decide, by decide, List.forall_mem_ne'.2 (by decide), by decide⟩

theorem retrieve_ann :
    retrieve (exactSeal demoParams 0) demoParams () (fun _ => ()) () (fun _ => 0) (fun _ => 0) 0 1
        1024 (twoNames.map some) =
      .ok [.char 0x41, .char 0x6e, .char 0x6e, .endl] :=
  retrieve_row (demo_ideal 0) demo_fits (fun _ => ()) () (fun _ => 0) (fun _ => 0) 0 (by decide)
    (by decide) (by decide) twoNames_text (by decide)

/-- A query past the end of the table is answered with nothing: the result decrypts to zero, and
the client writes no byte of a row. -/
def AbsentRowReported (S : Seal) (params : Params) (keygen : S.KeyGenerator) (coins : Nat → S.Coins)
    (coins' : S.Coins) (palloc junk : Memory) (cha rowIndex dbSize : Nat) (rows : List Bytes) :
    Prop :=
  ∃ query log data accum rest result,
    buildQuery S params keygen coins rowIndex dbSize [] = (.ok query, log) ∧
    (pirSelect S palloc query (rows.map some) (startWorld junk)).1 = .ok data ∧
    S.loadCiphertext params data = .ok (accum, rest) ∧
    S.decrypt params keygen accum = .ok result ∧ result.denote params = 0 ∧
    ∃ out log', showResult S params keygen coins' cha data [] = (.ok out, log') ∧
      ∀ b, .char b ∉ out

theorem absentRow_answer {D i : Nat} {rows : List Bytes}
    (hS : S.Ideal (clientParams bfvDefault) keygen) (hfit : FitsSlots S (clientParams bfvDefault))
    (coins : Nat → S.Coins) (coins' : S.Coins) (palloc junk : Memory) (cha : Nat)
    (hD : D ≤ 4096) (hpos : 1 ≤ rows.length) (htext : ∀ row ∈ rows, TextRow row)
    (hi : rows.length ≤ i) (hiD : i < D) :
    ∃ query log data accum rest result,
      buildQuery S (clientParams bfvDefault) keygen coins i D [] = (.ok query, log) ∧
      (pirSelect S palloc query (rows.map some) (startWorld junk)).1 = .ok data ∧
      S.loadCiphertext (clientParams bfvDefault) data = .ok (accum, rest) ∧
      S.decrypt (clientParams bfvDefault) keygen accum = .ok result ∧
      result.denote (clientParams bfvDefault) = 0 ∧
      ∃ x log', showResult S (clientParams bfvDefault) keygen coins' cha data [] =
        (.error (.throws x), log') := by
  obtain ⟨c, log, hquery, hc⟩ := clientQuery hS coins hiD hD
  obtain ⟨accum, hanswer, hmsg⟩ := serverAnswer palloc junk hS hfit hc (by omega) hpos (by omega)
    htext
  rw [if_neg (Nat.not_lt.2 hi)] at hmsg
  obtain ⟨result, hdec, hden, -, -⟩ := hS.decrypt_spec accum
  have hload := hS.loadCiphertext_saved S.comprModeDefault accum
  have hshow : wp (showResult S (clientParams bfvDefault) keygen coins' cha
      (S.saveCiphertext S.comprModeDefault accum)) _ _ [] := showResult_zero hS coins' cha hmsg
  obtain ⟨_, log', hthrow, x, rfl⟩ := wp_throws hshow
  exact ⟨_, log, _, accum, [], result, hquery, hanswer, hload, hdec, hden.trans hmsg, x, log', hthrow⟩

theorem not_absentRowReported {D i : Nat} {rows : List Bytes}
    (hS : S.Ideal (clientParams bfvDefault) keygen) (hfit : FitsSlots S (clientParams bfvDefault))
    (coins : Nat → S.Coins) (coins' : S.Coins) (palloc junk : Memory) (cha : Nat)
    (hD : D ≤ 4096) (hpos : 1 ≤ rows.length) (htext : ∀ row ∈ rows, TextRow row)
    (hi : rows.length ≤ i) (hiD : i < D) :
    ¬AbsentRowReported S (clientParams bfvDefault) keygen coins coins' palloc junk cha i D rows := by
  obtain ⟨query, log, data, -, -, -, hquery, hdata, -, -, -, x, log', hthrow⟩ :=
    absentRow_answer hS hfit coins coins' palloc junk cha hD hpos htext hi hiD
  rintro ⟨query', log₁, data', -, -, -, hquery', hdata', -, -, -, out, log₂, hout, -⟩
  rw [hquery] at hquery'
  cases hquery'
  rw [hdata] at hdata'
  cases hdata'
  rw [hthrow] at hout
  cases hout

/-- Asking for an absent row never ends well: the server answers with an encryption of zero, and the
client throws on it. -/
theorem absent_row_throws {D i : Nat} {rows : List Bytes}
    (hS : S.Ideal (clientParams bfvDefault) keygen) (hfit : FitsSlots S (clientParams bfvDefault))
    (coins : Nat → S.Coins) (coins' : S.Coins) (palloc junk : Memory) (cha : Nat)
    (hD : D ≤ 4096) (hpos : 1 ≤ rows.length) (htext : ∀ row ∈ rows, TextRow row)
    (hi : rows.length ≤ i) (hiD : i < D) :
    (∃ x, retrieve S (clientParams bfvDefault) keygen coins coins' palloc junk cha i D
      (rows.map some) = .error (.throws x)) ∧
    ¬AbsentRowReported S (clientParams bfvDefault) keygen coins coins' palloc junk cha i D rows := by
  obtain ⟨query, log, data, -, -, -, hquery, hdata, -, -, -, x, log', hthrow⟩ :=
    absentRow_answer hS hfit coins coins' palloc junk cha hD hpos htext hi hiD
  refine ⟨⟨x, ?_⟩, not_absentRowReported hS hfit coins coins' palloc junk cha hD hpos htext hi hiD⟩
  rw [retrieve_eq hquery hdata, hthrow]

theorem absent_row_throws_two_names :
    (∃ x, retrieve (exactSeal demoParams 0) demoParams () (fun _ => ()) () (fun _ => 0)
      (fun _ => 0) 0 2 1024 (twoNames.map some) = .error (.throws x)) ∧
    ¬AbsentRowReported (exactSeal demoParams 0) demoParams () (fun _ => ()) () (fun _ => 0)
      (fun _ => 0) 0 2 1024 twoNames :=
  absent_row_throws (demo_ideal 0) demo_fits (fun _ => ()) () (fun _ => 0) (fun _ => 0) 0
    (by decide) (by decide) twoNames_text (by decide) (by decide)

theorem not_absentRowReported_1023 :
    ¬AbsentRowReported (exactSeal demoParams 0) demoParams () (fun _ => ()) () (fun _ => 0)
      (fun _ => 0) 0 1023 1024 twoNames :=
  not_absentRowReported (demo_ideal 0) demo_fits (fun _ => ()) () (fun _ => 0) (fun _ => 0) 0
    (by decide) (by decide) twoNames_text (by decide) (by decide)

end MuchPIR
