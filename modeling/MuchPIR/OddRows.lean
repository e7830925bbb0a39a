import MuchPIR.Retrieval

namespace MuchPIR
open Prog Server
set_option autoImplicit true

variable {S : Seal} {params : Params} {keygen : S.KeyGenerator} {palloc junk : Memory}
  {query : Bytes} {table : List (Option Bytes)}

/-- No call throws, and the result decrypts to 4096 times the encoding of `row`. -/
def AnsweredWith (S : Seal) (params : Params) (keygen : S.KeyGenerator) (palloc junk : Memory)
    (query : Bytes) (table : List (Option Bytes)) (row : Bytes) : Prop :=
  ∃ data accum rest result, (pirSelect S palloc query table (startWorld junk)).1 = .ok data ∧
    S.loadCiphertext params data = .ok (accum, rest) ∧
    S.decrypt params keygen accum = .ok result ∧
    result.denote params = 4096 * (rowPlain row).denote params

theorem AnsweredWith.returns (h : AnsweredWith S params keygen palloc junk query table row) :
    ∃ w, run S palloc junk query table.reduceOption = (.ok (), w) := by
  obtain ⟨data, accum, rest, result, hdata, -⟩ := h
  rcases hrun : run S palloc junk query table.reduceOption with ⟨e | u, w⟩
  · rw [pirSelect, aggregate_eq, bind_of_error _ hrun] at hdata
    cases hdata
  · exact ⟨w, rfl⟩

section Query

variable {c : S.Ciphertext} {k p : Nat} (hS : S.Ideal params keygen) (hfit : FitsSlots S params)
  (hn : params.polyModulusDegree = 2 ^ k) (hk : 4096 ≤ params.polyModulusDegree)
  (hq : Unloads S params keygen query c) (hc : S.msg params keygen c = params.x ^ p)

include hS hfit hn hk hq hc

theorem AnsweredWith.accepted (h : AnsweredWith S params keygen palloc junk query table row)
    (hp : p < dbSize) (hrows : table.reduceOption.length ≤ dbSize) :
    ∀ text ∈ table.reduceOption, Accepted params.polyModulusDegree text := by
  obtain ⟨w, hrun⟩ := h.returns
  have hdb : dbSize ≤ 2 ^ k := hn ▸ hk
  by_contra hno
  obtain ⟨e, w', hthrow⟩ := run_throws palloc junk hS hfit hn (twelve_le hdb) hq
    (hc.trans (pow_eq_sum (hp.trans_le hdb))) hrows hno
  rw [hrun] at hthrow
  cases hthrow

theorem answeredWith_of_accepted (hp : p < table.reduceOption.length)
    (hrows : table.reduceOption.length ≤ dbSize)
    (hall : ∀ text ∈ table.reduceOption, Accepted params.polyModulusDegree text) :
    AnsweredWith S params keygen palloc junk query table (table.reduceOption.getD p []) := by
  have hne : table.reduceOption ≠ [] := List.length_pos_iff.1 (Nat.zero_lt_of_lt hp)
  obtain ⟨w, accum, hrun, haccum, hmsg⟩ := run_answer palloc junk hS hfit hn hk hq hc
    (hp.trans_le hrows) hne hrows hall
  rw [if_pos hp] at hmsg
  obtain ⟨result, hdec, hden, -, -⟩ := hS.decrypt_spec accum
  have hload := hS.loadCiphertext_saved S.comprModeDefault accum
  rw [← haccum] at hload
  exact ⟨_, accum, [], result, pirSelect_of_run hrun, hload, hdec, hden.trans hmsg⟩

end Query

/-- A query is answered exactly when the server can multiply every row of the table. -/
theorem answeredWith_iff {c : S.Ciphertext} {k p : Nat} {rows : List Bytes}
    (hS : S.Ideal params keygen) (hfit : FitsSlots S params)
    (hn : params.polyModulusDegree = 2 ^ k) (hk : 4096 ≤ params.polyModulusDegree)
    (hq : Unloads S params keygen query c) (hc : S.msg params keygen c = params.x ^ p)
    (hp : p < rows.length) (hrows : rows.length ≤ 4096) :
    AnsweredWith S params keygen palloc junk query (rows.map some) (rows.getD p []) ↔
      ∀ row ∈ rows, Accepted params.polyModulusDegree row := by
  have hcolumn := reduceOption_map_some rows
  constructor
  · intro h
    have hall := h.accepted hS hfit hn hk hq hc (hp.trans_le hrows) (by rwa [hcolumn])
    rwa [hcolumn] at hall
  · intro hall
    have h : AnsweredWith S params keygen palloc junk query (rows.map some) _ :=
      answeredWith_of_accepted hS hfit hn hk hq hc (by rwa [hcolumn]) (by rwa [hcolumn])
        (by rwa [hcolumn])
    rwa [hcolumn] at h

theorem answeredWith_two_names :
    AnsweredWith (exactSeal demoParams 0) demoParams () (fun _ => 0) (fun _ => 0)
      (queryMessage (exactSeal demoParams 0) demoParams () (monomial 1)) (twoNames.map some)
      [0x41, 0x6e, 0x6e] :=
  (answeredWith_iff (p := 1) (k := 12) (demo_ideal 0) demo_fits (by norm_num [demoParams]) le_rfl
    (unloads_queryMessage (demo_ideal 0).toLawful (monomial 1)) (monomial_msg 0 (by omega))
    (by decide) (by decide)).2 (by decide)

theorem not_answeredWith_empty :
    ¬AnsweredWith (exactSeal demoParams 0) demoParams () (fun _ => 0) (fun _ => 0)
      (queryMessage (exactSeal demoParams 0) demoParams () (monomial 0)) [some [0x61], some []]
      [0x61] := by
  intro h
  have hall := h.accepted (k := 12) (demo_ideal 0) demo_fits (by norm_num [demoParams]) le_rfl
    (unloads_queryMessage (demo_ideal 0).toLawful (monomial 0)) (monomial_msg 0 (by omega))
    (by decide) (by decide)
  exact absurd (hall [] (by decide)) (by decide)

end MuchPIR
