import OS2023.Paging.Output

/-!
# Every address file

What `main` of `4/as4.c` does with any text in the place of the address file. The
integers in front decide: up to 5000 of them are stored as long as they are in
range; the first thing that is not such an integer ends the program with status
1, unless it is the end of the file. A failed conversion counts an entry without
storing one, and is refused because the entry is still `-1`. Nothing in the file
can lead the simulation outside of its tables; only a number that no `int` holds
is undefined, at the conversion.
-/

namespace OS2023.Paging

open OS2023.Lib

variable {N : ℕ}

/-- What stands in the file at `rest` is no address in `0 .. maxAddress`: no
integer at all, or an integer out of range that an `int` holds. -/
def Refused (maxAddress : Int) (rest : List Char) : Prop :=
  (∃ s, scanInt ['+', '-'] rest = .mismatch s) ∨
    ∃ v s, scanInt ['+', '-'] rest = .value v s ∧ fitsInt v ∧ ¬(0 ≤ v ∧ v ≤ maxAddress)

/-- What stands there is an integer that no `int` holds. -/
def Overflows (rest : List Char) : Prop :=
  ∃ v s, scanInt ['+', '-'] rest = .value v s ∧ ¬fitsInt v

/-- How the reading loop ends, having stored `xs`. -/
inductive ReadEnding (maxAddress : Int) (a : Fin N → Int) (k : ℕ) (xs : List Int)
    (rest : List Char) : Option (Except String (Reader N)) → Prop where
  | ok (r : Reader N) (stop : k + xs.length = N ∨ scanInt ['+', '-'] rest = .eof)
      (array : (fun i => (r.virtualAddressInfos i).virtualAddress) = stored a k xs) :
      ReadEnding maxAddress a k xs rest (some (.ok r))
  | refused (room : k + xs.length < N) (h : Refused maxAddress rest) :
      ReadEnding maxAddress a k xs rest (some (.error outOfRange))
  | undefined (room : k + xs.length < N) (h : Overflows rest) :
      ReadEnding maxAddress a k xs rest none

/-- An ending after one more integer. -/
theorem ReadEnding.cons {maxAddress : Int} {a : Fin N → Int} {k : ℕ} {xs : List Int}
    {rest : List Char} {result : Option (Except String (Reader N))} (hk : k < N) {v : Int}
    (h : ReadEnding maxAddress (Function.update a ⟨k, hk⟩ v) (k + 1) xs rest result) :
    ReadEnding maxAddress a k (v :: xs) rest result := by
  have hlen : k + (v :: xs).length = k + 1 + xs.length := by
    rw [List.length_cons]
    omega
  cases h with
  | ok r stop array =>
      exact .ok r (hlen ▸ stop) (array.trans (stored_cons a hk v xs))
  | refused room h => exact .refused (hlen ▸ room) h
  | undefined room h => exact .undefined (hlen ▸ room) h

/-- The array with the address of entry `i` replaced. -/
def storeAddress (infos : Fin N → VirtualAddressInfo) (i : Fin N) (v : Int) :
    Fin N → VirtualAddressInfo :=
  Function.update infos i { infos i with virtualAddress := v }

theorem storeAddress_addresses (infos : Fin N → VirtualAddressInfo) (i : Fin N) (v : Int) :
    (fun j => (storeAddress infos i v j).virtualAddress) =
      Function.update (fun j => (infos j).virtualAddress) i v := by
  funext j
  by_cases hj : j = i
  · subst hj
    simp [storeAddress]
  · simp [storeAddress, Function.update_of_ne hj]

/-- One turn of the reading loop while the array has room. -/
theorem readLoop_turn {maxAddress : Int} {k : ℕ} (hk : k < N) (fuel : ℕ) (file : List Char)
    (infos : Fin N → VirtualAddressInfo) :
    readLoop maxAddress (fuel + 1) ⟨file, infos, k⟩ =
      match scanInt ['+', '-'] file with
      | .eof => some (.ok ⟨file, infos, k⟩)
      | .mismatch s =>
          if (infos ⟨k, hk⟩).virtualAddress < 0 ∨ (infos ⟨k, hk⟩).virtualAddress > maxAddress then
            some (.error outOfRange)
          else readLoop maxAddress fuel ⟨s, infos, k + 1⟩
      | .value v s =>
          if fitsInt v then
            if v < 0 ∨ v > maxAddress then some (.error outOfRange)
            else readLoop maxAddress fuel ⟨s, storeAddress infos ⟨k, hk⟩ v, k + 1⟩
          else none := by
  have hidx : index N (((k + 1 : ℕ) : Int) - 1) = some ⟨k, hk⟩ := by
    rw [index_eq_some]
    push_cast
    omega
  rw [readLoop]
  cases hscan : scanInt ['+', '-'] file with
  | eof =>
      simp only [readVirtualAddress, hscan, dif_pos hk]
      rfl
  | mismatch s =>
      simp only [readVirtualAddress, hscan, dif_pos hk, Option.bind_eq_bind, Option.bind_some,
        hidx, if_true]
  | value v s =>
      by_cases hfits : fitsInt v
      · simp only [readVirtualAddress, hscan, dif_pos hk, if_pos hfits, Option.bind_eq_bind,
          Option.bind_some, hidx, Function.update_self, if_true]
        rfl
      · simp only [readVirtualAddress, hscan, dif_pos hk, if_neg hfits]
        rfl

/-- **The reading loop on any text.** -/
theorem readLoop_cases (maxAddress : Int) :
    ∀ (fuel : ℕ) (file : List Char) (infos : Fin N → VirtualAddressInfo) (k : ℕ), k ≤ N →
      N - k < fuel → (∀ i : Fin N, k ≤ (i : ℕ) → (infos i).virtualAddress = -1) →
      ∃ xs rest, ReadsInts ['+', '-'] file xs rest ∧ k + xs.length ≤ N ∧
        (∀ v ∈ xs, 0 ≤ v ∧ v ≤ maxAddress) ∧
        ReadEnding maxAddress (fun i => (infos i).virtualAddress) k xs rest
          (readLoop maxAddress fuel ⟨file, infos, k⟩) := by
  intro fuel
  induction fuel with
  | zero =>
      intro file infos k hk hfuel _
      omega
  | succ fuel ih =>
      intro file infos k hk hfuel hunread
      have hnil : ∀ v ∈ ([] : List Int), 0 ≤ v ∧ v ≤ maxAddress := fun v hv =>
        absurd hv List.not_mem_nil
      rcases Nat.lt_or_eq_of_le hk with hlt | rfl
      · rw [readLoop_turn hlt]
        cases hscan : scanInt ['+', '-'] file with
        | eof =>
            exact ⟨[], file, .nil file, hk, hnil, .ok _ (Or.inr hscan) (stored_nil _ k).symm⟩
        | mismatch s =>
            -- the entry that is counted still holds `-1`
            have hentry := hunread ⟨k, hlt⟩ le_rfl
            refine ⟨[], file, .nil file, hk, hnil, ?_⟩
            simp only [hentry]
            exact .refused hlt (Or.inl ⟨s, hscan⟩)
        | value v s =>
            by_cases hfits : fitsInt v
            · by_cases hrange : 0 ≤ v ∧ v ≤ maxAddress
              · have hunread' : ∀ i : Fin N, k + 1 ≤ (i : ℕ) →
                    (storeAddress infos ⟨k, hlt⟩ v i).virtualAddress = -1 := by
                  intro i hi
                  have hne : i ≠ ⟨k, hlt⟩ := by
                    rintro rfl
                    exact absurd hi (Nat.not_succ_le_self k)
                  rw [storeAddress, Function.update_of_ne hne]
                  exact hunread i (Nat.le_of_succ_le hi)
                obtain ⟨xs, rest, hreads, hlen, hall, hend⟩ :=
                  ih s (storeAddress infos ⟨k, hlt⟩ v) (k + 1) hlt (by omega) hunread'
                rw [storeAddress_addresses] at hend
                refine ⟨v :: xs, rest, .cons hscan hreads, by rw [List.length_cons]; omega,
                  List.forall_mem_cons.mpr ⟨hrange, hall⟩, ?_⟩
                simp only [if_pos hfits, if_neg (show ¬(v < 0 ∨ v > maxAddress) by omega)]
                exact hend.cons hlt
              · refine ⟨[], file, .nil file, hk, hnil, ?_⟩
                simp only [if_pos hfits, if_pos (show v < 0 ∨ v > maxAddress by omega)]
                exact .refused hlt (Or.inr ⟨v, s, hscan, hfits, hrange⟩)
            · refine ⟨[], file, .nil file, hk, hnil, ?_⟩
              simp only [if_neg hfits]
              exact .undefined hlt ⟨v, s, hscan, hfits⟩
      · have hrun : readLoop maxAddress (fuel + 1) (⟨file, infos, k⟩ : Reader k) =
            some (.ok ⟨file, infos, k⟩) := by
          simp only [readLoop, readVirtualAddress, dif_neg (lt_irrefl k)]
          rfl
        rw [hrun]
        exact ⟨[], file, .nil file, hk, hnil, .ok _ (Or.inl rfl) (stored_nil _ k).symm⟩

/-! ## The whole program after its menu -/

section Files

variable {cfg : Config} {alg : Algorithm} {file : List Char}

theorem stored_eq_padded (xs : List Int) :
    stored (fun i => ((createVirtualAddressInfoArray numAddresses) i).virtualAddress) 0 xs =
      padded xs.get := by
  funext i
  rw [stored, if_neg (Nat.not_lt_zero _), Nat.sub_zero, padded]
  split
  · rename_i hi
    rw [List.getElem?_eq_getElem hi]
    rfl
  · rename_i hi
    rw [List.getElem?_eq_none (not_lt.mp hi)]
    rfl

/-- The rows and the total of a run on `addrs` and `-1` behind them. -/
structure Completed (cfg : Config) {n : ℕ} (addrs : Fin n → Int) (hrange : InRange cfg addrs)
    (m : MainState cfg.totalFrame cfg.totalPage numAddresses) : Prop where
  total : m.total = some m.pageFaults
  addresses : m.rows.map Row.virtualAddress = List.ofFn (padded addrs)
  rows : ∀ row ∈ m.rows, ∃ (c : Fin numAddresses) (hit : Bool) (f : Fin cfg.totalFrame),
    row = (paddedReferences cfg hrange).row c hit f

/-- The simulation comes to its end whatever the addresses are. -/
theorem simulate_completed (alg : Algorithm) {n : ℕ} {addrs : Fin n → Int}
    (hrange : InRange cfg addrs) :
    ∃ m, simulate alg cfg.totalFrame cfg.totalPage cfg.pageSizeBytes (padded addrs) = some m ∧
      Completed cfg addrs hrange m := by
  have turns := run_turns cfg.three_le_totalFrame numAddresses_le
    (paddedReferences cfg hrange) alg
  obtain ⟨m, hrun, haddr, hrows⟩ := rows_of_turns turns numAddresses le_rfl
  obtain ⟨m', hrun', htotal, -⟩ := total_of_turns turns
  obtain rfl : m = m' := Option.some.inj (hrun.symm.trans hrun')
  refine ⟨m, hrun, htotal, ?_, hrows⟩
  rw [haddr, List.take_of_length_le (by simp), List.ofFn_eq_map]
  rfl

/-- How a run ends whose file begins with the addresses `xs`, all in range, and
goes on with `rest`. -/
inductive RunEnding (cfg : Config) (xs : List Int) (rest : List Char) :
    Option (Except String (MainState cfg.totalFrame cfg.totalPage numAddresses)) → Prop where
  | completed (m : MainState cfg.totalFrame cfg.totalPage numAddresses)
      (hrange : InRange cfg xs.get)
      (stop : xs.length = numAddresses ∨ scanInt ['+', '-'] rest = .eof)
      (h : Completed cfg xs.get hrange m) : RunEnding cfg xs rest (some (.ok m))
  | refused (room : xs.length < numAddresses)
      (h : Refused ((cfg.totalVirtualMemory : Int) - 1) rest) :
      RunEnding cfg xs rest (some (.error outOfRange))
  | undefined (room : xs.length < numAddresses) (h : Overflows rest) :
      RunEnding cfg xs rest none

/-- Every file has an ending. -/
theorem runMain_ending (cfg : Config) (alg : Algorithm) (file : List Char) :
    ∃ xs rest, ReadsInts ['+', '-'] file xs rest ∧ xs.length ≤ numAddresses ∧
      InRange cfg xs.get ∧ RunEnding cfg xs rest (runMain cfg alg file) := by
  obtain ⟨xs, rest, hreads, hlen, hall, hend⟩ :=
    readLoop_cases (N := numAddresses) ((cfg.totalVirtualMemory : Int) - 1) (numAddresses + 1)
      file (createVirtualAddressInfoArray numAddresses) 0 (Nat.zero_le _) (Nat.lt_succ_self _)
      fun _ _ => rfl
  rw [Nat.zero_add] at hlen
  have hrange : InRange cfg xs.get := by
    intro i
    obtain ⟨h0, h1⟩ := hall _ (xs.get_mem i)
    exact ⟨h0, by omega⟩
  refine ⟨xs, rest, hreads, hlen, hrange, ?_⟩
  rw [runMain]
  generalize readLoop ((cfg.totalVirtualMemory : Int) - 1) (numAddresses + 1)
    (⟨file, createVirtualAddressInfoArray numAddresses, 0⟩ : Reader numAddresses) = result
    at hend
  cases hend with
  | ok r stop array =>
      obtain ⟨m, hrun, hm⟩ := simulate_completed alg hrange
      rw [stored_eq_padded] at array
      simp only [Option.bind_eq_bind, Option.bind_some, array, hrun]
      exact .completed m hrange (stop.imp_left fun h => by omega) hm
  | refused room h => exact .refused (by omega) h
  | undefined room h => exact .undefined (by omega) h

theorem Config.pageSizeBytes_le (cfg : Config) : cfg.pageSizeBytes ≤ 4096 := by
  have hall : ∀ p ∈ [1, 2, 4], p * 1024 ≤ 4096 := by decide
  exact hall _ cfg.page_mem

theorem Config.totalFrame_le (cfg : Config) : cfg.totalFrame ≤ 64 := by
  have hall : ∀ n ∈ [8, 16, 32, 64], n ≤ 64 := by decide
  exact hall _ cfg.totalFrame_mem

theorem Config.totalPage_le (cfg : Config) : cfg.totalPage ≤ 2 ^ 20 := by
  have hone := cfg.one_lt_pageSizeBytes
  have hle := Nat.le_mul_of_pos_right cfg.totalPage (Nat.lt_trans Nat.zero_lt_one hone)
  rw [cfg.totalPage_mul] at hle
  exact hle.trans cfg.totalVirtualMemory_le

theorem padded_bounds {n : ℕ} {addrs : Fin n → Int} (hrange : InRange cfg addrs)
    (c : Fin numAddresses) : -1 ≤ padded addrs c ∧ padded addrs c < 2 ^ 20 := by
  have hmem := cfg.totalVirtualMemory_le
  unfold padded
  split
  · rename_i hc
    obtain ⟨h0, h1⟩ := hrange ⟨c, hc⟩
    omega
  · decide

/-- Every number that a run prints fits its column. -/
theorem row_fits {n : ℕ} {addrs : Fin n → Int} (hrange : InRange cfg addrs)
    (c : Fin numAddresses) (hit : Bool) (f : Fin cfg.totalFrame) :
    ((paddedReferences cfg hrange).row c hit f).Fits := by
  have hbytes := cfg.pageSizeBytes_le
  have hone := cfg.one_lt_pageSizeBytes
  have haddr := padded_bounds hrange c
  have hpage := ((paddedReferences cfg hrange).page c).isLt.trans_le cfg.totalPage_le
  have hframe := f.isLt.trans_le cfg.totalFrame_le
  have hoffset : -(4096 : Int) < (padded addrs c).tmod cfg.pageSizeBytes ∧
      (padded addrs c).tmod cfg.pageSizeBytes < 4096 := by
    have hpos : (0 : Int) < cfg.pageSizeBytes := by omega
    have hhi := Int.tmod_lt_of_pos (padded addrs c) hpos
    have hlo := Int.lt_tmod_of_pos (padded addrs c) hpos
    omega
  have hstart : ((f : ℕ) : Int) * cfg.pageSizeBytes ≤ 64 * 4096 := by
    exact_mod_cast Nat.mul_le_mul hframe.le hbytes
  have hstart0 : (0 : Int) ≤ ((f : ℕ) : Int) * cfg.pageSizeBytes :=
    Int.mul_nonneg (Int.natCast_nonneg _) (Int.natCast_nonneg _)
  constructor
  · have hc : (c : ℕ) < 5000 := c.isLt
    show (c : ℕ) + 1 < 10 ^ 10
    omega
  · show ∀ v ∈ [padded addrs c, (((paddedReferences cfg hrange).page c : ℕ) : Int),
      ((f : ℕ) : Int),
      ((f : ℕ) : Int) * cfg.pageSizeBytes + (padded addrs c).tmod cfg.pageSizeBytes],
      -10 ^ 9 < v ∧ v < 10 ^ 9
    simp only [List.forall_mem_cons]
    refine ⟨by omega, by omega, by omega, by omega, fun v hv => ?_⟩
    exact absurd hv List.not_mem_nil

theorem Completed.fits {n : ℕ} {addrs : Fin n → Int} {hrange : InRange cfg addrs}
    {m : MainState cfg.totalFrame cfg.totalPage numAddresses}
    (h : Completed cfg addrs hrange m) : ∀ row ∈ m.rows, row.Fits := by
  intro row hrow
  obtain ⟨c, hit, f, rfl⟩ := h.rows row hrow
  exact row_fits hrange c hit f

theorem Completed.length_rows {n : ℕ} {addrs : Fin n → Int} {hrange : InRange cfg addrs}
    {m : MainState cfg.totalFrame cfg.totalPage numAddresses}
    (h : Completed cfg addrs hrange m) : m.rows.length = numAddresses := by
  rw [← List.length_map (f := Row.virtualAddress), h.addresses, List.length_ofFn]

theorem Completed.read_back {n : ℕ} {addrs : Fin n → Int} {hrange : InRange cfg addrs}
    {m : MainState cfg.totalFrame cfg.totalPage numAddresses}
    (h : Completed cfg addrs hrange m) :
    (∀ i < numAddresses, ∃ row, m.rows[i]? = some row ∧
      readRow i (outputText m) = some row) ∧
    readTotal numAddresses (outputText m) = some (m.pageFaults : Int) := by
  have hlen := h.length_rows
  constructor
  · intro i hi
    rw [← hlen] at hi
    exact ⟨m.rows[i], List.getElem?_eq_getElem hi, readRow_outputText h.fits hi⟩
  · have htotal := readTotal_outputText h.fits h.total
    rwa [hlen] at htotal

/-- **The output file is read back.** Whatever the file was, once a run comes to
its end, the output has the title, 5000 lines of the same length and the closing
line; the line of reference `i` is at place `61 * (i + 1)`, and every number the
run has printed is read back from there, as is the total. -/
theorem output_readable {m : MainState cfg.totalFrame cfg.totalPage numAddresses}
    (hrun : runMain cfg alg file = some (.ok m)) :
    m.rows.length = numAddresses ∧
    (outputText m).length = 61 * (numAddresses + 1) + (totalText m.total).length ∧
    (∀ i < numAddresses, ∃ row, m.rows[i]? = some row ∧
      readRow i (outputText m) = some row) ∧
    readTotal numAddresses (outputText m) = some (m.pageFaults : Int) := by
  obtain ⟨xs, rest, -, -, -, hend⟩ := runMain_ending cfg alg file
  rw [hrun] at hend
  cases hend with
  | completed _ hrange stop h =>
      refine ⟨h.length_rows, ?_, h.read_back⟩
      rw [length_outputText h.fits, h.length_rows]

theorem output_readable_zeros :
    ∃ m, runMain smallConfig .lru (lines (List.replicate numAddresses 0)) = some (.ok m) ∧
      m.rows.length = numAddresses ∧
      readTotal numAddresses (outputText m) = some (m.pageFaults : Int) := by
  have hpos : (0 : Int) ≤ 0 ∧ (0 : Int) < smallConfig.totalVirtualMemory := by decide
  have hzeros : InRange smallConfig fun _ : Fin numAddresses => 0 := fun _ => hpos
  obtain ⟨m, hrun, -⟩ := runMain_rows .lru le_rfl hzeros (integers_zeros numAddresses)
  obtain ⟨hlen, -, -, htotal⟩ := output_readable hrun
  exact ⟨m, hrun, hlen, htotal⟩

/-! ## Which files end how -/

/-- The addresses that are read before something stops the reading are unique. -/
theorem readsInts_unique {maxAddress : Int} {s xs r ys r' : _} {n : ℕ}
    (hxs : ReadsInts ['+', '-'] s xs r) (hys : ReadsInts ['+', '-'] s ys r')
    (hx : ∀ v ∈ xs, 0 ≤ v ∧ v ≤ maxAddress) (hy : ∀ v ∈ ys, 0 ≤ v ∧ v ≤ maxAddress)
    (hxn : xs.length ≤ n) (hyn : ys.length ≤ n)
    (hr : xs.length = n ∨ ∀ v t, scanInt ['+', '-'] r = .value v t →
      ¬(0 ≤ v ∧ v ≤ maxAddress))
    (hr' : ys.length = n ∨ ∀ v t, scanInt ['+', '-'] r' = .value v t →
      ¬(0 ≤ v ∧ v ≤ maxAddress)) : xs = ys ∧ r = r' := by
  induction hxs generalizing ys n with
  | nil s =>
      cases hys with
      | nil => exact ⟨rfl, rfl⟩
      | cons h t =>
          rcases hr with hzero | hstop
          · rw [← hzero] at hyn
            exact absurd hyn (by simp)
          · exact absurd (hy _ List.mem_cons_self) (hstop _ _ h)
  | cons h t ih =>
      cases hys with
      | nil =>
          rcases hr' with hzero | hstop
          · rw [← hzero] at hxn
            exact absurd hxn (by simp)
          · exact absurd (hx _ List.mem_cons_self) (hstop _ _ h)
      | cons h' t' =>
          obtain ⟨rfl, rfl⟩ := Conversion.value.inj (h.symm.trans h')
          obtain ⟨k, rfl⟩ : ∃ k, n = k + 1 := ⟨n - 1, by rw [List.length_cons] at hxn; omega⟩
          simp only [List.length_cons, Nat.add_le_add_iff_right, Nat.add_right_cancel_iff]
            at hxn hyn hr hr'
          obtain ⟨rfl, rfl⟩ := ih t' (fun v hv => hx v (List.mem_cons_of_mem _ hv))
            (fun v hv => hy v (List.mem_cons_of_mem _ hv)) hxn hyn hr hr'
          exact ⟨rfl, rfl⟩

/-- The file begins with the addresses `xs`, all in range, with `rest` behind. -/
def Begins (cfg : Config) (file : List Char) (xs : List Int) (rest : List Char) : Prop :=
  ReadsInts ['+', '-'] file xs rest ∧ InRange cfg xs.get

theorem Begins.range {xs : List Int} {rest : List Char} (h : Begins cfg file xs rest) :
    ∀ v ∈ xs, 0 ≤ v ∧ v ≤ (cfg.totalVirtualMemory : Int) - 1 := by
  intro v hv
  obtain ⟨i, rfl⟩ := List.get_of_mem hv
  obtain ⟨h0, h1⟩ := h.2 i
  exact ⟨h0, by omega⟩

/-- What stops the reading in front of a full array. -/
theorem Refused.stops {maxAddress : Int} {rest : List Char} (h : Refused maxAddress rest) :
    ∀ v t, scanInt ['+', '-'] rest = .value v t → ¬(0 ≤ v ∧ v ≤ maxAddress) := by
  intro v t hscan
  rcases h with ⟨s, h⟩ | ⟨u, s, h, -, hout⟩
  · exact absurd (h.symm.trans hscan) (by simp)
  · obtain ⟨rfl, -⟩ := Conversion.value.inj (h.symm.trans hscan)
    exact hout

theorem Overflows.stops {maxAddress : Int} (hmax : maxAddress < 2 ^ 31) {rest : List Char}
    (h : Overflows rest) :
    ∀ v t, scanInt ['+', '-'] rest = .value v t → ¬(0 ≤ v ∧ v ≤ maxAddress) := by
  obtain ⟨u, s, h, hbig⟩ := h
  intro v t hscan hrange
  obtain ⟨rfl, -⟩ := Conversion.value.inj (h.symm.trans hscan)
  exact hbig ⟨by omega, by omega⟩

theorem Refused.not_eof {maxAddress : Int} {rest : List Char} (h : Refused maxAddress rest) :
    scanInt ['+', '-'] rest ≠ .eof := by
  rcases h with ⟨s, h⟩ | ⟨v, s, h, -⟩
  · rw [h]
    simp
  · rw [h]
    simp

theorem Overflows.not_eof {rest : List Char} (h : Overflows rest) :
    scanInt ['+', '-'] rest ≠ .eof := by
  obtain ⟨v, s, h, -⟩ := h
  rw [h]
  simp

theorem Refused.not_overflows {maxAddress : Int} {rest : List Char}
    (h : Refused maxAddress rest) : ¬Overflows rest := by
  rintro ⟨v, s, hv, hbig⟩
  rcases h with ⟨s', h⟩ | ⟨u, s', h, hfits, -⟩
  · exact absurd (hv.symm.trans h) (by simp)
  · obtain ⟨rfl, -⟩ := Conversion.value.inj (hv.symm.trans h)
    exact hbig hfits

theorem eof_stops {maxAddress : Int} {rest : List Char}
    (h : scanInt ['+', '-'] rest = .eof) :
    ∀ v t, scanInt ['+', '-'] rest = .value v t → ¬(0 ≤ v ∧ v ≤ maxAddress) :=
  fun _ _ hscan => absurd (h.symm.trans hscan) (by simp)

/-- **Which files end how.** The program comes to its end exactly on the files
that are full or end behind addresses in range, however many these are; it
refuses exactly those that go on with something that is no address in range; and
it is undefined exactly on those that go on with a number no `int` holds. -/
theorem runMain_classified (cfg : Config) (alg : Algorithm) (file : List Char) :
    ((∃ m, runMain cfg alg file = some (.ok m)) ↔ ∃ xs rest, Begins cfg file xs rest ∧
      xs.length ≤ numAddresses ∧
      (xs.length = numAddresses ∨ scanInt ['+', '-'] rest = .eof)) ∧
    (∀ message, runMain cfg alg file = some (.error message) ↔ message = outOfRange ∧
      ∃ xs rest, Begins cfg file xs rest ∧ xs.length < numAddresses ∧
        Refused ((cfg.totalVirtualMemory : Int) - 1) rest) ∧
    (runMain cfg alg file = none ↔ ∃ xs rest, Begins cfg file xs rest ∧
      xs.length < numAddresses ∧ Overflows rest) := by
  have hmem := cfg.totalVirtualMemory_le
  have hmax : (cfg.totalVirtualMemory : Int) - 1 < 2 ^ 31 := by omega
  obtain ⟨xs, rest, hreads, hlen, hrange, hend⟩ := runMain_ending cfg alg file
  have hbegins : Begins cfg file xs rest := ⟨hreads, hrange⟩
  -- another beginning that stops is this one
  have hsame : ∀ {ys rest'}, Begins cfg file ys rest' → ys.length ≤ numAddresses →
      (xs.length = numAddresses ∨ ∀ v t, scanInt ['+', '-'] rest = .value v t →
        ¬(0 ≤ v ∧ v ≤ (cfg.totalVirtualMemory : Int) - 1)) →
      (ys.length = numAddresses ∨ ∀ v t, scanInt ['+', '-'] rest' = .value v t →
        ¬(0 ≤ v ∧ v ≤ (cfg.totalVirtualMemory : Int) - 1)) → xs = ys ∧ rest = rest' := by
    intro ys rest' hys hle hstop hstop'
    exact readsInts_unique hreads hys.1 hbegins.range hys.range hlen hle hstop hstop'
  generalize runMain cfg alg file = result at hend
  cases hend with
  | completed m _ stop h =>
      have hstop := stop.imp_right (@eof_stops (cfg.totalVirtualMemory - 1) rest)
      refine ⟨⟨fun _ => ⟨xs, rest, hbegins, hlen, stop⟩, fun _ => ⟨m, rfl⟩⟩,
        fun message => ⟨fun h => by simp at h, ?_⟩, fun h => by simp at h, ?_⟩
      · rintro ⟨-, ys, rest', hys, hlt, hrefused⟩
        obtain ⟨rfl, rfl⟩ := hsame hys hlt.le hstop (Or.inr hrefused.stops)
        exact (stop.elim hlt.ne hrefused.not_eof).elim
      · rintro ⟨ys, rest', hys, hlt, hbig⟩
        obtain ⟨rfl, rfl⟩ := hsame hys hlt.le hstop (Or.inr (hbig.stops hmax))
        exact (stop.elim hlt.ne hbig.not_eof).elim
  | refused room h =>
      refine ⟨⟨fun ⟨m, hm⟩ => by simp at hm, ?_⟩, fun message => ⟨fun hm => ?_, ?_⟩,
        fun hm => by simp at hm, ?_⟩
      · rintro ⟨ys, rest', hys, hle, stop⟩
        obtain ⟨rfl, rfl⟩ := hsame hys hle (Or.inr h.stops) (stop.imp_right eof_stops)
        exact (stop.elim room.ne h.not_eof).elim
      · exact ⟨(Except.error.inj (Option.some.inj hm)).symm, xs, rest, hbegins, room, h⟩
      · rintro ⟨rfl, -⟩
        rfl
      · rintro ⟨ys, rest', hys, hlt, hbig⟩
        obtain ⟨rfl, rfl⟩ := hsame hys hlt.le (Or.inr h.stops) (Or.inr (hbig.stops hmax))
        exact absurd hbig h.not_overflows
  | undefined room h =>
      refine ⟨⟨fun ⟨m, hm⟩ => by simp at hm, ?_⟩, fun message => ⟨fun hm => by simp at hm, ?_⟩,
        fun _ => ⟨xs, rest, hbegins, room, h⟩, fun _ => rfl⟩
      · rintro ⟨ys, rest', hys, hle, stop⟩
        obtain ⟨rfl, rfl⟩ := hsame hys hle (Or.inr (h.stops hmax)) (stop.imp_right eof_stops)
        exact (stop.elim room.ne h.not_eof).elim
      · rintro ⟨-, ys, rest', hys, hlt, hrefused⟩
        obtain ⟨rfl, rfl⟩ := hsame hys hlt.le (Or.inr (h.stops hmax)) (Or.inr hrefused.stops)
        exact absurd h hrefused.not_overflows

end Files

end OS2023.Paging
