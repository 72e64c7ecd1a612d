import OS2023.Lib.Scan
import OS2023.Paging.Run
import Mathlib.Tactic.NormNum

/-!
# The program around the simulation

`main` of `4/as4.c` from the choices of its menu on: it reads the address file
into an array prefilled with `-1`, leaves with exit status 1 at an address out
of range, and simulates. The number of addresses read is not used after the
reading loop, so the simulation always covers the whole array.
-/

namespace OS2023.Paging

open OS2023.Lib

/-! ## The menu -/

/-- The choices that the menu accepts: address bits, page size in KB, physical
memory in KB. -/
structure Config where
  virtualAddressBits : ℕ
  pageSize : ℕ
  physicalMemorySize : ℕ
  bits_mem : virtualAddressBits ∈ [18, 19, 20]
  page_mem : pageSize ∈ [1, 2, 4]
  memory_mem : physicalMemorySize ∈ [32, 64]

namespace Config

def totalVirtualMemory (cfg : Config) : ℕ :=
  1 <<< cfg.virtualAddressBits

def pageSizeBytes (cfg : Config) : ℕ :=
  cfg.pageSize * 1024

def totalPage (cfg : Config) : ℕ :=
  cfg.totalVirtualMemory / cfg.pageSizeBytes

def totalFrame (cfg : Config) : ℕ :=
  cfg.physicalMemorySize / cfg.pageSize

/-- The menu leaves 8, 16, 32 or 64 frames. -/
theorem totalFrame_mem (cfg : Config) : cfg.totalFrame ∈ [8, 16, 32, 64] := by
  have hall : ∀ p ∈ [1, 2, 4], ∀ m ∈ [32, 64], m / p ∈ [8, 16, 32, 64] := by decide
  exact hall _ cfg.page_mem _ cfg.memory_mem

theorem three_le_totalFrame (cfg : Config) : 3 ≤ cfg.totalFrame := by
  have hall : ∀ n ∈ [8, 16, 32, 64], 3 ≤ n := by decide
  exact hall _ cfg.totalFrame_mem

/-- Pages divide the virtual memory. -/
theorem totalPage_mul (cfg : Config) :
    cfg.totalPage * cfg.pageSizeBytes = cfg.totalVirtualMemory := by
  have hall : ∀ b ∈ [18, 19, 20], ∀ p ∈ [1, 2, 4],
      1 <<< b / (p * 1024) * (p * 1024) = 1 <<< b := by decide
  exact hall _ cfg.bits_mem _ cfg.page_mem

theorem one_lt_pageSizeBytes (cfg : Config) : 1 < cfg.pageSizeBytes := by
  have hall : ∀ p ∈ [1, 2, 4], 1 < p * 1024 := by decide
  exact hall _ cfg.page_mem

theorem totalPage_pos (cfg : Config) : 0 < cfg.totalPage := by
  have hall : ∀ b ∈ [18, 19, 20], ∀ p ∈ [1, 2, 4], 0 < 1 <<< b / (p * 1024) := by decide
  exact hall _ cfg.bits_mem _ cfg.page_mem

theorem totalVirtualMemory_le (cfg : Config) : cfg.totalVirtualMemory ≤ 2 ^ 20 := by
  have hall : ∀ b ∈ [18, 19, 20], 1 <<< b ≤ 2 ^ 20 := by decide
  exact hall _ cfg.bits_mem

end Config

/-! ## Reading the addresses -/

variable {N : ℕ}

/-- The file that is left, the array and the number of entries read. -/
structure Reader (N : ℕ) where
  file : List Char
  virtualAddressInfos : Fin N → VirtualAddressInfo
  count : ℕ

/-- Whether a C `int` holds `v`. -/
def fitsInt (v : Int) : Prop :=
  -2 ^ 31 ≤ v ∧ v < 2 ^ 31

instance (v : Int) : Decidable (fitsInt v) :=
  inferInstanceAs (Decidable (_ ∧ _))

/-- `readVirtualAddress`. A failed conversion is not `EOF`: it counts an entry
without storing one. A number that no `int` holds is undefined. -/
def readVirtualAddress (r : Reader N) : Option (Bool × Reader N) :=
  if h : r.count < N then
    match scanInt ['+', '-'] r.file with
    | .eof => some (false, r)
    | .mismatch rest => some (true, { r with file := rest, count := r.count + 1 })
    | .value v rest =>
      if fitsInt v then
        some (true,
          { file := rest
            virtualAddressInfos := Function.update r.virtualAddressInfos ⟨r.count, h⟩
              { r.virtualAddressInfos ⟨r.count, h⟩ with virtualAddress := v }
            count := r.count + 1 })
      else none
  else some (false, r)

def outOfRange : String :=
  "입력된 가상주소의 길이가 벗어난 가상주소가 발견되었습니다. 프로그램을 종료합니다.\n"

/-- The reading loop of `main`, with its range check. Each turn counts an entry,
so `N + 1` turns are enough. -/
def readLoop (maxAddress : Int) : ℕ → Reader N → Option (Except String (Reader N))
  | 0, _ => none
  | fuel + 1, r => do
      let (more, r) ← readVirtualAddress r
      if more then
        let i ← index N ((r.count : Int) - 1)
        let virtualAddress := (r.virtualAddressInfos i).virtualAddress
        if virtualAddress < 0 ∨ virtualAddress > maxAddress then some (.error outOfRange)
        else readLoop maxAddress fuel r
      else some (.ok r)

/-- `main` after the menu, on the text of the address file: the message in
front of `exit(1)`, or the state after the simulation. -/
def runMain (cfg : Config) (alg : Algorithm) (file : List Char) :
    Option (Except String (MainState cfg.totalFrame cfg.totalPage numAddresses)) := do
  let read ← readLoop ((cfg.totalVirtualMemory : Int) - 1) (numAddresses + 1)
    { file := file
      virtualAddressInfos := createVirtualAddressInfoArray numAddresses
      count := 0 }
  match read with
  | .error message => some (.error message)
  | .ok r =>
    let m ← simulate alg cfg.totalFrame cfg.totalPage cfg.pageSizeBytes
      fun i => (r.virtualAddressInfos i).virtualAddress
    some (.ok m)

/-! ## What the array holds after reading -/

/-- The array after `xs` has been stored from entry `k` on. -/
def stored (a : Fin N → Int) (k : ℕ) (xs : List Int) : Fin N → Int :=
  fun i => if (i : ℕ) < k then a i else (xs[(i : ℕ) - k]?).getD (a i)

theorem stored_nil (a : Fin N → Int) (k : ℕ) : stored a k [] = a := by
  funext i
  simp [stored]

theorem stored_cons (a : Fin N → Int) {k : ℕ} (hk : k < N) (v : Int) (xs : List Int) :
    stored (Function.update a ⟨k, hk⟩ v) (k + 1) xs = stored a k (v :: xs) := by
  funext i
  unfold stored
  rcases lt_trichotomy (i : ℕ) k with hi | hi | hi
  · have hne : i ≠ ⟨k, hk⟩ := fun heq => absurd (congrArg Fin.val heq) hi.ne
    rw [if_pos hi, if_pos (Nat.lt_succ_of_lt hi), Function.update_of_ne hne]
  · obtain rfl : i = ⟨k, hk⟩ := Fin.ext hi
    simp
  · have hne : i ≠ ⟨k, hk⟩ := fun heq => absurd (congrArg Fin.val heq) hi.ne'
    have hsub : (i : ℕ) - k = (i - (k + 1)) + 1 := by omega
    rw [if_neg (by omega), if_neg (by omega), Function.update_of_ne hne, hsub,
      List.getElem?_cons_succ]

/-- **The reading loop stores the integers of the file.** -/
theorem readLoop_spec {maxAddress : Int} (hmax : maxAddress < 2 ^ 31) {file : List Char}
    {xs : List Int} (hfile : Integers ['+', '-'] file xs) :
    ∀ (infos : Fin N → VirtualAddressInfo) (k fuel : ℕ), xs.length < fuel →
      k + xs.length ≤ N → (∀ v ∈ xs, 0 ≤ v ∧ v ≤ maxAddress) →
      ∃ r, readLoop maxAddress fuel ⟨file, infos, k⟩ = some (.ok r) ∧
        (fun i => (r.virtualAddressInfos i).virtualAddress) =
          stored (fun i => (infos i).virtualAddress) k xs := by
  induction hfile with
  | nil h =>
      rename_i s
      intro infos k fuel hfuel hk _
      obtain ⟨n, rfl⟩ : ∃ n, fuel = n + 1 := ⟨fuel - 1, by omega⟩
      refine ⟨⟨s, infos, k⟩, ?_, (stored_nil _ k).symm⟩
      simp only [readLoop, readVirtualAddress, h]
      split <;> rfl
  | cons h t ih =>
      rename_i s rest v xs
      intro infos k fuel hfuel hk hrange
      obtain ⟨n, rfl⟩ : ∃ n, fuel = n + 1 := ⟨fuel - 1, by omega⟩
      rw [List.length_cons] at hfuel hk
      have hkN : k < N := by omega
      obtain ⟨h0, h1⟩ := hrange v List.mem_cons_self
      have hfits : fitsInt v := ⟨by omega, by omega⟩
      have hnot : ¬(v < 0 ∨ v > maxAddress) := by omega
      obtain ⟨r, hrun, hr⟩ := ih (Function.update infos ⟨k, hkN⟩
        { infos ⟨k, hkN⟩ with virtualAddress := v }) (k + 1) n (by omega) (by omega)
        (fun u hu => hrange u (List.mem_cons_of_mem _ hu))
      refine ⟨r, ?_, ?_⟩
      · have hread : readVirtualAddress (⟨s, infos, k⟩ : Reader N) =
            some (true, ⟨rest, Function.update infos ⟨k, hkN⟩
              { infos ⟨k, hkN⟩ with virtualAddress := v }, k + 1⟩) := by
          simp only [readVirtualAddress, h, dif_pos hkN, if_pos hfits]
        have hidx : index N (((k + 1 : ℕ) : Int) - 1) = some ⟨k, hkN⟩ := by
          rw [index_eq_some]
          push_cast
          omega
        rw [readLoop, hread]
        simp only [Option.bind_eq_bind, Option.bind_some, hidx, Function.update_self,
          if_neg hnot, if_true]
        exact hrun
      · rw [hr, ← stored_cons _ hkN]
        congr 1
        funext i
        by_cases hi : i = ⟨k, hkN⟩
        · subst hi
          simp
        · simp [Function.update_of_ne hi]

/-! ## Short files -/

section ShortFiles

variable {cfg : Config} {alg : Algorithm} {n : ℕ} {addrs : Fin n → Int} {file : List Char}

/-- The addresses of a file that lie in the virtual memory. -/
def InRange (cfg : Config) (addrs : Fin n → Int) : Prop :=
  ∀ i, 0 ≤ addrs i ∧ addrs i < cfg.totalVirtualMemory

/-- The array that is simulated: the addresses read, then `-1`. -/
def padded (addrs : Fin n → Int) : Fin numAddresses → Int :=
  fun i => if h : (i : ℕ) < n then addrs ⟨i, h⟩ else -1

/-- `-1` stands for page 0, so the whole array has its pages in the table. -/
def paddedReferences (cfg : Config) {addrs : Fin n → Int} (h : InRange cfg addrs) :
    References cfg.totalPage numAddresses cfg.pageSizeBytes where
  addr := padded addrs
  inTable := by
    intro i
    have hmul := cfg.totalPage_mul
    unfold padded
    split
    · rename_i hi
      obtain ⟨h0, h1⟩ := h ⟨i, hi⟩
      rw [← hmul] at h1
      exact Addresses.tdiv_bounds h0 (by exact_mod_cast h1)
    · have hone := cfg.one_lt_pageSizeBytes
      have hzero : (-1 : Int).tdiv cfg.pageSizeBytes = 0 := by
        rw [Int.neg_tdiv, Int.tdiv_eq_zero_of_lt (by decide) (by exact_mod_cast hone)]
        rfl
      rw [hzero]
      exact ⟨by omega, le_rfl, by exact_mod_cast cfg.totalPage_pos⟩

/-- The simulation that a file leads to. -/
theorem runMain_of_file (hn : n ≤ numAddresses) (hrange : InRange cfg addrs)
    (hfile : Integers ['+', '-'] file (List.ofFn addrs)) :
    runMain cfg alg file = (simulate alg cfg.totalFrame cfg.totalPage cfg.pageSizeBytes
      (padded addrs)).map Except.ok := by
  have hbound : ∀ v ∈ List.ofFn addrs, 0 ≤ v ∧ v ≤ (cfg.totalVirtualMemory : Int) - 1 := by
    intro v hv
    obtain ⟨i, rfl⟩ := (List.mem_ofFn' addrs v).mp hv
    obtain ⟨h0, h1⟩ := hrange i
    exact ⟨h0, by omega⟩
  have hmem := cfg.totalVirtualMemory_le
  obtain ⟨r, hread, harray⟩ := readLoop_spec (N := numAddresses)
    (by omega : (cfg.totalVirtualMemory : Int) - 1 < 2 ^ 31) hfile
    (createVirtualAddressInfoArray numAddresses) 0 (numAddresses + 1)
    (by rw [List.length_ofFn]; omega) (by rw [List.length_ofFn]; omega) hbound
  have hpadded : (fun i => (r.virtualAddressInfos i).virtualAddress) = padded addrs := by
    rw [harray]
    funext i
    rw [stored, if_neg (Nat.not_lt_zero _), Nat.sub_zero, List.getElem?_ofFn, padded]
    split
    · rfl
    · rfl
  rw [runMain, hread]
  simp only [Option.bind_eq_bind, Option.bind_some, hpadded]
  cases simulate alg cfg.totalFrame cfg.totalPage cfg.pageSizeBytes (padded addrs) <;> rfl

/-- `main` handles exactly the addresses of the file: total and H/F column are
those of the policy on these addresses, there is a row for each of them and for
nothing else, and every physical address has its offset within the page. -/
def HandlesFile (cfg : Config) (alg : Algorithm) (file : List Char) (addrs : Fin n → Int) :
    Prop :=
  ∃ (m : MainState cfg.totalFrame cfg.totalPage numAddresses)
      (ref : MainState cfg.totalFrame cfg.totalPage n),
    runMain cfg alg file = some (.ok m) ∧
    simulate alg cfg.totalFrame cfg.totalPage cfg.pageSizeBytes addrs = some ref ∧
    m.total = some ref.pageFaults ∧
    m.rows.map Row.pageFaultChar = ref.rows.map Row.pageFaultChar ∧
    m.rows.map Row.virtualAddress = List.ofFn addrs ∧
    ∀ row ∈ m.rows, 0 ≤ row.physicalAddress - row.frameNum * cfg.pageSizeBytes ∧
      row.physicalAddress - row.frameNum * cfg.pageSizeBytes < cfg.pageSizeBytes

/-- **What the code does with a short file**: it simulates all `numAddresses`
entries and prints a row for each, also for the entries left at `-1`. -/
theorem runMain_rows (alg : Algorithm) (hn : n ≤ numAddresses) (hrange : InRange cfg addrs)
    (hfile : Integers ['+', '-'] file (List.ofFn addrs)) :
    ∃ m, runMain cfg alg file = some (.ok m) ∧ m.total = some m.pageFaults ∧
      m.rows.map Row.virtualAddress = List.ofFn (padded addrs) ∧
      ∀ row ∈ m.rows, ∃ (c : Fin numAddresses) (hit : Bool) (f : Fin cfg.totalFrame),
        row = (paddedReferences cfg hrange).row c hit f := by
  have turns := run_turns cfg.three_le_totalFrame numAddresses_le
    (paddedReferences cfg hrange) alg
  obtain ⟨m, hrun, haddr, hrows⟩ := rows_of_turns turns numAddresses le_rfl
  obtain ⟨m', hrun', htotal, -⟩ := total_of_turns turns
  obtain rfl : m = m' := Option.some.inj (hrun.symm.trans hrun')
  refine ⟨m, ?_, htotal, ?_, hrows⟩
  · rw [runMain_of_file hn hrange hfile]
    exact congrArg (Option.map Except.ok) hrun
  · rw [haddr, List.take_of_length_le (by simp), List.ofFn_eq_map]
    rfl

/-- A file that is handled as it should be leaves no entry of the array unread. -/
theorem HandlesFile.full (h : HandlesFile cfg alg file addrs) (hn : n ≤ numAddresses)
    (hrange : InRange cfg addrs) (hfile : Integers ['+', '-'] file (List.ofFn addrs)) :
    n = numAddresses := by
  obtain ⟨m, hrun, -, haddr, -⟩ := runMain_rows alg hn hrange hfile
  obtain ⟨m', -, hrun', -, -, -, haddr', -⟩ := h
  obtain rfl : m = m' := Except.ok.inj (Option.some.inj (hrun.symm.trans hrun'))
  have hlen := congrArg List.length (haddr'.symm.trans haddr)
  rwa [List.length_ofFn, List.length_ofFn] at hlen

/-- **A file is handled as it should be exactly when it is full.** -/
theorem handlesFile_iff (cfg : Config) (alg : Algorithm) (hn : n ≤ numAddresses)
    (hrange : InRange cfg addrs) (hfile : Integers ['+', '-'] file (List.ofFn addrs)) :
    HandlesFile cfg alg file addrs ↔ n = numAddresses := by
  constructor
  · exact fun h => h.full hn hrange hfile
  · intro hfull
    subst hfull
    obtain ⟨m, hrun, htotal, haddr, hrows⟩ := runMain_rows alg hn hrange hfile
    have hpadded : padded addrs = addrs := by
      funext i
      rw [padded, dif_pos i.isLt]
    have hsim := hrun
    rw [runMain_of_file le_rfl hrange hfile, hpadded, Option.map_eq_some_iff] at hsim
    obtain ⟨ref, hsim, href⟩ := hsim
    obtain rfl : ref = m := Except.ok.inj href
    refine ⟨ref, ref, hrun, hsim, htotal, rfl, hpadded ▸ haddr, fun row hrow => ?_⟩
    obtain ⟨c, hit, f, rfl⟩ := hrows row hrow
    have hoffset : ((paddedReferences cfg hrange).row c hit f).physicalAddress -
        ((paddedReferences cfg hrange).row c hit f).frameNum * cfg.pageSizeBytes =
        addrs c % cfg.pageSizeBytes := by
      rw [← Int.tmod_eq_emod_of_nonneg (hrange c).1, ← congrFun hpadded c]
      simp [References.row, References.offset, paddedReferences]
    have hpos : 0 < (cfg.pageSizeBytes : Int) := by
      have := cfg.one_lt_pageSizeBytes
      omega
    rw [hoffset]
    exact ⟨Int.emod_nonneg _ hpos.ne', Int.emod_lt_of_pos _ hpos⟩

end ShortFiles

/-- The smallest machine of the menu. -/
def smallConfig : Config where
  virtualAddressBits := 18
  pageSize := 1
  physicalMemorySize := 32
  bits_mem := by decide
  page_mem := by decide
  memory_mem := by decide

theorem integers_zeros (n : ℕ) :
    Integers ['+', '-'] (lines (List.replicate n 0)) (List.ofFn fun _ : Fin n => 0) := by
  have hfile : Integers ['+', '-'] ([] ++ lines (List.replicate n 0))
      ((List.replicate n 0).map fun n : ℕ => (n : Int)) :=
    Integers.of_lines (by simp) (List.replicate n 0) [] (by simp)
  rw [List.nil_append, List.map_replicate, Nat.cast_zero] at hfile
  rw [List.ofFn_const]
  exact hfile

/-- A full file, of zeros. -/
theorem handlesFile_iff_zeros :
    HandlesFile smallConfig .lru (lines (List.replicate numAddresses 0))
      (fun _ : Fin numAddresses => 0) :=
  (handlesFile_iff smallConfig .lru le_rfl (fun _ => by decide)
    (integers_zeros numAddresses)).mpr rfl

/-- A file with the single address 4096 is not handled as it should be: rows
follow for 4999 addresses that are not in it. -/
theorem not_handlesFile_single :
    ¬HandlesFile smallConfig .fifo (lines [4096]) (fun _ : Fin 1 => 4096) := by
  have hfile : Integers ['+', '-'] (lines [4096]) [4096] :=
    Integers.of_lines (by simp) [4096] [] (by simp)
  have hrange : InRange smallConfig (fun _ : Fin 1 => 4096) := by
    intro _
    show (0 : Int) ≤ 4096 ∧ (4096 : Int) < smallConfig.totalVirtualMemory
    decide
  intro h
  exact absurd (h.full (by decide) hrange hfile) (by decide)

end OS2023.Paging
