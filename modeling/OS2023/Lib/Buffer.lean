import OS2023.Lib.Loops
import OS2023.Lib.Scan
import Mathlib.Data.List.GetD
import Mathlib.Data.List.OfFn

/-!
# Character buffers

An array of characters of fixed size, with the operations of `string.h` that
programs apply to such arrays. A place that lies outside makes an operation
`none`. Nothing is assumed about what a buffer holds at first, and a buffer
denotes a string only where it has a terminator.
-/

namespace OS2023.Lib

/-- A buffer of `size` characters. -/
abbrev Buffer (size : ℕ) := Fin size → Char

variable {size : ℕ} {b b' : Buffer size} {t : List Char}

/-! ## Operations -/

/-- `b[i] = c`. -/
def Buffer.write (b : Buffer size) (i : Int) (c : Char) : Option (Buffer size) := do
  let s ← index size i
  some (Function.update b s c)

/-- The characters `t` written to the front. -/
def Buffer.store (b : Buffer size) (t : List Char) : Option (Buffer size) :=
  if t.length ≤ size then some fun i => t.getD i (b i) else none

/-- `memmove(b + dst, b + src, n)`. -/
def Buffer.memmove (b : Buffer size) (dst src n : Int) : Option (Buffer size) :=
  if h : 0 ≤ dst ∧ 0 ≤ src ∧ 0 ≤ n ∧ dst + n ≤ size ∧ src + n ≤ size then
    some fun i =>
      if hi : dst ≤ (i : ℕ) ∧ ((i : ℕ) : Int) < dst + n then
        b ⟨(src + ((i : ℕ) - dst)).toNat, by omega⟩
      else b i
  else none

/-- The string in the buffer. -/
def Buffer.cString (b : Buffer size) : Option (List Char) :=
  if '\x00' ∈ List.ofFn b then some ((List.ofFn b).takeWhile fun c => c != '\x00') else none

/-- `strcpy(b, t)` for a string `t`. -/
def Buffer.strcpy (b : Buffer size) (t : List Char) : Option (Buffer size) :=
  b.store (t ++ ['\x00'])

/-- `strstr(s, needle)` as an offset. -/
def strstr (needle : List Char) : List Char → Option ℕ
  | [] => if needle = [] then some 0 else none
  | c :: s =>
      if needle.isPrefixOf (c :: s) then some 0 else (strstr needle s).map fun p => p + 1

/-! ## Strings in buffers -/

/-- The buffer holds the string `t` in front of a terminator. -/
structure Terminated (b : Buffer size) (t : List Char) : Prop where
  fits : t.length < size
  chars : ∀ i : Fin size, ∀ h : (i : ℕ) < t.length, b i = t[(i : ℕ)]
  stop : ∀ i : Fin size, (i : ℕ) = t.length → b i = '\x00'
  clean : '\x00' ∉ t

/-- **What a terminated buffer denotes.** -/
theorem Terminated.cString (h : Terminated b t) : b.cString = some t := by
  have hfits := h.fits
  have hsplit : List.ofFn b = t ++ '\x00' :: (List.ofFn b).drop (t.length + 1) := by
    apply List.ext_getElem?
    intro i
    rcases Nat.lt_trichotomy i t.length with hi | rfl | hi
    · rw [List.getElem?_append_left hi, List.getElem?_eq_getElem hi,
        List.getElem?_eq_getElem (by rw [List.length_ofFn]; omega), List.getElem_ofFn,
        h.chars ⟨i, by omega⟩ hi]
    · rw [List.getElem?_append_right le_rfl, Nat.sub_self, List.getElem?_cons_zero,
        List.getElem?_eq_getElem (by rw [List.length_ofFn]; omega), List.getElem_ofFn,
        h.stop ⟨t.length, by omega⟩ rfl]
    · obtain ⟨k, rfl⟩ : ∃ k, i = t.length + 1 + k := ⟨i - (t.length + 1), by omega⟩
      rw [List.getElem?_append_right (by omega),
        show t.length + 1 + k - t.length = k + 1 by omega, List.getElem?_cons_succ,
        List.getElem?_drop]
  have hmem : '\x00' ∈ List.ofFn b := by
    rw [hsplit]
    simp
  have htake : (List.ofFn b).takeWhile (fun c => c != '\x00') = t := by
    rw [hsplit, List.takeWhile_append_of_pos]
    · simp
    · intro c hc
      rw [bne_iff_ne]
      rintro rfl
      exact h.clean hc
  rw [Buffer.cString, if_pos hmem, htake]

/-- A terminator written at the end or behind it changes nothing. -/
theorem Terminated.write (h : Terminated b t) {i : ℕ} (hle : t.length ≤ i) (hi : i < size) :
    ∃ b', b.write i '\x00' = some b' ∧ Terminated b' t := by
  refine ⟨Function.update b ⟨i, hi⟩ '\x00', ?_, ?_⟩
  · rw [Buffer.write, index_natCast hi]
    rfl
  · refine ⟨h.fits, fun j hj => ?_, fun j hj => ?_, h.clean⟩
    · have hne : j ≠ ⟨i, hi⟩ := by
        rintro rfl
        exact absurd hj (Nat.not_lt.mpr hle)
      rw [Function.update_of_ne hne]
      exact h.chars j hj
    · by_cases heq : j = ⟨i, hi⟩
      · rw [heq, Function.update_self]
      · rw [Function.update_of_ne heq]
        exact h.stop j hj

/-- Characters stored at the front and a terminator behind them make a string. -/
theorem terminated_store (b : Buffer size) (hlt : t.length < size) (hclean : '\x00' ∉ t) :
    ∃ b₁ b₂, b.store t = some b₁ ∧ b₁.write t.length '\x00' = some b₂ ∧
      Terminated b₂ t := by
  refine ⟨_, Function.update (fun i : Fin size => t.getD i (b i)) ⟨t.length, hlt⟩ '\x00',
    if_pos hlt.le, ?_, ?_⟩
  · rw [Buffer.write, index_natCast hlt]
    rfl
  · refine ⟨hlt, fun i hi => ?_, fun i hi => ?_, hclean⟩
    · have hne : i ≠ ⟨t.length, hlt⟩ := by
        rintro rfl
        exact absurd hi (Nat.lt_irrefl _)
      rw [Function.update_of_ne hne, List.getD_eq_getElem _ _ hi]
    · rw [show i = ⟨t.length, hlt⟩ from Fin.ext hi, Function.update_self]

/-- Text with a terminator in it is a string up to there. -/
theorem terminated_store_append (b : Buffer size) {r : List Char}
    (hle : (t ++ '\x00' :: r).length ≤ size) (hclean : '\x00' ∉ t) :
    ∃ b', b.store (t ++ '\x00' :: r) = some b' ∧ Terminated b' t := by
  have hlen : (t ++ '\x00' :: r).length = t.length + r.length + 1 := by
    rw [List.length_append, List.length_cons, Nat.add_assoc]
  refine ⟨_, if_pos hle, by omega, fun i hi => ?_, fun i hi => ?_, hclean⟩
  · rw [List.getD_eq_getElem _ _ (by omega), List.getElem_append_left hi]
  · rw [List.getD_eq_getElem _ _ (by omega), List.getElem_append_right (by omega)]
    simp [hi]

/-- **What is in the buffer after `strcpy`.** A terminator inside `t` cuts it. -/
theorem cString_strcpy (b : Buffer size) (hlt : t.length < size) :
    ∃ b', b.strcpy t = some b' ∧
      b'.cString = some (t.takeWhile fun c => c != '\x00') := by
  obtain ⟨r, hsplit⟩ := exists_append_stop '\x00' t []
  have hle : (t ++ ['\x00']).length ≤ size := by
    rw [List.length_append, List.length_singleton]
    omega
  rw [hsplit] at hle
  obtain ⟨b', hstore, hterm⟩ := terminated_store_append b hle (stop_not_mem_takeWhile _ t)
  refine ⟨b', ?_, hterm.cString⟩
  rw [Buffer.strcpy, hsplit]
  exact hstore

/-- Moving the string to the left by `k` drops its first `k` characters. -/
theorem Terminated.memmove (h : Terminated b t) {k n : ℕ} (hk : k ≤ t.length)
    (hn : t.length - k < n) (hfits : k + n ≤ size) :
    ∃ b', b.memmove 0 k n = some b' ∧ Terminated b' (t.drop k) := by
  have hsize := h.fits
  refine ⟨_, dif_pos (by omega), ?_, fun i hi => ?_, fun i hi => ?_,
    fun hmem => h.clean (List.mem_of_mem_drop hmem)⟩
  · rw [List.length_drop]
    omega
  · rw [List.length_drop] at hi
    rw [dif_pos (by omega), List.getElem_drop]
    have hread := h.chars ⟨(((k : ℕ) : Int) + (((i : ℕ) : Int) - 0)).toNat, by omega⟩
      (by simp only; omega)
    rw [hread]
    congr 1
  · rw [List.length_drop] at hi
    rw [dif_pos (by omega)]
    refine h.stop _ ?_
    simp only
    omega

/-! ## Search -/

/-- The needle is found where it stands. -/
theorem prefix_of_strstr {needle s : List Char} {p : ℕ} (h : strstr needle s = some p) :
    needle <+: s.drop p := by
  induction s generalizing p with
  | nil =>
      unfold strstr at h
      split at h
      · rename_i hnil
        rw [hnil]
        exact List.nil_prefix
      · exact absurd h (by simp)
  | cons c s ih =>
      unfold strstr at h
      split at h
      · rename_i hprefix
        obtain rfl := Option.some.inj h
        exact List.isPrefixOf_iff_prefix.mp hprefix
      · obtain ⟨q, hq, rfl⟩ := Option.map_eq_some_iff.mp h
        exact ih hq

/-- There is room for the needle behind the place where it is found. -/
theorem add_length_le_of_strstr {needle s : List Char} {p : ℕ} (hne : needle ≠ [])
    (h : strstr needle s = some p) : p + needle.length ≤ s.length := by
  have hle := (prefix_of_strstr h).length_le
  have hpos := List.length_pos_iff.mpr hne
  rw [List.length_drop] at hle
  omega

end OS2023.Lib
