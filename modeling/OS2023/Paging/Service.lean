import OS2023.Paging.Memory

/-!
# Serving one reference

`Served` collects what every routine guarantees for one reference, whichever
frame it gives up: the frame list moves by `Access`, the tables represent the
new list, the frame used carries the physical address, every other frame and
the address array are untouched, and nothing is printed.
-/

namespace OS2023.Paging

open OS2023.Lib

variable {F P N : ℕ} {pageSize : Int}

/-- The address array of `s` is the one that `main` prepares for `A`. -/
def Loaded (A : References P N pageSize) (s : Sim F P N) : Prop :=
  s.virtualAddressInfoArray = pageNumbered pageSize A.addr

section Loaded

variable {A : References P N pageSize} {s : Sim F P N}

theorem Loaded.virtualAddress (h : Loaded A s) (c : Fin N) :
    (s.virtualAddressInfoArray c).virtualAddress = A.addr c := by
  rw [show s.virtualAddressInfoArray = _ from h]
  rfl

theorem Loaded.pageNum (h : Loaded A s) (c : Fin N) :
    (s.virtualAddressInfoArray c).pageNum = ((A.page c : ℕ) : Int) := by
  rw [show s.virtualAddressInfoArray = _ from h]
  exact A.tdiv_eq_page c

/-- The page number that a fault stores again is the one already there. -/
theorem Loaded.install (h : Loaded A s) (c : Fin N) (frame : Fin F) (a : Int) :
    (s.install c (A.page c) frame a).virtualAddressInfoArray =
      s.virtualAddressInfoArray := by
  simp only [Sim.install]
  rw [← h.pageNum c]
  exact Function.update_eq_self c _

end Loaded

structure Served (A : References P N pageSize) (c : Fin N) (s : Sim F P N)
    (ps : List (Fin P)) (hit : Bool) (f : Fin F) (s' : Sim F P N)
    (ps' : List (Fin P)) : Prop where
  access : Access F (A.page c) ps hit f ps'
  rep : Rep s' ps'
  addresses : s'.virtualAddressInfoArray = s.virtualAddressInfoArray
  physical : (s'.frames f).physicalAddress = (f : ℕ) * pageSize + A.offset c
  others : ∀ i, i ≠ f → s'.frames i = s.frames i
  quiet : s'.stdout = s.stdout

section Served

variable {A : References P N pageSize} {c : Fin N} {s s' : Sim F P N}
  {ps ps' : List (Fin P)} {hit : Bool} {f : Fin F}

theorem Served.loaded (h : Served A c s ps hit f s' ps') (hA : Loaded A s) :
    Loaded A s' :=
  h.addresses.trans hA

/-- Queue and reference bits are outside of what `Served` looks at. -/
theorem Served.congr (h : Served A c s ps hit f s' ps') {s'' : Sim F P N}
    (rep : Rep s'' ps') (frames : s''.frames = s'.frames)
    (addresses : s''.virtualAddressInfoArray = s'.virtualAddressInfoArray)
    (quiet : s''.stdout = s'.stdout) : Served A c s ps hit f s'' ps' :=
  { access := h.access
    rep := rep
    addresses := addresses.trans h.addresses
    physical := by rw [frames]; exact h.physical
    others := by rw [frames]; exact h.others
    quiet := quiet.trans h.quiet }

theorem Served.withQueue (h : Served A c s ps hit f s' ps') (q : PageQueue F) :
    Served A c s ps hit f { s' with pageQueue := q } ps' :=
  h.congr (h.rep.of_tables rfl rfl) rfl rfl rfl

theorem Rep.setReferenceBit (h : Rep s ps) (page : Fin P) (bit : Int) :
    Rep (s.setReferenceBit page bit) ps :=
  { nodup := h.nodup
    fits := h.fits
    maps := by
      intro j
      by_cases hj : j = page
      · subst hj
        simpa [Sim.setReferenceBit] using h.maps j
      · simpa [Sim.setReferenceBit, Function.update_of_ne hj] using h.maps j
    occupied := h.occupied
    numbered := h.numbered }

theorem Served.setReferenceBit (h : Served A c s ps hit f s' ps') (page : Fin P)
    (bit : Int) : Served A c s ps hit f (s'.setReferenceBit page bit) ps' :=
  h.congr (h.rep.setReferenceBit page bit) rfl rfl rfl

theorem served_hit (hrep : Rep s ps) (hmem : A.page c ∈ ps) {i : Fin F}
    (hi : (i : ℕ) = ps.idxOf (A.page c)) :
    Served A c s ps true i (s.touch i ((i : ℕ) * pageSize + A.offset c)) ps :=
  { access := hi ▸ Access.hit hmem
    rep := hrep.touch (hi ▸ List.idxOf_lt_length_of_mem hmem) _
    addresses := rfl
    physical := by simp [Sim.touch]
    others := fun k hk => by simp [Sim.touch, Function.update_of_ne hk]
    quiet := rfl }

theorem served_load (hA : Loaded A s) (hrep : Rep s ps) (fresh : A.page c ∉ ps)
    (hlt : ps.length < F) :
    Served A c s ps false ⟨ps.length, hlt⟩
      (s.install c (A.page c) ⟨ps.length, hlt⟩ ((ps.length : ℕ) * pageSize + A.offset c))
      (ps ++ [A.page c]) :=
  { access := Access.load fresh hlt
    rep := hrep.load c fresh hlt _
    addresses := hA.install c _ _
    physical := by simp [Sim.install]
    others := fun k hk => by simp [Sim.install, Function.update_of_ne hk]
    quiet := rfl }

theorem served_replace (hrep : Rep s ps) (fresh : A.page c ∉ ps)
    (hfull : ps.length = F) (hf : (f : ℕ) < ps.length)
    (htable : s'.pageTable = swapEntries s.pageTable ps[(f : ℕ)] (A.page c) (f : ℕ))
    (hframes : s'.frames = Function.update s.frames f
      ⟨1, (f : ℕ), (f : ℕ) * pageSize + A.offset c⟩)
    (addresses : s'.virtualAddressInfoArray = s.virtualAddressInfoArray)
    (quiet : s'.stdout = s.stdout) :
    Served A c s ps false f s' (ps.set f (A.page c)) :=
  { access := Access.replace fresh hfull f.isLt
    rep := hrep.replace hfull fresh hf htable hframes
    addresses := addresses
    physical := by simp [hframes]
    others := fun k hk => by rw [hframes, Function.update_of_ne hk]
    quiet := quiet }

/-- The routines that load the page first and then clear the other entries of its
frame. What they do to the queue in between is up to them. -/
theorem served_install_clear (hA : Loaded A s) (hrep : Rep s ps) (fresh : A.page c ∉ ps)
    (hfull : ps.length = F) (hf : (f : ℕ) < ps.length) {s₁ : Sim F P N}
    (hs₁ : s₁ = s.install c (A.page c) f ((f : ℕ) * pageSize + A.offset c))
    (q : PageQueue F) :
    Served A c s ps false f
      { s₁ with
        pageQueue := q
        pageTable := clearOthers s₁.pageTable (s₁.frames f).frameNum ((A.page c : ℕ) : Int) }
      (ps.set f (A.page c)) := by
  have hframe : (s₁.frames f).frameNum = ((f : ℕ) : Int) := by
    simp [hs₁, Sim.install]
  subst hs₁
  refine served_replace hrep fresh hfull hf ?_ rfl ?_ rfl
  · show clearOthers _ (Sim.frames _ f).frameNum _ = _
    rw [hframe]
    exact hrep.maps.install_clear hrep.nodup hf fresh
  · exact hA.install c f ((f : ℕ) * pageSize + A.offset c)

end Served

/-! ## Queue calls from a routine -/

/-- The queue of `s` holds the frame numbers `l`. -/
def Queued (s : Sim F P N) (l : List ℕ) : Prop :=
  Holds s.pageQueue (l.map fun i : ℕ => (i : Int))

section Queued

variable {s : Sim F P N} {l : List ℕ}

theorem Queued.enqueue (h : Queued s l) (hlt : l.length < F) (v : ℕ) :
    ∃ q, s.enqueue (v : Int) = some { s with pageQueue := q } ∧
      Queued { s with pageQueue := q } (l ++ [v]) := by
  obtain ⟨q, hq, hholds⟩ := Holds.enqueue h (by simpa using hlt) (v : Int)
  refine ⟨q, ?_, ?_⟩
  · simp [Sim.enqueue, hq]
  · simpa [Queued] using hholds

theorem Queued.dequeue {v : ℕ} (h : Queued s (v :: l)) :
    ∃ q, s.dequeue = some ((v : Int), { s with pageQueue := q }) ∧
      Queued { s with pageQueue := q } l := by
  obtain ⟨q, hq, hholds⟩ := Holds.dequeue h
  refine ⟨q, ?_, hholds⟩
  simp [Sim.dequeue, hq]

theorem Queued.of_pageQueue {t : Sim F P N} (h : Queued s l)
    (hq : t.pageQueue = s.pageQueue) : Queued t l := by
  unfold Queued
  rw [hq]
  exact h

end Queued

end OS2023.Paging
