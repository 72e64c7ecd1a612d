import OS2023.Paging.Queue

/-!
# The page-replacement simulator

The data of `4/as4.c`, its four replacement routines, the two address lookups
and the simulation loop of `main`.

Throughout, `F` is `totalFrame`, `P` is `totalPage` and `N` is the length of
the address array, which `main` fixes to `numAddresses`. Arrays are functions
on their index range; C `int` is `Int` and C division is `Int.tdiv`. A routine
is `none` when it reads or writes outside an array, or when it leaves a
non-void function without `return`. What the queue prints is collected in
`stdout`.
-/

namespace OS2023.Paging

open OS2023.Lib

/-- `NUM_ADDRESSES`. -/
def numAddresses : ℕ := 5000

/-! ## Data -/

structure VirtualAddressInfo where
  virtualAddress : Int
  pageNum : Int
deriving DecidableEq

/-- One entry of the page table. -/
structure PageTable where
  pageNum : Int
  frameNum : Int
  referenceBit : Int
deriving DecidableEq

structure PhysicalMemoryInfo where
  isOccupied : Int
  frameNum : Int
  physicalAddress : Int
deriving DecidableEq

/-- The arrays and the queue that the routines share through `main`. -/
structure Sim (F P N : ℕ) where
  frames : Fin F → PhysicalMemoryInfo
  virtualAddressInfoArray : Fin N → VirtualAddressInfo
  pageTable : Fin P → PageTable
  pageQueue : PageQueue F
  stdout : List String

variable {F P N : ℕ}

def createVirtualAddressInfoArray (N : ℕ) : Fin N → VirtualAddressInfo :=
  fun _ => { virtualAddress := -1, pageNum := -1 }

def createPageTable (numPages : ℕ) : Fin numPages → PageTable :=
  fun _ => { pageNum := -1, frameNum := -1, referenceBit := 0 }

def createPhysicalMemoryInfoArray (numFrames : ℕ) :
    Fin numFrames → PhysicalMemoryInfo :=
  fun _ => { isOccupied := 0, frameNum := -1, physicalAddress := -1 }

/-! ## Lookups -/

/-- `getFrameNumFromVA`: first page-table entry with the page number. Past the
loop there is no `return`. -/
def getFrameNumFromVA (virtualAddress : Int) (pageTable : Fin P → PageTable)
    (pageSize : Int) : Option Int :=
  let tmpPageNum := virtualAddress.tdiv pageSize
  (firstWhere fun i => (pageTable i).pageNum == tmpPageNum).map
    fun i => (pageTable i).frameNum

/-- `matchedPageNum` of `getPhysicalAddressFromVA`: last entry with the page
number, `-1` when there is none. -/
def matchedPageNum (virtualAddress : Int) (pageTable : Fin P → PageTable)
    (pageSizeByte : Int) : Int :=
  let tmpPageNum := virtualAddress.tdiv pageSizeByte
  lastMatch (fun i => (pageTable i).pageNum == tmpPageNum) (fun i => ((i : ℕ) : Int)) (-1)

def getPhysicalAddressFromVA (virtualAddress : Int) (pageTable : Fin P → PageTable)
    (frames : Fin F → PhysicalMemoryInfo) (pageSizeByte : Int) : Option Int := do
  let m ← index P (matchedPageNum virtualAddress pageTable pageSizeByte)
  let i ← firstWhere fun i => (pageTable m).frameNum == (frames i).frameNum
  some (frames i).physicalAddress

/-! ## Parts that the four routines share -/

/-- The inner loop of the hit test: page number of the last entry mapped to
`frameNum`. -/
def pageNumFromFrame (s : Sim F P N) (frameNum : Int) : Int :=
  lastMatch (fun j => (s.pageTable j).frameNum == frameNum)
    (fun j => (s.pageTable j).pageNum) (-1)

/-- The hit test: the first occupied frame whose page is the current one. The
counter `occupiedCount` that runs along equals `totalFrame` whenever this loop
falls through, so the later test on it always succeeds. -/
def hitFrame (s : Sim F P N) (currentIndex : Fin N) : Option (Fin F) :=
  firstWhere fun i => (s.frames i).isOccupied != 0 &&
    (s.virtualAddressInfoArray currentIndex).pageNum ==
      pageNumFromFrame s (s.frames i).frameNum

/-- The cold-start loop: the first frame that is not occupied. -/
def freeFrame (s : Sim F P N) : Option (Fin F) :=
  firstWhere fun i => (s.frames i).isOccupied == 0

/-- The assignments of a hit. -/
def Sim.touch (s : Sim F P N) (i : Fin F) (physicalAddress : Int) : Sim F P N :=
  { s with
    frames := Function.update s.frames i
      { s.frames i with isOccupied := 1, physicalAddress := physicalAddress } }

/-- The assignments that map `page` to `frame`. -/
def Sim.install (s : Sim F P N) (currentIndex : Fin N) (page : Fin P) (frame : Fin F)
    (physicalAddress : Int) : Sim F P N :=
  { s with
    virtualAddressInfoArray := Function.update s.virtualAddressInfoArray currentIndex
      { s.virtualAddressInfoArray currentIndex with pageNum := (page : ℕ) }
    pageTable := Function.update s.pageTable page
      { s.pageTable page with pageNum := (page : ℕ), frameNum := (frame : ℕ) }
    frames := Function.update s.frames frame
      { isOccupied := 1, frameNum := (frame : ℕ), physicalAddress := physicalAddress } }

/-- The loop that clears the entries mapped to `frameNum` for another page than
`pageNum`. -/
def clearOthers (pageTable : Fin P → PageTable) (frameNum pageNum : Int) :
    Fin P → PageTable :=
  fun i =>
    if frameNum = (pageTable i).frameNum ∧ pageNum ≠ (pageTable i).pageNum then
      { pageTable i with frameNum := -1, pageNum := -1 }
    else pageTable i

def Sim.setReferenceBit (s : Sim F P N) (page : Fin P) (bit : Int) : Sim F P N :=
  { s with
    pageTable := Function.update s.pageTable page
      { s.pageTable page with referenceBit := bit } }

/-- `enqueue(pageQueue, value)` with its result ignored. -/
def Sim.enqueue (s : Sim F P N) (value : Int) : Option (Sim F P N) := do
  let (_, q, out) ← Paging.enqueue s.pageQueue value
  some { s with pageQueue := q, stdout := s.stdout ++ out }

def Sim.dequeue (s : Sim F P N) : Option (Int × Sim F P N) := do
  let (item, q, out) ← Paging.dequeue s.pageQueue
  some (item, { s with pageQueue := q, stdout := s.stdout ++ out })

def Sim.removeFrameFromQueue (s : Sim F P N) (value : Int) : Option (Sim F P N) := do
  let (q, out) ← Paging.removeFrameFromQueue s.pageQueue value
  some { s with pageQueue := q, stdout := s.stdout ++ out }

/-- Page number of the first entry mapped to `frameNum`, `0` when there is
none (`pageNumforSearch`). -/
def pageNumforSearch (s : Sim F P N) (frameNum : Int) : Int :=
  match firstWhere fun j => frameNum == (s.pageTable j).frameNum with
  | some j => (s.pageTable j).pageNum
  | none => 0

/-! ## Optimal -/

/-- The look-ahead of one frame over the indices that are left: the distance to
the next use of `page`, and how often the loop found that there is none. -/
def nextUseScan (s : Sim F P N) (currentIndex : Fin N) (page : Int) :
    List (Fin N) → Int × ℕ → Int × ℕ
  | [], acc => acc
  | j :: js, (d, k) =>
      if (s.virtualAddressInfoArray j).pageNum = page then
        (((j : ℕ) : Int) - (currentIndex : ℕ), k)
      else if (j : ℕ) + 1 = N then nextUseScan s currentIndex page js (5000, k + 1)
      else nextUseScan s currentIndex page js (d, k)

def optimalDistance (s : Sim F P N) (currentIndex : Fin N) (i : Fin F) : Int × ℕ :=
  nextUseScan s currentIndex (pageNumforSearch s (s.frames i).frameNum)
    ((List.finRange N).drop currentIndex) (0, 0)

/-- One turn of the tie-break among the frames that are not used again:
`(firstOutPos, firstOutFrameNum)` moves to a smaller slot of the queue. -/
def firstOutTurn (q : PageQueue F) (distances : Fin F → Int) (acc : Int × Int)
    (k : Fin F) : Option (Int × Int) :=
  if distances k = 5000 then do
    let pos ← findPositionInQueue q (k : ℕ)
    if pos = -1 then some acc
    else
      let acc := if acc.1 = -1 then (pos, ((k : ℕ) : Int)) else acc
      some (if pos < acc.1 then (pos, ((k : ℕ) : Int)) else acc)
  else some acc

/-- The frame that `replacePageOptimal` gives up when all are occupied. -/
def optimalVictim (s : Sim F P N) (currentIndex : Fin N) : Option Int :=
  let distances := fun i => (optimalDistance s currentIndex i).1
  let notAppearCount :=
    (List.finRange F).foldl (fun c i => c + (optimalDistance s currentIndex i).2) 0
  if notAppearCount > 1 then
    ((List.finRange F).foldlM (firstOutTurn s.pageQueue distances) (-1, -1)).map Prod.snd
  else some (scanMax distances).2

def replacePageOptimal (s : Sim F P N) (currentIndex : Fin N) (pageSizeByte : Int) :
    Option (Int × Sim F P N) := do
  let virtualAddress := (s.virtualAddressInfoArray currentIndex).virtualAddress
  let offset := virtualAddress.tmod pageSizeByte
  let pageNum := virtualAddress.tdiv pageSizeByte
  let page ← index P pageNum
  match hitFrame s currentIndex with
  | some i => some (1, s.touch i ((i : ℕ) * pageSizeByte + offset))
  | none =>
    match freeFrame s with
    | some i =>
        let s := s.install currentIndex page i ((i : ℕ) * pageSizeByte + offset)
        let s ← s.enqueue (i : ℕ)
        some (0, s)
    | none =>
        let maxDistanceFrameNum ← optimalVictim s currentIndex
        let frame ← index F maxDistanceFrameNum
        let s := s.install currentIndex page frame
          (maxDistanceFrameNum * pageSizeByte + offset)
        let s ← s.removeFrameFromQueue maxDistanceFrameNum
        let s ← s.enqueue maxDistanceFrameNum
        some (0, { s with
          pageTable := clearOthers s.pageTable (s.frames frame).frameNum pageNum })

/-! ## Second-Chance -/

/-- The victim search. `j` runs over the page table to the first entry mapped
to `victimFrameNum`; an entry with reference bit 1 loses it, its frame goes
back into the queue, the next frame comes out and `j` starts again. Every new
start clears a bit, so `fuel` above the number of pages is never used up. -/
def victimSearch : ℕ → Sim F P N → Int → Option (Int × Sim F P N)
  | 0, _, _ => none
  | fuel + 1, s, victimFrameNum =>
      match firstWhere fun j => victimFrameNum == (s.pageTable j).frameNum with
      | none => some (victimFrameNum, s)
      | some j => do
          let victimPage ← index P (s.pageTable j).pageNum
          if (s.pageTable victimPage).referenceBit = 1 then
            let s := s.setReferenceBit victimPage 0
            let s ← s.enqueue victimFrameNum
            let (victimFrameNum, s) ← s.dequeue
            victimSearch fuel s victimFrameNum
          else some (victimFrameNum, s)

/-- The loop of the victim search, one turn per unit of `fuel`, with its counter
`j`, the frames `given` a second chance so far, and whether the loop is left by
`break` rather than at the end of the page table. -/
def victimLoop : ℕ → ℕ → Sim F P N → Int → List Int →
    Option (Bool × Int × Sim F P N × List Int)
  | 0, _, _, _, _ => none
  | fuel + 1, j, s, victimFrameNum, given =>
      if h : j < P then
        if victimFrameNum = (s.pageTable ⟨j, h⟩).frameNum then do
          let victimPage ← index P (s.pageTable ⟨j, h⟩).pageNum
          if (s.pageTable victimPage).referenceBit = 1 then
            let s := s.setReferenceBit victimPage 0
            let s ← s.enqueue victimFrameNum
            let (nextFrameNum, s) ← s.dequeue
            victimLoop fuel 0 s nextFrameNum (given ++ [victimFrameNum])
          else some (true, victimFrameNum, s, given)
        else victimLoop fuel (j + 1) s victimFrameNum given
      else some (false, victimFrameNum, s, given)

def replacePageSC (s : Sim F P N) (currentIndex : Fin N) (pageSizeByte : Int) :
    Option (Int × Sim F P N) := do
  let virtualAddress := (s.virtualAddressInfoArray currentIndex).virtualAddress
  let offset := virtualAddress.tmod pageSizeByte
  let pageNum := virtualAddress.tdiv pageSizeByte
  let page ← index P pageNum
  match hitFrame s currentIndex with
  | some i =>
      let hitPage ← index P (pageNumFromFrame s (s.frames i).frameNum)
      let s := s.touch i ((i : ℕ) * pageSizeByte + offset)
      some (1, s.setReferenceBit hitPage 1)
  | none =>
    match freeFrame s with
    | some i =>
        let s := s.install currentIndex page i ((i : ℕ) * pageSizeByte + offset)
        let s := s.setReferenceBit page 0
        let s ← s.enqueue (i : ℕ)
        some (0, s)
    | none =>
        let (first, s) ← s.dequeue
        let (victimFrameNum, s) ← victimSearch (P + 1) s first
        let s := { s with pageTable := clearOthers s.pageTable victimFrameNum pageNum }
        let frame ← index F victimFrameNum
        let s := s.install currentIndex page frame (victimFrameNum * pageSizeByte + offset)
        let s := s.setReferenceBit page 0
        let s ← s.enqueue victimFrameNum
        some (0, s)

/-! ## LRU -/

/-- The look-back of one frame over the indices that are left: the distance to
the latest use of `page`. The literal 4999 stands in the source. -/
def lastUseScan (s : Sim F P N) (currentIndex : Fin N) (page : Int) :
    List (Fin N) → Int → Int
  | [], d => d
  | j :: js, d =>
      if (s.virtualAddressInfoArray j).pageNum = page then
        ((currentIndex : ℕ) : Int) - (j : ℕ)
      else if (j : ℕ) = 4999 then lastUseScan s currentIndex page js 5000
      else lastUseScan s currentIndex page js d

def lruDistance (s : Sim F P N) (currentIndex : Fin N) (i : Fin F) : Int :=
  lastUseScan s currentIndex (pageNumforSearch s (s.frames i).frameNum)
    ((List.finRange N).take (currentIndex + 1)).reverse 0

def replacePageLRU (s : Sim F P N) (currentIndex : Fin N) (pageSizeByte : Int) :
    Option (Int × Sim F P N) := do
  let virtualAddress := (s.virtualAddressInfoArray currentIndex).virtualAddress
  let offset := virtualAddress.tmod pageSizeByte
  let pageNum := virtualAddress.tdiv pageSizeByte
  let page ← index P pageNum
  match hitFrame s currentIndex with
  | some i => some (1, s.touch i ((i : ℕ) * pageSizeByte + offset))
  | none =>
    match freeFrame s with
    | some i =>
        some (0, s.install currentIndex page i ((i : ℕ) * pageSizeByte + offset))
    | none =>
        let maxDistanceFrameNum := (scanMax (lruDistance s currentIndex)).2
        let frame ← index F maxDistanceFrameNum
        let s := s.install currentIndex page frame
          (maxDistanceFrameNum * pageSizeByte + offset)
        some (0, { s with
          pageTable := clearOthers s.pageTable (s.frames frame).frameNum pageNum })

/-! ## FIFO -/

/-- One turn of the loop that unmaps the victim's page. Unlike the other
routines it writes through the entry's `pageNum`, not through `j`. -/
def unmapTurn (victimFrameNum pageNum : Int) (pageTable : Fin P → PageTable)
    (j : Fin P) : Option (Fin P → PageTable) :=
  if victimFrameNum = (pageTable j).frameNum ∧ (pageTable j).pageNum ≠ pageNum then do
    let victimPage ← index P (pageTable j).pageNum
    some (Function.update pageTable victimPage
      { pageTable victimPage with frameNum := -1, pageNum := -1 })
  else some pageTable

def replacePageFIFO (s : Sim F P N) (currentIndex : Fin N) (pageSizeByte : Int) :
    Option (Int × Sim F P N) := do
  let virtualAddress := (s.virtualAddressInfoArray currentIndex).virtualAddress
  let offset := virtualAddress.tmod pageSizeByte
  let pageNum := virtualAddress.tdiv pageSizeByte
  let page ← index P pageNum
  match hitFrame s currentIndex with
  | some i => some (1, s.touch i ((i : ℕ) * pageSizeByte + offset))
  | none =>
    match freeFrame s with
    | some i =>
        let s := s.install currentIndex page i ((i : ℕ) * pageSizeByte + offset)
        let s ← s.enqueue (i : ℕ)
        some (0, s)
    | none =>
        let (victimFrameNum, s) ← s.dequeue
        let pageTable ← (List.finRange P).foldlM (unmapTurn victimFrameNum pageNum)
          s.pageTable
        let frame ← index F victimFrameNum
        let s := { s with pageTable := pageTable }
        let s := s.install currentIndex page frame (victimFrameNum * pageSizeByte + offset)
        let s ← s.enqueue victimFrameNum
        some (0, s)

/-! ## The simulation loop of `main` -/

inductive Algorithm where
  | optimal
  | fifo
  | lru
  | sc
deriving DecidableEq

def replacePage : Algorithm → Sim F P N → Fin N → Int → Option (Int × Sim F P N)
  | .optimal => replacePageOptimal
  | .fifo => replacePageFIFO
  | .lru => replacePageLRU
  | .sc => replacePageSC

/-- The frame that a routine gives up when all are occupied, as its own code
picks it. -/
def victimFrameNum : Algorithm → Sim F P N → Fin N → Option Int
  | .optimal, s, currentIndex => optimalVictim s currentIndex
  | .fifo, s, _ => s.dequeue.map Prod.fst
  | .lru, s, currentIndex => some (scanMax (lruDistance s currentIndex)).2
  | .sc, s, _ => do
      let (first, s) ← s.dequeue
      let (victim, _) ← victimSearch (P + 1) s first
      some victim

/-- The frame that a routine hits, fills or replaces. -/
def usedFrame (alg : Algorithm) (s : Sim F P N) (currentIndex : Fin N) : Option Int :=
  match hitFrame s currentIndex with
  | some i => some (i : ℕ)
  | none =>
    match freeFrame s with
    | some i => some (i : ℕ)
    | none => victimFrameNum alg s currentIndex

/-- One line of the output file. -/
structure Row where
  no : ℕ
  virtualAddress : Int
  pageNum : Int
  frameNum : Int
  physicalAddress : Int
  pageFaultChar : Char
deriving DecidableEq

/-- What `main` carries through its loop. `total` is the number printed in the
closing line, which the loop writes at index 4999. -/
structure MainState (F P N : ℕ) where
  sim : Sim F P N
  pageFaults : ℕ
  pageHits : ℕ
  rows : List Row
  total : Option ℕ

/-- One turn of the loop. -/
def mainTurn (alg : Algorithm) (pageSizeBytes : Int) (m : MainState F P N) (i : Fin N) :
    Option (MainState F P N) := do
  let (result, sim) ← replacePage alg m.sim i pageSizeBytes
  let hit := result != 0
  let pageFaults := if hit then m.pageFaults else m.pageFaults + 1
  let pageHits := if hit then m.pageHits + 1 else m.pageHits
  let va := sim.virtualAddressInfoArray i
  let frameNum ← getFrameNumFromVA va.virtualAddress sim.pageTable pageSizeBytes
  let physicalAddress ←
    getPhysicalAddressFromVA va.virtualAddress sim.pageTable sim.frames pageSizeBytes
  let row : Row :=
    { no := i + 1
      virtualAddress := va.virtualAddress
      pageNum := va.pageNum
      frameNum := frameNum
      physicalAddress := physicalAddress
      pageFaultChar := if hit then 'H' else 'F' }
  some
    { sim := sim
      pageFaults := pageFaults
      pageHits := pageHits
      rows := m.rows ++ [row]
      total := if (i : ℕ) = 4999 then some pageFaults else m.total }

/-- The array after reading the addresses and computing the page numbers. -/
def pageNumbered (pageSizeBytes : Int) (addrs : Fin N → Int) : Fin N → VirtualAddressInfo :=
  fun i => { virtualAddress := addrs i, pageNum := (addrs i).tdiv pageSizeBytes }

/-- The state in front of the loop, for the addresses `addrs`. -/
def initialState (F P : ℕ) (pageSizeBytes : Int) (addrs : Fin N → Int) :
    MainState F P N where
  sim :=
    { frames := createPhysicalMemoryInfoArray F
      virtualAddressInfoArray := pageNumbered pageSizeBytes addrs
      pageTable := createPageTable P
      pageQueue := initializePageQueue F
      stdout := [] }
  pageFaults := 0
  pageHits := 0
  rows := []
  total := none

/-- The first `k` turns of the loop. -/
def runFor (alg : Algorithm) (F P : ℕ) (pageSizeBytes : Int) (addrs : Fin N → Int)
    (k : ℕ) : Option (MainState F P N) :=
  ((List.finRange N).take k).foldlM (mainTurn alg pageSizeBytes)
    (initialState F P pageSizeBytes addrs)

/-- The whole loop. -/
def simulate (alg : Algorithm) (F P : ℕ) (pageSizeBytes : Int) (addrs : Fin N → Int) :
    Option (MainState F P N) :=
  runFor alg F P pageSizeBytes addrs N

end OS2023.Paging
