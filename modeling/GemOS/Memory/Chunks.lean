import GemOS.Foundation.Runs
import GemOS.Memory.Supply
import GemOS.Memory.Nodes

/-!
# The object caches

`os_alloc` serves sizes up to 2048 from seven classes. A class recycles the chunks of its free list and otherwise
cuts the next one off its current frame, at the byte `free_position >> i` for the class of size `2^i`: the position
is shifted to the right, so that all chunks cut off one frame start at its first bytes. Live chunks are disjoint
exactly when each call is served from a frame that holds no live chunk, up to the one-byte chunks which the last
position of a frame of the class of 64 bytes leaves room for.

`chunk_size` and the bitmap of a class are written and never read; they are left out.
-/

namespace GemOS

open Foundation Memory

/-- `struct osalloc_chunk`. -/
structure OsallocChunk where
  freePosition : ℕ
  currentPfn : ℕ
  freelist : NodeList

/-- What `os_alloc` and `os_free` work on; class `i` is counted from 5. -/
structure ObjectCaches where
  mem : Memory
  chunks : ℕ → OsallocChunk
  nodes : NodeMemory

def osallocMax : ℕ := 7

namespace ObjectCaches

/-- The loop of `init_osalloc_chunks` over the classes. -/
def initChunks : ℕ → Memory × (ℕ → OsallocChunk) → Memory × (ℕ → OsallocChunk)
  | 0, s => s
  | i + 1, s =>
    let before := initChunks i s
    let pfn := osPfnAlloc .osDs before.1
    (pfn.2, Function.update before.2 i ⟨0, pfn.1, initList⟩)

/-- The frames of the node pool. -/
def initNodes : ℕ → Memory → Memory
  | 0, m => m
  | count + 1, m => (osPfnAlloc .osDs (initNodes count m)).2

/-- `init_mems`. -/
def initMems (phys : PhysMem) (apicBase : ApicBase) : ObjectCaches :=
  let base := osPfnAlloc .osDs (Memory.init phys apicBase)
  let classes := initChunks osallocMax (base.2, fun _ ↦ ⟨0, 0, initList⟩)
  { mem := initNodes nodeMemPages classes.1, chunks := classes.2, nodes := NodeMemory.init }

/-- The loop both calls look for the class with: the highest set bit of the size from `i` down, at least 5. -/
def highBit (size : ℕ) : (i : ℕ) → ℕ
  | 0 => 5
  | i + 1 => if i + 1 ≤ 5 then 5 else if size.testBit (i + 1) then i + 1 else highBit size i

/-- The class `os_alloc` serves a size from. -/
def allocClass (size : ℕ) : ℕ :=
  let i := highBit size 11
  if 1 <<< i ≠ size then i + 1 else i

/-- The class `os_free` returns a size to. -/
def freeClass (size : ℕ) : ℕ := highBit size 11

/-- `os_alloc`: the address, `0` for a size it refuses, and the caches. -/
def osAlloc (size : ℕ) (s : ObjectCaches) : ℕ × ObjectCaches :=
  if size = 0 ∨ size > 2048 then (0, s)
  else
    let i := allocClass size
    let ck := s.chunks (i - 5)
    if ck.freelist.size ≠ 0 then
      let (front, freelist, nodes) := s.nodes.dequeueFront ck.freelist
      let n := front.getD 0
      ((nodes.nodes n).value,
        { s with chunks := Function.update s.chunks (i - 5) ⟨ck.freePosition, ck.currentPfn, freelist⟩
                 nodes := nodes.nodeFree n })
    else if ck.freePosition > pageSize >>> i then
      let pfn := osPfnAlloc .osDs s.mem
      ((pfn.1 <<< pageShift) + 0 >>> i,
        { s with mem := pfn.2
                 chunks := Function.update s.chunks (i - 5) ⟨1, pfn.1, ck.freelist⟩ })
    else
      ((ck.currentPfn <<< pageShift) + ck.freePosition >>> i,
        { s with chunks := Function.update s.chunks (i - 5) ⟨ck.freePosition + 1, ck.currentPfn, ck.freelist⟩ })

/-- `os_free`. -/
def osFree (ptr size : ℕ) (s : ObjectCaches) : ObjectCaches :=
  if size = 0 ∨ size > 2048 then s
  else
    let i := freeClass size
    let ck := s.chunks (i - 5)
    let (freelist, nodes) := s.nodes.enqueueTail ptr ck.freelist
    { s with chunks := Function.update s.chunks (i - 5) ⟨ck.freePosition, ck.currentPfn, freelist⟩, nodes := nodes }

/-- The addresses in the free list of a class, in the order they will be handed out. -/
def recycled (s : ObjectCaches) (i : ℕ) : List ℕ := s.nodes.values (s.chunks (i - 5)).freelist

/-- The sizes of the classes. -/
def IsClass (i : ℕ) : Prop := 5 ≤ i ∧ i ≤ 11

/-- A size is served from a class of chunks at least as long, and returned to one of chunks at most as long, unless
that is the first. -/
theorem class_spec {size : ℕ} (hpos : 1 ≤ size) (hle : size ≤ 2048) :
    IsClass (allocClass size) ∧ size ≤ 2 ^ allocClass size ∧ (allocClass size = 5 ↔ size = 32) ∧
      IsClass (freeClass size) ∧ (freeClass size = 5 ∨ 2 ^ freeClass size ≤ size) := by
  have hall : ∀ size < 2049, size = 0 ∨ (5 ≤ allocClass size ∧ allocClass size ≤ 11) ∧
      size ≤ 2 ^ allocClass size ∧ (allocClass size = 5 ↔ size = 32) ∧
      (5 ≤ freeClass size ∧ freeClass size ≤ 11) ∧ (freeClass size = 5 ∨ 2 ^ freeClass size ≤ size) := by
    decide +kernel
  exact (hall size (by omega)).resolve_left (by omega)

variable {s : ObjectCaches}

/-- The free lists are in good order. -/
def Lists (s : ObjectCaches) : Prop := NodeMemory.AllLinked s.nodes fun k ↦ (s.chunks k).freelist

theorem freelists_update (chunks : ℕ → OsallocChunk) (k : ℕ) (ck : OsallocChunk) :
    (fun k' ↦ (Function.update chunks k ck k').freelist) =
      Function.update (fun k' ↦ (chunks k').freelist) k ck.freelist := by
  funext k'
  exact Function.apply_update (fun _ ck ↦ OsallocChunk.freelist ck) chunks k ck k'

theorem index_ne {i j : ℕ} (hi : IsClass i) (hj : IsClass j) (hne : j ≠ i) : j - 5 ≠ i - 5 := by
  have := hi.1
  have := hj.1
  omega

/-- A class whose free list is not empty hands out the first address of the list. -/
theorem osAlloc_recycled (hlists : s.Lists) {size p : ℕ} {rest : List ℕ} (hpos : 1 ≤ size) (hle : size ≤ 2048)
    (hfront : s.recycled (allocClass size) = p :: rest) :
    (osAlloc size s).1 = p ∧ (osAlloc size s).2.mem = s.mem ∧ (osAlloc size s).2.Lists ∧
      (∀ k, ((osAlloc size s).2.chunks k).freePosition = (s.chunks k).freePosition ∧
        ((osAlloc size s).2.chunks k).currentPfn = (s.chunks k).currentPfn) ∧
      (osAlloc size s).2.recycled (allocClass size) = rest ∧
      ∀ j, IsClass j → j ≠ allocClass size → (osAlloc size s).2.recycled j = s.recycled j := by
  have hclass := (class_spec hpos hle).1
  have hlinked := hlists.linked (allocClass size - 5)
  have hsize : (s.chunks (allocClass size - 5)).freelist.size ≠ 0 := by
    intro hzero
    have hfull := hlinked.full
    have hlength := congrArg List.length hfront
    rw [hzero] at hfull
    rw [recycled, NodeMemory.values, List.length_map, hfull] at hlength
    exact absurd hlength.symm (Nat.succ_ne_zero _)
  obtain ⟨n, hn, hvalues, hmoves⟩ := NodeMemory.dequeueFront_spec hlinked hsize
  obtain ⟨hlists', hothers⟩ := hlists.move hmoves
  have hfront' := hfront
  rw [recycled, hvalues] at hfront'
  obtain ⟨hvalue, hrest⟩ := List.cons.inj hfront'
  unfold osAlloc
  rw [if_neg (by omega)]
  simp only [if_pos hsize, hn, Option.getD_some]
  refine ⟨hvalue, trivial, ?_, fun k ↦ ?_, ?_, fun j hj hne ↦ ?_⟩
  · unfold ObjectCaches.Lists
    rw [freelists_update]
    exact hlists'
  · by_cases hk : k = allocClass size - 5
    · rw [hk, Function.update_self]
      exact ⟨rfl, rfl⟩
    · rw [Function.update_of_ne hk]
      exact ⟨rfl, rfl⟩
  · simp only [recycled, Function.update_self]
    exact hrest
  · simp only [recycled, Function.update_of_ne (index_ne hclass hj hne)]
    exact hothers _ (index_ne hclass hj hne)

/-- A class with an empty free list cuts a chunk off its current frame, or off a new one when it is past the end. -/
theorem osAlloc_cut {size : ℕ} (hlists : s.Lists) (hpos : 1 ≤ size) (hle : size ≤ 2048)
    (hfront : s.recycled (allocClass size) = []) :
    osAlloc size s =
      if (s.chunks (allocClass size - 5)).freePosition > pageSize >>> allocClass size then
        ((osPfnAlloc .osDs s.mem).1 <<< pageShift + 0 >>> allocClass size,
          ⟨(osPfnAlloc .osDs s.mem).2, Function.update s.chunks (allocClass size - 5)
            ⟨1, (osPfnAlloc .osDs s.mem).1, (s.chunks (allocClass size - 5)).freelist⟩, s.nodes⟩)
      else
        ((s.chunks (allocClass size - 5)).currentPfn <<< pageShift +
            (s.chunks (allocClass size - 5)).freePosition >>> allocClass size,
          ⟨s.mem, Function.update s.chunks (allocClass size - 5)
            ⟨(s.chunks (allocClass size - 5)).freePosition + 1, (s.chunks (allocClass size - 5)).currentPfn,
              (s.chunks (allocClass size - 5)).freelist⟩, s.nodes⟩) := by
  have hsize : (s.chunks (allocClass size - 5)).freelist.size = 0 := by
    have hfull := (hlists.linked (allocClass size - 5)).full
    have hlength := congrArg List.length hfront
    rw [recycled, NodeMemory.values, List.length_map, hfull] at hlength
    exact hlength
  unfold osAlloc
  rw [if_neg (by omega)]
  simp only [if_neg (not_not.2 hsize)]

/-- A new record of one class with the same free list leaves the free lists alone. -/
theorem lists_update (hlists : s.Lists) (m : Memory) (k position pfn : ℕ) :
    ObjectCaches.Lists ⟨m, Function.update s.chunks k ⟨position, pfn, (s.chunks k).freelist⟩, s.nodes⟩ ∧
      ∀ j, recycled ⟨m, Function.update s.chunks k ⟨position, pfn, (s.chunks k).freelist⟩, s.nodes⟩ j =
        s.recycled j := by
  have hsame : (fun k' ↦ (Function.update s.chunks k ⟨position, pfn, (s.chunks k).freelist⟩ k').freelist) =
      fun k' ↦ (s.chunks k').freelist := by
    rw [freelists_update]
    exact Function.update_eq_self k _
  constructor
  · unfold ObjectCaches.Lists
    rw [hsame]
    exact hlists
  · intro j
    have hfree := congrFun hsame (j - 5)
    exact congrArg s.nodes.values hfree

/-- While the node pool lasts, `os_free` puts the address at the end of the class's free list. -/
theorem osFree_spec (hlists : s.Lists) {ptr size : ℕ} (hpos : 1 ≤ size) (hle : size ≤ 2048)
    (hran : (osFree ptr size s).nodes.ranOut = false) :
    (osFree ptr size s).mem = s.mem ∧ (osFree ptr size s).Lists ∧
      (∀ k, ((osFree ptr size s).chunks k).freePosition = (s.chunks k).freePosition ∧
        ((osFree ptr size s).chunks k).currentPfn = (s.chunks k).currentPfn) ∧
      (osFree ptr size s).recycled (freeClass size) = s.recycled (freeClass size) ++ [ptr] ∧
      ∀ j, IsClass j → j ≠ freeClass size → (osFree ptr size s).recycled j = s.recycled j := by
  have hclass := (class_spec hpos hle).2.2.2.1
  have hlinked := hlists.linked (freeClass size - 5)
  unfold osFree at hran ⊢
  rw [if_neg (by omega)] at hran ⊢
  simp only at hran ⊢
  obtain ⟨hmoves, hvalues, -⟩ := NodeMemory.enqueueTail_spec hlinked hran
  obtain ⟨hlists', hothers⟩ := hlists.move hmoves
  refine ⟨trivial, ?_, fun k ↦ ?_, ?_, fun j hj hne ↦ ?_⟩
  · unfold ObjectCaches.Lists
    rw [freelists_update]
    exact hlists'
  · by_cases hk : k = freeClass size - 5
    · rw [hk, Function.update_self]
      exact ⟨rfl, rfl⟩
    · rw [Function.update_of_ne hk]
      exact ⟨rfl, rfl⟩
  · simp only [recycled, Function.update_self]
    exact hvalues
  · simp only [recycled, Function.update_of_ne (index_ne hclass hj hne)]
    exact hothers _ (index_ne hclass hj hne)

end ObjectCaches

/-- A client of the caches: the chunks it was given and did not free, with the sizes it asked for. -/
structure CacheClient where
  caches : ObjectCaches
  live : List (ℕ × ℕ)

inductive CacheCall where
  | alloc (size : ℕ)
  | free (ptr size : ℕ)

namespace CacheClient

open ObjectCaches

def step (c : CacheCall) (s : CacheClient) : CacheClient :=
  match c with
  | .alloc size =>
    { caches := (osAlloc size s.caches).2
      live := ((osAlloc size s.caches).1, size) :: s.live }
  | .free ptr size =>
    { caches := osFree ptr size s.caches
      live := s.live.erase (ptr, size) }

/-- The state after `init_mems`. -/
def boot (phys : PhysMem) (apicBase : ApicBase) : CacheClient where
  caches := initMems phys apicBase
  live := []

/-- A size between 1 and 2048, or a live chunk with its size. -/
def Asked (s : CacheClient) : CacheCall → Prop
  | .alloc size => 1 ≤ size ∧ size ≤ 2048
  | .free ptr size => (ptr, size) ∈ s.live

/-- What the caller of the allocator sees to, and frames and nodes that do not run out. -/
structure Supplied (s : CacheClient) (c : CacheCall) : Prop where
  asked : s.Asked c
  frames : (step c s).caches.mem.AllocsGranted
  nodes : (step c s).caches.nodes.ranOut = false

/-- The bytes of two chunks do not overlap. -/
def Clear (a b : ℕ × ℕ) : Prop := a.1 + a.2 ≤ b.1 ∨ b.1 + b.2 ≤ a.1

/-- A frame taken from the OS_DS region. -/
def Taken (m : Memory) (pfn : ℕ) : Prop := Region.osDs.Usable pfn ∧ m.allocated .osDs pfn = true

/-- The live chunks do not overlap, and each lies in a frame taken from the region. -/
structure Apart (s : CacheClient) : Prop where
  clear : s.live.Pairwise Clear
  framed : ∀ c ∈ s.live, ∃ pfn, Taken s.caches.mem pfn ∧ pfn * 4096 ≤ c.1 ∧ c.1 + c.2 ≤ (pfn + 1) * 4096

/-- A recycled chunk comes from a frame with no live chunk, or one with a live byte before it, or is a byte before
the live one; a chunk cut off the current frame finds no live chunk there, or is the last of a frame of the class
of 64 bytes and finds single bytes; a new frame has none. -/
def Roomy (s : CacheClient) : CacheCall → Prop
  | .alloc size =>
    match s.caches.recycled (allocClass size) with
    | p :: _ => ∀ c ∈ s.live, c.1 / 4096 = p / 4096 → c.2 = 1 ∧ c.1 < p ∨ size = 1 ∧ p < c.1
    | [] =>
      let ck := s.caches.chunks (allocClass size - 5)
      ck.freePosition > pageSize >>> allocClass size ∨
        ∀ c ∈ s.live, c.1 / 4096 = ck.currentPfn → c.2 = 1 ∧ allocClass size = 6 ∧ ck.freePosition = 64
  | .free _ _ => True

/-- An address cut off a frame of the class that the frame was taken for. -/
structure Placed (cls : ℕ → ℕ) (s : ObjectCaches) (p : ℕ) : Prop where
  taken : Taken s.mem (p / 4096)
  offset : ∃ pos ≤ pageSize >>> cls (p / 4096), p % 4096 = pos >>> cls (p / 4096) ∧
    ∀ i, IsClass i → (s.chunks (i - 5)).currentPfn = p / 4096 → pos < (s.chunks (i - 5)).freePosition

/-- A size that fits a chunk of the class of the frame. -/
structure Fits (cls : ℕ → ℕ) (c : ℕ × ℕ) : Prop where
  pos : 1 ≤ c.2
  le : c.2 ≤ 2048
  le_class : c.2 ≤ 2 ^ cls (c.1 / 4096)
  first : cls (c.1 / 4096) = 5 → c.2 = 32

/-- Every frame has a class; the chunks cut off it are live or in the free list of that class or a smaller one. -/
structure Ok (cls : ℕ → ℕ) (s : CacheClient) : Prop where
  regions_ok : s.caches.mem.RegionsOk
  lists : s.caches.Lists
  class_of : ∀ pfn, IsClass (cls pfn)
  current : ∀ i, IsClass i →
    Taken s.caches.mem (s.caches.chunks (i - 5)).currentPfn ∧ cls (s.caches.chunks (i - 5)).currentPfn = i
  live : ∀ c ∈ s.live, Placed cls s.caches c.1 ∧ Fits cls c
  free : ∀ i, IsClass i → ∀ p ∈ s.caches.recycled i, Placed cls s.caches p ∧ i ≤ cls (p / 4096)

variable {cls : ℕ → ℕ} {s : CacheClient}

theorem offset_le {c pos : ℕ} (hc : IsClass c) (hpos : pos ≤ pageSize >>> c) :
    pos >>> c ≤ 4 ∧ (5 < c → pos >>> c ≤ 1) ∧ (6 < c → pos >>> c = 0) := by
  obtain ⟨hlow, hhigh⟩ := hc
  simp only [Nat.shiftRight_eq_div_pow, pageSize] at *
  interval_cases c <;> omega

/-- A chunk lies in its frame. -/
theorem Placed.within {caches : ObjectCaches} {c : ℕ × ℕ} (h : Placed cls caches c.1) (hc : IsClass (cls (c.1 / 4096)))
    (hfits : Fits cls c) : c.1 % 4096 + c.2 ≤ 4096 := by
  obtain ⟨pos, hpos, hoffset, -⟩ := h.offset
  have hle := (offset_le hc hpos).1
  have hsize := hfits.le
  omega

/-- A chunk of another frame is out of the way. -/
theorem clear_of_ne {a b : ℕ × ℕ} (ha : a.1 % 4096 + a.2 ≤ 4096) (hb : b.1 % 4096 + b.2 ≤ 4096)
    (hne : b.1 / 4096 ≠ a.1 / 4096) : Clear a b := by
  unfold Clear
  omega

theorem Ok.apart_iff (h : s.Ok cls) : s.Apart ↔ s.live.Pairwise Clear := by
  refine ⟨Apart.clear, fun hclear ↦ ⟨hclear, fun c hc ↦ ?_⟩⟩
  obtain ⟨hplaced, hfits⟩ := h.live c hc
  have hwithin := hplaced.within (h.class_of _) hfits
  exact ⟨c.1 / 4096, hplaced.taken, by omega, by omega⟩

/-- Two chunks of one frame overlap, unless they are of the class of 64 bytes and the first is a single byte. -/
theorem clear_iff {caches : ObjectCaches} {a b : ℕ × ℕ} (ha : Placed cls caches a.1) (hb : Placed cls caches b.1)
    (hfitsa : Fits cls a) (hfitsb : Fits cls b) (hcls : ∀ pfn, IsClass (cls pfn)) (heq : b.1 / 4096 = a.1 / 4096) :
    Clear a b ↔ b.2 = 1 ∧ b.1 < a.1 ∨ a.2 = 1 ∧ a.1 < b.1 := by
  obtain ⟨pos, hpos, hoffset, -⟩ := ha.offset
  obtain ⟨pos', hpos', hoffset', -⟩ := hb.offset
  rw [heq] at hpos' hoffset'
  have hle := offset_le (hcls _) hpos
  have hle' := offset_le (hcls _) hpos'
  have hlow := (hcls (a.1 / 4096)).1
  have hposa := hfitsa.pos
  have hposb := hfitsb.pos
  unfold Clear
  by_cases hfirst : cls (a.1 / 4096) = 5
  · have hsize := hfitsa.first hfirst
    have hsize' := hfitsb.first (by rw [heq]; exact hfirst)
    omega
  · have hsecond := hle.2.1 (by omega)
    have hsecond' := hle'.2.1 (by omega)
    omega

/-- What is said of addresses survives a call that takes no frame and moves no position back. -/
theorem Placed.mono {caches caches' : ObjectCaches} {p : ℕ} (h : Placed cls caches p) (hmem : caches'.mem = caches.mem)
    (hpfn : ∀ k, (caches'.chunks k).currentPfn = (caches.chunks k).currentPfn)
    (hposition : ∀ k, (caches.chunks k).freePosition ≤ (caches'.chunks k).freePosition) : Placed cls caches' p := by
  obtain ⟨pos, hle, hoffset, hbelow⟩ := h.offset
  refine ⟨hmem ▸ h.taken, pos, hle, hoffset, fun i hi hcurrent ↦ ?_⟩
  exact (hbelow i hi ((hpfn _).symm.trans hcurrent)).trans_le (hposition _)

theorem Ok.step_free (h : s.Ok cls) {ptr size : ℕ} (hsupplied : s.Supplied (.free ptr size)) :
    (step (.free ptr size) s).Ok cls := by
  obtain ⟨hplaced, hfits⟩ := h.live _ hsupplied.asked
  have hclass := (class_spec hfits.pos hfits.le).2.2.2
  obtain ⟨hmem, hlists, hchunks, hfreed, hothers⟩ := osFree_spec h.lists hfits.pos hfits.le hsupplied.nodes
  have hmono : ∀ {p}, Placed cls s.caches p → Placed cls (osFree ptr size s.caches) p := fun hp ↦
    hp.mono hmem (fun k ↦ (hchunks k).2) fun k ↦ (hchunks k).1.ge
  refine ⟨?_, hlists, h.class_of, fun i hi ↦ ?_, fun c hc ↦ ?_, fun i hi p hp ↦ ?_⟩
  · exact hmem ▸ h.regions_ok
  · change Taken (osFree ptr size s.caches).mem ((osFree ptr size s.caches).chunks _).currentPfn ∧
      cls ((osFree ptr size s.caches).chunks _).currentPfn = i
    rw [(hchunks _).2, hmem]
    exact h.current i hi
  · have hold := h.live c (List.mem_of_mem_erase hc)
    exact ⟨hmono hold.1, hold.2⟩
  · change p ∈ (osFree ptr size s.caches).recycled i at hp
    by_cases hclassEq : i = freeClass size
    · rw [hclassEq, hfreed, List.mem_append, List.mem_singleton] at hp
      rcases hp with hold | rfl
      · have hp := h.free _ hclass.1 p hold
        exact ⟨hmono hp.1, hclassEq ▸ hp.2⟩
      · refine ⟨hmono hplaced, ?_⟩
        rcases hclass.2 with hfive | hle
        · rw [hclassEq, hfive]
          exact (h.class_of _).1
        · rw [hclassEq]
          exact (Nat.pow_le_pow_iff_right (by norm_num)).1 (hle.trans hfits.le_class)
    · rw [hothers i hi hclassEq] at hp
      have hp := h.free i hi p hp
      exact ⟨hmono hp.1, hp.2⟩

/-- A chunk from the free list. -/
theorem Ok.step_recycled (h : s.Ok cls) {size p : ℕ} {rest : List ℕ} (hsize : 1 ≤ size ∧ size ≤ 2048)
    (hfront : s.caches.recycled (allocClass size) = p :: rest) :
    (osAlloc size s.caches).1 = p ∧ Placed cls s.caches p ∧ Fits cls (p, size) ∧ (step (.alloc size) s).Ok cls := by
  obtain ⟨haddress, hmem, hlists, hchunks, hrest, hothers⟩ := osAlloc_recycled h.lists hsize.1 hsize.2 hfront
  obtain ⟨hclass, hle, hfive, -⟩ := class_spec hsize.1 hsize.2
  have hmono : ∀ {q}, Placed cls s.caches q → Placed cls (osAlloc size s.caches).2 q := fun hq ↦
    hq.mono hmem (fun k ↦ (hchunks k).2) fun k ↦ (hchunks k).1.ge
  obtain ⟨hplaced, hbelow⟩ := h.free _ hclass p (hfront ▸ List.mem_cons_self)
  have hfits : Fits cls (p, size) := by
    refine ⟨hsize.1, hsize.2, hle.trans (Nat.pow_le_pow_right (by norm_num) hbelow), fun hfirst ↦ hfive.1 ?_⟩
    have hlow := hclass.1
    change cls (p / 4096) = 5 at hfirst
    omega
  refine ⟨haddress, hplaced, hfits, ?_, hlists, h.class_of, fun i hi ↦ ?_, fun c hc ↦ ?_, fun i hi q hq ↦ ?_⟩
  · exact hmem ▸ h.regions_ok
  · change Taken (osAlloc size s.caches).2.mem ((osAlloc size s.caches).2.chunks _).currentPfn ∧
      cls ((osAlloc size s.caches).2.chunks _).currentPfn = i
    rw [(hchunks _).2, hmem]
    exact h.current i hi
  · rcases List.mem_cons.1 hc with rfl | hold
    · rw [haddress]
      exact ⟨hmono hplaced, hfits⟩
    · exact ⟨hmono (h.live c hold).1, (h.live c hold).2⟩
  · change q ∈ (osAlloc size s.caches).2.recycled i at hq
    by_cases heq : i = allocClass size
    · rw [heq, hrest] at hq
      have hq := h.free _ hclass q (hfront ▸ List.mem_cons_of_mem _ hq)
      exact ⟨hmono hq.1, heq ▸ hq.2⟩
    · rw [hothers i hi heq] at hq
      have hq := h.free i hi q hq
      exact ⟨hmono hq.1, hq.2⟩

theorem cut_address (pfn : ℕ) {i pos : ℕ} (hi : IsClass i) (hpos : pos ≤ pageSize >>> i) :
    (pfn <<< pageShift + pos >>> i) / 4096 = pfn ∧ (pfn <<< pageShift + pos >>> i) % 4096 = pos >>> i := by
  have hle := (offset_le hi hpos).1
  have hshift : pfn <<< pageShift = pfn * 4096 := Nat.shiftLeft_eq pfn 12
  rw [hshift]
  generalize pos >>> i = offset at *
  omega

/-- A chunk cut off the current frame of the class. -/
theorem Ok.step_current (h : s.Ok cls) {size : ℕ} (hsize : 1 ≤ size ∧ size ≤ 2048)
    (hfront : s.caches.recycled (allocClass size) = [])
    (hpos : (s.caches.chunks (allocClass size - 5)).freePosition ≤ pageSize >>> allocClass size) :
    (osAlloc size s.caches).1 = (s.caches.chunks (allocClass size - 5)).currentPfn <<< pageShift +
        (s.caches.chunks (allocClass size - 5)).freePosition >>> allocClass size ∧
      (step (.alloc size) s).Ok cls := by
  obtain ⟨hclass, hle, hfive, -⟩ := class_spec hsize.1 hsize.2
  have hcut := osAlloc_cut h.lists hsize.1 hsize.2 hfront
  rw [if_neg (by omega)] at hcut
  set i := allocClass size
  set ck := s.caches.chunks (i - 5) with hck
  obtain ⟨hlists, hrecycled⟩ := lists_update h.lists s.caches.mem (i - 5) (ck.freePosition + 1) ck.currentPfn
  obtain ⟨hdiv, hmod⟩ := cut_address ck.currentPfn hclass hpos
  obtain ⟨htaken, hcls⟩ := h.current i hclass
  have hpfn : ∀ k, (Function.update s.caches.chunks (i - 5) ⟨ck.freePosition + 1, ck.currentPfn,
    ck.freelist⟩ k).currentPfn =
      (s.caches.chunks k).currentPfn := by
    intro k
    by_cases hk : k = i - 5
    · rw [hk, Function.update_self]
    · rw [Function.update_of_ne hk]
  have hposition : ∀ k, (s.caches.chunks k).freePosition ≤
      (Function.update s.caches.chunks (i - 5) ⟨ck.freePosition + 1, ck.currentPfn, ck.freelist⟩ k).freePosition := by
    intro k
    by_cases hk : k = i - 5
    · rw [hk, Function.update_self]
      exact Nat.le_succ _
    · rw [Function.update_of_ne hk]
  have hmono : ∀ {q}, Placed cls s.caches q → Placed cls ⟨s.caches.mem, Function.update s.caches.chunks (i - 5)
      ⟨ck.freePosition + 1, ck.currentPfn, ck.freelist⟩, s.caches.nodes⟩ q := fun hq ↦ hq.mono rfl hpfn hposition
  have hstep : step (.alloc size) s = ⟨(osAlloc size s.caches).2, ((osAlloc size s.caches).1, size) :: s.live⟩ := rfl
  rw [hstep, hcut]
  refine ⟨rfl, h.regions_ok, hlists, h.class_of, fun j hj ↦ ?_, fun c hc ↦ ?_, fun j hj q hq ↦ ?_⟩
  · simp only
    rw [hpfn]
    exact h.current j hj
  · rcases List.mem_cons.1 hc with rfl | hold
    · refine ⟨⟨?_, ck.freePosition, ?_, ?_, fun j hj hcurrent ↦ ?_⟩, hsize.1, hsize.2, ?_, fun hfirst ↦ ?_⟩
      · rw [hdiv]
        exact htaken
      · rw [hdiv, hcls]
        exact hpos
      · rw [hdiv, hcls]
        exact hmod
      · simp only at hcurrent ⊢
        rw [hdiv, hpfn] at hcurrent
        have hji : j = i := (h.current j hj).2.symm.trans ((congrArg cls hcurrent).trans hcls)
        rw [hji, Function.update_self]
        exact Nat.lt_succ_self _
      · simp only
        rw [hdiv, hcls]
        exact hle
      · simp only at hfirst
        rw [hdiv, hcls] at hfirst
        exact hfive.1 hfirst
    · exact ⟨hmono (h.live c hold).1, (h.live c hold).2⟩
  · have hq' := h.free j hj q (hrecycled j ▸ hq)
    exact ⟨hmono hq'.1, hq'.2⟩

/-- A chunk cut off a new frame, which takes the class. -/
theorem Ok.step_new (h : s.Ok cls) {size : ℕ} (hsize : 1 ≤ size ∧ size ≤ 2048)
    (hfront : s.caches.recycled (allocClass size) = [])
    (hpos : pageSize >>> allocClass size < (s.caches.chunks (allocClass size - 5)).freePosition)
    (hgranted : (step (.alloc size) s).caches.mem.AllocsGranted) :
    (∀ c ∈ s.live, c.1 / 4096 ≠ (osAlloc size s.caches).1 / 4096) ∧
      ∃ cls', (step (.alloc size) s).Ok cls' := by
  obtain ⟨hclass, hle, hfive, -⟩ := class_spec hsize.1 hsize.2
  have hcut := osAlloc_cut h.lists hsize.1 hsize.2 hfront
  rw [if_pos hpos] at hcut
  have hstep : step (.alloc size) s = ⟨(osAlloc size s.caches).2, ((osAlloc size s.caches).1, size) :: s.live⟩ := rfl
  rw [hstep, hcut] at hgranted ⊢
  set i := allocClass size
  set ck := s.caches.chunks (i - 5) with hck
  have hgrant := osPfnAlloc_grant h.regions_ok hgranted
  set pfn := (osPfnAlloc .osDs s.caches.mem).1
  set m := (osPfnAlloc .osDs s.caches.mem).2
  obtain ⟨hlists, hrecycled⟩ := lists_update h.lists m (i - 5) 1 pfn
  obtain ⟨hdiv, hmod⟩ := cut_address pfn hclass (Nat.zero_le (pageSize >>> i))
  have hkept : ∀ {f}, Taken s.caches.mem f → f ≠ pfn ∧ Taken m f := by
    intro f hf
    refine ⟨fun heq ↦ ?_, hf.1, (hgrant.allocated_iff .osDs f).2 (Or.inl hf.2)⟩
    have hold := hf.2
    rw [heq, hgrant.not_allocated] at hold
    exact Bool.noConfusion hold
  have hpfn : ∀ k ≠ i - 5, Function.update s.caches.chunks (i - 5) ⟨1, pfn, ck.freelist⟩ k = s.caches.chunks k :=
    fun k hk ↦ Function.update_of_ne hk _ _
  have hcls : ∀ {f}, f ≠ pfn → Function.update cls pfn i f = cls f := fun hf ↦ Function.update_of_ne hf _ _
  have hmono : ∀ {q}, Placed cls s.caches q → Placed (Function.update cls pfn i)
      ⟨m, Function.update s.caches.chunks (i - 5) ⟨1, pfn, ck.freelist⟩, s.caches.nodes⟩ q := by
    intro q hq
    obtain ⟨pos, hle, hoffset, hbelow⟩ := hq.offset
    obtain ⟨hne, htaken⟩ := hkept hq.taken
    refine ⟨htaken, pos, (hcls hne).symm ▸ hle, (hcls hne).symm ▸ hoffset, fun j hj hcurrent ↦ ?_⟩
    by_cases hji : j - 5 = i - 5
    · simp only [hji, Function.update_self] at hcurrent
      exact absurd hcurrent.symm hne
    · simp only [hpfn _ hji] at hcurrent ⊢
      exact hbelow j hj hcurrent
  refine ⟨fun c hc ↦ ?_, Function.update cls pfn i, hgrant.regions_ok, hlists, fun f ↦ ?_, fun j hj ↦ ?_,
    fun c hc ↦ ?_, fun j hj q hq ↦ ?_⟩
  · rw [hdiv]
    exact (hkept (h.live c hc).1.taken).1
  · by_cases hf : f = pfn
    · rw [hf, Function.update_self]
      exact hclass
    · rw [hcls hf]
      exact h.class_of f
  · simp only
    by_cases hji : j = i
    · rw [hji, Function.update_self, Function.update_self]
      exact ⟨⟨hgrant.usable, (hgrant.allocated_iff .osDs pfn).2 (Or.inr ⟨rfl, rfl⟩)⟩, rfl⟩
    · rw [hpfn _ (index_ne hclass hj hji)]
      obtain ⟨hne, htaken⟩ := hkept (h.current j hj).1
      rw [hcls hne]
      exact ⟨htaken, (h.current j hj).2⟩
  · rcases List.mem_cons.1 hc with rfl | hold
    · refine ⟨⟨?_, 0, Nat.zero_le _, ?_, fun j hj hcurrent ↦ ?_⟩, hsize.1, hsize.2, ?_, fun hfirst ↦ ?_⟩
      · rw [hdiv]
        exact ⟨hgrant.usable, (hgrant.allocated_iff .osDs pfn).2 (Or.inr ⟨rfl, rfl⟩)⟩
      · rw [hdiv, Function.update_self]
        exact hmod
      · simp only at hcurrent ⊢
        rw [hdiv] at hcurrent
        by_cases hji : j = i
        · rw [hji, Function.update_self]
          exact Nat.one_pos
        · rw [hpfn _ (index_ne hclass hj hji)] at hcurrent
          exact absurd hcurrent (hkept (h.current j hj).1).1
      · simp only
        rw [hdiv, Function.update_self]
        exact hle
      · simp only at hfirst
        rw [hdiv, Function.update_self] at hfirst
        exact hfive.1 hfirst
    · obtain ⟨hplaced, hfits⟩ := h.live c hold
      have hsame := hcls (hkept hplaced.taken).1
      exact ⟨hmono hplaced, hfits.pos, hfits.le, hsame.symm ▸ hfits.le_class, fun hfirst ↦ hfits.first (hsame ▸ hfirst)⟩
  · have hq' := h.free j hj q (hrecycled j ▸ hq)
    rw [hcls (hkept hq'.1.taken).1]
    exact ⟨hmono hq'.1, hq'.2⟩

/-- Among chunks that do not overlap, a new one is clear of all when it is clear of those in its frame. -/
theorem Ok.apart_alloc_iff {size : ℕ} (hapart : s.Apart) (hnew : (step (.alloc size) s).Ok cls) :
    (step (.alloc size) s).Apart ↔ ∀ c ∈ s.live, c.1 / 4096 = (osAlloc size s.caches).1 / 4096 →
      c.2 = 1 ∧ c.1 < (osAlloc size s.caches).1 ∨ size = 1 ∧ (osAlloc size s.caches).1 < c.1 := by
  have hlive : (step (.alloc size) s).live = ((osAlloc size s.caches).1, size) :: s.live := rfl
  rw [hnew.apart_iff, hlive, List.pairwise_cons, and_iff_left hapart.clear]
  obtain ⟨hplaced, hfits⟩ := hnew.live _ (hlive ▸ List.mem_cons_self)
  refine forall₂_congr fun c hc ↦ ?_
  obtain ⟨hplacedc, hfitsc⟩ := hnew.live c (hlive ▸ List.mem_cons_of_mem _ hc)
  by_cases heq : c.1 / 4096 = (osAlloc size s.caches).1 / 4096
  · rw [clear_iff hplaced hplacedc hfits hfitsc hnew.class_of heq]
    exact ⟨fun hclear _ ↦ hclear, fun hclear ↦ hclear heq⟩
  · refine iff_of_true ?_ fun hsame ↦ absurd hsame heq
    exact clear_of_ne (hplaced.within (hnew.class_of _) hfits) (hplacedc.within (hnew.class_of _) hfitsc) heq

/-- What is live in the current frame of a class was cut off before the next position. -/
theorem Ok.current_iff (h : s.Ok cls) {size : ℕ} (hsize : 1 ≤ size ∧ size ≤ 2048) {c : ℕ × ℕ} (hc : c ∈ s.live)
    (hpos : (s.caches.chunks (allocClass size - 5)).freePosition ≤ pageSize >>> allocClass size)
    (hframe : c.1 / 4096 = (s.caches.chunks (allocClass size - 5)).currentPfn) :
    (c.2 = 1 ∧ c.1 < (s.caches.chunks (allocClass size - 5)).currentPfn <<< pageShift +
          (s.caches.chunks (allocClass size - 5)).freePosition >>> allocClass size ∨
        size = 1 ∧ (s.caches.chunks (allocClass size - 5)).currentPfn <<< pageShift +
          (s.caches.chunks (allocClass size - 5)).freePosition >>> allocClass size < c.1) ↔
      c.2 = 1 ∧ allocClass size = 6 ∧ (s.caches.chunks (allocClass size - 5)).freePosition = 64 := by
  obtain ⟨hclass, -⟩ := class_spec hsize.1 hsize.2
  obtain ⟨-, hcls⟩ := h.current _ hclass
  obtain ⟨hplaced, hfits⟩ := h.live c hc
  obtain ⟨pos', hpos', hoffset', hbelow⟩ := hplaced.offset
  rw [hframe, hcls] at hpos' hoffset'
  have hlt := hbelow _ hclass hframe.symm
  obtain ⟨hdiv, hmod⟩ := cut_address (s.caches.chunks (allocClass size - 5)).currentPfn hclass hpos
  have hfirst : allocClass size = 5 → c.2 = 32 := fun hfive ↦ hfits.first (by rw [hframe, hcls, hfive])
  generalize (s.caches.chunks (allocClass size - 5)).freePosition = pos at *
  generalize (s.caches.chunks (allocClass size - 5)).currentPfn <<< pageShift + pos >>> allocClass size = p at *
  obtain ⟨hlow, hhigh⟩ := hclass
  generalize allocClass size = i at *
  simp only [Nat.shiftRight_eq_div_pow, pageSize] at hpos hpos' hoffset' hmod
  interval_cases i <;> omega

/-- The next state is in order as well, whatever the call. -/
theorem Ok.step (h : s.Ok cls) (c : CacheCall) (hsupplied : s.Supplied c) : ∃ cls', (CacheClient.step c s).Ok cls' := by
  cases c with
  | free ptr size => exact ⟨cls, h.step_free hsupplied⟩
  | alloc size =>
    cases hfront : s.caches.recycled (allocClass size) with
    | cons p rest => exact ⟨cls, (h.step_recycled hsupplied.asked hfront).2.2.2⟩
    | nil =>
      by_cases hpos : (s.caches.chunks (allocClass size - 5)).freePosition ≤ pageSize >>> allocClass size
      · exact ⟨cls, (h.step_current hsupplied.asked hfront hpos).2⟩
      · exact (h.step_new hsupplied.asked hfront (not_le.1 hpos) hsupplied.frames).2

/-- A call that leaves the live chunks apart is one made with room for it. -/
theorem Ok.apart_step_iff (h : s.Ok cls) (hapart : s.Apart) (c : CacheCall) (hsupplied : s.Supplied c) :
    (CacheClient.step c s).Apart ↔ s.Roomy c := by
  obtain ⟨cls', hnew⟩ := h.step c hsupplied
  cases c with
  | free ptr size =>
    exact iff_of_true (hnew.apart_iff.2 (hapart.clear.sublist List.erase_sublist)) trivial
  | alloc size =>
    rw [Ok.apart_alloc_iff hapart hnew]
    cases hfront : s.caches.recycled (allocClass size) with
    | cons p rest =>
      simp only [Roomy, hfront, (h.step_recycled hsupplied.asked hfront).1]
    | nil =>
      simp only [Roomy, hfront]
      by_cases hpos : (s.caches.chunks (allocClass size - 5)).freePosition ≤ pageSize >>> allocClass size
      · obtain ⟨haddress, -⟩ := h.step_current hsupplied.asked hfront hpos
        have hclass := (class_spec hsupplied.asked.1 hsupplied.asked.2).1
        obtain ⟨hdiv, -⟩ := cut_address (s.caches.chunks (allocClass size - 5)).currentPfn hclass hpos
        rw [or_iff_right (not_lt.2 hpos), haddress, hdiv]
        refine forall₂_congr fun c hc ↦ forall_congr' fun hframe ↦ ?_
        exact h.current_iff hsupplied.asked hc hpos hframe
      · obtain ⟨hapart', -⟩ := h.step_new hsupplied.asked hfront (not_le.1 hpos) hsupplied.frames
        exact iff_of_true (fun c hc heq ↦ absurd heq (hapart' c hc)) (Or.inl (not_le.1 hpos))

/-- Memory after the first frames of the region, in order, were taken. -/
def TookFirst (n : ℕ) (m : Memory) : Prop := ∃ held, Holding.InOrder .osDs n ⟨m, held⟩

theorem TookFirst.step {n : ℕ} {m : Memory} (h : TookFirst n m) (hn : n < 767) :
    (osPfnAlloc .osDs m).1 = 0x801 + n ∧ TookFirst (n + 1) (osPfnAlloc .osDs m).2 := by
  obtain ⟨held, horder⟩ := h
  have hlt : Region.osDs.reserved + n < 32 * (Region.osDs.frames / 256) := by
    simp only [Region.reserved, Region.frames]
    omega
  have hindex := horder.scanIndex_eq hlt
  have hwords := Region.osDs.words_le
  have hclear := (horder.tracks.clear_iff (by omega)).1 (horder.clear le_rfl (by omega))
  have hpos := mt horder.tracks.freePages_eq_zero_iff.1 fun hall ↦ hclear.2 (hall _ hclear.1)
  have halloc := horder.tracks.alloc_of_pos hpos
  rw [hindex] at halloc
  refine ⟨?_, _, horder.call_alloc hlt⟩
  rw [halloc]
  simp only [Region.base, Region.reserved]
  omega

theorem TookFirst.taken {n : ℕ} {m : Memory} (h : TookFirst n m) {pfn : ℕ} (hlow : 0x801 ≤ pfn)
    (hhigh : pfn < 0x801 + n) :
    Taken m pfn := by
  obtain ⟨held, horder⟩ := h
  have hheld : pfn ∈ held := by
    rw [show held = _ from horder.held_eq, Finset.mem_Ico]
    simp only [Region.base, Region.reserved]
    omega
  have husable := horder.tracks.usable pfn hheld
  refine ⟨husable, (PageList.allocated_iff (horder.tracks.regions_ok .osDs).shape pfn).2 ⟨husable.contains, ?_⟩⟩
  have hlow := husable.1
  have hhigh := husable.2
  rw [horder.tracks.marked_iff _ (by omega)]
  exact Or.inr (by rwa [Nat.add_sub_cancel' (by omega)])

theorem initChunks_spec {m : Memory} {chunks : ℕ → OsallocChunk} (hm : TookFirst 1 m)
    (hchunks : ∀ k, (chunks k).freelist = initList) (count : ℕ) (hcount : count ≤ 7) :
    TookFirst (1 + count) (initChunks count (m, chunks)).1 ∧
      (∀ k, ((initChunks count (m, chunks)).2 k).freelist = initList) ∧
      ∀ k < count, ((initChunks count (m, chunks)).2 k).currentPfn = 0x802 + k := by
  induction count with
  | zero => exact ⟨hm, hchunks, fun k hk ↦ absurd hk (Nat.not_lt_zero k)⟩
  | succ count ih =>
    obtain ⟨htook, hfree, hpfn⟩ := ih (by omega)
    obtain ⟨haddress, hnext⟩ := htook.step (by omega)
    simp only [initChunks]
    refine ⟨hnext, fun k ↦ ?_, fun k hk ↦ ?_⟩
    · by_cases heq : k = count
      · rw [heq, Function.update_self]
      · rw [Function.update_of_ne heq]
        exact hfree k
    · by_cases heq : k = count
      · rw [heq, Function.update_self]
        simp only
        omega
      · rw [Function.update_of_ne heq]
        exact hpfn k (by omega)

theorem initNodes_spec {m : Memory} (hm : TookFirst 8 m) (count : ℕ) (hcount : count ≤ 100) :
    TookFirst (8 + count) (initNodes count m) := by
  induction count with
  | zero => exact hm
  | succ count ih => exact ((ih (by omega)).step (by omega)).2

attribute [irreducible] initChunks initNodes

theorem ok_boot (phys : PhysMem) (apicBase : ApicBase) :
    (boot phys apicBase).Ok fun pfn ↦ if pfn ∈ Finset.Icc 0x802 0x808 then pfn - 0x802 + 5 else 5 := by
  have hstart : TookFirst 0 (Memory.init phys apicBase) :=
    ⟨∅, Holding.inOrder_replicate .osDs phys apicBase 0 (by decide)⟩
  have hbase := (hstart.step (by omega)).2
  obtain ⟨htook, hfree, hpfn⟩ := initChunks_spec hbase (fun _ ↦ rfl : ∀ k,
    (OsallocChunk.mk 0 0 initList).freelist = initList)
    osallocMax le_rfl
  have hend : TookFirst (8 + nodeMemPages) (boot phys apicBase).caches.mem := by
    simp only [boot, initMems]
    exact initNodes_spec htook nodeMemPages le_rfl
  have hlists : (fun k ↦ ((boot phys apicBase).caches.chunks k).freelist) = fun _ ↦ initList := funext hfree
  have hregions : (boot phys apicBase).caches.mem.RegionsOk := by
    obtain ⟨held, horder⟩ := hend
    exact horder.tracks.regions_ok
  refine ⟨hregions, ?_, fun pfn ↦ ?_, fun i hi ↦ ?_, fun _ hc ↦ absurd hc List.not_mem_nil, fun i hi p hp ↦ ?_⟩
  · unfold ObjectCaches.Lists
    rw [hlists]
    exact NodeMemory.allLinked_init
  · split
    · rename_i hpfn
      rw [Finset.mem_Icc] at hpfn
      unfold IsClass
      omega
    · exact ⟨le_rfl, by norm_num⟩
  · have hcurrent : ((boot phys apicBase).caches.chunks (i - 5)).currentPfn = 0x802 + (i - 5) :=
      hpfn (i - 5) (by have := hi.1; have := hi.2; simp only [osallocMax]; omega)
    rw [hcurrent]
    obtain ⟨hlow, hhigh⟩ := hi
    have hlt : 0x802 + (i - 5) < 0x801 + (8 + nodeMemPages) := by
      rw [nodeMemPages]
      omega
    refine ⟨hend.taken (by omega) hlt, ?_⟩
    rw [if_pos (Finset.mem_Icc.2 ⟨by omega, by omega⟩)]
    omega
  · have hnone : (boot phys apicBase).caches.recycled i = [] := by
      rw [recycled, congrFun hlists (i - 5)]
      rfl
    rw [hnone] at hp
    exact absurd hp List.not_mem_nil

/-- While frames and nodes last, live chunks stay apart exactly when each call of `os_alloc` is made with room for
it. -/
theorem apart_iff_roomy (phys : PhysMem) (apicBase : ApicBase) (calls : List CacheCall)
    (hsupplied : Along CacheClient.step Supplied (boot phys apicBase) calls) :
    (∀ before later, calls = before ++ later → (run CacheClient.step (boot phys apicBase) before).Apart) ↔
      Along CacheClient.step Roomy (boot phys apicBase) calls := by
  have hok := ok_boot phys apicBase
  apply good_iff_along_under (I := fun s ↦ ∃ cls, s.Ok cls) ?_ ?_ ⟨_, hok⟩ (hok.apart_iff.2 .nil) hsupplied
  · rintro s c ⟨cls, hs⟩ hsupplied
    exact hs.step c hsupplied
  · rintro s c ⟨cls, hs⟩ hsupplied hapart
    exact hs.apart_step_iff hapart c hsupplied

/-- A machine with blank memory. -/
def blank : CacheClient := boot (fun _ _ ↦ 0) .reset

theorem supplied_blank : Along CacheClient.step Supplied blank [.alloc 32, .alloc 32] := by
  refine .cons ⟨by norm_num [Asked], ?_, by decide +kernel⟩
    (.cons ⟨by norm_num [Asked], ?_, by decide +kernel⟩ (.nil _))
  all_goals
    change ∀ event ∈ _, MemEvent.Granted event
    decide +kernel

theorem apart_iff_roomy_blank :
    (∀ before later, [.alloc 32, .alloc 32] = before ++ later → (run CacheClient.step blank before).Apart) ↔
      Along CacheClient.step Roomy blank [.alloc 32, .alloc 32] :=
  apart_iff_roomy _ _ _ supplied_blank

/-- The first two chunks of 32 bytes are the same bytes. -/
theorem not_apart_blank :
    Along CacheClient.step Supplied blank [.alloc 32, .alloc 32] ∧
      ¬ (run CacheClient.step blank [.alloc 32, .alloc 32]).Apart := by
  refine ⟨supplied_blank, fun hapart ↦ ?_⟩
  have hlive : (run CacheClient.step blank [.alloc 32, .alloc 32]).live = [(0x802000, 32), (0x802000, 32)] := by
    decide +kernel
  have hclear := hapart.clear
  rw [hlive] at hclear
  have hpair := (List.pairwise_cons.1 hclear).1 (0x802000, 32) (List.mem_singleton_self _)
  unfold Clear at hpair
  omega

end CacheClient

end GemOS
