import Mixv6.Mm.Pool

/-!
# The page table as a map

A directory with its page tables is a map from page numbers to entries.  `mappages` enters a range
of them, and no other entry changes, whatever is in the map: the page tables that it makes on the
way are pages that nobody else has.

The directory is a page from `kalloc`, and is changed by `walkpgdir`, `mappages`, and stores to
the entries that `walkpgdir` finds; the rest of the kernel uses the other pages of the pool.

## Main definitions

* `Finds` — the entry for an address.
* `Request`, `Maps` — what `mappages` is asked for, and what it does.
* `MapOp`, `dirMachine` — a directory and the rest of the kernel.
* `mappages_maps`, `spaces_map` — every call, for every directory that is built so.
-/

namespace Mixv6.Mm

open Mixv6.Lib

/-- The entry that `walkpgdir` finds for an address.  Where there is no page table there is none,
which counts as an entry that is not present. -/
def Finds (σ : Phys) (d a e : ℕ) : Prop :=
  ∃ r, walkpgdir d a false σ = .ok (r, σ) ∧ e = if r = 0 then 0 else σ.mem.load32 r

/-- The number of pages that a range has a byte in. -/
def pages (va size : ℕ) : ℕ := (va + size - 1) / PAGESIZE - va / PAGESIZE + 1

/-- The arguments of `mappages`: the range ends below the last page, and none of its pages is
present. -/
structure Request (σ : Phys) (d va size pa flags : ℕ) : Prop where
  pos : 0 < size
  top : va + size - 1 < 0xFFFFF000
  aligned : pa % PAGESIZE = 0
  frame : pa < 2 ^ 32
  low : flags < 0x1000
  absent : ∀ a e, va / PAGESIZE ≤ a / PAGESIZE → a / PAGESIZE ≤ (va + size - 1) / PAGESIZE →
    Finds σ d a e → ¬ present e

/-- The first `k` pages from `va` on have their entries, and every other address has the one it
had. -/
structure Maps (d va pa flags k : ℕ) (σ σ' : Phys) : Prop where
  inside : ∀ j < k, ∀ a, a / PAGESIZE = va / PAGESIZE + j →
    Finds σ' d a ((pa + j * PAGESIZE) % 2 ^ 32 ||| flags ||| PTE_P)
  outside : ∀ a < 2 ^ 32, (∀ j < k, a / PAGESIZE ≠ va / PAGESIZE + j) →
    ∀ e, Finds σ' d a e ↔ Finds σ d a e

variable {L : Layout} {s va size pa flags d : ℕ} {σ : Phys} {g : Ghost} {E : Panic → Prop}

/-! ## One call -/

namespace PageTables

/-- `walkpgdir` without allocation. -/
theorem walk_eq (h : PageTables L s σ g) {a : ℕ} (ha : a < 2 ^ 32) :
    walkpgdir g.sp.dir a false σ = .ok (g.sp.entry (a / 4096), σ) := by
  obtain ⟨r, t, hrun, rfl, rfl⟩ := wp_total.mp (h.wp_walk (v := a / 4096)
    (Q := fun r t => r = g.sp.entry (a / 4096) ∧ t = σ) (by omega) ⟨rfl, rfl⟩)
  rw [walkpgdir_page]
  exact hrun

/-- The entry of an address. -/
theorem finds_iff (h : PageTables L s σ g) {a e : ℕ} (ha : a < 2 ^ 32) :
    Finds σ g.sp.dir a e ↔ e = g.sp.pte (a / 4096) := by
  have hpte : (if g.sp.entry (a / 4096) = 0 then 0 else σ.mem.load32 (g.sp.entry (a / 4096))) =
      g.sp.pte (a / 4096) := by
    split
    next hzero => exact (h.tables.absent _ (h.entry_eq_zero.mp hzero)).symm
    next hne => exact h.load_entry hne
  rw [← hpte, Finds, h.walk_eq ha]
  constructor
  · rintro ⟨r, hr, he⟩
    obtain rfl : g.sp.entry (a / 4096) = r := by simpa using hr
    exact he
  · exact fun he => ⟨_, rfl, he⟩

/-- **`mappages`** ends, and enters the whole range or, when nothing is free any more, the first
pages of it. -/
theorem wp_mappages (h : PageTables L s σ g) (hreq : Request σ g.sp.dir va size pa flags) :
    wp E (mappages g.sp.dir va size pa flags) (fun r σ' => ∃ k g', PageTables L s σ' g' ∧
      g'.sp.dir = g.sp.dir ∧ (∀ p, g.own p ≠ .free → g'.own p = g.own p) ∧
      Maps g.sp.dir va pa flags k σ σ' ∧
      (r = 0 ∧ k = pages va size ∨ r = -1 ∧ k < pages va size ∧ kalloc σ' = .ok (0, σ'))) σ := by
  obtain ⟨hsize, htop, haligned, hpa, hflags, habsent⟩ := hreq
  simp only [PAGESIZE] at haligned habsent
  have hpages : va / 4096 + pages va size = (va + size - 1) / 4096 + 1 := by
    simp only [pages, PAGESIZE]
    omega
  have hfirst : PGROUNDDOWN va = 4096 * (va / 4096) := Nat.mul_comm _ _
  have hlast : PGROUNDDOWN ((va + size + (2 ^ 32 - 1)) % 2 ^ 32) =
      4096 * (va / 4096 + pages va size - 1) := by
    rw [hpages]
    simp only [PGROUNDDOWN, PAGESIZE]
    omega
  have hfree : ∀ v, va / 4096 ≤ v → v < va / 4096 + pages va size → ¬ present (g.sp.pte v) := by
    intro v hle hlt
    have hv : 4096 * v / 4096 = v := by omega
    apply habsent (4096 * v)
    · omega
    · omega
    · rw [h.finds_iff (by omega), hv]
  apply wp_mono (wp_enter h (by omega) (by omega) hfirst hlast haligned hpa hflags hfree)
  rintro r σ' ⟨g', k, h', hm, hr⟩
  have hdir : g'.sp.dir = g.sp.dir := hm.grow.dir
  have hk : k ≤ pages va size := by omega
  refine ⟨k, g', h', hdir, hm.own, ⟨fun j hj a ha => ?_, fun a ha hout e => ?_⟩, ?_⟩
  · simp only [PAGESIZE] at ha ⊢
    rw [← hdir, h'.finds_iff (by omega), hm.pte, if_pos (by omega), pte_eq (by omega) hflags,
      show a / 4096 - va / 4096 = j by omega, Nat.mul_comm 4096]
  · have hnot : ¬ (va / 4096 ≤ a / 4096 ∧ a / 4096 < va / 4096 + k) := by
      rintro ⟨hle, hlt⟩
      apply hout (a / 4096 - va / 4096) (by omega)
      simp only [PAGESIZE]
      omega
    rw [h.finds_iff ha, ← hdir, h'.finds_iff ha, hm.pte, if_neg hnot]
  · rcases hr with ⟨rfl, rfl⟩ | ⟨rfl, hlt, hnil, -⟩
    · exact .inl ⟨rfl, rfl⟩
    · have hheap := h'.heap
      rw [hnil] at hheap
      exact .inr ⟨rfl, hlt, hheap.kalloc_nil⟩

end PageTables

/-! ## A directory, and the rest of the kernel -/

/-- The beginning of `setupkvm`: an empty directory, or 0. -/
def newdir : Kern ℕ := do
  let pgdir ← kalloc
  if pgdir = 0 then
    return 0
  memset pgdir 0 PAGESIZE
  return pgdir

/-- What can happen to a directory, and beside it. -/
inductive MapOp
  | walkpgdir (va : ℕ) (isalloc : Bool)
  | mappages (va size pa flags : ℕ)
  /-- A store to the entry that `walkpgdir` finds. -/
  | store (va e : ℕ)
  /-- The rest of the kernel. -/
  | use (u : Use)

/-- The arguments are words, and those of `mappages` are a request. -/
def MapOp.Allowed (d : ℕ) (u : Pool) : MapOp → Prop
  | .walkpgdir va _ => va < 2 ^ 32
  | .mappages va size pa flags => Request u.phys d va size pa flags
  | .store va e => va < 2 ^ 32 ∧ e < 2 ^ 32
  | .use v => u.Allowed v

/-- Run a routine. -/
def Pool.call {α : Type} (u : Pool) (c : Kern α) : Except Panic Pool := do
  let (_, σ) ← c u.phys
  return ⟨σ, u.held⟩

/-- The store of a caller of `walkpgdir`. -/
def storeEntry (d va e : ℕ) : Kern Unit := do
  let pte ← walkpgdir d va false
  if pte ≠ 0 then store pte e

def Pool.execMap (L : Layout) (d : ℕ) (u : Pool) : MapOp → Except Panic Pool
  | .walkpgdir va isalloc => u.call (walkpgdir d va isalloc)
  | .mappages va size pa flags => u.call (mappages d va size pa flags)
  | .store va e => u.call (storeEntry d va e)
  | .use v => u.exec L v

/-- The directory at `d` as a machine. -/
def dirMachine (L : Layout) (d : ℕ) : Machine Pool MapOp where
  step u op := (u.execMap L d op).toOption

/-- **The invariant**: the page tables are in order, and nobody else holds a page of them. -/
structure Built (L : Layout) (d : ℕ) (u : Pool) (g : Ghost) : Prop where
  tables : PageTables L 0 u.phys g
  dir : g.sp.dir = d
  nodup : u.held.Nodup
  held : ∀ p ∈ u.held, IsPage L p ∧ g.own p = .out

namespace Built
variable {u : Pool}

/-- A routine that works on the page tables, and takes free pages only. -/
theorem call (h : Built L d u g) {α : Type} {c : Kern α}
    (hc : wp (fun _ => False) c (fun _ σ' => ∃ g', PageTables L 0 σ' g' ∧ g'.sp.dir = g.sp.dir ∧
      ∀ p, g.own p ≠ .free → g'.own p = g.own p) u.phys) :
    ∃ u' g', u.call c = .ok u' ∧ Built L d u' g' := by
  obtain ⟨r, σ', hrun, g', h', hdir, hown⟩ := wp_total.mp hc
  refine ⟨⟨σ', u.held⟩, g', ?_, h', hdir.trans h.dir, h.nodup, fun p hp => ?_⟩
  · simp only [Pool.call, hrun]
    rfl
  · obtain ⟨hpage, hout⟩ := h.held p hp
    rw [hown p (by rw [hout]; simp)]
    exact ⟨hpage, hout⟩

theorem walkpgdir (h : Built L d u g) {va : ℕ} (isalloc : Bool) (hva : va < 2 ^ 32) :
    ∃ u' g', u.call (walkpgdir d va isalloc) = .ok u' ∧ Built L d u' g' := by
  apply h.call
  rw [walkpgdir_page, ← h.dir]
  cases isalloc with
  | false => exact h.tables.wp_walk (by omega) ⟨g, h.tables, rfl, fun _ _ => rfl⟩
  | true =>
      apply wp_mono (h.tables.wp_walk_alloc (v := va / 4096) (by omega))
      rintro r σ' ⟨g', h', hw⟩
      exact ⟨g', h', hw.grow.dir, hw.own⟩

theorem mappages (h : Built L d u g) (hreq : Request u.phys d va size pa flags) :
    ∃ u' g', u.call (mappages d va size pa flags) = .ok u' ∧ Built L d u' g' := by
  apply h.call
  rw [← h.dir] at hreq ⊢
  apply wp_mono (h.tables.wp_mappages hreq)
  rintro r σ' ⟨k, g', h', hdir, hown, -⟩
  exact ⟨g', h', hdir, hown⟩

theorem store (h : Built L d u g) {va e : ℕ} (hva : va < 2 ^ 32) (he : e < 2 ^ 32) :
    ∃ u' g', u.call (storeEntry d va e) = .ok u' ∧ Built L d u' g' := by
  apply h.call
  rw [← h.dir, storeEntry, walkpgdir_page, wp_bind]
  apply h.tables.wp_walk (by omega)
  rw [wp_ite]
  split
  next hne =>
    obtain ⟨h', -⟩ := h.tables.setPte hne he
    rw [Mm.store, wp_modify]
    exact ⟨_, h', rfl, fun _ _ => rfl⟩
  next => exact wp_pure.mpr ⟨g, h.tables, rfl, fun _ _ => rfl⟩

/-- The rest of the kernel takes a page. -/
theorem take {p : ℕ} {F : List ℕ} (h : Built L d u g) (hF : g.free = p :: F) :
    Built L d ⟨u.phys.take p, p :: u.held⟩ ⟨F, Function.update g.own p .out, g.sp⟩ where
  tables := by
    have hfree : g.own p = .free := (h.tables.heap.free p).mp (by simp [hF])
    obtain ⟨hdir, htab⟩ := h.tables.tables.ne_table (.inl hfree)
    exact ⟨(hF ▸ h.tables.heap).take (by simp), h.tables.tables.retag hdir htab (by simp)⟩
  dir := h.dir
  nodup := by
    refine List.nodup_cons.mpr ⟨fun hp => ?_, h.nodup⟩
    have hfree : g.own p = .free := (h.tables.heap.free p).mp (by simp [hF])
    rw [(h.held p hp).2] at hfree
    cases hfree
  held q hq := by
    have hfree : g.own p = .free := (h.tables.heap.free p).mp (by simp [hF])
    rcases List.mem_cons.mp hq with rfl | hheld
    · exact ⟨h.tables.heap.pages q (by rw [hfree]; simp), Function.update_self ..⟩
    · obtain ⟨hpage, hout⟩ := h.held q hheld
      have hne : q ≠ p := by
        rintro rfl
        rw [hout] at hfree
        cases hfree
      exact ⟨hpage, (Function.update_of_ne hne ..).trans hout⟩

/-- What is stored to a page of the rest of the kernel. -/
theorem memory (h : Built L d u g) {p : ℕ} (hp : p ∈ u.held) {m : Mem}
    (hm : ∀ x, page x ≠ p → m x = u.phys.mem x) : TablesOk g.own 0 g.sp m := by
  apply h.tables.tables.congr _ h.tables.align
  intro x hx
  apply hm
  rintro rfl
  rw [(h.held _ hp).2] at hx
  simp at hx

/-- The rest of the kernel gives a page back. -/
theorem give (h : Built L d u g) {p : ℕ} (hp : p ∈ u.held) :
    Built L d ⟨u.phys.give p, u.held.erase p⟩
      ⟨p :: g.free, Function.update g.own p .free, g.sp⟩ where
  tables := by
    obtain ⟨hpage, hout⟩ := h.held p hp
    obtain ⟨hdir, htab⟩ := h.tables.tables.ne_table (.inr hout)
    exact ⟨h.tables.heap.give (by rw [hout]; simp) hpage,
      (h.memory hp fun x hx => give_mem hpage.1 hx).retag hdir htab (by simp)⟩
  dir := h.dir
  nodup := h.nodup.erase p
  held q hq := by
    obtain ⟨hne, hheld⟩ := h.nodup.mem_erase_iff.mp hq
    obtain ⟨hpage, hout⟩ := h.held q hheld
    exact ⟨hpage, (Function.update_of_ne hne ..).trans hout⟩

theorem write (h : Built L d u g) {x : ℕ} (b : UInt8) (hx : page x ∈ u.held) :
    Built L d { u with phys := { u.phys with mem := Function.update u.phys.mem x b } } g where
  tables := by
    have hm : ∀ y, page y ≠ page x → Function.update u.phys.mem x b y = u.phys.mem y := by
      intro y hy
      exact Function.update_of_ne (fun hxy => hy (by rw [hxy])) ..
    refine ⟨h.tables.heap.congr rfl fun p hp y hy => hm y ?_, h.memory hx hm⟩
    intro hxy
    have hfree := (h.tables.heap.free p).mp hp
    rw [← hy, hxy, (h.held _ hx).2] at hfree
    cases hfree
  dir := h.dir
  nodup := h.nodup
  held := h.held

theorem use (h : Built L d u g) {v : Use} (hallowed : u.Allowed v) :
    ∃ u' g', u.exec L v = .ok u' ∧ Built L d u' g' := by
  cases v with
  | kalloc =>
      have hheap := h.tables.heap
      cases hF : g.free with
      | nil =>
          rw [hF] at hheap
          exact ⟨u, g, hheap.exec_kalloc_nil, h⟩
      | cons p F =>
          rw [hF] at hheap
          exact ⟨_, _, hheap.exec_kalloc, h.take hF⟩
  | kfree p => exact ⟨_, _, (h.held p hallowed).1.exec_kfree, h.give hallowed⟩
  | write x b => exact ⟨_, g, rfl, h.write b hallowed⟩

/-- **A step** ends, and keeps the invariant. -/
theorem execMap (h : Built L d u g) {op : MapOp} (hallowed : op.Allowed d u) :
    ∃ u' g', u.execMap L d op = .ok u' ∧ Built L d u' g' := by
  cases op with
  | walkpgdir va isalloc => exact h.walkpgdir isalloc hallowed
  | mappages va size pa flags => exact h.mappages hallowed
  | store va e => exact h.store hallowed.1 hallowed.2
  | use v => exact h.use hallowed

end Built

/-! ## Runs -/

/-- The owners of the pages that are not free do not matter. -/
theorem Heap.relabel {F : List ℕ} {own : ℕ → Tag} (h : Heap L σ F own) :
    Heap L σ F fun p => if p ∈ F then .free else .out where
  chain := h.chain
  nodup := h.nodup
  free p := by simp
  pages p hp := by
    by_cases hF : p ∈ F
    · exact h.pages p (by rw [(h.free p).mp hF]; simp)
    · simp [hF] at hp

/-- The call, when no page is free. -/
theorem Heap.newdir_nil {own : ℕ → Tag} (h : Heap L σ [] own) : newdir σ = .ok (0, σ) := by
  simp only [newdir, bind, StateT.bind, Except.bind, h.kalloc_nil, ↓reduceIte]
  rfl

/-- The call, when one is. -/
theorem Heap.newdir {p : ℕ} {F : List ℕ} {own : ℕ → Tag} (h : Heap L σ (p :: F) own) :
    newdir σ = .ok (p, σ.newDir p) := by
  have hne : p ≠ 0 := h.chain.2.1
  simp only [Mm.newdir, memset, bind, StateT.bind, Except.bind, h.kalloc_cons, if_neg hne]
  rfl

/-- **An empty directory** is in order. -/
theorem Pool.Inv.newdir {u : Pool} {F : List ℕ} {own : ℕ → Tag} {σ : Phys} (h : u.Inv L F own)
    (hrun : newdir u.phys = .ok (d, σ)) (hne : d ≠ 0) : ∃ g, Built L d ⟨σ, u.held⟩ g := by
  cases F with
  | nil =>
      rw [h.heap.newdir_nil] at hrun
      obtain ⟨rfl, -⟩ : 0 = d ∧ u.phys = σ := by simpa using hrun
      exact absurd rfl hne
  | cons p F =>
      rw [h.heap.newdir] at hrun
      obtain ⟨rfl, rfl⟩ : p = d ∧ u.phys.newDir p = σ := by simpa using hrun
      have hnew : ∀ q, ¬ (if q ∈ p :: F then Tag.free else Tag.out).of 0 := by
        intro q
        split
        next => exact id
        next => exact id
      refine ⟨_, (h.heap.relabel.newDir hnew).1.tables, rfl, h.nodup, fun q hq => ?_⟩
      have hq' : q ∉ p :: F := h.held q hq
      refine ⟨h.isPage_of_held hq, ?_⟩
      have hqp : q ≠ p := by
        rintro rfl
        exact hq' (List.mem_cons_self ..)
      simp only [Function.update_of_ne hqp, if_neg hq']

variable {u₀ u v : Pool} {m : Mem}

/-- The invariant holds in every state that is reached. -/
theorem built_of_path (h₀ : bootPool L m = .ok u₀) (hu : (poolMachine L).Path Pool.Allowed u₀ u)
    (hrun : newdir u.phys = .ok (d, σ)) (hne : d ≠ 0)
    (h : (dirMachine L d).Path (fun u op => op.Allowed d u) ⟨σ, u.held⟩ v) : ∃ g, Built L d v g := by
  apply h.invariant (I := fun u => ∃ g, Built L d u g)
  · obtain ⟨F, own, hinv⟩ := inv_of_path h₀ hu
    exact hinv.newdir hrun hne
  · rintro u op u' ⟨g, hbuilt⟩ hallowed hstep
    obtain ⟨u₁, g', hexec, hbuilt'⟩ := hbuilt.execMap hallowed
    obtain rfl : u₁ = u' := by simpa [dirMachine, hexec, Except.toOption] using hstep
    exact ⟨g', hbuilt'⟩

/-- **The page table is a map.**  In every directory that is built so, `mappages` ends: it returns
0 and has entered the whole range, or -1 and has entered the first pages of it, and `kalloc` has
nothing more to return. -/
theorem mappages_maps (h₀ : bootPool L m = .ok u₀) (hu : (poolMachine L).Path Pool.Allowed u₀ u)
    (hrun : newdir u.phys = .ok (d, σ)) (hne : d ≠ 0)
    (h : (dirMachine L d).Path (fun u op => op.Allowed d u) ⟨σ, u.held⟩ v)
    (hreq : Request v.phys d va size pa flags) :
    ∃ r σ' k, mappages d va size pa flags v.phys = .ok (r, σ') ∧
      Maps d va pa flags k v.phys σ' ∧
      (r = 0 ∧ k = pages va size ∨ r = -1 ∧ k < pages va size ∧ kalloc σ' = .ok (0, σ')) := by
  obtain ⟨g, hbuilt⟩ := built_of_path h₀ hu hrun hne h
  rw [← hbuilt.dir] at hreq ⊢
  obtain ⟨r, σ', hrun, k, g', -, -, -, hmaps, hr⟩ := wp_total.mp (hbuilt.tables.wp_mappages hreq)
  exact ⟨r, σ', k, hrun, hmaps, hr⟩

/-- So it is with the address spaces of the processes. -/
theorem spaces_map {w₀ w : World} {im : Image} (h₀ : boot L m = .ok w₀)
    (h : (vmMachine L).Path (World.Allowed L) w₀ w) (him : w.space s = some im)
    (hreq : Request w.phys im.pgdir va size pa flags) :
    ∃ r σ' k, mappages im.pgdir va size pa flags w.phys = .ok (r, σ') ∧
      Maps im.pgdir va pa flags k w.phys σ' ∧
      (r = 0 ∧ k = pages va size ∨ r = -1 ∧ k < pages va size ∧ kalloc σ' = .ok (0, σ')) := by
  obtain ⟨F, own, sp, hI⟩ := owned_of_path h₀ h
  have hdir : (sp s).dir = im.pgdir := (hI.image s im him).dir
  rw [← hdir] at hreq ⊢
  obtain ⟨r, σ', hrun, k, g', -, -, -, hmaps, hr⟩ :=
    wp_total.mp ((hI.vm him).tables.wp_mappages hreq)
  exact ⟨r, σ', k, hrun, hmaps, hr⟩

/-- On the small machine: eight bytes of an empty directory, on both sides of a boundary between
two page tables. -/
theorem mappages_maps_small : ∃ u d σ r σ' k, bootPool smallLayout (fun _ => 0) = .ok u ∧
    newdir u.phys = .ok (d, σ) ∧ mappages d 0x3FFFFC 8 0x1000 PTE_W σ = .ok (r, σ') ∧
    Maps d 0x3FFFFC 0x1000 PTE_W k σ σ' ∧ (r = 0 ∧ k = 2 ∨ r = -1 ∧ k < 2 ∧ kalloc σ' = .ok (0, σ')) := by
  obtain ⟨u, F, h₀, hinv, hlength⟩ := exists_bootPool smallLayout fun _ => 0
  cases F with
  | nil => exact absurd hlength (by decide)
  | cons d F =>
      have hne : d ≠ 0 := hinv.heap.chain.2.1
      have htables := (hinv.heap.newDir fun q => Heap.not_of_upTo q 0).1.tables
      have hreq : Request (u.phys.newDir d) d 0x3FFFFC 8 0x1000 PTE_W := by
        refine ⟨by decide, by decide, by decide, by decide, by decide, ?_⟩
        intro a e _ hle hfinds
        simp only [PAGESIZE] at hle
        have hzero := (htables.finds_iff (by omega)).mp hfinds
        rw [hzero]
        exact Bool.false_ne_true
      obtain ⟨r, σ', k, hrun, hmaps, hr⟩ :=
        mappages_maps h₀ .refl hinv.heap.newdir hne .refl hreq
      exact ⟨u, d, _, r, σ', k, h₀, hinv.heap.newdir, hrun, hmaps, hr⟩

end Mixv6.Mm
