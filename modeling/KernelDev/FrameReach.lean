import KernelDev.FrameContract

/-!
# The frames of any region table

Nothing makes the AVAILABLE regions of a table disjoint : the entries of the memory map are taken
as they come. When two of them meet, `init_free_page_list` pushes a page twice and overwrites the
link that it had, and the free list goes in circles or loses its tail. There is no list of free
frames then.

What survives of the contract is weaker and needs no list. Whatever the table, every link leads to
an available frame or nowhere (`Mmu.LinksIn`), and building the list and all calls keep that, since
a page that is pushed links to what was the head, and one that is taken is cleared. So no call of
the allocator hands out anything but available frames (`reaches_run`).

When the regions do not meet, the converse holds as well : every available frame is handed out in
some run, as allocating over and over gets to the end of the list (`exists_run_alloc`).
-/

namespace KernelDev

open ByteMem

namespace Mmu

/-- The head of the free list and the links of the pages in `P` lead to pages in `P`, or
nowhere. -/
structure LinksIn (s : Mmu) (P : Addr → Prop) : Prop where
  head : s.freePageHead = 0 ∨ P s.freePageHead
  /-- A link leads to a page in `P`, or nowhere. -/
  next : ∀ p, P p → read64 s.mem p = 0 ∨ P (read64 s.mem p)

variable {s : Mmu} {P Q : Addr → Prop} {f : Addr}

/-- The same pages, said in another way. -/
theorem LinksIn.congr (h : s.LinksIn P) (hPQ : ∀ x, P x ↔ Q x) : s.LinksIn Q := by
  obtain rfl : P = Q := funext fun x => propext (hPQ x)
  exact h

/-- A page that is pushed links to the old head. -/
theorem LinksIn.push (h : s.LinksIn P) (hal : ∀ p, P p → Aligned p) (hf : Aligned f) :
    (s.addPageToFreeList f).LinksIn fun x => x = f ∨ P x := by
  have hhead : (s.addPageToFreeList f).freePageHead = f := rfl
  have hmem : (s.addPageToFreeList f).mem = write64 s.mem f s.freePageHead := rfl
  refine ⟨Or.inr (Or.inl hhead), fun p hp => ?_⟩
  have hpal : Aligned p := by
    rcases hp with rfl | hp
    · exact hf
    · exact hal p hp
  rw [hmem, read64_write64_page hf hpal]
  split_ifs with hpf
  · exact h.head.imp_right Or.inr
  · exact (h.next p (hp.resolve_left hpf)).imp_right Or.inr

/-- Pages that are pushed one after the other. -/
theorem LinksIn.foldl_push (frames : List Addr) : ∀ {s : Mmu} {P : Addr → Prop}, s.LinksIn P →
    (∀ p, P p → Aligned p) → (∀ f ∈ frames, Aligned f) →
    (frames.foldl addPageToFreeList s).LinksIn fun x => x ∈ frames ∨ P x := by
  induction frames with
  | nil => exact fun h _ _ => h.congr fun x => by simp
  | cons f frames ih =>
    intro s P h hal hframes
    have hf := hframes f (by simp)
    have hpush := ih (h.push hal hf) (fun p hp => ?_) fun g hg => hframes g (by simp [hg])
    · refine hpush.congr fun x => ?_
      rw [List.mem_cons]
      tauto
    · rcases hp with rfl | hp
      · exact hf
      · exact hal p hp

theorem LinksIn.printk (h : s.LinksIn P) (fmt : String) (args : List PrintkArg) :
    (s.printk fmt args).LinksIn P :=
  ⟨h.head, h.next⟩

/-- A page that is taken links nowhere. -/
theorem LinksIn.take (h : s.LinksIn P) (hal : ∀ p, P p → Aligned p) (hf : P f) :
    (s.takeFrame f).LinksIn P := by
  refine ⟨h.next f hf, fun p hp => ?_⟩
  have hlink : read64 (s.takeFrame f).mem p = if p = f then 0 else read64 s.mem p :=
    read64_fill_page (hal f hf) (hal p hp)
  rw [hlink]
  split_ifs
  · exact Or.inl rfl
  · exact h.next p hp

theorem foldl_addPageToFreeList_keeps (frames : List Addr) : ∀ s : Mmu,
    (frames.foldl addPageToFreeList s).freePages = s.freePages ∧
      (frames.foldl addPageToFreeList s).freeListInitialized = s.freeListInitialized := by
  induction frames with
  | nil => exact fun s => ⟨rfl, rfl⟩
  | cons f frames ih => exact fun s => ih (s.addPageToFreeList f)

end Mmu

/-- A region table whose regions are page-aligned but may meet, before the first call. -/
structure Unlisted (s₀ : Mmu) : Prop where
  aligned : ∀ r ∈ s₀.memoryRegions, Aligned r.start ∧ Aligned r.end_
  /-- The list is not built yet. -/
  built : s₀.freeListInitialized = false
  head : s₀.freePageHead = 0

/-- The list is built, and all that is held or linked is available. -/
structure Reaches (regions : List MemRegion) (t : Holding) : Prop where
  built : t.mmu.freeListInitialized = true
  links : t.mmu.LinksIn (IsAvailable regions)
  held : ∀ f ∈ t.held, IsAvailable regions f

section

variable {s₀ : Mmu} {t u : Holding} {tr : List FrameEvent} {e : FrameEvent}

/-- Once the list is built, its links lead to available frames. -/
theorem Unlisted.reaches (h : Unlisted s₀) :
    Reaches s₀.memoryRegions ⟨s₀.initFreePageList, []⟩ ∧
      s₀.initFreePageList.freePages = s₀.freePages := by
  have hstart : ({ s₀ with freeListInitialized := true } : Mmu).LinksIn fun _ => False :=
    ⟨Or.inl h.head, fun _ hp => hp.elim⟩
  have hal : ∀ f ∈ listedFrames s₀.memoryRegions, Aligned f := fun f hf =>
    ((mem_listedFrames h.aligned).1 hf).aligned
  have hlinks := hstart.foldl_push (listedFrames s₀.memoryRegions) (fun _ hp => hp.elim) hal
  have hkeeps := Mmu.foldl_addPageToFreeList_keeps (listedFrames s₀.memoryRegions)
    { s₀ with freeListInitialized := true }
  rw [← Mmu.initFreePageList_eq h.aligned h.built] at hlinks hkeeps
  refine ⟨⟨hkeeps.2, hlinks.congr fun x => ?_, by simp⟩, hkeeps.1⟩
  rw [mem_listedFrames h.aligned, or_false]

/-- The two ways an allocation ends, once the list is built. -/
theorem Reaches.mmuPfAlloc {regions : List MemRegion} (h : Reaches regions t) :
    t.mmu.mmuPfAlloc = (t.mmu.printk "ERROR: Out of memory, no free pages available\n" [], 0) ∨
      ∃ f, IsAvailable regions f ∧ t.mmu.mmuPfAlloc = (t.mmu.takeFrame f, f) := by
  by_cases hhead : t.mmu.freePageHead = 0
  · exact Or.inl (Mmu.mmuPfAlloc_null h.built hhead)
  · exact Or.inr ⟨_, h.links.head.resolve_left hhead, Mmu.mmuPfAlloc_head h.built hhead⟩

/-- A state of a run allocates as one with a built list does : itself, or the state that the
first call begins with. -/
theorem exists_reaches (h : Unlisted s₀) (ht : t = ⟨s₀, []⟩ ∨ Reaches s₀.memoryRegions t) :
    ∃ t', Reaches s₀.memoryRegions t' ∧ t'.held = t.held ∧
      t'.mmu.mmuPfAlloc = t.mmu.mmuPfAlloc ∧ t'.mmu.freePages = t.mmu.freePages := by
  rcases ht with rfl | ht
  · obtain ⟨hreaches, hpages⟩ := h.reaches
    exact ⟨_, hreaches, rfl, (Mmu.mmuPfAlloc_first h.built hreaches.built).symm, hpages⟩
  · exact ⟨t, ht, rfl, rfl, rfl⟩

/-- A call of the allocator returns nothing or an available frame, and links stay inside. -/
theorem reaches_step (h : Unlisted s₀) (ht : t = ⟨s₀, []⟩ ∨ Reaches s₀.memoryRegions t)
    (hstep : FrameStep t e u) (hcall : ∀ x b, e ≠ .write x b) :
    Reaches s₀.memoryRegions u ∧
      ∀ f, e = .alloc f → f = 0 ∨ IsAvailable s₀.memoryRegions f := by
  have hal : ∀ f, IsAvailable s₀.memoryRegions f → Aligned f := fun _ hf => hf.aligned
  cases hstep with
  | alloc =>
    obtain ⟨t', hreaches, hheld, halloc, -⟩ := exists_reaches h ht
    rw [← halloc, ← hheld]
    rcases hreaches.mmuPfAlloc with hres | ⟨f, hf, hres⟩
    · rw [hres, if_pos rfl]
      refine ⟨⟨hreaches.built, hreaches.links.printk _ _, hreaches.held⟩, ?_⟩
      rintro f ⟨⟩
      exact Or.inl rfl
    · rw [hres, if_neg hf.ne_zero]
      refine ⟨⟨hreaches.built, hreaches.links.take hal hf, ?_⟩, ?_⟩
      · simpa using ⟨hf, hreaches.held⟩
      · rintro f ⟨⟩
        exact Or.inr hf
  | @free f hf =>
    rcases ht with rfl | hreaches
    · cases hf
    have havail := hreaches.held f hf
    rw [Mmu.mmuPfFree_frame _ havail.ne_zero havail.aligned]
    have hpush := (hreaches.links.push hal havail.aligned).congr fun x =>
      or_iff_right_of_imp fun hx : x = f => hx ▸ havail
    exact ⟨⟨hreaches.built, ⟨hpush.head, hpush.next⟩, fun g hg =>
      hreaches.held g (List.mem_of_mem_erase hg)⟩, by rintro f ⟨⟩⟩
  | write => exact absurd rfl (hcall _ _)

/-- No run of calls returns anything but available frames. -/
theorem reaches_run (h : Unlisted s₀) (hrun : Run FrameStep ⟨s₀, []⟩ tr t)
    (hcalls : ∀ e ∈ tr, ∀ x b, e ≠ .write x b) :
    (t = ⟨s₀, []⟩ ∨ Reaches s₀.memoryRegions t) ∧
      ∀ f, .alloc f ∈ tr → f = 0 ∨ IsAvailable s₀.memoryRegions f := by
  revert hcalls
  refine Run.invariant (fun tr t => (∀ e ∈ tr, ∀ x b, e ≠ .write x b) →
    (t = ⟨s₀, []⟩ ∨ Reaches s₀.memoryRegions t) ∧
      ∀ f, .alloc f ∈ tr → f = 0 ∨ IsAvailable s₀.memoryRegions f) ?_ ?_ hrun
  · exact fun _ => ⟨Or.inl rfl, fun f hf => by cases hf⟩
  · intro tr t e u _ ih hstep hcalls
    obtain ⟨ht, halloc⟩ := ih fun e he => hcalls e (by simp [he])
    obtain ⟨hu, hnew⟩ := reaches_step h ht hstep (hcalls e (by simp))
    refine ⟨Or.inr hu, fun f hf => ?_⟩
    rcases List.mem_append.1 hf with hf | hf
    · exact halloc f hf
    · exact hnew f (List.mem_singleton.1 hf).symm

/-- Allocations hand out every listed frame sooner or later. -/
theorem Owns.exists_alloc {regions : List MemRegion} {f : Addr} : ∀ (listed : List Addr)
    {t t' : Holding}, Owns regions t' listed → t'.held = t.held →
    t'.mmu.mmuPfAlloc = t.mmu.mmuPfAlloc → f ∈ listed →
    ∃ tr u, Run FrameStep t tr u ∧ (∀ e ∈ tr, ∀ x b, e ≠ .write x b) ∧ .alloc f ∈ tr
  | [], _, _, _, _, _, hf => by cases hf
  | g :: l, t, t', hown, hheld, halloc, hf => by
    have hne := ((hown.all g).1 (by simp)).ne_zero
    have hstep : FrameStep t (.alloc g) ⟨t'.mmu.takeFrame g, g :: t'.held⟩ := by
      have h := @FrameStep.alloc t
      rw [← halloc, ← hheld, Mmu.mmuPfAlloc_cons hown.built hown.list, if_neg hne] at h
      exact h
    rcases List.mem_cons.1 hf with rfl | hf
    · exact ⟨_, _, Run.nil.snoc hstep, by simp, by simp⟩
    · obtain ⟨tr, u, hrun, hcalls, hmem⟩ := Owns.exists_alloc l hown.take rfl rfl hf
      refine ⟨_, u, .cons hstep hrun, fun e he => ?_, by simp [hmem]⟩
      rcases List.mem_cons.1 he with rfl | he
      · simp
      · exact hcalls e he

/-- When the regions do not meet, every available frame is handed out in some run. -/
theorem exists_run_alloc (h : Unbuilt s₀) {f : Addr} (hf : IsAvailable s₀.memoryRegions f) :
    ∃ tr u, Run FrameStep ⟨s₀, []⟩ tr u ∧ (∀ e ∈ tr, ∀ x b, e ≠ .write x b) ∧ .alloc f ∈ tr := by
  obtain ⟨t', listed, hown, hheld, halloc, -⟩ := exists_owns h (Or.inl rfl)
  refine hown.exists_alloc listed hheld halloc ?_
  have hmem := (hown.all f).2 hf
  rwa [hheld] at hmem

end

end KernelDev
