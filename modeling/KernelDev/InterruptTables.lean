import KernelDev.CString
import KernelDev.Isr
import KernelDev.Lib.Packed
import Mathlib.Data.List.Nodup

/-!
# The tables of `interrupts.c`

`idt_init` fills the interrupt descriptor table, the task state segment and its descriptor in the
GDT, field by field in packed structs. Each of these objects is a memory of its own here, with its
bytes counted from its start, so that they never overlap; where they are in memory is a parameter
(`Symbols`), and so are the addresses of the stubs and of the stacks.

The second half is what the processor makes of the bytes : the formats of gates, of system
descriptors and of the stack table, by the byte positions of the processor manual and not by the
structs (`IdtGate.decode`, `SystemDescriptor.decode`, `interruptStack`). A field that is in the
wrong place of its struct, or has the wrong size, would be read as something else.

The two are brought together for one gate first. The processor looks for the parts of a gate where
the struct has its fields (`IdtGate.decode_eq`), so a gate reads back as it was set
(`decode_idtSetGate`), and setting one leaves the others alone. The table is then a list of gates
with different numbers, and each is found in it (`decode_setGates`). The descriptor of the task
state segment takes the same course, and it is copied behind the first three entries of the GDT,
where nothing else changes (`gdt_setupTss`).

`idt_init_decodes` says that the processor finds what was meant, for any addresses and whatever the
tables held before. Every gate leads to the stub of its vector, in ring 0 and through the kernel
code segment; the faults 8, 13 and 14 are taken on the top of their own stacks and no other vector
is; and the descriptor has the base and the limit of the task state segment.
-/

namespace KernelDev

open ByteMem

/-! ## The structs -/

/-- The fields of `idt_entry_t`. -/
inductive IdtField where
  | isrLow | kernelCs | ist | attributes | isrMid | isrHigh | reserved
  deriving DecidableEq

namespace IdtField

def size : IdtField → ℕ
  | isrLow => 2
  | kernelCs => 2
  | ist => 1
  | attributes => 1
  | isrMid => 2
  | isrHigh => 4
  | reserved => 4

def order : List IdtField :=
  [isrLow, kernelCs, ist, attributes, isrMid, isrHigh, reserved]

theorem mem_order (f : IdtField) : f ∈ order := by
  cases f <;> decide

theorem fits : (order.map size).sum ≤ 2 ^ 64 := by
  decide

end IdtField

/-- `idt_entry_t` -/
def idtEntry : Packed IdtField :=
  ⟨IdtField.size, IdtField.order, IdtField.mem_order, IdtField.fits⟩

/-- The fields of `idt_ptr_t`. -/
inductive IdtPtrField where
  | limit | base
  deriving DecidableEq

namespace IdtPtrField

def size : IdtPtrField → ℕ
  | limit => 2
  | base => 8

theorem mem_order (f : IdtPtrField) : f ∈ [limit, base] := by
  cases f <;> decide

theorem fits : ([limit, base].map size).sum ≤ 2 ^ 64 := by
  decide

end IdtPtrField

/-- `idt_ptr_t` -/
def idtPtr : Packed IdtPtrField :=
  ⟨IdtPtrField.size, [.limit, .base], IdtPtrField.mem_order, IdtPtrField.fits⟩

/-- The fields of `struct tss_struct`. -/
inductive TssField where
  | reserved1 | rsp0 | rsp1 | rsp2 | reserved2 | ist1 | ist2 | ist3 | ist4 | ist5 | ist6 | ist7
  | reserved3 | reserved4 | iopbOffset
  deriving DecidableEq

namespace TssField

def size : TssField → ℕ
  | reserved1 => 4
  | rsp0 | rsp1 | rsp2 | reserved2 => 8
  | ist1 | ist2 | ist3 | ist4 | ist5 | ist6 | ist7 => 8
  | reserved3 => 8
  | reserved4 | iopbOffset => 2

def order : List TssField :=
  [reserved1, rsp0, rsp1, rsp2, reserved2, ist1, ist2, ist3, ist4, ist5, ist6, ist7, reserved3,
    reserved4, iopbOffset]

theorem mem_order (f : TssField) : f ∈ order := by
  cases f <;> decide

theorem fits : (order.map size).sum ≤ 2 ^ 64 := by
  decide

end TssField

/-- `struct tss_struct` -/
def tssStruct : Packed TssField :=
  ⟨TssField.size, TssField.order, TssField.mem_order, TssField.fits⟩

/-- The fields of `struct tss_gdt_entry`. -/
inductive TssGdtField where
  | limitLow | baseLow | baseMiddle | access | granularity | baseHigh | baseUpper | reserved
  deriving DecidableEq

namespace TssGdtField

def size : TssGdtField → ℕ
  | limitLow => 2
  | baseLow => 2
  | baseMiddle => 1
  | access => 1
  | granularity => 1
  | baseHigh => 1
  | baseUpper => 4
  | reserved => 4

def order : List TssGdtField :=
  [limitLow, baseLow, baseMiddle, access, granularity, baseHigh, baseUpper, reserved]

theorem mem_order (f : TssGdtField) : f ∈ order := by
  cases f <;> decide

theorem fits : (order.map size).sum ≤ 2 ^ 64 := by
  decide

end TssGdtField

/-- `struct tss_gdt_entry` -/
def tssGdtEntry : Packed TssGdtField :=
  ⟨TssGdtField.size, TssGdtField.order, TssGdtField.mem_order, TssGdtField.fits⟩

/-! ## The tables -/

/-- Where the linker puts the stubs, the tables and the stacks, which have 4096 bytes each. -/
structure Symbols where
  /-- The stubs `isr_0` to `isr_47`. -/
  isr : Fin 48 → Addr
  defaultInterrupt : Addr
  idt : Addr
  tss : Addr
  /-- The first byte of the stack. -/
  doubleFaultStack : Addr
  pageFaultStack : Addr
  generalProtectionStack : Addr

/-- The objects of `interrupts.c` and `gdt64`, and the registers that point to them. -/
structure Tables where
  idt : Mem
  idtp : Mem
  tss : Mem
  gdt : Mem
  idtrLimit : BitVec 16
  /-- The register that `lidt` loads. -/
  idtrBase : Addr
  /-- The register that `ltr` loads. -/
  tr : BitVec 16

/-- `idt_set_gate` -/
def idtSetGate (idt : Mem) (num : BitVec 8) (handler : Addr) (selector : BitVec 16)
    (ist typeAttr : BitVec 8) : Mem :=
  let entry := idtEntry.elem num.toNat
  let idt := idtEntry.set idt entry .isrLow (handler &&& 0xFFFF).toNat
  let idt := idtEntry.set idt entry .kernelCs selector.toNat
  let idt := idtEntry.set idt entry .ist ist.toNat
  let idt := idtEntry.set idt entry .attributes typeAttr.toNat
  let idt := idtEntry.set idt entry .isrMid ((handler >>> 16) &&& 0xFFFF).toNat
  let idt := idtEntry.set idt entry .isrHigh ((handler >>> 32) &&& 0xFFFFFFFF).toNat
  idtEntry.set idt entry .reserved 0

/-- The gates that `idt_init` sets one by one : number, stub and stack. -/
def isrGates : List (BitVec 8 × Fin 48 × BitVec 8) :=
  [(0, 0, 0), (1, 1, 0), (2, 2, 0), (3, 3, 0), (4, 4, 0), (5, 5, 0), (6, 6, 0), (7, 7, 0),
    (8, 8, 1), (9, 9, 0), (10, 10, 0), (11, 11, 0), (12, 12, 0), (13, 13, 3), (14, 14, 2),
    (15, 15, 0), (16, 16, 0), (17, 17, 0), (18, 18, 0), (19, 19, 0), (20, 20, 0), (21, 21, 0),
    (22, 22, 0), (23, 23, 0), (24, 24, 0), (25, 25, 0), (26, 26, 0), (27, 27, 0), (28, 28, 0),
    (29, 29, 0), (30, 30, 0), (31, 31, 0), (32, 32, 0), (33, 33, 0), (34, 34, 0), (35, 35, 0),
    (36, 36, 0), (37, 37, 0), (38, 38, 0), (39, 39, 0), (40, 40, 0), (41, 41, 0), (42, 42, 0),
    (43, 43, 0), (44, 44, 0), (45, 45, 0), (46, 46, 0), (47, 47, 0)]

namespace Tables

/-- `setup_tss` -/
def setupTss (t : Tables) (sym : Symbols) : Tables :=
  let tss := memset t.tss 0 0 tssStruct.bytes
  let tss := tssStruct.set tss 0 .ist1 (sym.doubleFaultStack + 4096).toNat
  let tss := tssStruct.set tss 0 .ist2 (sym.pageFaultStack + 4096).toNat
  let tss := tssStruct.set tss 0 .ist3 (sym.generalProtectionStack + 4096).toNat
  let tss := tssStruct.set tss 0 .iopbOffset tssStruct.bytes
  let tssBase := sym.tss
  let tssLimit := BitVec.ofNat 32 (tssStruct.bytes - 1)
  let entry : Mem := fun _ => 0
  let entry := tssGdtEntry.set entry 0 .limitLow (tssLimit &&& 0xFFFF).toNat
  let entry := tssGdtEntry.set entry 0 .baseLow (tssBase &&& 0xFFFF).toNat
  let entry := tssGdtEntry.set entry 0 .baseMiddle ((tssBase >>> 16) &&& 0xFF).toNat
  let entry := tssGdtEntry.set entry 0 .access 0x89
  let entry := tssGdtEntry.set entry 0 .granularity ((tssLimit >>> 16) &&& 0x0F).toNat
  let entry := tssGdtEntry.set entry 0 .baseHigh ((tssBase >>> 24) &&& 0xFF).toNat
  let entry := tssGdtEntry.set entry 0 .baseUpper ((tssBase >>> 32) &&& 0xFFFFFFFF).toNat
  let entry := tssGdtEntry.set entry 0 .reserved 0
  -- `&gdt64 + 3`, and `ltr`
  { t with tss := tss, gdt := memcpy t.gdt (8 * 3) entry 0 tssGdtEntry.bytes, tr := 0x18 }

/-- `idt_load` -/
def idtLoad (t : Tables) : Tables :=
  { t with
    idtrLimit := BitVec.ofNat 16 (loadLE t.idtp 0 2)
    idtrBase := read64 t.idtp 2 }

/-- `idt_init` -/
def idtInit (t : Tables) (sym : Symbols) : Tables :=
  let t := t.setupTss sym
  let idtp := idtPtr.set t.idtp 0 .limit (idtEntry.bytes * 256 - 1)
  let idtp := idtPtr.set idtp 0 .base sym.idt.toNat
  let idt := memset t.idt 0 0 (idtEntry.bytes * 256)
  let idt := isrGates.foldl
    (fun idt (num, isr, ist) => idtSetGate idt num (sym.isr isr) 0x08 ist 0x8E) idt
  let idt := (List.range' 48 208).foldl
    (fun idt i => idtSetGate idt (BitVec.ofNat 8 i) sym.defaultInterrupt 0x08 0 0x8E) idt
  { t with idt := idt, idtp := idtp }.idtLoad

end Tables

/-! ## The processor -/

/-- An entry of the interrupt descriptor table. -/
structure IdtGate where
  offset : Addr
  selector : BitVec 16
  ist : BitVec 3
  type : BitVec 4
  storage : Bool
  dpl : BitVec 2
  present : Bool

/-- The gate of a vector : 16 bytes, with the offset in three parts. -/
def IdtGate.decode (idt : Mem) (v : BitVec 8) : IdtGate :=
  let a := BitVec.ofNat 64 (v.toNat * 16)
  let attributes := BitVec.ofNat 8 (loadLE idt (a + 5) 1)
  { offset := BitVec.ofNat 32 (loadLE idt (a + 8) 4) ++ BitVec.ofNat 16 (loadLE idt (a + 6) 2) ++
      BitVec.ofNat 16 (loadLE idt (a + 0) 2)
    selector := BitVec.ofNat 16 (loadLE idt (a + 2) 2)
    ist := (BitVec.ofNat 8 (loadLE idt (a + 4) 1)).setWidth 3
    type := attributes.setWidth 4
    storage := attributes.getLsbD 4
    dpl := attributes.extractLsb' 5 2
    present := attributes.getLsbD 7 }

/-- The stack that a nonzero index of a gate selects in the task state segment. -/
def interruptStack (tss : Mem) (i : BitVec 3) : Addr :=
  read64 tss (BitVec.ofNat 64 (36 + 8 * (i.toNat - 1)))

/-- What the processor takes from the gate and the task state segment to deliver. -/
def IdtGate.toGate (g : IdtGate) (tss : Mem) : Gate where
  selector := g.selector
  offset := g.offset
  ist := if g.ist = 0 then none else some (interruptStack tss g.ist)

/-- A system descriptor of 16 bytes. -/
structure SystemDescriptor where
  base : Addr
  limit : BitVec 20
  type : BitVec 4
  storage : Bool
  dpl : BitVec 2
  present : Bool
  granularity : Bool

/-- The system descriptor of a selector, with the base in four parts and the limit in two. -/
def SystemDescriptor.decode (gdt : Mem) (selector : BitVec 16) : SystemDescriptor :=
  let a := BitVec.ofNat 64 (8 * (selector >>> 3).toNat)
  let access := BitVec.ofNat 8 (loadLE gdt (a + 5) 1)
  let flags := BitVec.ofNat 8 (loadLE gdt (a + 6) 1)
  { base := BitVec.ofNat 32 (loadLE gdt (a + 8) 4) ++ BitVec.ofNat 8 (loadLE gdt (a + 7) 1) ++
      BitVec.ofNat 8 (loadLE gdt (a + 4) 1) ++ BitVec.ofNat 16 (loadLE gdt (a + 2) 2)
    limit := flags.setWidth 4 ++ BitVec.ofNat 16 (loadLE gdt (a + 0) 2)
    type := access.setWidth 4
    storage := access.getLsbD 4
    dpl := access.extractLsb' 5 2
    present := access.getLsbD 7
    granularity := flags.getLsbD 7 }

/-- The stub of a vector. -/
def Symbols.handler (sym : Symbols) (v : BitVec 8) : Addr :=
  if h : v.toNat < 48 then sym.isr ⟨v.toNat, h⟩ else sym.defaultInterrupt

/-- The stack of a fault that has one of its own. -/
def Symbols.faultStack (sym : Symbols) (v : BitVec 8) : Option Addr :=
  if v = 8 then some sym.doubleFaultStack
  else if v = 13 then some sym.generalProtectionStack
  else if v = 14 then some sym.pageFaultStack
  else none

/-! ## Gates -/

/-- What `idt_set_gate` stores in each field. -/
def gateValue (handler : Addr) (selector : BitVec 16) (ist typeAttr : BitVec 8) : IdtField → ℕ
  | .isrLow => (handler &&& 0xFFFF).toNat
  | .kernelCs => selector.toNat
  | .ist => ist.toNat
  | .attributes => typeAttr.toNat
  | .isrMid => ((handler >>> 16) &&& 0xFFFF).toNat
  | .isrHigh => ((handler >>> 32) &&& 0xFFFFFFFF).toNat
  | .reserved => 0

section Gates

variable {idt : Mem} {num v : BitVec 8} {handler : Addr} {selector : BitVec 16}
  {ist typeAttr : BitVec 8}

/-- A field of a gate as it was set. -/
theorem get_idtSetGate (f : IdtField) :
    idtEntry.get (idtSetGate idt num handler selector ist typeAttr) (idtEntry.elem num.toNat) f =
      gateValue handler selector ist typeAttr f % 256 ^ idtEntry.size f := by
  unfold idtSetGate
  simp only [Packed.get_set]
  cases f <;> rfl

theorem elem_fits (num : BitVec 8) : (num.toNat + 1) * idtEntry.bytes ≤ 2 ^ 64 := by
  have hlt := num.isLt
  rw [show idtEntry.bytes = 16 from rfl]
  omega

theorem get_idtSetGate_of_ne (h : v ≠ num) (f : IdtField) :
    idtEntry.get (idtSetGate idt num handler selector ist typeAttr) (idtEntry.elem v.toNat) f =
      idtEntry.get idt (idtEntry.elem v.toNat) f := by
  have hne : v.toNat ≠ num.toNat := fun heq => h (BitVec.eq_of_toNat_eq heq)
  unfold idtSetGate
  simp only [Packed.get_set_elem (elem_fits num) (elem_fits v) hne]

/-- The processor looks for the parts of a gate where the struct has its fields. -/
theorem IdtGate.decode_eq (idt : Mem) (v : BitVec 8) : IdtGate.decode idt v =
    let get := idtEntry.get idt (idtEntry.elem v.toNat)
    { offset := BitVec.ofNat 32 (get .isrHigh) ++ BitVec.ofNat 16 (get .isrMid) ++
        BitVec.ofNat 16 (get .isrLow)
      selector := BitVec.ofNat 16 (get .kernelCs)
      ist := (BitVec.ofNat 8 (get .ist)).setWidth 3
      type := (BitVec.ofNat 8 (get .attributes)).setWidth 4
      storage := (BitVec.ofNat 8 (get .attributes)).getLsbD 4
      dpl := (BitVec.ofNat 8 (get .attributes)).extractLsb' 5 2
      present := (BitVec.ofNat 8 (get .attributes)).getLsbD 7 } :=
  rfl

/-- A gate reads back as it was set. -/
theorem decode_idtSetGate :
    IdtGate.decode (idtSetGate idt num handler selector ist typeAttr) num =
      { offset := handler
        selector := selector
        ist := ist.setWidth 3
        type := typeAttr.setWidth 4
        storage := typeAttr.getLsbD 4
        dpl := typeAttr.extractLsb' 5 2
        present := typeAttr.getLsbD 7 } := by
  have hlow : BitVec.ofNat 16 ((handler &&& 0xFFFF).toNat % 256 ^ 2) = handler.setWidth 16 :=
    Packed.ofNat_mask (k := 2) handler rfl
  have hmid : BitVec.ofNat 16 (((handler >>> 16) &&& 0xFFFF).toNat % 256 ^ 2) =
      (handler >>> 16).setWidth 16 :=
    Packed.ofNat_mask (k := 2) (handler >>> 16) rfl
  have hhigh : BitVec.ofNat 32 (((handler >>> 32) &&& 0xFFFFFFFF).toNat % 256 ^ 4) =
      (handler >>> 16 >>> 16).setWidth 32 :=
    Packed.ofNat_mask (k := 4) (handler >>> 32) rfl
  have hoffset : (handler >>> 16 >>> 16).setWidth 32 ++ (handler >>> 16).setWidth 16 ++
      handler.setWidth 16 = handler := by
    rw [Packed.append_setWidth (handler >>> 16) 16 32]
    exact (Packed.append_setWidth handler 16 48).trans (BitVec.setWidth_eq handler)
  have hselector : BitVec.ofNat 16 (selector.toNat % 256 ^ 2) = selector :=
    (Packed.ofNat_toNat_mod selector 2).trans (BitVec.setWidth_eq selector)
  have hbyte : ∀ b : BitVec 8, BitVec.ofNat 8 (b.toNat % 256 ^ 1) = b := fun b =>
    (Packed.ofNat_toNat_mod b 1).trans (BitVec.setWidth_eq b)
  rw [IdtGate.decode_eq]
  simp only [get_idtSetGate]
  change IdtGate.mk (BitVec.ofNat 32 (((handler >>> 32) &&& 0xFFFFFFFF).toNat % 256 ^ 4) ++
    BitVec.ofNat 16 (((handler >>> 16) &&& 0xFFFF).toNat % 256 ^ 2) ++
    BitVec.ofNat 16 ((handler &&& 0xFFFF).toNat % 256 ^ 2))
    (BitVec.ofNat 16 (selector.toNat % 256 ^ 2))
    ((BitVec.ofNat 8 (ist.toNat % 256 ^ 1)).setWidth 3)
    ((BitVec.ofNat 8 (typeAttr.toNat % 256 ^ 1)).setWidth 4)
    ((BitVec.ofNat 8 (typeAttr.toNat % 256 ^ 1)).getLsbD 4)
    ((BitVec.ofNat 8 (typeAttr.toNat % 256 ^ 1)).extractLsb' 5 2)
    ((BitVec.ofNat 8 (typeAttr.toNat % 256 ^ 1)).getLsbD 7) = _
  rw [hlow, hmid, hhigh, hoffset, hselector, hbyte, hbyte]

theorem decode_idtSetGate_of_ne (h : v ≠ num) :
    IdtGate.decode (idtSetGate idt num handler selector ist typeAttr) v =
      IdtGate.decode idt v := by
  simp only [IdtGate.decode_eq, get_idtSetGate_of_ne h]

end Gates

/-! ## The interrupt descriptor table -/

/-- Set gates one after the other : number, handler and stack. -/
def setGates (gates : List (BitVec 8 × Addr × BitVec 8)) (idt : Mem) : Mem :=
  gates.foldl (fun idt (num, handler, ist) => idtSetGate idt num handler 0x08 ist 0x8E) idt

/-- A gate that is not set reads back as before. -/
theorem decode_setGates_of_notMem {v : BitVec 8} :
    ∀ (gates : List (BitVec 8 × Addr × BitVec 8)) (idt : Mem), v ∉ gates.map Prod.fst →
      IdtGate.decode (setGates gates idt) v = IdtGate.decode idt v
  | [], _, _ => rfl
  | g :: gates, idt, h => by
    rw [List.map_cons, List.mem_cons, not_or] at h
    exact (decode_setGates_of_notMem gates _ h.2).trans (decode_idtSetGate_of_ne h.1)

/-- Each gate that is set once is found in the table. -/
theorem decode_setGates {g : BitVec 8 × Addr × BitVec 8} :
    ∀ (gates : List (BitVec 8 × Addr × BitVec 8)) (idt : Mem), (gates.map Prod.fst).Nodup →
      g ∈ gates → IdtGate.decode (setGates gates idt) g.1 =
        { offset := g.2.1
          selector := 0x08
          ist := g.2.2.setWidth 3
          type := 0xE
          storage := false
          dpl := 0
          present := true }
  | [], _, _, hg => absurd hg List.not_mem_nil
  | g' :: gates, idt, hnodup, hg => by
    obtain ⟨hnum, hrest⟩ := List.nodup_cons.1 hnodup
    rcases List.mem_cons.1 hg with rfl | hg
    · exact (decode_setGates_of_notMem gates _ hnum).trans decode_idtSetGate
    · exact decode_setGates gates _ hrest hg

/-- The stack index that `idt_init` gives a vector. -/
def istIndex (v : BitVec 8) : BitVec 8 :=
  if v = 8 then 1 else if v = 13 then 3 else if v = 14 then 2 else 0

/-- The gates with numbers of their own stubs, with the stack index of each. -/
theorem isrGates_eq : isrGates = (List.finRange 48).map fun i =>
    (BitVec.ofNat 8 i.val, i, istIndex (BitVec.ofNat 8 i.val)) := by
  rfl

/-- The gates that `idt_init` sets. -/
def Symbols.gates (sym : Symbols) : List (BitVec 8 × Addr × BitVec 8) :=
  isrGates.map (fun (num, isr, ist) => (num, sym.isr isr, ist)) ++
    (List.range' 48 208).map fun i => (BitVec.ofNat 8 i, sym.defaultInterrupt, 0)

theorem nums_gates (sym : Symbols) :
    sym.gates.map Prod.fst = (List.range 256).map (BitVec.ofNat 8) := by
  have hrange : List.range 256 = List.range 48 ++ List.range' 48 208 := by
    rw [List.range_eq_range', List.range_eq_range']
    exact (List.range'_append_1 (s := 0) (m := 48) (n := 208)).symm
  rw [Symbols.gates, List.map_append, List.map_map, List.map_map, hrange, List.map_append]
  rfl

theorem nodup_gates (sym : Symbols) : (sym.gates.map Prod.fst).Nodup := by
  rw [nums_gates]
  refine List.nodup_range.map_on fun i hi j hj h => ?_
  rw [List.mem_range] at hi hj
  have hval := congrArg BitVec.toNat h
  rwa [BitVec.toNat_ofNat, BitVec.toNat_ofNat, Nat.mod_eq_of_lt hi, Nat.mod_eq_of_lt hj] at hval

/-- Every vector has its gate. -/
theorem mem_gates (sym : Symbols) (v : BitVec 8) :
    (v, sym.handler v, istIndex v) ∈ sym.gates := by
  have hv : BitVec.ofNat 8 v.toNat = v := by
    rw [BitVec.ofNat_toNat, BitVec.setWidth_eq]
  unfold Symbols.handler
  split_ifs with h
  · refine List.mem_append_left _ (List.mem_map.2 ⟨(v, ⟨v.toNat, h⟩, istIndex v), ?_, rfl⟩)
    rw [isrGates_eq]
    refine List.mem_map.2 ⟨⟨v.toNat, h⟩, List.mem_finRange _, ?_⟩
    dsimp only
    rw [hv]
  · have hist : istIndex v = 0 := by
      rw [istIndex, if_neg, if_neg, if_neg]
      all_goals
        rintro rfl
        exact h (by decide)
    rw [hist]
    refine List.mem_append_right _ (List.mem_map.2 ⟨v.toNat, ?_, ?_⟩)
    · rw [List.mem_range'_1]
      have := v.isLt
      omega
    · rw [hv]

/-! ## The task state segment and its descriptor -/

/-- The processor looks for the stacks where the struct has its fields. -/
theorem interruptStack_eq (tss : Mem) :
    interruptStack tss 1 = BitVec.ofNat 64 (tssStruct.get tss 0 .ist1) ∧
    interruptStack tss 2 = BitVec.ofNat 64 (tssStruct.get tss 0 .ist2) ∧
    interruptStack tss 3 = BitVec.ofNat 64 (tssStruct.get tss 0 .ist3) :=
  ⟨rfl, rfl, rfl⟩

/-- The processor looks for the parts of the descriptor where the struct has its fields. -/
theorem SystemDescriptor.decode_eq (gdt : Mem) : SystemDescriptor.decode gdt 0x18 =
    let get := tssGdtEntry.get gdt (8 * 3)
    { base := BitVec.ofNat 32 (get .baseUpper) ++ BitVec.ofNat 8 (get .baseHigh) ++
        BitVec.ofNat 8 (get .baseMiddle) ++ BitVec.ofNat 16 (get .baseLow)
      limit := (BitVec.ofNat 8 (get .granularity)).setWidth 4 ++ BitVec.ofNat 16 (get .limitLow)
      type := (BitVec.ofNat 8 (get .access)).setWidth 4
      storage := (BitVec.ofNat 8 (get .access)).getLsbD 4
      dpl := (BitVec.ofNat 8 (get .access)).extractLsb' 5 2
      present := (BitVec.ofNat 8 (get .access)).getLsbD 7
      granularity := (BitVec.ofNat 8 (get .granularity)).getLsbD 7 } :=
  rfl

/-- The fields of a struct that was copied. -/
theorem get_memcpy {F : Type*} [DecidableEq F] (S : Packed F) (m src : Mem) (dst p : Addr) (f : F) :
    S.get (memcpy m dst src p S.bytes) dst f = S.get src p f :=
  loadLE_memcpy S.fits (S.end_le f)

namespace Tables

variable (t : Tables) (sym : Symbols)

/-- The stacks that `setup_tss` puts into the task state segment. -/
theorem interruptStack_setupTss :
    interruptStack (t.setupTss sym).tss 1 = sym.doubleFaultStack + 4096 ∧
    interruptStack (t.setupTss sym).tss 2 = sym.pageFaultStack + 4096 ∧
    interruptStack (t.setupTss sym).tss 3 = sym.generalProtectionStack + 4096 := by
  have hword : ∀ x : Addr, BitVec.ofNat 64 (x.toNat % 256 ^ 8) = x := fun x =>
    (Packed.ofNat_toNat_mod x 8).trans (BitVec.setWidth_eq x)
  obtain ⟨hone, htwo, hthree⟩ := interruptStack_eq (t.setupTss sym).tss
  rw [hone, htwo, hthree]
  unfold setupTss
  simp only [Packed.get_set, reduceCtorEq, if_true, if_false]
  exact ⟨hword _, hword _, hword _⟩

/-- The descriptor that `setup_tss` makes. -/
theorem decode_setupTss : SystemDescriptor.decode (t.setupTss sym).gdt 0x18 =
    { base := sym.tss
      limit := BitVec.ofNat 20 (tssStruct.bytes - 1)
      type := 9
      storage := false
      dpl := 0
      present := true
      granularity := false } := by
  rw [SystemDescriptor.decode_eq]
  unfold setupTss
  simp only [get_memcpy, Packed.get_set, reduceCtorEq, if_true, if_false]
  have hlow : BitVec.ofNat 16 ((sym.tss &&& 0xFFFF).toNat % 256 ^ 2) = sym.tss.setWidth 16 :=
    Packed.ofNat_mask (k := 2) sym.tss rfl
  have hmiddle : BitVec.ofNat 8 (((sym.tss >>> 16) &&& 0xFF).toNat % 256 ^ 1) =
      (sym.tss >>> 16).setWidth 8 :=
    Packed.ofNat_mask (k := 1) (sym.tss >>> 16) rfl
  have hhigh : BitVec.ofNat 8 (((sym.tss >>> 24) &&& 0xFF).toNat % 256 ^ 1) =
      (sym.tss >>> 16 >>> 8).setWidth 8 :=
    Packed.ofNat_mask (k := 1) (sym.tss >>> 24) rfl
  have hupper : BitVec.ofNat 32 (((sym.tss >>> 32) &&& 0xFFFFFFFF).toNat % 256 ^ 4) =
      (sym.tss >>> 16 >>> 8 >>> 8).setWidth 32 :=
    Packed.ofNat_mask (k := 4) (sym.tss >>> 32) rfl
  have hbase : (sym.tss >>> 16 >>> 8 >>> 8).setWidth 32 ++ (sym.tss >>> 16 >>> 8).setWidth 8 ++
      (sym.tss >>> 16).setWidth 8 ++ sym.tss.setWidth 16 = sym.tss := by
    rw [Packed.append_setWidth (sym.tss >>> 16 >>> 8) 8 32,
      Packed.append_setWidth (sym.tss >>> 16) 8 40]
    exact (Packed.append_setWidth sym.tss 16 48).trans (BitVec.setWidth_eq sym.tss)
  rw [← hupper, ← hhigh, ← hmiddle, ← hlow] at hbase
  exact congrArg (fun base => SystemDescriptor.mk base _ _ _ _ _ _) hbase

/-- The other descriptors are left alone. -/
theorem gdt_setupTss {x : Addr} (h : ¬ Within (8 * 3) tssGdtEntry.bytes x) :
    (t.setupTss sym).gdt x = t.gdt x := by
  unfold setupTss
  dsimp only
  rw [memcpy_apply _ _ _ _ _ tssGdtEntry.bytes_le, if_neg h]

/-! ## All tables -/

/-- The descriptor table after `idt_init`. -/
theorem idt_idtInit : (t.idtInit sym).idt =
    setGates sym.gates (memset (t.setupTss sym).idt 0 0 (idtEntry.bytes * 256)) := by
  unfold idtInit idtLoad setGates Symbols.gates
  dsimp only
  rw [List.foldl_append, List.foldl_map, List.foldl_map]

/-- Every gate of the table after `idt_init`. -/
theorem decode_idtInit (v : BitVec 8) : IdtGate.decode (t.idtInit sym).idt v =
    { offset := sym.handler v
      selector := 0x08
      ist := (istIndex v).setWidth 3
      type := 0xE
      storage := false
      dpl := 0
      present := true } := by
  have hgate := decode_setGates sym.gates
    (memset (t.setupTss sym).idt 0 0 (idtEntry.bytes * 256)) (nodup_gates sym) (mem_gates sym v)
  rw [idt_idtInit]
  exact hgate

/-- The stack index of a vector selects the stack of its fault, if it has one. -/
theorem toGate_istIndex (v : BitVec 8) {g : IdtGate} (h : g.ist = (istIndex v).setWidth 3) :
    (g.toGate (t.setupTss sym).tss).ist = (sym.faultStack v).map (· + 4096) := by
  obtain ⟨hone, htwo, hthree⟩ := interruptStack_setupTss t sym
  unfold IdtGate.toGate Symbols.faultStack
  rw [h, istIndex]
  dsimp only
  by_cases h8 : v = 8
  · rw [if_pos h8, if_pos h8]
    exact congrArg some hone
  by_cases h13 : v = 13
  · rw [if_neg h8, if_neg h8, if_pos h13, if_pos h13]
    exact congrArg some hthree
  by_cases h14 : v = 14
  · rw [if_neg h8, if_neg h8, if_neg h13, if_neg h13, if_pos h14, if_pos h14]
    exact congrArg some htwo
  · rw [if_neg h8, if_neg h8, if_neg h13, if_neg h13, if_neg h14, if_neg h14]
    rfl

theorem istIndex_ne_zero (v : BitVec 8) :
    (istIndex v).setWidth 3 ≠ 0 ↔ v = 8 ∨ v = 13 ∨ v = 14 := by
  unfold istIndex
  split_ifs with h8 h13 h14
  · exact iff_of_true (by decide) (Or.inl h8)
  · exact iff_of_true (by decide) (Or.inr (Or.inl h13))
  · exact iff_of_true (by decide) (Or.inr (Or.inr h14))
  · exact iff_of_false (by decide) (not_or.2 ⟨h8, not_or.2 ⟨h13, h14⟩⟩)

/-- `lidt` finds the fields of `idtp`. -/
theorem idtLoad_eq (t : Tables) : t.idtLoad = { t with
    idtrLimit := BitVec.ofNat 16 (idtPtr.get t.idtp 0 .limit)
    idtrBase := BitVec.ofNat 64 (idtPtr.get t.idtp 0 .base) } :=
  rfl

/-- What `lidt` loads. -/
theorem idtr_idtInit : (t.idtInit sym).idtrBase = sym.idt ∧
    (t.idtInit sym).idtrLimit = BitVec.ofNat 16 (idtEntry.bytes * 256 - 1) := by
  unfold idtInit
  rw [idtLoad_eq]
  simp only [Packed.get_set, reduceCtorEq, if_true, if_false]
  exact ⟨(Packed.ofNat_toNat_mod sym.idt 8).trans (BitVec.setWidth_eq _), rfl⟩

/-- After `idt_init` the processor finds what was meant. Every gate leads to the stub of its
vector, in ring 0, through the kernel code segment; the faults 8, 13 and 14, and no others, are
taken on the top of their own stacks; and the descriptor of the task state segment has its base
and its limit. -/
theorem idt_init_decodes :
    (∀ v, (IdtGate.decode (t.idtInit sym).idt v).toGate (t.idtInit sym).tss =
        { selector := 0x08
          offset := sym.handler v
          ist := (sym.faultStack v).map (· + 4096) } ∧
      (IdtGate.decode (t.idtInit sym).idt v).type = 0xE ∧
      (IdtGate.decode (t.idtInit sym).idt v).storage = false ∧
      (IdtGate.decode (t.idtInit sym).idt v).dpl = 0 ∧
      (IdtGate.decode (t.idtInit sym).idt v).present = true ∧
      ((IdtGate.decode (t.idtInit sym).idt v).ist ≠ 0 ↔ v = 8 ∨ v = 13 ∨ v = 14)) ∧
    SystemDescriptor.decode (t.idtInit sym).gdt (t.idtInit sym).tr =
      { base := sym.tss
        limit := BitVec.ofNat 20 (tssStruct.bytes - 1)
        type := 9
        storage := false
        dpl := 0
        present := true
        granularity := false } ∧
    (t.idtInit sym).tr = 0x18 ∧
    (t.idtInit sym).idtrBase = sym.idt ∧
    (t.idtInit sym).idtrLimit = BitVec.ofNat 16 (idtEntry.bytes * 256 - 1) ∧
    ∀ x, ¬ Within (8 * 3) tssGdtEntry.bytes x → (t.idtInit sym).gdt x = t.gdt x := by
  obtain ⟨hbase, hlimit⟩ := idtr_idtInit t sym
  refine ⟨fun v => ?_, decode_setupTss t sym, rfl, hbase, hlimit, fun x => gdt_setupTss t sym⟩
  rw [decode_idtInit]
  refine ⟨?_, rfl, rfl, rfl, rfl, istIndex_ne_zero v⟩
  exact congrArg (fun ist => Gate.mk 0x08 (sym.handler v) ist) (toGate_istIndex t sym v rfl)

end Tables

end KernelDev
