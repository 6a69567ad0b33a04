import Mathlib.Data.Fin.Tuple.Basic
import Mathlib.Data.List.Nodup
import Mathlib.Logic.Function.Basic

/-!
# The 8259A interrupt controller

A chip latches the requests of eight lines, masks them, and interrupts for the first line that is
pending as long as no line before it is in service, nor it itself (`Pic.next`). Acknowledging the
interrupt puts the line in service until an end-of-interrupt command (`Pic.ack`, `Pic.eoi`).
Initialisation words set the chip up again : the first one comes to the command port, and the chip
then awaits the others on its data port, where at other times it takes a mask (`PicPhase`).

In a `Cascade` the interrupt output of the slave is line 2 of the master. `Cascade.next` is the
line that the processor is interrupted for, and `PicLine.order` the order of priority of the
fifteen lines of devices.

A line that is in service holds back those behind it. The theorem about this is
`Cascade.Idle.next_eq` : with nothing in service the processor is interrupted for the first line in
the order of priority whose request is masked neither on its chip nor, for a line of the slave, on
the master (`Cascade.wanted`). Nothing is in service behind the end of interrupt for the only line
that was (`Pic.OneServed.eoi`), and acknowledging a line and ending its interrupt takes its request
and leaves the rest of the chip as it was (`Pic.Idle.eoi_ack`).

Requests come and go at any time. What is proved about the other registers is therefore said of the
chip with no request latched (`Pic.unlatched`), or with no mask either (`Pic.fixed`), on which the
commands work as on the chip itself. Priority is fixed and fully nested; the commands for rotation,
for special masks and for reading the registers are left out.
-/

/-- A chip has lines. -/
instance picLines : @NeZero ℕ Zero.ofOfNat0 8 := ⟨Nat.succ_ne_zero 7⟩

/-- What a chip awaits on its data port : a mask, or an initialisation word. -/
inductive PicPhase where
  | ready | icw2 | icw3 | icw4
  deriving DecidableEq

/-- The state of a chip : the requests it has latched, the lines in service, the mask, and what
the initialisation words have set. -/
structure Pic where
  /-- The requests that are latched. -/
  irr : Fin 8 → Bool
  /-- The lines in service. -/
  isr : Fin 8 → Bool
  /-- The mask, a bit for each line. -/
  imr : BitVec 8
  /-- The vector of line 0. -/
  base : BitVec 8
  cascade : BitVec 8
  mode8086 : Bool
  needsIcw4 : Bool
  phase : PicPhase

namespace Pic

/-- A request that is not masked. -/
def pending (c : Pic) (i : Fin 8) : Bool :=
  c.irr i && !c.imr.getLsbD i

/-- The line the chip interrupts for. -/
def next (c : Pic) : Option (Fin 8) :=
  (Fin.find? fun i => c.isr i || c.pending i).filter fun i => !c.isr i

/-- The vector of a line. -/
def vector (c : Pic) (i : Fin 8) : BitVec 8 :=
  c.base &&& 0xf8 ||| BitVec.ofNat 8 i

/-- The interrupt for a line is acknowledged. -/
def ack (c : Pic) (i : Fin 8) : Pic :=
  { c with irr := Function.update c.irr i false, isr := Function.update c.isr i true }

/-- A request comes or goes. -/
def request (c : Pic) (i : Fin 8) (on : Bool) : Pic :=
  { c with irr := Function.update c.irr i on }

/-- The lines go from `was` to `now`, and the requests of those that rise are latched. -/
def latch (c : Pic) (was now : Fin 8 → Bool) : Pic :=
  { c with irr := fun i => c.irr i || now i && !was i }

/-- The chip with no request latched. -/
def unlatched (c : Pic) : Pic :=
  { c with irr := fun _ => false }

/-- The chip with no request latched and no line masked. -/
def fixed (c : Pic) : Pic :=
  { c with irr := fun _ => false, imr := 0 }

/-- End of interrupt : the first line in service is so no longer. -/
def eoi (c : Pic) : Pic :=
  match Fin.find? c.isr with
  | some i => { c with isr := Function.update c.isr i false }
  | none => c

/-- A write to the command port : the first initialisation word, or an end of interrupt. -/
def writeCommand (c : Pic) (v : BitVec 8) : Pic :=
  if v.getLsbD 4 then
    { c with
      irr := fun _ => false, isr := fun _ => false, imr := 0, mode8086 := false
      needsIcw4 := v.getLsbD 0, phase := .icw2 }
  else if v = 0x20 then c.eoi
  else c

/-- A write to the data port. -/
def writeData (c : Pic) (v : BitVec 8) : Pic :=
  match c.phase with
  | .ready => { c with imr := v }
  | .icw2 => { c with base := v, phase := .icw3 }
  | .icw3 => { c with cascade := v, phase := if c.needsIcw4 then .icw4 else .ready }
  | .icw4 => { c with mode8086 := v.getLsbD 0, phase := .ready }

/-- A read of the command port : the requests, where no command has selected another register. -/
def readCommand (c : Pic) : BitVec 8 :=
  (List.finRange 8).foldl (fun v i => if c.irr i then v ||| 1 <<< i.val else v) 0

/-- No line is in service. -/
def Idle (c : Pic) : Prop :=
  ∀ i, c.isr i = false

/-- At most one line is in service. -/
def OneServed (c : Pic) : Prop :=
  ∀ i j, c.isr i = true → c.isr j = true → i = j

variable {c : Pic} {i j : Fin 8}

theorem pending_request_self (c : Pic) (i : Fin 8) (on : Bool) :
    (c.request i on).pending i = (on && !c.imr.getLsbD i) := by
  show (Function.update c.irr i on i && !c.imr.getLsbD i) = _
  rw [Function.update_self]

theorem pending_request_of_ne (c : Pic) (h : i ≠ j) (on : Bool) :
    (c.request j on).pending i = c.pending i := by
  show (Function.update c.irr j on i && !c.imr.getLsbD i) = _
  rw [Function.update_of_ne h, pending]

theorem unlatched_eoi (c : Pic) : c.eoi.unlatched = c.unlatched.eoi := by
  unfold eoi unlatched
  dsimp only
  split <;> rfl

/-- A command does not look at requests. -/
theorem unlatched_writeCommand (c : Pic) (v : BitVec 8) :
    (c.writeCommand v).unlatched = c.unlatched.writeCommand v := by
  unfold writeCommand
  split_ifs
  · rfl
  · exact c.unlatched_eoi
  · rfl

theorem unlatched_writeData (c : Pic) (v : BitVec 8) :
    (c.writeData v).unlatched = c.unlatched.writeData v := by
  unfold writeData unlatched
  dsimp only
  split <;> rfl

theorem fixed_eoi (c : Pic) : c.eoi.fixed = c.fixed.eoi := by
  unfold eoi fixed
  dsimp only
  split <;> rfl

/-- The line that is acknowledged is in service. -/
theorem isr_ack (c : Pic) (i : Fin 8) : (c.ack i).isr i = true := by
  show Function.update c.isr i true i = true
  rw [Function.update_self]

/-- A chip that awaits no initialisation word takes a mask. -/
theorem fixed_writeData (h : c.phase = .ready) (v : BitVec 8) :
    (c.writeData v).fixed = c.fixed := by
  cases c
  cases h
  rfl

/-- With no line in service the chip interrupts for the first pending line. -/
theorem Idle.next_eq (h : c.Idle) : c.next = Fin.find? c.pending := by
  have hfirst : (fun i => c.isr i || c.pending i) = c.pending := by
    funext i
    rw [h i, Bool.false_or]
  have hfree : (fun i => !c.isr i) = fun _ => true := by
    funext i
    rw [h i, Bool.not_false]
  rw [next, hfirst, hfree]
  cases Fin.find? c.pending <;> rfl

/-- No line is at most one. -/
theorem Idle.oneServed (h : c.Idle) : c.OneServed := by
  intro i j hi
  simp [h i] at hi

/-- With nothing in service, acknowledging puts one line in service. -/
theorem Idle.ack (h : c.Idle) (i : Fin 8) : (c.ack i).OneServed := by
  have hserved : ∀ j, (c.ack i).isr j = true → j = i := by
    intro j hj
    by_contra hne
    rw [Pic.ack] at hj
    simp [Function.update_of_ne hne, h j] at hj
  intro j k hj hk
  rw [hserved j hj, hserved k hk]

/-- The end of interrupt for the only line that can be in service. -/
theorem OneServed.eoi (h : c.OneServed) : c.eoi.Idle := by
  unfold Pic.eoi
  cases hfind : Fin.find? c.isr with
  | none => exact Fin.find?_eq_none_iff.1 hfind
  | some i =>
    intro j
    by_cases hj : j = i
    · rw [hj]
      exact Function.update_self i false c.isr
    · rw [show (_ : Pic).isr j = _ from Function.update_of_ne hj false c.isr]
      by_contra hserved
      exact hj (h j i (by simpa using hserved) (Fin.find?_eq_some_iff.1 hfind).1)

/-- With nothing in service there is nothing to end. -/
theorem Idle.eoi (h : c.Idle) : c.eoi = c := by
  rw [Pic.eoi, Fin.find?_eq_none_iff.2 h]

/-- All that the end of interrupt changes. -/
theorem eoi_eq (c : Pic) : c.eoi = { c with isr := c.eoi.isr } := by
  unfold Pic.eoi
  split <;> rfl

/-- The end of interrupt for a line acknowledged while none was in service. -/
theorem Idle.eoi_ack (h : c.Idle) (i : Fin 8) : (c.ack i).eoi = c.request i false := by
  have hidle := (h.ack i).eoi
  have hisr : (c.ack i).eoi.isr = c.isr := funext fun j => (hidle j).trans (h j).symm
  rw [eoi_eq, hisr]
  rfl

end Pic

/-- A line of two chips in cascade. -/
inductive PicLine where
  | master (i : Fin 8)
  | slave (j : Fin 8)
  deriving DecidableEq

/-- Two chips, of which the slave interrupts on line 2 of the master. -/
structure Cascade where
  master : Pic
  slave : Pic

namespace PicLine

/-- The lines of devices, the first with the highest priority. -/
def order : List PicLine :=
  (List.finRange 8).flatMap fun i =>
    if i = 2 then (List.finRange 8).map .slave else [.master i]

/-- The number of a line. -/
def irq : PicLine → Fin 16
  | .master i => i.castLE (by decide)
  | .slave j => j.natAdd 8

/-- Lines have different numbers. -/
theorem irq_injective : Function.Injective irq := by
  intro l l' h
  have hval := congrArg Fin.val h
  cases l with
  | master i =>
    cases l' with
    | master i' => exact congrArg master (Fin.ext hval)
    | slave j' => exact absurd hval (by simpa [irq] using by omega)
  | slave j =>
    cases l' with
    | master i' => exact absurd hval (by simpa [irq] using by omega)
    | slave j' => exact congrArg slave (Fin.ext (by simpa [irq] using hval))

end PicLine

namespace Cascade

open PicLine

/-- The master, with the interrupt output of the slave on line 2. -/
def seen (p : Cascade) : Pic :=
  p.master.request 2 p.slave.next.isSome

/-- The line that the processor is interrupted for. -/
def next (p : Cascade) : Option PicLine :=
  p.seen.next.bind fun i => if i = 2 then p.slave.next.map .slave else some (.master i)

/-- A request that is masked neither on its chip nor, for a line of the slave, on the master. -/
def wanted (p : Cascade) : PicLine → Bool
  | .master i => decide (i ≠ 2) && p.master.pending i
  | .slave j => !p.master.imr.getLsbD 2 && p.slave.pending j

/-- The vector of a line. -/
def vector (p : Cascade) : PicLine → BitVec 8
  | .master i => p.master.vector i
  | .slave j => p.slave.vector j

/-- A line is masked on its own chip. -/
def masked (p : Cascade) : PicLine → Bool
  | .master i => p.master.imr.getLsbD i
  | .slave j => p.slave.imr.getLsbD j

/-- The request of a line is latched. -/
def latched (p : Cascade) : PicLine → Bool
  | .master i => p.master.irr i
  | .slave j => p.slave.irr j

/-- A request comes or goes. -/
def request (p : Cascade) (on : Bool) : PicLine → Cascade
  | .master i => { p with master := p.master.request i on }
  | .slave j => { p with slave := p.slave.request j on }

/-- The lines go from `was` to `now`. -/
def latch (p : Cascade) (was now : PicLine → Bool) : Cascade :=
  ⟨p.master.latch (fun i => was (.master i)) fun i => now (.master i),
    p.slave.latch (fun j => was (.slave j)) fun j => now (.slave j)⟩

/-- The chips after the interrupt for a line and the ends of interrupt for it. -/
def served (p : Cascade) : PicLine → Cascade
  | .master i => { p with master := (p.master.ack i).eoi }
  | .slave j => ⟨(p.master.ack 2).eoi, (p.slave.ack j).eoi⟩

/-- The chips with no request latched. -/
def unlatched (p : Cascade) : Cascade :=
  ⟨p.master.unlatched, p.slave.unlatched⟩

/-- The chips with no request latched and no line masked. -/
def fixed (p : Cascade) : Cascade :=
  ⟨p.master.fixed, p.slave.fixed⟩

/-- At most one line of each chip is in service. -/
structure OneServed (p : Cascade) : Prop where
  master : p.master.OneServed
  slave : p.slave.OneServed

/-- No line is in service. -/
structure Idle (p : Cascade) : Prop where
  master : p.master.Idle
  slave : p.slave.Idle

variable {p : Cascade} {l : PicLine}

/-- A line that is masked is not wanted. -/
theorem wanted_of_masked (h : p.masked l = true) : p.wanted l = false := by
  cases l with
  | master i =>
    have hmask : p.master.imr.getLsbD i = true := h
    rw [wanted, Pic.pending, hmask, Bool.not_true, Bool.and_false, Bool.and_false]
  | slave j =>
    have hmask : p.slave.imr.getLsbD j = true := h
    rw [wanted, Pic.pending, hmask, Bool.not_true, Bool.and_false, Bool.and_false]

/-- The first hit of a search, and what is made of it, as one search. -/
theorem find_bind {A B : Type*} {q : A → Bool} {f g : A → Option B} (l : List A)
    (hyes : ∀ a, q a = true → (f a).isSome = true ∧ g a = f a)
    (hno : ∀ a, q a = false → g a = none) :
    (l.find? q).bind f = l.findSome? g := by
  induction l with
  | nil => rfl
  | cons a l ih =>
    rw [List.find?_cons, List.findSome?_cons]
    cases hq : q a with
    | true =>
      obtain ⟨hsome, hg⟩ := hyes a hq
      obtain ⟨b, hb⟩ := Option.isSome_iff_exists.1 hsome
      rw [hg, hb, Option.bind_some, hb]
    | false => rw [hno a hq, ih]

/-- With no line in service the processor is interrupted for the first line that is wanted. -/
theorem Idle.next_eq (h : p.Idle) : p.next = order.find? p.wanted := by
  have hslave : ((List.finRange 8).map PicLine.slave).find? p.wanted =
      if p.master.imr.getLsbD 2 then none else p.slave.next.map .slave := by
    rw [List.find?_map, h.slave.next_eq, Fin.find?_eq_find?_finRange]
    cases hmask : p.master.imr.getLsbD 2 with
    | true => rw [List.find?_eq_none.2 (by simp [wanted, hmask]), if_pos rfl, Option.map_none]
    | false =>
      have hwanted : p.wanted ∘ PicLine.slave = p.slave.pending := by
        funext j
        rw [Function.comp_apply, wanted, hmask, Bool.not_false, Bool.true_and]
      rw [hwanted, if_neg Bool.false_ne_true]
  have hseen : p.seen.Idle := h.master
  rw [next, hseen.next_eq, Fin.find?_eq_find?_finRange, order, List.find?_flatMap]
  refine find_bind _ (fun i hi => ?_) fun i hi => ?_
  · by_cases h2 : i = 2
    · subst h2
      rw [seen, Pic.pending_request_self, Bool.and_eq_true, Bool.not_eq_true'] at hi
      have hmask : p.master.imr.getLsbD 2 = false := hi.2
      rw [if_pos rfl, if_pos rfl, hslave, hmask, if_neg Bool.false_ne_true, Option.isSome_map]
      exact ⟨hi.1, rfl⟩
    · rw [seen, Pic.pending_request_of_ne _ h2] at hi
      simp [h2, wanted, hi]
  · by_cases h2 : i = 2
    · subst h2
      rw [seen, Pic.pending_request_self, Bool.and_eq_false_iff, Bool.not_eq_false'] at hi
      rw [if_pos rfl, hslave]
      split_ifs with hmask
      · rfl
      · have hnone := hi.resolve_right hmask
        rw [Option.isSome_eq_false_iff, Option.isNone_iff_eq_none] at hnone
        rw [hnone, Option.map_none]
    · rw [seen, Pic.pending_request_of_ne _ h2] at hi
      simp [h2, wanted, hi]

end Cascade
