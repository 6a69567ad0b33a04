import KernelDev.Dispatch
import KernelDev.KeyboardDrivers
import KernelDev.SerialLog

/-!
# What the interrupt handlers do with the ports

The two handlers of the kernel have no loops, and neither has printing on the ports : they are
straight programs, of which the ports they read and write can be listed. The handler of the serial
port reads its registers; the one of the keyboard reads the status and the data of the controller.
What they print goes to the transmit register of the serial port and nowhere else (`Uart.Emits`),
as the screen is memory. None of this is at a port of the interrupt controllers.

Printing always has an outcome here. A call of `printk` whose arguments do not match its format has
none, but the handlers make calls with formats of their own : a line error is printed by one
(`serialInterruptHandler_some`), and a byte of the keyboard by a key or not at all
(`kbInterruptHandler_calls`).

`interruptHandler_irq` is the other half. The source has a branch for the keyboard, one for the
serial port and one for the lines that are left; they differ only in what they do if `irq_table`
has no handler (`missingIrq`), so for all of them a line is served in the same way.
-/

namespace KernelDev

open ByteMem

/-! ## What printing sends -/

/-- What is sent from `u` to `u'` goes to the transmit register. -/
def Uart.Emits (u u' : Uart) : Prop :=
  u'.portBase = u.portBase ∧
    ∃ bs : List (BitVec 8), u'.out = u.out ++ bs.map fun b => (u.portBase + comTransmitOffset, b)

namespace Uart

variable {u u' u'' : Uart}

theorem Emits.refl (u : Uart) : Emits u u :=
  ⟨rfl, [], (List.append_nil _).symm⟩

theorem Emits.trans (h : Emits u u') (h' : Emits u' u'') : Emits u u'' := by
  obtain ⟨hbase, bs, hout⟩ := h
  obtain ⟨hbase', bs', hout'⟩ := h'
  refine ⟨hbase'.trans hbase, bs ++ bs', ?_⟩
  rw [hout', hout, hbase, List.map_append, List.append_assoc]

/-- `hardware_write` sends from the queue to the transmit register. -/
theorem emits_hardwareWrite (u : Uart) : Emits u u.hardwareWrite := by
  unfold hardwareWrite
  split_ifs
  · exact ⟨rfl, [u.mem u.consumer], rfl⟩
  · exact .refl u

theorem emits_enqueueFrom (u : Uart) (buff : ℕ → BitVec 8) (n : ℕ) :
    Emits u (u.enqueueFrom buff n) := by
  induction n with
  | zero => exact .refl u
  | succ n ih =>
    rw [enqueueFrom, List.range_succ, List.foldl_append]
    exact ih

theorem emits_event (u : Uart) (e : SinkEvent) : Emits u (e.run u) := by
  cases e with
  | chunk bs => exact (emits_enqueueFrom u _ _).trans (emits_hardwareWrite _)
  | free => exact emits_hardwareWrite { u with txBusy := false }

/-- What events of the log send. -/
theorem emits_events (es : List SinkEvent) (u : Uart) : Emits u (es.foldl SinkEvent.run u) := by
  induction es generalizing u with
  | nil => exact .refl u
  | cons e es ih => exact (emits_event u e).trans (ih _)

end Uart

namespace Console

variable {s s' : Console}

/-- What printing sends. -/
theorem Logs.emits {es : List SinkEvent} (h : Logs s s' es) : Uart.Emits s.uart s'.uart := by
  rw [h.uart]
  exact Uart.emits_events es s.uart

theorem printAll_logs {calls : List KbPrint} (h : s.printAll calls = some s') :
    ∃ es, Logs s s' es := by
  refine ⟨_, logs_foldlM (calls.map fun call => .printk call.fmt call.args) ?_⟩
  rw [List.foldlM_map]
  exact h

/-- The handler of the serial port prints nothing that is not defined. -/
theorem serialInterruptHandler_some (s : Console) (iir lsr : BitVec 8) :
    ∃ s', s.serialInterruptHandler iir lsr = some s' := by
  have hservice : ∀ source, ∃ s', s.serviceInterrupt source lsr = some s' := by
    intro source
    obtain ⟨s', r, hs', -⟩ := s.lineError_prints lsr
    unfold serviceInterrupt
    split_ifs
    · exact ⟨s', by rw [hs']; rfl⟩
    all_goals exact ⟨_, rfl⟩
  unfold serialInterruptHandler
  split_ifs
  · exact ⟨s, rfl⟩
  · obtain ⟨s', hs'⟩ := hservice (iir &&& comIntIdentMask)
    dsimp only
    rw [hs']
    show ∃ t, (if iir &&& comIntIdentMask = comIntIdentTransmitterEmpty then
      some { s' with uart := s'.uart.transmitterEmpty } else some s') = some t
    split_ifs
    all_goals exact ⟨_, rfl⟩

end Console

/-- A byte makes the handler print a key or nothing. -/
theorem kbInterruptHandler_calls (k : KbStatics) (status scancode : BitVec 8) :
    (kbInterruptHandler k status scancode).2 = [] ∨
      (kbInterruptHandler k status scancode).2 = k.print scancode := by
  unfold kbInterruptHandler
  split_ifs
  all_goals first | exact .inl rfl | exact .inr rfl

/-! ## The handlers -/

section Straight

variable {ports : BitVec 16 → Prop} {gives : BitVec 16 → BitVec 8 → Prop}

theorem outbs_straight : ∀ {ws : List (BitVec 16 × BitVec 8)}, (∀ w ∈ ws, ports w.1) →
    (outbs ws).Straight ports gives fun _ => True
  | [], _ => trivial
  | w :: _, h => ⟨h w (List.mem_cons_self ..),
      outbs_straight fun w' hw' => h w' (List.mem_cons_of_mem _ hw')⟩

namespace Kernel

variable {s : Kernel} {Q : Kernel → Prop}

/-- Printing writes to the transmit register only. -/
theorem print_straight {c : Console}
    (hports : ports (s.console.uart.portBase + comTransmitOffset))
    (hc : Uart.Emits s.console.uart c.uart) (hQ : Q { s with console := c }) :
    (s.print (some c)).Straight ports gives Q := by
  obtain ⟨-, bs, hout⟩ := hc
  refine (outbs_straight fun w hw => ?_).bind fun _ _ => hQ
  rw [hout, List.drop_left] at hw
  obtain ⟨b, -, rfl⟩ := List.mem_map.1 hw
  exact hports

/-- What a scan code prints. -/
theorem kbPrint_straight (status scancode : BitVec 8)
    (hports : ports (s.console.uart.portBase + comTransmitOffset))
    (hQ : ∀ c, s.console.printAll (kbInterruptHandler s.kb status scancode).2 = some c →
      Uart.Emits s.console.uart c.uart →
      Q { s with console := c, kb := (kbInterruptHandler s.kb status scancode).1 }) :
    ({ s with kb := (kbInterruptHandler s.kb status scancode).1 }.print
      (s.console.printAll (kbInterruptHandler s.kb status scancode).2)).Straight ports gives Q := by
  obtain ⟨c, hc⟩ :
      ∃ c, s.console.printAll (kbInterruptHandler s.kb status scancode).2 = some c := by
    rcases kbInterruptHandler_calls s.kb status scancode with hnil | hprint
    · exact ⟨s.console, by rw [hnil]; rfl⟩
    · obtain ⟨c, hc, -⟩ := prints_print s.kb scancode s.console
      exact ⟨c, by rw [hprint, hc]⟩
  obtain ⟨es, hlogs⟩ := Console.printAll_logs hc
  have hq := hQ c hc hlogs.emits
  rw [hc]
  exact print_straight (s := { s with kb := (kbInterruptHandler s.kb status scancode).1 }) hports
    hlogs.emits hq

theorem kbHandler_straight (hcmd : ports ps2Cmd) (hdata : ports ps2Data)
    (hports : ports (s.console.uart.portBase + comTransmitOffset)) (hs : Q s)
    (hQ : ∀ status scancode c,
      s.console.printAll (kbInterruptHandler s.kb status scancode).2 = some c →
      Uart.Emits s.console.uart c.uart →
      Q { s with console := c, kb := (kbInterruptHandler s.kb status scancode).1 }) :
    s.kbHandler.Straight ports gives Q := by
  refine ⟨hcmd, fun status _ => ?_⟩
  show PortProgram.Straight _ _ _ (ite _ _ _)
  split_ifs
  · exact hs
  · exact ⟨hdata, fun scancode _ => kbPrint_straight status scancode hports (hQ status scancode)⟩

theorem serialHandler_straight
    (hports : ∀ offset : BitVec 16, offset.toNat < 8 → ports (s.console.uart.portBase + offset))
    (hs : Q s)
    (hQ : ∀ iir lsr c,
      lsr = 0 ∨ gives (s.console.uart.portBase + comLineStatusOffset) lsr →
      s.console.serialInterruptHandler iir lsr = some c → Uart.Emits s.console.uart c.uart →
      Q { s with console := c }) :
    s.serialHandler.Straight ports gives Q := by
  have hprint : ∀ iir lsr,
      lsr = 0 ∨ gives (s.console.uart.portBase + comLineStatusOffset) lsr →
      (s.print (s.console.serialInterruptHandler iir lsr)).Straight ports gives Q := by
    intro iir lsr hlsr
    obtain ⟨c, hc⟩ := s.console.serialInterruptHandler_some iir lsr
    have hlogs := Console.serialInterruptHandler_logs hc
    have hq := hQ iir lsr c hlsr hc hlogs.emits
    rw [hc]
    exact print_straight (hports comTransmitOffset (by decide)) hlogs.emits hq
  refine ⟨hports _ (by decide), fun iir _ => ?_⟩
  show PortProgram.Straight _ _ _ (ite _ _ _)
  split_ifs
  · exact hs
  · exact ⟨hports _ (by decide), fun lsr hlsr => hprint iir lsr (.inr hlsr)⟩
  · exact hprint iir 0 (.inl rfl)
  · exact ⟨hports _ (by decide), fun _ _ => hprint iir 0 (.inl rfl)⟩

end Kernel

end Straight

/-! ## The branches of `interrupt_handler` for the lines -/

/-- What is done for a line without a handler. -/
def missingIrq {K : Type} (i : Fin 16) : K → Port K :=
  if i = 1 then discard ps2Data
  else if i = 4 then discard (com1 + comIntIdentRegOffset) else .ret

/-- The three branches for lines are one. -/
theorem interruptHandler_irq {K H : Type} (calls : KernelCalls K H) (table : IrqTable H)
    {frame : InterruptFrame} {i : Fin 16} (h : frame.intNo = BitVec.ofNat 64 (32 + i.val)) (k : K) :
    interruptHandler calls table frame k =
      serveIrq calls table i frame.errCode (missingIrq i) k := by
  have hval : frame.intNo.toNat = 32 + i.val := by
    rw [h]
    exact Nat.mod_eq_of_lt (by omega)
  have hne : ∀ (n : BitVec 64) (m : ℕ), n.toNat = m → m ≠ 32 + i.val → frame.intNo ≠ n := by
    rintro n m hm hne rfl
    exact hne (hm.symm.trans hval)
  have htexts : ∀ i : Fin 16, exceptionText (32 + i.val) = none := by
    decide
  have htext : exceptionText frame.intNo.toNat = none := by
    rw [hval, htexts]
  rw [interruptHandler, htext]
  dsimp only
  rw [if_neg (hne 8 8 rfl (by omega)), if_neg (hne 13 13 rfl (by omega)),
    if_neg (hne 14 14 rfl (by omega))]
  by_cases h1 : i = 1
  · rw [if_pos (by rw [h, h1]; rfl), h1]
    rfl
  rw [if_neg (hne 33 33 rfl fun h33 => h1 (Fin.ext (by omega)))]
  by_cases h4 : i = 4
  · rw [if_pos (by rw [h, h4]; rfl), h4]
    rfl
  have hi : ∀ hlt, (⟨frame.intNo.toNat - 32, hlt⟩ : Fin 16) = i := fun _ => Fin.ext (by
    show frame.intNo.toNat - 32 = i.val
    omega)
  rw [if_neg (hne 36 36 rfl fun h36 => h4 (Fin.ext (by omega))),
    dif_pos ⟨by omega, by omega⟩, hi, missingIrq, if_neg h1, if_neg h4]

end KernelDev
