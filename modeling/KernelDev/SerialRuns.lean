import KernelDev.PrintkFormat
import KernelDev.SerialInterrupt
import KernelDev.SerialQueue

/-!
# Runs of the serial port

Calls of `SER_write` and interrupts, in any order. Each keeps the ring clean and loses no byte
(`Uart.Flows`); hence so does every run of them (`flows_foldlM`).

The interrupt handler is the part that needs a proof. With a line error it prints a message while
it serves the port, and what it prints goes to the ring that it is about to serve. The message is a
format of complete directives (`lineErrorPieces`), so it is printed in chunks, each of which is a
call of `SER_write`; what the handler does is therefore a run of `SER_write` and of
transmitter-empty interrupts itself (`serialInterruptHandler_flows`). That the handler ends comes
out of the same lemma.

`serial_queue_fifo` is the result. From a clean state every run goes through, to a clean state
again. The bytes sent to the transmit register and those still in the ring are the ones that were
in the ring and the ones accepted, in order, so none is lost, doubled or overtaken; and as a clean
state has its transmitter busy whenever bytes wait, the queue does not stall. At any point
`SER_write` accepts as many of its first bytes as there is room for, and returns their number.
-/

namespace KernelDev

namespace Uart

variable {u u' u'' : Uart} {bs bs' : List (BitVec 8)}

/-- From `u` to `u'` the bytes `bs` were accepted, and `u'` is clean. -/
structure Flows (u u' : Uart) (bs : List (BitVec 8)) : Prop where
  clean : u'.Clean
  /-- The queue of `u` and the bytes accepted become what was sent and the queue of `u'`. -/
  transfers : Transfers u u.queued u' u'.queued bs

theorem Flows.refl (h : u.Clean) : Flows u u [] :=
  ⟨h, .refl h.queue⟩

theorem Flows.trans (h : Flows u u' bs) (h' : Flows u' u'' bs') : Flows u u'' (bs ++ bs') :=
  ⟨h'.clean, h.transfers.trans h'.transfers⟩

theorem Transfers.flows {q : List (BitVec 8)} (h : Transfers u u.queued u' q bs)
    (hbusy : q ≠ [] → u'.txBusy = true) : Flows u u' bs := by
  obtain ⟨hclean, rfl⟩ := h.queue.clean hbusy
  exact ⟨hclean, h⟩

/-- `SER_write` accepts what there is room for. -/
theorem flows_write (h : u.Clean) (buff : ℕ → BitVec 8) (len : ℤ) :
    Flows u (u.write buff len) ((List.range (u.bytesToCopy len).toNat).map buff) := by
  obtain ⟨q, htransfers, hbusy⟩ := transfers_write h.queue buff len
  exact htransfers.flows hbusy

/-- A transmitter-empty interrupt accepts nothing. -/
theorem flows_transmitterEmpty (h : u.Clean) : Flows u u.transmitterEmpty [] := by
  obtain ⟨q, htransfers, hbusy⟩ := transfers_transmitterEmpty h.queue
  exact htransfers.flows hbusy

/-- Chunks flow into the ring, one after the other. -/
theorem flows_writeChunks (chunks : List (List (BitVec 8))) : ∀ {u : Uart}, u.Clean →
    ∃ bs, Flows u (chunks.foldl writeChunk u) bs := by
  induction chunks with
  | nil => exact fun h => ⟨[], .refl h⟩
  | cons c chunks ih =>
    intro u h
    have hflow := flows_write h (fun i => c.getD i 0) (BitVec.ofNat 32 c.length).toInt
    obtain ⟨bs, hrest⟩ := ih hflow.clean
    exact ⟨_, hflow.trans hrest⟩

end Uart

namespace Console

/-- The pieces of a string literal without directives. -/
def litPieces (bs : List (BitVec 8)) (h : ∀ c ∈ bs, c ≠ 0 ∧ c ≠ ch '%') : List Piece :=
  bs.pmap Piece.lit h

theorem litPieces_fmt : ∀ (bs : List (BitVec 8)) (h : ∀ c ∈ bs, c ≠ 0 ∧ c ≠ ch '%'),
    (litPieces bs h).flatMap Piece.fmt = bs
  | [], _ => rfl
  | c :: bs, h => congrArg (c :: ·) (litPieces_fmt bs fun c hc => h c (List.mem_cons_of_mem _ hc))

theorem litPieces_args : ∀ (bs : List (BitVec 8)) (h : ∀ c ∈ bs, c ≠ 0 ∧ c ≠ ch '%'),
    (litPieces bs h).flatMap Piece.args = []
  | [], _ => rfl
  | _ :: bs, h => litPieces_args bs fun c hc => h c (List.mem_cons_of_mem _ hc)

/-- The pieces of the line error message. -/
def lineErrorPieces (lsr : BitVec 8) : List Piece :=
  litPieces (chars "Serial line error: 0x") (by decide) ++
    [.int .none .x (lsr.setWidth 64)] ++ litPieces [ch '\n'] (by decide)

/-- The line error message is printed. -/
theorem lineError_prints (s : Console) (lsr : BitVec 8) :
    ∃ s' r, s.printk (chars "Serial line error: 0x%x\n" ++ [0]) [.word (lsr.setWidth 64)] =
      some (s', r) ∧ PrintsPieces s s' (lineErrorPieces lsr) := by
  obtain ⟨s', hs', hprints⟩ := printkLoop_pieces [] [] (lineErrorPieces lsr) s 0
  have hfmt : (lineErrorPieces lsr).flatMap Piece.fmt = chars "Serial line error: 0x%x\n" := by
    rw [lineErrorPieces, List.flatMap_append, List.flatMap_append, litPieces_fmt, litPieces_fmt]
    rfl
  have hargs : (lineErrorPieces lsr).flatMap Piece.args = [.word (lsr.setWidth 64)] := by
    rw [lineErrorPieces, List.flatMap_append, List.flatMap_append, litPieces_args, litPieces_args]
    rfl
  rw [hfmt, hargs] at hs'
  exact ⟨s', _, hs', hprints⟩

theorem lineError_flows {s : Console} (h : s.uart.Clean) (lsr : BitVec 8) :
    ∃ s' r bs, s.printk (chars "Serial line error: 0x%x\n" ++ [0]) [.word (lsr.setWidth 64)] =
      some (s', r) ∧ Uart.Flows s.uart s'.uart bs := by
  obtain ⟨s', r, hs', hprints⟩ := s.lineError_prints lsr
  obtain ⟨bs, hflows⟩ := Uart.flows_writeChunks ((lineErrorPieces lsr).flatMap Piece.chunks) h
  rw [← hprints.prints.uart] at hflows
  exact ⟨s', r, bs, hs', hflows⟩

theorem serviceInterrupt_flows {s : Console} (h : s.uart.Clean) (interruptSource lsr : BitVec 8) :
    ∃ s' bs, s.serviceInterrupt interruptSource lsr = some s' ∧ Uart.Flows s.uart s'.uart bs := by
  unfold serviceInterrupt
  split_ifs with hline herr hempty
  · obtain ⟨s', r, bs, hs', hflows⟩ := lineError_flows h lsr
    exact ⟨s', bs, by rw [hs']; rfl, hflows⟩
  · exact ⟨s, [], rfl, .refl h⟩
  · exact ⟨_, [], rfl, Uart.flows_transmitterEmpty h⟩
  · exact ⟨s, [], rfl, .refl h⟩

/-- The handler ends, and does to the ring what a run of `SER_write` or transmitter-empty
interrupts do. -/
theorem serialInterruptHandler_flows {s : Console} (h : s.uart.Clean) (iir lsr : BitVec 8) :
    ∃ s' bs, s.serialInterruptHandler iir lsr = some s' ∧ Uart.Flows s.uart s'.uart bs := by
  unfold serialInterruptHandler
  split_ifs with hpend
  · exact ⟨s, [], rfl, .refl h⟩
  · obtain ⟨s', bs, hs', hflows⟩ := serviceInterrupt_flows h (iir &&& comIntIdentMask) lsr
    dsimp only
    rw [hs']
    by_cases hempty : iir &&& comIntIdentMask = comIntIdentTransmitterEmpty
    · exact ⟨_, bs ++ [], if_pos hempty,
        hflows.trans (Uart.flows_transmitterEmpty hflows.clean)⟩
    · exact ⟨s', bs, if_neg hempty, hflows⟩

/-- What can happen to the serial port : a call, with a length that is not negative, or an
interrupt, with the values that the handler reads from the port. -/
inductive SerialEvent where
  | write (buff : ℕ → BitVec 8) (len : ℕ)
  | interrupt (iir lsr : BitVec 8)

/-- The effect of an event. -/
def SerialEvent.run (s : Console) : SerialEvent → Option Console
  | write buff len => some (s.serWrite buff len).1
  | interrupt iir lsr => s.serialInterruptHandler iir lsr

/-- Every event keeps the ring clean and loses no byte. -/
theorem SerialEvent.flows {s : Console} (h : s.uart.Clean) (e : SerialEvent) :
    ∃ s' bs, e.run s = some s' ∧ Uart.Flows s.uart s'.uart bs := by
  cases e with
  | write buff len =>
    refine ⟨_, (List.range (s.uart.bytesToCopy len).toNat).map buff, rfl, ?_⟩
    rw [serWrite_eq]
    exact Uart.flows_write h buff len
  | interrupt iir lsr => exact serialInterruptHandler_flows h iir lsr

/-- Events that keep the ring clean and lose no byte do so in any order. -/
theorem flows_foldlM {E : Type} {run : Console → E → Option Console}
    (hrun : ∀ {s : Console}, s.uart.Clean → ∀ e, ∃ s' bs, run s e = some s' ∧
      Uart.Flows s.uart s'.uart bs) (es : List E) : ∀ {s : Console}, s.uart.Clean →
    ∃ s' bs, es.foldlM run s = some s' ∧ Uart.Flows s.uart s'.uart bs := by
  induction es with
  | nil => exact fun h => ⟨_, [], rfl, .refl h⟩
  | cons e es ih =>
    intro s h
    obtain ⟨t, bs, ht, hflows⟩ := hrun h e
    obtain ⟨s', bs', hs', hflows'⟩ := ih hflows.clean
    refine ⟨s', bs ++ bs', ?_, hflows.trans hflows'⟩
    rw [List.foldlM_cons, ht]
    exact hs'

/-- The transmit queue is a FIFO that never stalls. From a clean state every run of events goes
through, to a clean state again; the bytes sent to the transmit register and those in the ring
are the ones that were in the ring and the ones accepted, in order. At any point `SER_write`
accepts as many of its first bytes as there is room for, and says so. -/
theorem serial_queue_fifo (s : Console) (h : s.uart.Clean) (es : List SerialEvent) :
    ∃ t accepted sent, es.foldlM SerialEvent.run s = some t ∧ t.uart.Clean ∧
      t.uart.stored = s.uart.stored ++ accepted ∧
      t.uart.out = s.uart.out ++ sent.map (fun b => (s.uart.portBase + comTransmitOffset, b)) ∧
      sent ++ t.uart.queued = s.uart.queued ++ accepted ∧
      ∀ (buff : ℕ → BitVec 8) (len : ℕ),
        (t.serWrite buff len).2 = min (len : ℤ) (16 - t.uart.count) ∧
        (t.serWrite buff len).1.uart.stored = t.uart.stored ++
          (List.range (min (len : ℤ) (16 - t.uart.count)).toNat).map buff := by
  obtain ⟨t, bs, ht, hflows⟩ := flows_foldlM SerialEvent.flows es h
  obtain ⟨sent, hout, hflow⟩ := hflows.transfers.sent
  refine ⟨t, bs, sent, ht, hflows.clean, hflows.transfers.stored, hout, hflow,
    fun buff len => ?_⟩
  have hwrite := (Uart.flows_write hflows.clean buff len).transfers.stored
  have hcopy : t.uart.bytesToCopy len = min (len : ℤ) (16 - t.uart.count) :=
    Uart.bytesToCopy_eq _ _
  rw [hcopy] at hwrite
  rw [serWrite_eq]
  exact ⟨hcopy, hwrite⟩

/-- An initialised port with nothing to send. -/
def idleConsole : Console :=
  let s := atStart (fun _ => 0) 0x200000 (by decide)
  { s with uart := { s.uart with consumer := 0x200000, producer := 0x200000, initialized := true } }

theorem clean_idleConsole : idleConsole.uart.Clean :=
  ⟨by decide, ⟨0, by decide, rfl, rfl⟩, fun h => absurd h (by decide)⟩

theorem serial_queue_fifo_idleConsole :
    ∃ t accepted sent, [SerialEvent.write (fun _ => 0x41) 20, .interrupt 0x06 0x02,
        .interrupt 0x02 0].foldlM SerialEvent.run idleConsole = some t ∧ t.uart.Clean ∧
      t.uart.stored = idleConsole.uart.stored ++ accepted ∧
      t.uart.out = idleConsole.uart.out ++
        sent.map (fun b => (idleConsole.uart.portBase + comTransmitOffset, b)) ∧
      sent ++ t.uart.queued = idleConsole.uart.queued ++ accepted ∧
      ∀ (buff : ℕ → BitVec 8) (len : ℕ),
        (t.serWrite buff len).2 = min (len : ℤ) (16 - t.uart.count) ∧
        (t.serWrite buff len).1.uart.stored = t.uart.stored ++
          (List.range (min (len : ℤ) (16 - t.uart.count)).toNat).map buff :=
  serial_queue_fifo idleConsole clean_idleConsole _

end Console

end KernelDev
