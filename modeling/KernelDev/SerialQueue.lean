import KernelDev.Serial
import KernelDev.Lib.Ring

/-!
# The transmit queue

The ring of `serial.c` is a ring buffer of 16 cells, with `consumer` at its start and `producer` at
its end. `Uart.Queue` says that the ring is in order and holds the bytes `q` : the two pointers
point into it, `count` apart, and the cells from `consumer` on are those of the queue, as a ring
buffer of the library. `Clean` is the part of that which is asked of a state : at most 16 bytes,
both pointers in the ring and `count` apart, and the transmitter busy whenever bytes wait. A clean
state holds its queued bytes (`Clean.queue`), and a ring in order has one queue only
(`Queue.clean`).

`Transfers` is what every piece of the driver does to the queue : bytes are stored at the end,
bytes are sent from the front to the transmit register, and what was sent and what is queued
afterwards are, in this order, the bytes that were queued before and those that were stored. It
composes, so each statement is looked at on its own : storing a byte in a ring that is not full
(`transfers_enqueue`), the loop of `SER_write` (`transfers_enqueueFrom`), which never meets a full
ring, since `SER_write` takes no more bytes than there is room for (`bytesToCopy_eq`), and
`hardware_write` (`transfers_hardwareWrite`), which leaves the transmitter busy if bytes wait.

The pointers go back to the start of the ring behind its last byte, which is the index modulo 16
(`advance_eq`).
-/

namespace KernelDev

open ByteMem

namespace Uart

/-- The byte in cell `i` of the ring. -/
def cell (u : Uart) (i : ℕ) : BitVec 8 :=
  u.mem (u.buff + BitVec.ofNat 64 i)

/-- The ring is in order, and holds the bytes `q`. -/
def Queue (u : Uart) (q : List (BitVec 8)) : Prop :=
  ∃ c, u.consumer = u.buff + BitVec.ofNat 64 c ∧
    u.producer = u.buff + BitVec.ofNat 64 ((c + q.length) % buffSize) ∧ u.count = q.length ∧
      Ring.Holds u.cell buffSize c q

/-- A clean state : at most 16 bytes, both pointers in the ring and `count` apart, and the
transmitter busy whenever bytes wait. -/
structure Clean (u : Uart) : Prop where
  count : 0 ≤ u.count ∧ u.count ≤ buffSize
  /-- The pointers are in the ring, `count` apart. -/
  pointers : ∃ c < buffSize, u.consumer = u.buff + BitVec.ofNat 64 c ∧
    u.producer = u.buff + BitVec.ofNat 64 ((c + u.count.toNat) % buffSize)
  /-- No byte waits without an interrupt to come. -/
  busy : 0 < u.count → u.txBusy = true

/-- The bytes in the ring, from `consumer` on. -/
def queued (u : Uart) : List (BitVec 8) :=
  (List.range u.count.toNat).map fun i => u.cell (((u.consumer - u.buff).toNat + i) % buffSize)

variable {u u' u'' : Uart} {q q' q'' bs bs' : List (BitVec 8)} {b : BitVec 8}

/-! ## Pointers -/

/-- Moving a pointer on is adding one to its index, modulo the size of the ring. -/
theorem advance_eq (u : Uart) {c : ℕ} (hc : c < buffSize) :
    u.advance (u.buff + BitVec.ofNat 64 c) =
      u.buff + BitVec.ofNat 64 ((c + 1) % buffSize) := by
  have hp := u.placed
  unfold buffSize at *
  have hnext : u.buff + BitVec.ofNat 64 c + 1 = u.buff + BitVec.ofNat 64 (c + 1) := by
    rw [BitVec.add_assoc, BitVec.ofNat_add]
    rfl
  unfold advance buffSize
  rw [hnext]
  by_cases hend : c + 1 = 16
  · rw [hend, if_pos (show _ ≥ _ from BitVec.le_refl _)]
    simp
  · rw [if_neg, Nat.mod_eq_of_lt (by omega)]
    intro hge
    have hle : (u.buff + BitVec.ofNat 64 16).toNat ≤ (u.buff + BitVec.ofNat 64 (c + 1)).toNat := hge
    rw [BitVec.toNat_add, BitVec.toNat_add, BitVec.toNat_ofNat, BitVec.toNat_ofNat] at hle
    omega

theorem cellAddr_inj (u : Uart) {i j : ℕ} (hi : i < buffSize) (hj : j < buffSize) :
    u.buff + BitVec.ofNat 64 i = u.buff + BitVec.ofNat 64 j ↔ i = j := by
  unfold buffSize at *
  rw [BitVec.add_right_inj, ← BitVec.toNat_inj, BitVec.toNat_ofNat, BitVec.toNat_ofNat]
  omega

/-- A clean state holds its queued bytes. -/
theorem Clean.queue (h : u.Clean) : u.Queue u.queued := by
  obtain ⟨c, hc, hcons, hprod⟩ := h.pointers
  obtain ⟨hpos, hle⟩ := h.count
  have hlen : u.queued.length = u.count.toNat := by simp [queued]
  have hstart : (u.consumer - u.buff).toNat = c := by
    unfold buffSize at hc
    rw [hcons, BitVec.add_comm, BitVec.add_sub_cancel, BitVec.toNat_ofNat]
    omega
  refine ⟨c, hcons, by rw [hlen, hprod], by rw [hlen]; omega, hc, by omega, fun i x hx => ?_⟩
  rw [queued, hstart, List.getElem?_map, Option.map_eq_some_iff] at hx
  obtain ⟨j, hj, rfl⟩ := hx
  obtain ⟨-, rfl⟩ := List.getElem?_eq_some_iff.1 hj
  rw [List.getElem_range]

/-- A ring in order has a unique queue, and is clean if its transmitter is busy enough. -/
theorem Queue.clean (h : u.Queue q) (hb : q ≠ [] → u.txBusy = true) : u.Clean ∧ u.queued = q := by
  obtain ⟨c, hcons, hprod, hcount, hholds⟩ := h
  have hnat : u.count.toNat = q.length := by omega
  have hclean : u.Clean := by
    refine ⟨⟨by omega, ?_⟩, ⟨c, hholds.start_lt, hcons, by rw [hnat, hprod]⟩, fun hpos => hb ?_⟩
    · have := hholds.length_le
      omega
    · rintro rfl
      simp at hcount
      omega
  obtain ⟨c', hcons', -, hcount', hholds'⟩ := hclean.queue
  rw [hcons, cellAddr_inj u hholds.start_lt hholds'.start_lt] at hcons'
  subst hcons'
  exact ⟨hclean, hholds'.unique hholds (by omega)⟩

/-! ## Steps -/

/-- From `u` with queue `q` to `u'` with queue `q'` : the bytes `bs` were stored, bytes were
sent to the transmit register, and sent and queued bytes are the queue and the stored bytes. -/
structure Transfers (u : Uart) (q : List (BitVec 8)) (u' : Uart) (q' bs : List (BitVec 8)) :
    Prop where
  queue : u'.Queue q'
  buff : u'.buff = u.buff
  portBase : u'.portBase = u.portBase
  stored : u'.stored = u.stored ++ bs
  /-- No byte is lost, and none comes before another one that was queued first. -/
  sent : ∃ os, u'.out = u.out ++ os.map (fun b => (u.portBase + comTransmitOffset, b)) ∧
    os ++ q' = q ++ bs

theorem Transfers.refl (h : u.Queue q) : Transfers u q u q [] :=
  ⟨h, rfl, rfl, by simp, [], by simp, by simp⟩

theorem Transfers.trans (h : Transfers u q u' q' bs) (h' : Transfers u' q' u'' q'' bs') :
    Transfers u q u'' q'' (bs ++ bs') := by
  obtain ⟨os, hout, hflow⟩ := h.sent
  obtain ⟨os', hout', hflow'⟩ := h'.sent
  refine ⟨h'.queue, h'.buff.trans h.buff, h'.portBase.trans h.portBase, ?_, os ++ os', ?_, ?_⟩
  · rw [h'.stored, h.stored, List.append_assoc]
  · rw [hout', hout, h.portBase, List.map_append, List.append_assoc]
  · rw [List.append_assoc, hflow', ← List.append_assoc, hflow, List.append_assoc]

/-- Storing a byte in a ring that is not full. -/
theorem transfers_enqueue (h : u.Queue q) (hlt : q.length < buffSize) :
    Transfers u q (u.enqueue b) (q ++ [b]) [b] := by
  obtain ⟨c, hcons, hprod, hcount, hholds⟩ := h
  have hidx : (c + q.length) % buffSize < buffSize := Nat.mod_lt _ (by decide)
  refine ⟨⟨c, hcons, ?_, ?_, hholds.push hlt ?_ fun i hi hne => ?_⟩, rfl, rfl, rfl, [],
    by simp [enqueue], by simp⟩
  · show u.advance u.producer = _
    rw [hprod, advance_eq u hidx, List.length_append, List.length_singleton, Nat.mod_add_mod,
      Nat.add_assoc]
    rfl
  · show u.count + 1 = _
    rw [hcount, List.length_append, List.length_singleton]
    omega
  · show Function.update u.mem u.producer b _ = b
    rw [hprod]
    exact Function.update_self _ _ _
  · show Function.update u.mem u.producer b _ = _
    rw [hprod]
    exact Function.update_of_ne (fun hc => hne ((cellAddr_inj u hi hidx).1 hc)) _ _

/-- `hardware_write` sends the first byte if it may, and leaves the transmitter busy if bytes
wait. -/
theorem transfers_hardwareWrite (h : u.Queue q) :
    ∃ q', Transfers u q u.hardwareWrite q' [] ∧ (q' ≠ [] → u.hardwareWrite.txBusy = true) := by
  obtain ⟨c, hcons, hprod, hcount, hholds⟩ := h
  unfold hardwareWrite
  split_ifs with hidle
  · obtain ⟨-, hpos⟩ := hidle
    cases q with
    | nil => simp [hcount] at hpos
    | cons x xs =>
      have hcell : u.mem u.consumer = x := by
        rw [hcons]
        exact hholds.head
      have hpop := hholds.pop
      refine ⟨xs, ⟨⟨(c + 1) % buffSize, ?_, ?_, ?_, hpop⟩, rfl, rfl, by simp [outb],
        [x], ?_, by simp⟩, fun _ => rfl⟩
      · show u.advance u.consumer = _
        rw [hcons, advance_eq u hholds.start_lt]
        rfl
      · show u.producer = _
        rw [hprod, Nat.mod_add_mod, List.length_cons, Nat.add_assoc, Nat.add_comm 1]
        rfl
      · show u.count - 1 = _
        rw [hcount, List.length_cons]
        omega
      · rw [hcell]
        rfl
  · refine ⟨q, .refl ⟨c, hcons, hprod, hcount, hholds⟩, fun hne => ?_⟩
    have hpos : 0 < u.count := by
      rw [hcount]
      have := List.length_pos_iff.2 hne
      omega
    by_contra hbusy
    exact hidle ⟨by simpa using hbusy, hpos⟩

/-- The loop of `SER_write` stores the first `n` bytes. -/
theorem transfers_enqueueFrom (h : u.Queue q) (buff : ℕ → BitVec 8) : ∀ {n : ℕ},
    q.length + n ≤ buffSize →
    Transfers u q (u.enqueueFrom buff n) (q ++ (List.range n).map buff) ((List.range n).map buff)
  | 0, _ => by
    simpa [enqueueFrom] using Transfers.refl h
  | n + 1, hn => by
    have ih := transfers_enqueueFrom h buff (n := n) (by omega)
    have hstep := transfers_enqueue (b := buff n) ih.queue (by simp; omega)
    have hall := ih.trans hstep
    rw [List.append_assoc] at hall
    rw [enqueueFrom, List.range_succ, List.foldl_append, List.map_append]
    exact hall

/-- `SER_write` takes as many of the first bytes as there is room for. -/
theorem bytesToCopy_eq (u : Uart) (len : ℤ) : u.bytesToCopy len = min len (buffSize - u.count) := by
  unfold bytesToCopy
  dsimp only
  split_ifs with h <;> omega

/-- `SER_write` stores the bytes it takes. -/
theorem transfers_write (h : u.Queue q) (buff : ℕ → BitVec 8)
    (len : ℤ) :
    ∃ q', Transfers u q (u.write buff len) q'
        ((List.range (u.bytesToCopy len).toNat).map buff) ∧
      (q' ≠ [] → (u.write buff len).txBusy = true) := by
  have hcount : u.count = q.length ∧ q.length ≤ buffSize := by
    obtain ⟨c, -, -, hcount, hholds⟩ := h
    exact ⟨hcount, hholds.length_le⟩
  have hcopy := bytesToCopy_eq u len
  have hin := transfers_enqueueFrom h buff (n := (u.bytesToCopy len).toNat) (by omega)
  obtain ⟨q', hout, hbusy⟩ := transfers_hardwareWrite hin.queue
  have hall := hin.trans hout
  rw [List.append_nil] at hall
  exact ⟨q', hall, hbusy⟩

/-- A transmitter-empty interrupt stores nothing. -/
theorem transfers_transmitterEmpty (h : u.Queue q) :
    ∃ q', Transfers u q u.transmitterEmpty q' [] ∧
      (q' ≠ [] → u.transmitterEmpty.txBusy = true) := by
  have hfree : Queue { u with txBusy := false } q := h
  obtain ⟨q', ht, hbusy⟩ := transfers_hardwareWrite (u := { u with txBusy := false }) hfree
  exact ⟨q', ⟨ht.queue, ht.buff, ht.portBase, ht.stored, ht.sent⟩, hbusy⟩

/-! ## What is sent -/

theorem hardwareWrite_idle (h : u.txBusy = true ∨ u.count ≤ 0) : u.hardwareWrite = u := by
  rw [hardwareWrite, if_neg]
  rintro ⟨hbusy, hcount⟩
  rcases h with h | h
  · rw [h] at hbusy
    cases hbusy
  · omega

theorem hardwareWrite_sends (hbusy : u.txBusy = false) (hcount : 0 < u.count) :
    u.hardwareWrite.txBusy = true ∧ u.hardwareWrite.count = u.count - 1 ∧
      u.hardwareWrite.out.length = u.out.length + 1 := by
  rw [hardwareWrite, if_pos ⟨hbusy, hcount⟩]
  refine ⟨rfl, rfl, ?_⟩
  rw [outb, List.length_append, List.length_singleton]

/-- The loop of `SER_write` stores its bytes and sends none. -/
theorem enqueueFrom_kept (buff : ℕ → BitVec 8) (u : Uart) (n : ℕ) :
    (u.enqueueFrom buff n).out = u.out ∧ (u.enqueueFrom buff n).initialized = u.initialized ∧
      (u.enqueueFrom buff n).stored.length = u.stored.length + n := by
  induction n with
  | zero => exact ⟨rfl, rfl, rfl⟩
  | succ n ih =>
    obtain ⟨hout, hinit, hstored⟩ := ih
    rw [enqueueFrom, List.range_succ, List.foldl_append]
    refine ⟨hout, hinit, ?_⟩
    show (List.length (_ ++ [_])) = _
    rw [List.length_append, List.length_singleton, ← Nat.add_assoc, ← hstored]
    rfl

end Uart

end KernelDev
