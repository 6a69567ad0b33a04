import KernelDev.Lib.Memory

/-!
# Stacks in memory

A stack that grows downwards, of 64-bit words in a byte-addressed memory. `Stack m sp ws` says that
the words `ws` lie in memory from `sp` up, the last one pushed first, so that a pop reads the head
of the list and moves `sp` up by eight bytes.

A push goes below the stack and keeps the words that are there (`Stack.push`). It is the only store
a stack needs : what lies above `sp` is read off its own bytes (`Stack.congr`), and so stays as it
is under any store that leaves these bytes alone. The addresses are those of the memory, so a stack
may lie across the end of the address space; what the words are asked to do is only to fit into it.
-/

namespace ByteMem

/-- The words `ws` lie in memory from `sp` up. -/
def Stack (m : Mem) : Addr → List (BitVec 64) → Prop
  | _, [] => True
  | sp, w :: ws => read64 m sp = w ∧ Stack m (sp + 8) ws

variable {m m' : Mem}

/-- A stack is read off its own bytes. -/
theorem Stack.congr : ∀ {ws : List (BitVec 64)} {sp : Addr}, 8 * ws.length < 2 ^ 64 →
    (∀ x, Within sp (8 * ws.length) x → m x = m' x) → Stack m sp ws → Stack m' sp ws
  | [], _, _, _, _ => trivial
  | w :: ws, sp, hlen, hsame, h => by
    rw [List.length_cons] at hlen hsame
    refine ⟨?_, Stack.congr (by omega) (fun x hx => hsame x ?_) h.2⟩
    · rw [← h.1]
      exact (read64_congr fun x hx => hsame x (Nat.lt_of_lt_of_le hx (by omega))).symm
    · unfold Within at *
      bv_omega

/-- A push. -/
theorem Stack.push {ws : List (BitVec 64)} {sp : Addr} (h : Stack m sp ws)
    (hlen : 8 * ws.length + 8 ≤ 2 ^ 64) (w : BitVec 64) :
    Stack (write64 m (sp - 8) w) (sp - 8) (w :: ws) := by
  refine ⟨read64_write64_self _ _ _, ?_⟩
  rw [BitVec.sub_add_cancel]
  refine Stack.congr (by omega) (fun x hx => (write64_of_not_within fun hx' => ?_).symm) h
  unfold Within at *
  bv_omega

end ByteMem
