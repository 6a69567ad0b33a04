import KernelDev.PrintkFormat

/-!
# The result of `printk`

`printk` returns the number of characters it printed, except for two slips. A zero that
`int_to_string` converts is counted with the `int_len` of the last number before it, since that
function returns early for zero; and a `NULL` string is counted with `strlen(NULL)`, although
`(null)` is what is printed for it. What a piece is counted for beyond what it prints is
`Piece.excess`, a word that may be negative : a zero after a number of one digit is counted right,
and the first zero of all is not counted.

`counted_eq` is the statement for one piece, `countedAll_eq` for a call, where the excess of a piece
depends on `int_len` before it, and for a `NULL` string on memory from address `0` on. The calls
before it leave `int_len` as their last number did (`printkCalls_spec`).

`printk_count_iff` : after any calls, `printk` returns the number of characters it displays just
when there are fewer than `2 ^ 31` of them and the excesses of its pieces add up to zero, as words
of 32 bits. `printk_zero_returns_zero` is the smallest call that is counted wrong.
-/

namespace KernelDev

namespace Piece

/-- What `printk` counts for the piece beyond what it prints. -/
def excess (intLen : BitVec 32) (u : Uart) : Piece → BitVec 32
  | str none => BitVec.ofNat 32 (strlenAt ((str none).uartAfter u).mem 0 (2 ^ 64)) - 6
  | p => if p.forgets then intLen - 1 else 0

/-- A zero is printed as one digit. -/
theorem IntConv.render_zero {w : ℕ} (conv : IntConv) : conv.render (0 : BitVec w) = [ch '0'] := by
  cases conv <;> simp [IntConv.render, signedText, numeralText_zero]

theorem lenAfter_eq {p : Piece} {text : List (BitVec 8)} (intLen : BitVec 32)
    (hnum : p.number = some text) (hzero : p.forgets = true → text = [ch '0']) :
    p.lenAfter intLen = BitVec.ofNat 32 text.length + if p.forgets then intLen - 1 else 0 := by
  rw [lenAfter, hnum]
  dsimp only
  split_ifs with hf
  · rw [hzero hf, BitVec.add_comm]
    exact (BitVec.sub_add_cancel _ _).symm
  · exact (BitVec.add_zero _).symm

/-- A piece is counted for what it prints, and its excess. -/
theorem counted_eq (intLen : BitVec 32) (u : Uart) (p : Piece) :
    p.counted intLen u = BitVec.ofNat 32 p.render.length + p.excess intLen u := by
  cases p with
  | lit c h => rfl
  | percent => rfl
  | char arg => rfl
  | str s =>
    cases s with
    | none =>
      rw [excess, BitVec.add_comm]
      exact (BitVec.sub_add_cancel _ _).symm
    | some s =>
      show BitVec.ofNat 32 (strlen s) = BitVec.ofNat 32 (strChars s).length + 0
      rw [strlen_eq]
      exact (BitVec.add_zero _).symm
  | ptr p =>
    have hlen := lenAfter_eq (p := ptr p) intLen rfl fun hf => by
      rw [of_decide_eq_true hf]
      exact numeralText_zero 16
    rw [counted, hlen, ← BitVec.add_assoc, render, List.length_append, BitVec.ofNat_add]
    rfl
  | int len conv arg =>
    refine lenAfter_eq (p := int len conv arg) intLen rfl fun hf => ?_
    show conv.render (arg.setWidth len.width) = _
    rw [of_decide_eq_true (Bool.and_elim_right hf)]
    exact IntConv.render_zero conv

end Piece

namespace Console

/-- What `printk` counts for the pieces beyond what they print. -/
def excessAll : BitVec 32 → Uart → List Piece → BitVec 32
  | _, _, [] => 0
  | intLen, u, p :: ps => p.excess intLen u + excessAll (p.lenAfter intLen) (p.uartAfter u) ps

/-- So are all pieces of a call. -/
theorem countedAll_eq (ps : List Piece) : ∀ (intLen : BitVec 32) (u : Uart),
    countedAll intLen u ps =
      BitVec.ofNat 32 (ps.flatMap Piece.render).length + excessAll intLen u ps := by
  induction ps with
  | nil => exact fun _ _ => rfl
  | cons p ps ih =>
    intro intLen u
    rw [countedAll, ih, Piece.counted_eq, excessAll, List.flatMap_cons, List.length_append,
      BitVec.ofNat_add]
    ac_rfl

/-- One call of `printk` on a format of complete directives. -/
def printkPieces (s : Console) (ps : List Piece) : Option (Console × BitVec 32) :=
  s.printk (ps.flatMap Piece.fmt ++ [0]) (ps.flatMap Piece.args)

/-- Calls of `printk` one after the other. -/
def printkCalls (s : Console) (calls : List (List Piece)) : Option Console :=
  calls.foldlM (fun s ps => (s.printkPieces ps).map Prod.fst) s

/-- One call prints its pieces and counts them. -/
theorem printkPieces_spec (s : Console) (ps : List Piece) :
    ∃ s', s.printkPieces ps = some (s', countedAll s.digits.intLen s.uart ps) ∧
      PrintsPieces s s' ps := by
  obtain ⟨s', hs', hprints⟩ := printkLoop_pieces [] [] ps s 0
  rw [List.append_nil] at hs'
  exact ⟨s', hs'.trans (congrArg (fun k => some (s', k)) (BitVec.zero_add _)), hprints⟩

/-- Calls print their pieces one after the other. -/
theorem printkCalls_spec (calls : List (List Piece)) : ∀ s : Console,
    ∃ s', s.printkCalls calls = some s' ∧ PrintsPieces s s' calls.flatten := by
  induction calls with
  | nil => exact fun s => ⟨s, rfl, .refl s, rfl, rfl⟩
  | cons ps calls ih =>
    intro s
    obtain ⟨t, ht, hprints⟩ := s.printkPieces_spec ps
    obtain ⟨s', hs', hprints'⟩ := ih t
    refine ⟨s', ?_, ?_⟩
    · rw [printkCalls, List.foldlM_cons, ht]
      exact hs'
    · rw [List.flatten_cons]
      exact hprints.append hprints'

/-- A result is right exactly if it does not overflow and nothing is added. -/
theorem toInt_ofNat_add_iff (n : ℕ) (e : BitVec 32) :
    (BitVec.ofNat 32 n + e).toInt = n ↔ n < 2 ^ 31 ∧ e = 0 := by
  have hsmall : n < 2 ^ 31 → (BitVec.ofNat 32 n).toInt = n := fun hn => by
    rw [BitVec.toInt_eq_toNat_cond, BitVec.toNat_ofNat, Nat.mod_eq_of_lt (by omega),
      if_pos (by omega)]
  refine ⟨fun h => ?_, fun ⟨hn, he⟩ => ?_⟩
  · have hn : n < 2 ^ 31 := by
      have := BitVec.toInt_lt (x := BitVec.ofNat 32 n + e)
      omega
    rw [← hsmall hn, BitVec.toInt_inj] at h
    exact ⟨hn, BitVec.add_right_eq_self.1 h⟩
  · rw [he]
    exact (congrArg BitVec.toInt (BitVec.add_zero _)).trans (hsmall hn)

/-- After any calls, `printk` returns the number of characters it displays just when there
are fewer than `2 ^ 31` of them and the excesses of its pieces add up to zero. -/
theorem printk_count_iff (s : Console) (earlier : List (List Piece)) (ps : List Piece) :
    ∃ s₁ s₂ r shown, s.printkCalls earlier = some s₁ ∧ s₁.printkPieces ps = some (s₂, r) ∧
      s₂.vga.shown = s₁.vga.shown ++ shown ∧
      (r.toInt = shown.length ↔ (ps.flatMap Piece.render).length < 2 ^ 31 ∧
        excessAll (lenAfterAll s.digits.intLen earlier.flatten)
          (uartAfterAll s.uart earlier.flatten) ps = 0) := by
  obtain ⟨s₁, hs₁, hprints⟩ := printkCalls_spec earlier s
  obtain ⟨s₂, hs₂, hprints'⟩ := s₁.printkPieces_spec ps
  refine ⟨s₁, s₂, _, _, hs₁, hs₂, hprints'.shown, ?_⟩
  rw [countedAll_eq, ← hprints.intLen, ← hprints.uart]
  exact toInt_ofNat_add_iff _ _

/-- `printk("%d", 0)` as the first call displays one character and returns zero. -/
theorem printk_zero_returns_zero :
    ∃ s r,
      (atStart (fun _ => 0) 0x200000 (by decide)).printkPieces [.int .none .d 0] = some (s, r) ∧
      s.vga.shown = [ch '0'] ∧ r.toInt ≠ s.vga.shown.length :=
  ⟨_, _, rfl, by decide, by decide⟩

end Console

end KernelDev
