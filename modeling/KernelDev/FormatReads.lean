import KernelDev.Lib.Run
import KernelDev.PrintkFormat

/-!
# What `printk` reads of its format

The loop of `printk` as a system of its own, one pass of the loop a step, labelled with the
positions of the format that the pass reads. It runs over the memory from the format on, so that it
can go past the terminating NUL, where `printkLoop` gives nothing. A pass reads the character of
its position, and behind a `%` one more, or two if that is a modifier; the position then is behind
the last of them. The two agree where both go : what `printk` returns is where the loop ends
(`run_of_printk`).

`Whole` is the grammar of the formats whose `%` are all followed by a directive, that is by a
character, perhaps with a modifier before it. Which character does not matter, as one that is no
conversion prints nothing. Along a run over a whole format the loop stays in the format and each
place it comes to is whole again, so it ends at the NUL (`run_whole`). In a format that is not
whole the loop, given arguments that fit, comes to a directive that the format ends in, takes the
NUL for the conversion, and reads on behind it (`run_behind`). That fitting arguments exist is
`directive_feeds`.

`printk_staysInside_iff` is the result : `printk` reads nothing behind the NUL of its format, and
ends, whatever is there and whatever the arguments are, just if the format does not end inside a
directive.
-/

namespace KernelDev

/-- The variables of the loop of `printk`, with `fmt` as its distance from where it started. -/
structure Scan where
  console : Console
  numPrinted : BitVec 32
  /-- The distance of `fmt` from where it started. -/
  pos : ℕ
  args : List VaArg

namespace Scan

open Console (lenModOf)

/-- `printk` before its loop. -/
def start (s : Console) (args : List VaArg) : Scan where
  console := s
  numPrinted := 0
  pos := 0
  args := args

/-- One pass of the loop over the format `fmt` : the positions that it reads, and what it
leaves unless an argument is not there. -/
def pass (fmt : ℕ → BitVec 8) (p : Scan) : List ℕ × Option Scan :=
  if fmt p.pos ≠ ch '%' then
    ([p.pos], some
      { p with
        console := p.console.printChar (fmt p.pos)
        numPrinted := p.numPrinted + 1
        pos := p.pos + 1 })
  else
    let lenMod := lenModOf (fmt (p.pos + 1))
    let pos := if lenMod = 0 then p.pos + 1 else p.pos + 2
    ([p.pos, p.pos + 1, pos],
      (p.console.directive p.numPrinted lenMod (fmt pos) p.args).map
        fun (s, numPrinted, args) => ⟨s, numPrinted, pos + 1, args⟩)

/-- The test of the loop finds a character, and the pass leads on. -/
def Step (fmt : ℕ → BitVec 8) (p : Scan) (reads : List ℕ) (q : Scan) : Prop :=
  fmt p.pos ≠ 0 ∧ p.pass fmt = (reads, some q)

/-- The loop reads position `i`, in a test or in the pass behind it. -/
def Examines (fmt : ℕ → BitVec 8) (p : Scan) (i : ℕ) : Prop :=
  ∃ tr q, Run (Step fmt) p tr q ∧ (i = q.pos ∨ fmt q.pos ≠ 0 ∧ i ∈ (q.pass fmt).1)

/-- There is a bound on the passes of the loop. -/
def Terminates (fmt : ℕ → BitVec 8) (p : Scan) : Prop :=
  ∃ n, ∀ tr q, Run (Step fmt) p tr q → tr.length ≤ n

variable {fmt : ℕ → BitVec 8} {p q : Scan} {reads : List ℕ}

/-- A pass over a character other than `%`. -/
theorem pass_lit (h : fmt p.pos ≠ ch '%') : p.pass fmt = ([p.pos], some
    { p with
      console := p.console.printChar (fmt p.pos)
      numPrinted := p.numPrinted + 1
      pos := p.pos + 1 }) :=
  if_pos h

/-- A pass over `%` and a character that is no modifier. -/
theorem pass_conv (h : fmt p.pos = ch '%') (hmod : lenModOf (fmt (p.pos + 1)) = 0) :
    p.pass fmt = ([p.pos, p.pos + 1, p.pos + 1],
      (p.console.directive p.numPrinted 0 (fmt (p.pos + 1)) p.args).map
        fun (s, numPrinted, args) => ⟨s, numPrinted, p.pos + 2, args⟩) := by
  rw [pass, if_neg (not_not_intro h)]
  dsimp only
  rw [if_pos hmod, hmod]

/-- A pass over `%`, a modifier and the character behind it. -/
theorem pass_convMod (h : fmt p.pos = ch '%') (hmod : lenModOf (fmt (p.pos + 1)) ≠ 0) :
    p.pass fmt = ([p.pos, p.pos + 1, p.pos + 2],
      (p.console.directive p.numPrinted (lenModOf (fmt (p.pos + 1))) (fmt (p.pos + 2)) p.args).map
        fun (s, numPrinted, args) => ⟨s, numPrinted, p.pos + 3, args⟩) := by
  rw [pass, if_neg (not_not_intro h)]
  dsimp only
  rw [if_neg hmod]

variable {s s' : Console} {n n' : BitVec 32} {pos : ℕ} {args args' : List VaArg} {m c : BitVec 8}

theorem step_lit (hc : fmt pos = c) (hnul : c ≠ 0) (hlit : c ≠ ch '%') :
    Step fmt ⟨s, n, pos, args⟩ [pos] ⟨s.printChar c, n + 1, pos + 1, args⟩ := by
  subst hc
  exact ⟨hnul, pass_lit hlit⟩

theorem step_conv (h : fmt pos = ch '%') (hc : fmt (pos + 1) = c) (hmod : lenModOf c = 0)
    (hdir : s.directive n 0 c args = some (s', n', args')) :
    Step fmt ⟨s, n, pos, args⟩ [pos, pos + 1, pos + 1] ⟨s', n', pos + 2, args'⟩ := by
  subst hc
  refine ⟨h.trans_ne (by decide), (pass_conv h hmod).trans ?_⟩
  rw [hdir]
  rfl

theorem step_convMod (h : fmt pos = ch '%') (hm : fmt (pos + 1) = m) (hc : fmt (pos + 2) = c)
    (hmod : lenModOf m ≠ 0) (hdir : s.directive n (lenModOf m) c args = some (s', n', args')) :
    Step fmt ⟨s, n, pos, args⟩ [pos, pos + 1, pos + 2] ⟨s', n', pos + 3, args'⟩ := by
  subst hm hc
  refine ⟨h.trans_ne (by decide), (pass_convMod h hmod).trans ?_⟩
  rw [hdir]
  rfl

/-- Positions of a format are positions of what is left of it. -/
theorem reads_tail {l : List (BitVec 8)}
    (h : ∀ i (hi : i < (c :: l).length), fmt (pos + i) = (c :: l).get ⟨i, hi⟩) (i : ℕ)
    (hi : i < l.length) : fmt (pos + 1 + i) = l.get ⟨i, hi⟩ := by
  rw [Nat.add_right_comm]
  exact h (i + 1) (Nat.succ_lt_succ hi)

/-- The system does what `printk` does : it ends where `printkLoop` ends, at a NUL. -/
theorem run_of_printkLoop : ∀ (l : List (BitVec 8)) (s : Console) (n : BitVec 32) (pos : ℕ)
    (args : List VaArg), (∀ i (hi : i < l.length), fmt (pos + i) = l.get ⟨i, hi⟩) →
    s.printkLoop n l args = some (s', n') → ∃ tr q, Run (Step fmt) ⟨s, n, pos, args⟩ tr q ∧
      fmt q.pos = 0 ∧ q.console = s' ∧ q.numPrinted = n'
  | [], s, n, pos, args, _, h => by
    rw [Console.printkLoop] at h
    cases h
  | c :: l, s, n, pos, args, hfmt, h => by
    have hc : fmt pos = c := hfmt 0 (Nat.succ_pos _)
    by_cases hnul : c = 0
    · rw [hnul, Console.printkLoop_zero] at h
      cases h
      exact ⟨[], _, .nil, hc.trans hnul, rfl, rfl⟩
    by_cases hlit : c = ch '%'
    · subst hlit
      rcases l with - | ⟨m, l⟩
      · cases h
      · have hm : fmt (pos + 1) = m := hfmt 1 (Nat.succ_lt_succ (Nat.succ_pos _))
        by_cases hmod : lenModOf m = 0
        · rw [Console.printkLoop_conv hmod] at h
          obtain ⟨⟨s₁, n₁, args₁⟩, hdir, h⟩ := Option.bind_eq_some_iff.1 h
          obtain ⟨tr, q, hrun, hq⟩ := run_of_printkLoop l s₁ n₁ (pos + 2) args₁
            (reads_tail (reads_tail hfmt)) h
          exact ⟨_, q, .cons (step_conv hc hm hmod hdir) hrun, hq⟩
        · rcases l with - | ⟨c, l⟩
          · rw [Console.printkLoop_end hmod] at h
            cases h
          · rw [Console.printkLoop_convMod hmod] at h
            obtain ⟨⟨s₁, n₁, args₁⟩, hdir, h⟩ := Option.bind_eq_some_iff.1 h
            obtain ⟨tr, q, hrun, hq⟩ := run_of_printkLoop l s₁ n₁ (pos + 3) args₁
              (reads_tail (reads_tail (reads_tail hfmt))) h
            have hlast : fmt (pos + 2) = c := reads_tail hfmt 1 (Nat.succ_lt_succ (Nat.succ_pos _))
            exact ⟨_, q, .cons (step_convMod hc hm hlast hmod hdir) hrun, hq⟩
    · rw [Console.printkLoop_lit hnul hlit] at h
      obtain ⟨tr, q, hrun, hq⟩ := run_of_printkLoop l _ _ (pos + 1) args (reads_tail hfmt) h
      exact ⟨_, q, .cons (step_lit hc hnul hlit) hrun, hq⟩

end Scan

/-! ## Whole formats -/

open Console (lenModOf)
open Scan

/-- A sequence of ordinary characters and directives, each `%`, perhaps a modifier, and a
character. -/
inductive Whole : List (BitVec 8) → Prop
  | nil : Whole []
  | lit {c : BitVec 8} {l : List (BitVec 8)} : c ≠ ch '%' → Whole l → Whole (c :: l)
  | conv {c : BitVec 8} {l : List (BitVec 8)} : lenModOf c = 0 → Whole l →
      Whole (ch '%' :: c :: l)
  | convMod {m c : BitVec 8} {l : List (BitVec 8)} : lenModOf m ≠ 0 → Whole l →
      Whole (ch '%' :: m :: c :: l)

/-- A format in memory : its characters, the NUL behind them, and what is behind the NUL. -/
structure Format where
  chars : List (BitVec 8)
  noNul : 0 ∉ chars
  /-- What is behind the NUL. -/
  behind : ℕ → BitVec 8

namespace Format

/-- The memory from the format on. -/
def byte (f : Format) (i : ℕ) : BitVec 8 :=
  (f.chars ++ [0])[i]?.getD (f.behind i)

/-- No call with this format reads beyond its NUL, and each ends. -/
def StaysInside (f : Format) : Prop :=
  ∀ s args, (∀ i, Scan.Examines f.byte (.start s args) i → i ≤ f.chars.length) ∧
    Scan.Terminates f.byte (.start s args)

variable {f : Format} {pos : ℕ} {l : List (BitVec 8)}

/-- What is left of the format at `pos`. -/
theorem byte_of_drop (hl : f.chars.drop pos = l) (hpos : pos ≤ f.chars.length) (i : ℕ) :
    f.byte (pos + i) = (l ++ [0])[i]?.getD (f.behind (pos + i)) := by
  rw [byte, ← hl, ← List.drop_append_of_le_length hpos, List.getElem?_drop]

/-- What is left of a format behind its first character. -/
theorem drop_tail {c : BitVec 8} (hl : f.chars.drop pos = c :: l) :
    f.chars.drop (pos + 1) = l ∧ pos + 1 ≤ f.chars.length := by
  refine ⟨by rw [← List.drop_drop, hl]; rfl, ?_⟩
  by_contra hlen
  rw [List.drop_eq_nil_of_le (by omega)] at hl
  cases hl

/-- What `printk` returns is where the loop ends. -/
theorem run_of_printk (f : Format) (s : Console) (args : List VaArg) {s' : Console}
    {n : BitVec 32} (h : s.printk (f.chars ++ [0]) args = some (s', n)) :
    ∃ tr q, Run (Scan.Step f.byte) (.start s args) tr q ∧ f.byte q.pos = 0 ∧ q.console = s' ∧
      q.numPrinted = n :=
  Scan.run_of_printkLoop _ s 0 0 args (fun i hi => by
    rw [Nat.zero_add, byte, List.getElem?_eq_getElem hi]
    rfl) h

/-- A pass over a whole format reads no further than its NUL, and leaves a whole format. -/
theorem pass_whole {p : Scan} (hpos : p.pos ≤ f.chars.length)
    (hwhole : Whole (f.chars.drop p.pos)) (hnul : f.byte p.pos ≠ 0) :
    (∀ i ∈ (p.pass f.byte).1, i ≤ f.chars.length) ∧ ∀ q, (p.pass f.byte).2 = some q →
      p.pos < q.pos ∧ q.pos ≤ f.chars.length ∧ Whole (f.chars.drop q.pos) := by
  generalize hl : f.chars.drop p.pos = l at hwhole
  have hbyte := byte_of_drop hl hpos
  cases hwhole with
  | nil => exact absurd (hbyte 0) hnul
  | lit hlit hrest =>
    obtain ⟨hdrop, hlen⟩ := drop_tail hl
    rw [Scan.pass_lit ((hbyte 0).trans_ne hlit)]
    refine ⟨fun i hi => ?_, fun q hq => ?_⟩
    · rw [List.mem_singleton.1 hi]
      exact hpos
    · cases hq
      exact ⟨Nat.lt_succ_self _, hlen, hdrop.symm ▸ hrest⟩
  | conv hmod hrest =>
    obtain ⟨hdrop, hlen⟩ := drop_tail (drop_tail hl).1
    rw [Scan.pass_conv (hbyte 0) ((hbyte 1).symm ▸ hmod)]
    refine ⟨fun i hi => ?_, fun q hq => ?_⟩
    · simp only [List.mem_cons, List.not_mem_nil, or_false] at hi
      omega
    · obtain ⟨_, -, rfl⟩ := Option.map_eq_some_iff.1 hq
      exact ⟨Nat.lt_add_of_pos_right Nat.two_pos, hlen, hdrop.symm ▸ hrest⟩
  | convMod hmod hrest =>
    obtain ⟨hdrop, hlen⟩ := drop_tail (drop_tail (drop_tail hl).1).1
    rw [Scan.pass_convMod (hbyte 0) ((hbyte 1).symm ▸ hmod)]
    refine ⟨fun i hi => ?_, fun q hq => ?_⟩
    · simp only [List.mem_cons, List.not_mem_nil, or_false] at hi
      omega
    · obtain ⟨_, -, rfl⟩ := Option.map_eq_some_iff.1 hq
      exact ⟨Nat.lt_add_of_pos_right (Nat.succ_pos 2), hlen, hdrop.symm ▸ hrest⟩

/-- Along every run over a whole format the loop is in the format, at a place that is whole. -/
theorem run_whole {p q : Scan} {tr : List (List ℕ)} (hwhole : Whole f.chars) (hp : p.pos = 0)
    (hrun : Run (Scan.Step f.byte) p tr q) :
    tr.length ≤ q.pos ∧ q.pos ≤ f.chars.length ∧ Whole (f.chars.drop q.pos) := by
  refine hrun.invariant (fun tr q => tr.length ≤ q.pos ∧ q.pos ≤ f.chars.length ∧
    Whole (f.chars.drop q.pos)) ?_ ?_
  · rw [hp]
    exact ⟨Nat.le_refl _, Nat.zero_le _, hwhole⟩
  · rintro tr t reads u - ⟨htr, hpos, ht⟩ ⟨hnul, hpass⟩
    obtain ⟨hlt, hle, hu⟩ := (pass_whole hpos ht hnul).2 u (congrArg Prod.snd hpass)
    refine ⟨?_, hle, hu⟩
    rw [List.length_append, List.length_singleton]
    omega

/-- A whole format is not left. -/
theorem staysInside_of_whole (hwhole : Whole f.chars) : f.StaysInside := by
  refine fun s args => ⟨?_, f.chars.length, fun tr q hrun => ?_⟩
  · rintro i ⟨tr, q, hrun, hi⟩
    obtain ⟨-, hpos, hq⟩ := run_whole hwhole rfl hrun
    obtain rfl | ⟨hnul, hi⟩ := hi
    · exact hpos
    · exact (pass_whole hpos hq hnul).1 i hi
  · obtain ⟨htr, hpos, -⟩ := run_whole hwhole rfl hrun
    exact htr.trans hpos

/-! ## Formats that are not whole -/

theorem lenModOf_num (m : BitVec 8) : ∃ len : LenMod, lenModOf m = len.num := by
  unfold lenModOf
  split_ifs
  · exact ⟨.h, rfl⟩
  · exact ⟨.l, rfl⟩
  · exact ⟨.q, rfl⟩
  · exact ⟨.none, rfl⟩

/-- A conversion of a word that goes through on zero. -/
theorem word_feeds {g : BitVec 64 → Option Console} {s : Console} (hg : g 0 = some s)
    (counted : Console → BitVec 32) (more : List VaArg) :
    (do
      let .word arg :: args := [.word 0] ++ more | none
      let s ← g arg
      return (s, counted s, args)) = some (s, counted s, more) :=
  Option.bind_eq_some_iff.2 ⟨s, hg, rfl⟩

/-- Every `switch` can be given the arguments that it takes. -/
theorem directive_feeds (m c : BitVec 8) (s : Console) (n : BitVec 32) :
    ∃ args s' n', ∀ more, s.directive n (lenModOf m) c (args ++ more) = some (s', n', more) := by
  obtain ⟨len, hlen⟩ := lenModOf_num m
  rw [hlen]
  unfold Console.directive
  split_ifs
  · exact ⟨[], _, _, fun more => rfl⟩
  · obtain ⟨s', hs', -⟩ := s.caseInt_converts len .d 0
    exact ⟨[.word 0], s', _, word_feeds hs' fun s => n + s.digits.intLen⟩
  · obtain ⟨s', hs', -⟩ := s.caseInt_converts len .u 0
    exact ⟨[.word 0], s', _, word_feeds hs' fun s => n + s.digits.intLen⟩
  · obtain ⟨s', hs', -⟩ := s.caseInt_converts len .x 0
    exact ⟨[.word 0], s', _, word_feeds hs' fun s => n + s.digits.intLen⟩
  · exact ⟨[.word 0], _, _, fun more => rfl⟩
  · obtain ⟨s', hs', -⟩ := Console.converts_hex (w := 64) (by decide)
      (s.printChars (KernelDev.chars "0x")) 0
    exact ⟨[.word 0], s', _, word_feeds (g := s.printPointer) hs' fun s =>
      n + 2 + s.digits.intLen⟩
  · exact ⟨[.str (some [])], _, _, fun more => rfl⟩
  · exact ⟨[], _, _, fun more => rfl⟩

/-- From a place that is not whole, with fitting arguments, the loop comes behind the NUL. -/
theorem run_behind : ∀ (l : List (BitVec 8)) {pos : ℕ}, f.chars.drop pos = l →
    pos ≤ f.chars.length → ¬ Whole l → ∀ (s : Console) (n : BitVec 32), ∃ args tr q,
      Run (Scan.Step f.byte) ⟨s, n, pos, args⟩ tr q ∧ f.chars.length < q.pos
  | [], _, _, _, hwhole, _, _ => absurd .nil hwhole
  | c :: l, pos, hl, hpos, hwhole, s, n => by
    have hbyte := byte_of_drop hl hpos
    obtain ⟨hdrop, hlen⟩ := drop_tail hl
    by_cases hlit : c = ch '%'
    · subst hlit
      rcases l with - | ⟨m, l⟩
      · -- the `switch` sees the NUL, and the `fmt++` behind it steps over the NUL
        have hend := List.drop_eq_nil_iff.1 hdrop
        refine ⟨[], _, _, .cons (step_conv (hbyte 0) (hbyte 1) rfl rfl) .nil, ?_⟩
        show f.chars.length < pos + 2
        omega
      · obtain ⟨hdrop₂, hlen₂⟩ := drop_tail hdrop
        by_cases hmod : lenModOf m = 0
        · obtain ⟨args, s', n', hfeed⟩ := directive_feeds m m s n
          obtain ⟨args', tr, q, hrun, hq⟩ := run_behind l hdrop₂ hlen₂
            (fun h => hwhole (.conv hmod h)) s' n'
          rw [hmod] at hfeed
          exact ⟨args ++ args', _, q,
            .cons (step_conv (hbyte 0) (hbyte 1) hmod (hfeed args')) hrun, hq⟩
        · rcases l with - | ⟨c, l⟩
          · have hend := List.drop_eq_nil_iff.1 hdrop₂
            refine ⟨[], _, _, .cons (step_convMod (hbyte 0) (hbyte 1) (hbyte 2) hmod rfl) .nil, ?_⟩
            show f.chars.length < pos + 3
            omega
          · obtain ⟨hdrop₃, hlen₃⟩ := drop_tail hdrop₂
            obtain ⟨args, s', n', hfeed⟩ := directive_feeds m c s n
            obtain ⟨args', tr, q, hrun, hq⟩ := run_behind l hdrop₃ hlen₃
              (fun h => hwhole (.convMod hmod h)) s' n'
            exact ⟨args ++ args', _, q,
              .cons (step_convMod (hbyte 0) (hbyte 1) (hbyte 2) hmod (hfeed args')) hrun, hq⟩
    · have hnul : c ≠ 0 := by
        rintro rfl
        exact f.noNul (List.mem_of_mem_drop (hl ▸ List.mem_cons_self))
      obtain ⟨args, tr, q, hrun, hq⟩ := run_behind l hdrop hlen
        (fun h => hwhole (.lit hlit h)) (s.printChar c) (n + 1)
      exact ⟨args, _, q, .cons (step_lit (hbyte 0) hnul hlit) hrun, hq⟩

/-- A format that is never left is whole. -/
theorem whole_of_staysInside (h : f.StaysInside) : Whole f.chars := by
  by_contra hwhole
  obtain ⟨args, tr, q, hrun, hq⟩ := run_behind f.chars rfl (Nat.zero_le _) hwhole
    (.atStart (fun _ => 0) 0 (by decide)) 0
  exact hq.not_ge ((h _ args).1 q.pos ⟨tr, q, hrun, Or.inl rfl⟩)

/-- `printk` reads nothing behind the NUL of its format, and ends, whatever is there and
whatever the arguments are, just if the format does not end inside a directive. -/
theorem printk_staysInside_iff (f : Format) : f.StaysInside ↔ Whole f.chars :=
  ⟨whole_of_staysInside, staysInside_of_whole⟩

/-- A format that ends with `%`. -/
theorem printk_leaves_format : ¬ ∀ f : Format, f.StaysInside := by
  intro h
  have hwhole := whole_of_staysInside (h ⟨[ch '%'], by decide, fun _ => ch 'A'⟩)
  cases hwhole with
  | lit hlit _ => exact hlit rfl

end Format

end KernelDev
