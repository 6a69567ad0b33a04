import KernelDev.CString
import KernelDev.Lib.Loop
import Mathlib.Data.Nat.Find

/-!
# `string.c` in one memory

`memcpy` and `strcpy` with both arguments in one memory, where the two ranges may overlap and may
wrap around at the end of the address space. Both copy upwards, so that what they read may be what
they have written. Where `dest` is a distance of `d` bytes behind `src`, the copy has the first `d`
bytes of the source over and over : the byte at an offset is the one of the source at that offset
modulo `d` (`copyBytes_apply`).

For `memcpy` that is all. The range at `dest` gets what the range at `src` held just if the source
repeats itself at that distance, which is no condition unless `dest` lies in the source behind its
first byte (`memcpy_copies_iff`). A null pointer for one of the two leaves everything as it is.

`strcpy` goes on until it reads a NUL, and it may overwrite the NUL that it is looking for before
it gets there. Then it reads its own copy, which has no NUL as there is none between `src` and
`dest` (`copyBytes_ne_zero`), and never stops (`strcpy_runs_on`). `strcpy_returns_iff` : it comes
to its end just if the source is a string and `dest` is not the address of one of its bytes behind
the first, and then `dest` has the string as it was and nothing else has changed. A NUL anywhere in
memory makes a string (`exists_stringAt`), though one that is long.
-/

namespace KernelDev

open ByteMem

/-- The first `n` rounds of a loop that copies upwards. -/
def copyBytes (m : Mem) (dest src : Addr) (n : ℕ) : Mem :=
  (List.range n).foldl (fun m i =>
    Function.update m (dest + BitVec.ofNat 64 i) (m (src + BitVec.ofNat 64 i))) m

/-- `memcpy`, with its result. -/
def memcpyCall (m : Mem) (dest src : Addr) (n : BitVec 64) : Mem × Addr :=
  if dest = 0 ∨ src = 0 then (m, 0) else (copyBytes m dest src n.toNat, dest)

/-- The variables of `strcpy`. -/
structure StrCpy where
  mem : Mem
  dest : Addr
  src : Addr

namespace StrCpy

/-- The condition of the loop. -/
def more (t : StrCpy) : Bool :=
  decide (t.mem t.src ≠ 0)

/-- The body of the loop. -/
def step (t : StrCpy) : StrCpy :=
  ⟨Function.update t.mem t.dest (t.mem t.src), t.dest + 1, t.src + 1⟩

end StrCpy

/-- `strcpy`, with its result, if its loop is over after `fuel` tests. -/
def strcpy (fuel : ℕ) (m : Mem) (dest src : Addr) : Option (Mem × Addr) :=
  (Loop.run StrCpy.more StrCpy.step fuel ⟨m, dest, src⟩).map fun t =>
    (Function.update t.mem t.dest 0, dest)

/-- A string of `n` characters at `p`. -/
structure StringAt (m : Mem) (p : Addr) (n : ℕ) : Prop where
  short : n < 2 ^ 64
  chars : ∀ i < n, m (p + BitVec.ofNat 64 i) ≠ 0
  /-- The NUL behind the characters. -/
  nul : m (p + BitVec.ofNat 64 n) = 0

variable {m : Mem} {dest src p x : Addr} {n : ℕ}

/-! ## Copying upwards -/

theorem copyBytes_succ (m : Mem) (dest src : Addr) (n : ℕ) : copyBytes m dest src (n + 1) =
    Function.update (copyBytes m dest src n) (dest + BitVec.ofNat 64 n)
      (copyBytes m dest src n (src + BitVec.ofNat 64 n)) := by
  rw [copyBytes, List.range_succ, List.foldl_append]
  rfl

theorem within_snoc (hn : n < 2 ^ 64) :
    Within dest (n + 1) x ↔ x = dest + BitVec.ofNat 64 n ∨ Within dest n x := by
  unfold Within
  constructor
  · intro h
    rcases Nat.lt_succ_iff_lt_or_eq.1 h with h | h
    · exact .inr h
    · left
      bv_omega
  · rintro (rfl | h)
    · bv_omega
    · exact Nat.lt_succ_of_lt h

/-- What a copy holds : the byte at an offset is the one of the source at the offset modulo the
distance. -/
theorem copyBytes_apply (hn : n ≤ 2 ^ 64) : copyBytes m dest src n x =
    if Within dest n x then
      m (src + BitVec.ofNat 64 ((x - dest).toNat % (dest - src).toNat))
    else m x := by
  induction n generalizing x with
  | zero => rw [if_neg (not_within_zero dest x), copyBytes, List.range_zero, List.foldl_nil]
  | succ n ih =>
    have hlt : n < 2 ^ 64 := hn
    rw [copyBytes_succ]
    by_cases hx : x = dest + BitVec.ofNat 64 n
    · subst hx
      have hoff : (dest + BitVec.ofNat 64 n - dest).toNat = n := by bv_omega
      rw [Function.update_self, if_pos ((within_snoc hlt).2 (.inl rfl)), hoff, ih (by omega)]
      by_cases hread : Within dest n (src + BitVec.ofNat 64 n)
      · -- the byte was written by an earlier round
        have hback : (src + BitVec.ofNat 64 n - dest).toNat = n - (dest - src).toNat ∧
            (dest - src).toNat ≤ n := by
          unfold Within at hread
          bv_omega
        rw [if_pos hread, hback.1, ← Nat.mod_eq_sub_mod hback.2]
      · have hmod : n % (dest - src).toNat = n := by
          unfold Within at hread
          rcases Nat.eq_zero_or_pos (dest - src).toNat with hzero | hpos
          · rw [hzero, Nat.mod_zero]
          · exact Nat.mod_eq_of_lt (by bv_omega)
        rw [if_neg hread, hmod]
    · rw [Function.update_of_ne hx, ih (by omega)]
      simp only [within_snoc hlt, hx, false_or]

/-! ## `memcpy` -/

/-- Bytes that repeat are those at the offset modulo the distance. -/
theorem mod_of_periodic {f : ℕ → BitVec 8} {d n : ℕ} (h : ∀ i, i + d < n → f (i + d) = f i) :
    ∀ j < n, f (j % d) = f j := by
  intro j
  induction j using Nat.strong_induction_on with
  | _ j ih =>
    intro hj
    by_cases hd : d = 0 ∨ j < d
    · rcases hd with rfl | hd
      · rw [Nat.mod_zero]
      · rw [Nat.mod_eq_of_lt hd]
    · rw [not_or, Nat.not_lt] at hd
      have hstep := h (j - d) (by omega)
      rw [Nat.sub_add_cancel hd.2] at hstep
      rw [hstep, Nat.mod_eq_sub_mod hd.2]
      exact ih (j - d) (by omega) (by omega)

/-- `memcpy` in one memory. A null pointer leaves everything as it is. Otherwise the range at `dest`
gets what the range at `src` held, exactly if the latter repeats itself at the distance of the two,
which is no condition unless `dest` lies in the range at `src` behind its first byte. -/
theorem memcpy_copies_iff (m : Mem) (dest src : Addr) (n : BitVec 64) :
    (dest = 0 ∨ src = 0 → memcpyCall m dest src n = (m, 0)) ∧
    (dest ≠ 0 → src ≠ 0 → (memcpyCall m dest src n).2 = dest ∧
      ((memcpyCall m dest src n).1 = memcpy m dest m src n.toNat ↔
        ∀ i, i + (dest - src).toNat < n.toNat →
          m (src + BitVec.ofNat 64 (i + (dest - src).toNat)) = m (src + BitVec.ofNat 64 i))) := by
  refine ⟨fun h => if_pos h, fun hdest hsrc => ?_⟩
  have hn : n.toNat ≤ 2 ^ 64 := Nat.le_of_lt n.isLt
  have hcall : memcpyCall m dest src n = (copyBytes m dest src n.toNat, dest) :=
    if_neg (not_or.2 ⟨hdest, hsrc⟩)
  rw [hcall]
  dsimp only
  refine ⟨rfl, fun heq i hi => ?_, fun h => funext fun x => ?_⟩
  · have hbyte : ∀ j < n.toNat, m (src + BitVec.ofNat 64 (j % (dest - src).toNat)) =
        m (src + BitVec.ofNat 64 j) := by
      intro j hj
      have hoff : (dest + BitVec.ofNat 64 j - dest).toNat = j := by bv_omega
      have hat := congrFun heq (dest + BitVec.ofNat 64 j)
      have hin : Within dest n.toNat (dest + BitVec.ofNat 64 j) := by rwa [Within, hoff]
      rw [copyBytes_apply hn, memcpy_apply m m dest src _ hn, if_pos hin, if_pos hin, hoff] at hat
      rw [hat]
      congr 2
      bv_omega
    rw [← hbyte _ hi, Nat.add_mod_right, hbyte i (by omega)]
  · rw [copyBytes_apply hn, memcpy_apply m m dest src x hn]
    split_ifs with hin
    · rw [mod_of_periodic (f := fun i => m (src + BitVec.ofNat 64 i)) h _ hin]
      congr 2
      bv_omega
    · rfl

/-! ## `strcpy` -/

/-- The loop after `n` rounds. -/
theorem iterate_step (m : Mem) (dest src : Addr) (n : ℕ) : StrCpy.step^[n] ⟨m, dest, src⟩ =
    ⟨copyBytes m dest src n, dest + BitVec.ofNat 64 n, src + BitVec.ofNat 64 n⟩ := by
  induction n with
  | zero => simp [copyBytes]
  | succ n ih =>
    rw [Function.iterate_succ_apply', ih, StrCpy.step, copyBytes_succ, BitVec.ofNat_add,
      ← BitVec.add_assoc, ← BitVec.add_assoc]
    rfl

/-- The source byte of a round, as long as the copy does not get ahead of it. -/
theorem copyBytes_src (hn : n < 2 ^ 64)
    (h : (dest - src).toNat = 0 ∨ n < (dest - src).toNat) :
    copyBytes m dest src n (src + BitVec.ofNat 64 n) = m (src + BitVec.ofNat 64 n) := by
  rw [copyBytes_apply (Nat.le_of_lt hn), if_neg]
  unfold Within
  bv_omega

/-- A copy that runs ahead of the source leaves no NUL between the two. In the same way there is
none if there was none in all of memory. -/
theorem copyBytes_ne_zero {d : ℕ} (hd : (dest - src).toNat = d ∨ 2 ^ 64 ≤ d) (hpos : 0 < d)
    (h : ∀ x, Within src d x → m x ≠ 0) :
    ∀ n, ∀ x, Within src (n + d) x → copyBytes m dest src n x ≠ 0
  | 0, x, hx => h x (by rwa [Nat.zero_add] at hx)
  | n + 1, x, hx => by
    have ih := copyBytes_ne_zero hd hpos h n
    rw [copyBytes_succ]
    by_cases heq : x = dest + BitVec.ofNat 64 n
    · subst heq
      rw [Function.update_self]
      refine ih _ ?_
      unfold Within
      have hle : (src + BitVec.ofNat 64 n - src).toNat ≤ n := by bv_omega
      omega
    · rw [Function.update_of_ne heq]
      refine ih x ?_
      unfold Within at hx ⊢
      rcases hd with hd | hd
      · bv_omega
      · have hlt := (x - src).isLt
        omega

/-- The loop of `strcpy` when the copy stays clear of the source in front of it. -/
theorem strcpy_ends (h : StringAt m src n)
    (hd : (dest - src).toNat = 0 ∨ n < (dest - src).toNat) {fuel : ℕ} (hfuel : n < fuel) :
    strcpy fuel m dest src = some (copyBytes m dest src (n + 1), dest) := by
  have hread : ∀ k ≤ n, copyBytes m dest src k (src + BitVec.ofNat 64 k) =
      m (src + BitVec.ofNat 64 k) := fun k hk =>
    copyBytes_src (Nat.lt_of_le_of_lt hk h.short) (by omega)
  have hmore : ∀ k ≤ n, (StrCpy.step^[k] ⟨m, dest, src⟩).more =
      decide (m (src + BitVec.ofNat 64 k) ≠ 0) := by
    intro k hk
    rw [iterate_step]
    exact decide_eq_decide.2 (not_congr (iff_of_eq (congrArg (· = 0) (hread k hk))))
  have hrun : Loop.run StrCpy.more StrCpy.step fuel ⟨m, dest, src⟩ =
      some (StrCpy.step^[n] ⟨m, dest, src⟩) := by
    refine Loop.run_first (fun j hj => ?_) ?_ hfuel
    · rw [hmore j (Nat.le_of_lt hj)]
      exact decide_eq_true (h.chars j hj)
    · rw [hmore n (Nat.le_refl n)]
      exact decide_eq_false (not_not.2 h.nul)
  rw [strcpy, hrun, iterate_step, Option.map_some, copyBytes_succ, hread n (Nat.le_refl n), h.nul]

/-- More tests do not change the result. -/
theorem strcpy_mono {fuel fuel' : ℕ} {r : Mem × Addr} (h : strcpy fuel m dest src = some r)
    (hle : fuel ≤ fuel') : strcpy fuel' m dest src = some r := by
  obtain ⟨t, ht, rfl⟩ := Option.map_eq_some_iff.1 h
  rw [strcpy, Loop.run_mono ht hle]
  rfl

/-- A NUL anywhere in memory makes a string. -/
theorem exists_stringAt (hx : m x = 0) (p : Addr) : ∃ n, StringAt m p n := by
  have haddr : p + BitVec.ofNat 64 (x - p).toNat = x := by bv_omega
  rw [← haddr] at hx
  have hex : ∃ i, m (p + BitVec.ofNat 64 i) = 0 := ⟨_, hx⟩
  refine ⟨Nat.find hex, ?_, fun i hi => Nat.find_min hex hi, Nat.find_spec hex⟩
  exact Nat.lt_of_le_of_lt (Nat.find_min' hex hx) (x - p).isLt

/-- The loop of `strcpy` when it never gets to a NUL. -/
theorem strcpy_runs_on (h : ∀ n, StringAt m src n →
    0 < (dest - src).toNat ∧ (dest - src).toNat ≤ n) (fuel : ℕ) :
    strcpy fuel m dest src = none := by
  obtain ⟨d, hd, hpos, hfront⟩ : ∃ d, ((dest - src).toNat = d ∨ 2 ^ 64 ≤ d) ∧ 0 < d ∧
      ∀ x, Within src d x → m x ≠ 0 := by
    by_cases hnul : ∃ x, m x = 0
    · obtain ⟨x, hx⟩ := hnul
      obtain ⟨n, hn⟩ := exists_stringAt hx src
      obtain ⟨hpos, hle⟩ := h n hn
      refine ⟨_, .inl rfl, hpos, fun y hy => ?_⟩
      have hchar := hn.chars (y - src).toNat (Nat.lt_of_lt_of_le hy hle)
      have haddr : src + BitVec.ofNat 64 (y - src).toNat = y := by bv_omega
      rwa [haddr] at hchar
    · exact ⟨2 ^ 64, .inr (Nat.le_refl _), Nat.two_pow_pos 64, fun y _ hy => hnul ⟨y, hy⟩⟩
  have hnone : Loop.run StrCpy.more StrCpy.step fuel ⟨m, dest, src⟩ = none := by
    refine Loop.run_eq_none (fun t => ∃ k, t = StrCpy.step^[k] ⟨m, dest, src⟩) ?_ ⟨0, rfl⟩
    rintro t ⟨k, rfl⟩
    refine ⟨?_, k + 1, (Function.iterate_succ_apply' _ _ _).symm⟩
    rw [iterate_step]
    refine decide_eq_true (copyBytes_ne_zero hd hpos hfront k _ ?_)
    show (src + BitVec.ofNat 64 k - src).toNat < k + d
    have hle : (src + BitVec.ofNat 64 k - src).toNat ≤ k := by bv_omega
    omega
  rw [strcpy, hnone, Option.map_none]

/-- `strcpy` in one memory. It comes to its end exactly if the source is a string and `dest` is not
the address of one of its bytes behind the first, and then `dest` has the string as it was, and
nothing else has changed. -/
theorem strcpy_returns_iff (m : Mem) (dest src : Addr) :
    ((∃ fuel r, strcpy fuel m dest src = some r) ↔
      ∃ n, StringAt m src n ∧ ¬(0 < (dest - src).toNat ∧ (dest - src).toNat ≤ n)) ∧
    ∀ fuel t p, strcpy fuel m dest src = some (t, p) → ∃ n, StringAt m src n ∧ p = dest ∧
      StringAt t dest n ∧ ∀ x, t x =
        if Within dest (n + 1) x then m (src + (x - dest)) else m x := by
  have hends : ∀ fuel r, strcpy fuel m dest src = some r →
      ∃ n, StringAt m src n ∧ ¬(0 < (dest - src).toNat ∧ (dest - src).toNat ≤ n) := by
    intro fuel r hr
    by_contra hnone
    have hnever := strcpy_runs_on (fun n hn => by_contra fun hd => hnone ⟨n, hn, hd⟩) fuel
    rw [hnever] at hr
    cases hr
  refine ⟨⟨fun ⟨fuel, r, hr⟩ => hends fuel r hr, fun ⟨n, hn, hd⟩ => ?_⟩, fun fuel t p hr => ?_⟩
  · exact ⟨n + 1, _, strcpy_ends hn (by omega) (Nat.lt_succ_self n)⟩
  · obtain ⟨n, hn, hd⟩ := hends fuel _ hr
    have hfar : (dest - src).toNat = 0 ∨ n < (dest - src).toNat := by omega
    have hlong := strcpy_ends hn hfar (Nat.lt_of_lt_of_le (Nat.lt_succ_self n)
      (Nat.le_max_right fuel (n + 1)))
    rw [strcpy_mono hr (Nat.le_max_left fuel (n + 1))] at hlong
    obtain ⟨rfl, rfl⟩ := Prod.mk.inj (Option.some.inj hlong)
    have hcopy : ∀ x, copyBytes m p src (n + 1) x =
        if Within p (n + 1) x then m (src + (x - p)) else m x := by
      intro x
      rw [copyBytes_apply hn.short]
      split_ifs with hin
      · have hmod : (x - p).toNat % (p - src).toNat = (x - p).toNat := by
          rcases hfar with hzero | hlt
          · rw [hzero, Nat.mod_zero]
          · exact Nat.mod_eq_of_lt (Nat.lt_of_lt_of_le hin hlt)
        rw [hmod]
        congr 2
        bv_omega
      · rfl
    have hchar : ∀ i ≤ n, copyBytes m p src (n + 1) (p + BitVec.ofNat 64 i) =
        m (src + BitVec.ofNat 64 i) := by
      intro i hi
      have hshort := hn.short
      have hoff : p + BitVec.ofNat 64 i - p = BitVec.ofNat 64 i := by bv_omega
      have hin : Within p (n + 1) (p + BitVec.ofNat 64 i) := by
        rw [Within, hoff]
        bv_omega
      rw [hcopy, if_pos hin, hoff]
    refine ⟨n, hn, rfl, ⟨hn.short, fun i hi => ?_, ?_⟩, hcopy⟩
    · rw [hchar i (Nat.le_of_lt hi)]
      exact hn.chars i hi
    · rw [hchar n (Nat.le_refl n)]
      exact hn.nul

end KernelDev
