import KernelDev.Ps2Init

/-!
# `kb_init` against the keyboard

The keyboard is sent a reset, and behind its self test the scan code set, the command that enables
it and the repeat rate. It answers every byte with one of its own, and the reset with the code of
its self test as well. `kb_init` reads a byte for each that it sends and looks at none of them but
those of the self test; as keys may be pressed meanwhile, it may take a scan code for a reply.

What was read is therefore counted, and not matched with what was sent. `stream` is the bytes on
their way to the processor, those in the output buffer first. `Resetting` and `Tested` follow the
self test : before its code come only bytes that are no test codes, finitely many of them, so that
the loop can be left and ends with that code (`kbSelfTest_exits`, `kbSelfTest_triple`). From there
`Owes` counts : of the bytes typed since the reset and the replies, all but `d` are unread, where
`d` is what was read.

`kbInit_starts` : the function can always come to its end, and overruns nothing. It returns `0`
just if the self test was passed. Then the keyboard scans with scan code set 2 and has the repeat
rate `0x4A` once it has taken the last byte, which may still be in the input buffer; and as many
bytes are unread as were typed since the reset, though these need not be the same bytes. Otherwise
it returns `-1` after a message with the code, and the keyboard was sent nothing but the reset.
-/

namespace KernelDev

open Ps2 Relation

/-- What is known of a keyboard apart from the bytes it sends. -/
structure Ps2Profile where
  awaiting : Option (BitVec 8)
  scanSet : BitVec 8
  repeatRate : BitVec 8
  scanning : Bool
  selfTest : BitVec 8
  received : List (BitVec 8)

namespace Ps2Keyboard

def profile (k : Ps2Keyboard) : Ps2Profile :=
  ⟨k.awaiting, k.scanSet, k.repeatRate, k.scanning, k.selfTest, k.received⟩

/-- None of the bytes is a test code. -/
def Clear (bs : List (BitVec 8)) : Prop :=
  ∀ b ∈ bs, NoTestCode b

/-- A byte other than the reset is answered with one byte. -/
theorem receive_queue {k : Ps2Keyboard} {b : BitVec 8} (hb : b ≠ kbReset) :
    (k.receive b).queue = k.queue ++ [kbAck] ∧ (k.receive b).typed = k.typed := by
  rw [receive, if_neg hb]
  unfold accept
  split_ifs <;> exact ⟨rfl, rfl⟩

end Ps2Keyboard

namespace Ps2Controller

open Ps2Keyboard

variable {s t : Ps2Controller}

/-- The bytes of the keyboard on their way to the processor. -/
def stream (s : Ps2Controller) : List (BitVec 8) :=
  s.output.toList ++ s.keyboard.queue


/-- The line of the keyboard is masked and only its port is open. -/
structure Masked (s : Ps2Controller) : Prop where
  safe : s.Safe
  irq : s.irq = false
  port1 : s.Port1
  port2 : ¬s.Port2
  idle : s.awaitsConfig = false

/-- The keyboard sends bytes on and keys are pressed. -/
structure Typed (s t : Ps2Controller) (bs : List (BitVec 8)) : Prop where
  input : t.input = s.input
  /-- What is typed comes behind what was typed before. -/
  stream : t.stream = s.stream ++ bs
  typed : t.keyboard.typed = s.keyboard.typed + bs.length
  profile : t.keyboard.profile = s.keyboard.profile
  codes : Clear bs
  /-- Nobody takes a byte from the output buffer. -/
  full : s.output ≠ none → t.output ≠ none
  masked : t.Masked

/-- The steps of a controller whose line is masked. -/
theorem own_masked (hm : s.Masked) (h : Own s t) :
    (∃ c, s.input = some (true, c) ∧ t = s.command c) ∨
      (∃ b, s.input = some (false, b) ∧ t = s.data b) ∨ ∃ bs, Typed s t bs := by
  cases h with
  | command hin _ => exact .inl ⟨_, hin, rfl⟩
  | data hin => exact .inr (.inl ⟨_, hin, rfl⟩)
  | @send b bs hout _ hqueue =>
    refine .inr (.inr ⟨[], rfl, ?_, rfl, rfl, nofun, fun h => absurd hout h,
      ⟨hm.safe, hm.irq, hm.port1, hm.port2, hm.idle⟩⟩)
    simp [stream, hout, hqueue]
  | @press bs _ hcodes =>
    refine .inr (.inr ⟨bs, rfl, ?_, rfl, rfl, hcodes, id,
      ⟨hm.safe, hm.irq, hm.port1, hm.port2, hm.idle⟩⟩)
    simp [stream, Ps2Keyboard.press]
  | second _ _ hport => exact absurd hport hm.port2
  | interrupt hirq _ _ => exact absurd (hm.irq.symm.trans hirq) Bool.false_ne_true

variable {R : Ps2Controller → Prop}

/-- With its line masked, the output buffer stays full until it is read. -/
theorem stays_full (hR : device.Stays Safe R) (hm : ∀ s, R s → s.Masked) :
    device.Stays Safe fun s => R s ∧ s.output ≠ none where
  own s t h hown := by
    refine ⟨hR.own s t h.1 hown, ?_⟩
    have htake : ∀ x, (s.take x).output ≠ none := by
      intro x
      rw [take_output]
      split_ifs
      · exact Option.some_ne_none _
      · exact h.2
    rcases own_masked (hm s h.1) hown with ⟨c, -, rfl⟩ | ⟨b, -, rfl⟩ | ⟨bs, htyped⟩
    · exact htake (true, c)
    · exact htake (false, b)
    · exact htyped.full h.2
  safe s h := hR.safe s h.1

/-- What the keyboard has to send gets to the output buffer. -/
theorem Masked.fills (hm : s.Masked) (hne : s.stream ≠ []) :
    ∃ t, device.Moves s t ∧ t.input = s.input ∧ t.stream = s.stream ∧ t.output ≠ none := by
  by_cases hout : s.output = none
  · obtain ⟨b, bs, hqueue⟩ : ∃ b bs, s.keyboard.queue = b :: bs := by
      refine List.exists_cons_of_ne_nil fun h => hne ?_
      rw [stream, hout, h]
      rfl
    exact ⟨_, .own (.send hout hm.port1 hqueue), rfl, by simp [stream, hout, hqueue],
      Option.some_ne_none _⟩
  · exact ⟨s, .refl s, rfl, rfl, hout⟩

/-- The byte that is read is the first of the stream. -/
theorem stream_read {b : BitVec 8} (h : s.output = some b) :
    s.stream = b :: { s with output := none }.stream := by
  simp [stream, h]

/-! ## The reset -/

/-- The reset was sent to a keyboard whose self test gives `T` and that had been sent `sent`. There
are `n` bytes before `T` at least. -/
def Resetting (sent : List (BitVec 8)) (T : BitVec 8) (n : ℕ) (s : Ps2Controller) : Prop :=
  s.Masked ∧ (s.input = some (false, kbReset) ∧ s.keyboard.received = sent ∧
      s.keyboard.selfTest = T ∧ Clear s.stream ∨
    s.input = none ∧ s.keyboard.profile = ⟨none, 2, 0x2b, true, T, sent ++ [kbReset]⟩ ∧
      ∃ pre post, s.stream = pre ++ T :: post ∧ Clear pre ∧ n ≤ pre.length ∧
        post.length = s.keyboard.typed)

variable {sent : List (BitVec 8)} {T b : BitVec 8} {n : ℕ}

theorem data_eq (hm : s.Masked) (b : BitVec 8) :
    s.data b = { s with input := none, keyboard := s.keyboard.receive b } :=
  if_neg (by simp [hm.idle])

/-- The devices keep what is known while the reset is under way. -/
theorem stays_resetting (hn : n ≤ 1) : device.Stays Safe (Resetting sent T n) where
  own s t := by
    rintro ⟨hm, h⟩ hown
    rcases own_masked hm hown with ⟨c, hc, -⟩ | ⟨b, hb, rfl⟩ | ⟨bs, htyped⟩
    · rcases h with ⟨hin, -⟩ | ⟨hin, -⟩
      all_goals simp [hin] at hc
    · rcases h with ⟨hin, hsent, htest, hclear⟩ | ⟨hin, -⟩
      · obtain rfl : kbReset = b := by simpa [hin] using hb
        rw [data_eq hm]
        refine ⟨⟨hm.safe, hm.irq, hm.port1, hm.port2, hm.idle⟩, .inr ⟨rfl, ?_,
          s.output.toList ++ [kbAck], [], ?_, ?_, ?_, rfl⟩⟩
        · rw [← hsent, ← htest]
          rfl
        · rw [stream, ← htest]
          simp [receive, reset]
        · intro x hx
          rcases List.mem_append.1 hx with hx | hx
          · exact hclear x (List.mem_append_left _ hx)
          · rw [List.mem_singleton.1 hx]
            exact ⟨by decide, by decide, by decide⟩
        · simpa using by omega
      · simp [hin] at hb
    · refine ⟨htyped.masked, ?_⟩
      rcases h with ⟨hin, hsent, htest, hclear⟩ |
        ⟨hin, hprofile, pre, post, hstream, hpre, hlen, hpost⟩
      · refine .inl ⟨htyped.input.trans hin,
          (congrArg Ps2Profile.received htyped.profile).trans hsent,
          (congrArg Ps2Profile.selfTest htyped.profile).trans htest, ?_⟩
        rw [htyped.stream]
        intro x hx
        rcases List.mem_append.1 hx with hx | hx
        · exact hclear x hx
        · exact htyped.codes x hx
      · refine .inr ⟨htyped.input.trans hin, htyped.profile.trans hprofile, pre, post ++ bs, ?_,
          hpre, hlen, ?_⟩
        · rw [htyped.stream, hstream, List.append_assoc, List.cons_append]
        · rw [htyped.typed, List.length_append, hpost]
  safe s h := h.1.safe

/-- The reset is taken, and a byte gets to the output buffer. -/
theorem Resetting.fills (h : Resetting sent T n s) (hn : n ≤ 1) :
    ∃ t, device.Moves s t ∧ t.input = none ∧ t.output ≠ none := by
  obtain ⟨u, hu, hin⟩ : ∃ u, device.Moves s u ∧ u.input = none := by
    rcases h.2 with ⟨hin, -⟩ | ⟨hin, -⟩
    · exact ⟨_, .own (.data hin), take_input s (false, kbReset)⟩
    · exact ⟨s, .refl s, hin⟩
  obtain ⟨hm, ⟨hin', -⟩ | ⟨-, -, pre, post, hstream, -⟩⟩ := (stays_resetting hn).moves h hu
  · simp [hin] at hin'
  · obtain ⟨t, ht, hin', -, hout⟩ := hm.fills (by simp [hstream])
    exact ⟨t, hu.trans ht, hin'.trans hin, hout⟩

/-- The test code was read. -/
def Tested (sent : List (BitVec 8)) (T : BitVec 8) (s : Ps2Controller) : Prop :=
  s.Masked ∧ s.input = none ∧ s.keyboard.profile = ⟨none, 2, 0x2b, true, T, sent ++ [kbReset]⟩ ∧
    s.stream.length = s.keyboard.typed

/-- The bytes before the test code are no test codes. -/
theorem Resetting.read (h : Resetting sent T n s) (hb : s.output = some b) :
    NoTestCode b ∧ Resetting sent T (n - 1) { s with output := none } ∨
      n = 0 ∧ b = T ∧ Tested sent T { s with output := none } := by
  have hcons := stream_read hb
  obtain ⟨hm, h⟩ := h
  have hm' : Masked { s with output := none } := ⟨hm.safe, hm.irq, hm.port1, hm.port2, hm.idle⟩
  rcases h with ⟨hin, hsent, htest, hclear⟩ | ⟨hin, hprofile, pre, post, hstream, hpre, hlen, hpost⟩
  · rw [hcons] at hclear
    exact .inl ⟨hclear b List.mem_cons_self, hm', .inl ⟨hin, hsent, htest,
      fun x hx => hclear x (List.mem_cons_of_mem b hx)⟩⟩
  · rw [hcons] at hstream
    cases pre with
    | nil =>
      obtain ⟨hbT, htail⟩ := List.cons.inj hstream
      exact .inr ⟨by simpa using hlen, hbT, hm', hin, hprofile,
        (congrArg List.length htail).trans hpost⟩
    | cons x pre =>
      obtain ⟨rfl, htail⟩ := List.cons.inj hstream
      rw [List.length_cons] at hlen
      exact .inl ⟨hpre b List.mem_cons_self, hm', .inr ⟨hin, hprofile, pre, post, htail,
        fun x hx => hpre x (List.mem_cons_of_mem b hx), by omega, hpost⟩⟩

/-- The first byte read is not the test code : the reset is acknowledged first. -/
theorem readData_first : device.Triple Safe (Resetting sent T 1) readData
    fun _ => Resetting sent T 0 := by
  refine readData_triple (stays_resetting le_rfl)
    (stays_full (stays_resetting le_rfl) fun s h => h.1)
    (fun s h => ?_) (fun _ => stays_resetting (Nat.zero_le 1)) fun s b h hb => ?_
  · obtain ⟨t, ht, -, hout⟩ := h.fills le_rfl
    exact ⟨t, ht, hout⟩
  · rcases h.read hb with ⟨-, h⟩ | ⟨h, -⟩
    · exact h
    · exact absurd h Nat.one_ne_zero

/-- The devices keep what is known after the self test. -/
theorem stays_tested : device.Stays Safe (Tested sent T) where
  own s t := by
    rintro ⟨hm, hin, hprofile, hlen⟩ hown
    rcases own_masked hm hown with ⟨c, hc, -⟩ | ⟨b, hb, -⟩ | ⟨bs, htyped⟩
    · simp [hin] at hc
    · simp [hin] at hb
    · refine ⟨htyped.masked, htyped.input.trans hin, htyped.profile.trans hprofile, ?_⟩
      rw [htyped.stream, htyped.typed, List.length_append, hlen]
  safe s h := h.1.safe

/-- A byte is no test code unless it is one of the three. -/
theorem noTestCode_iff : NoTestCode b ↔ ¬(b = kbTestPass ∨ b = kbTestFail1 ∨ b = kbTestFail2) := by
  rw [NoTestCode, not_or, not_or]

/-- A round of the loop. -/
theorem kbSelfTest_round (hb : s.output = some b) :
    device.Reaches (kbSelfTest, s)
      (if NoTestCode b then kbSelfTest else .ret b, { s with output := none }) := by
  have hread := readData_reaches hb
  split_ifs with hcode
  · refine Device.Reaches.loop_again (hread.seq ?_)
    rw [PortProgram.pure_eq, if_neg (noTestCode_iff.1 hcode)]
    exact .refl
  · refine Device.Reaches.loop_done (hread.seq ?_)
    rw [PortProgram.pure_eq, if_pos (not_not.1 fun h => hcode (noTestCode_iff.2 h))]
    exact .refl

/-- The loop can be left : the keyboard sends its test code after finitely many bytes. -/
theorem kbSelfTest_exits (hT : ¬NoTestCode T) : ∀ (n : ℕ) {s : Ps2Controller},
    Resetting sent T 0 s → s.input = none → s.stream.length ≤ n →
      ∃ b t, device.Reaches (kbSelfTest, s) (.ret b, t) := by
  intro n
  induction n with
  | zero =>
    rintro s ⟨-, ⟨hin', -⟩ | ⟨-, -, pre, post, hstream, -⟩⟩ hin hlen
    · simp [hin] at hin'
    · simp [hstream] at hlen
  | succ n ih =>
    intro s h hin hlen
    have hne : s.stream ≠ [] := by
      rcases h.2 with ⟨hin', -⟩ | ⟨-, -, pre, post, hstream, -⟩
      · simp [hin] at hin'
      · simp [hstream]
    obtain ⟨t, hmoves, hin', hstream, hout⟩ := h.1.fills hne
    obtain ⟨b, hb⟩ := Option.ne_none_iff_exists'.1 hout
    have hround := (hmoves.reaches kbSelfTest).trans (kbSelfTest_round hb)
    rcases ((stays_resetting (Nat.zero_le 1)).moves h hmoves).read hb with
      ⟨hcode, hnext⟩ | ⟨-, hbT, -⟩
    · rw [if_pos hcode] at hround
      rw [← hstream, stream_read hb, List.length_cons] at hlen
      obtain ⟨x, u, hu⟩ := ih hnext (hin'.trans hin) (by omega)
      exact ⟨x, u, hround.trans hu⟩
    · rw [if_neg (hbT ▸ hT)] at hround
      exact ⟨b, _, hround⟩

/-- The loop of `kb_init` ends with the test code. -/
theorem kbSelfTest_triple (hT : ¬NoTestCode T) : device.Triple Safe (Resetting sent T 0) kbSelfTest
    fun b s => b = T ∧ Tested sent T s := by
  have hR : device.Stays Safe (Resetting sent T 0) := stays_resetting (Nat.zero_le 1)
  have hQ : ∀ b, device.Stays Safe fun s => b = T ∧ Tested sent T s := fun b =>
    ⟨fun s t h hown => ⟨h.1, stays_tested.own s t h.2 hown⟩, fun s h => stays_tested.safe s h.2⟩
  have hM : ∀ b, device.Stays Safe fun s =>
      if NoTestCode b then Resetting sent T 0 s else b = T ∧ Tested sent T s := by
    intro b
    by_cases hcode : NoTestCode b
    · simpa only [if_pos hcode] using hR
    · simpa only [if_neg hcode] using hQ b
  refine Device.Triple.loop hR hQ (Device.Triple.bind (readData_triple hR
    (stays_full hR fun s h => h.1) (fun s h => ?_) hM fun s b h hb => ?_) fun b => ?_) fun s h => ?_
  · obtain ⟨t, ht, -, hout⟩ := h.fills (Nat.zero_le 1)
    exact ⟨t, ht, hout⟩
  · rcases h.read hb with ⟨hcode, h⟩ | ⟨-, hbT, h⟩
    · rwa [if_pos hcode]
    · rw [if_neg (hbT ▸ hT)]
      exact ⟨hbT, h⟩
  · by_cases hcode : NoTestCode b
    · rw [PortProgram.pure_eq, if_neg (noTestCode_iff.1 hcode)]
      simp only [if_pos hcode]
      exact fun s h t ht => ⟨(hR.moves h ht).1.safe, hR.moves h ht⟩
    · rw [PortProgram.pure_eq, if_pos (not_not.1 fun h => hcode (noTestCode_iff.2 h))]
      simp only [if_neg hcode]
      exact fun s h t ht => ⟨(hQ b).safe t ((hQ b).moves h ht), (hQ b).moves h ht⟩
  · obtain ⟨t, ht, hin, -⟩ := h.fills (Nat.zero_le 1)
    obtain ⟨b, u, hu⟩ := kbSelfTest_exits hT _ (hR.moves h ht) hin le_rfl
    exact ⟨b, u, (ht.reaches kbSelfTest).trans hu⟩

/-! ## The commands after the reset -/

/-- The byte `x` was sent, by which the keyboard gets from `B` to `A`. Of the bytes typed and
the replies, all but `d` are unread. -/
def Owes (x : BitVec 8) (B A : Ps2Profile) (d : ℕ) (s : Ps2Controller) : Prop :=
  s.Masked ∧ (s.input = some (false, x) ∧ s.keyboard.profile = B ∧
      s.stream.length + d = s.keyboard.typed ∨
    s.input = none ∧ s.keyboard.profile = A ∧ s.stream.length + d = s.keyboard.typed + 1)

/-- The byte takes the keyboard from `B` to `A`. -/
def Takes (x : BitVec 8) (B A : Ps2Profile) : Prop :=
  x ≠ kbReset ∧ ∀ k : Ps2Keyboard, k.profile = B → (k.receive x).profile = A

variable {x y : BitVec 8} {B A A' : Ps2Profile} {d : ℕ}

/-- The devices keep what is known between two commands. -/
theorem stays_owes (hx : Takes x B A) : device.Stays Safe (Owes x B A d) where
  own s t := by
    rintro ⟨hm, h⟩ hown
    rcases own_masked hm hown with ⟨c, hc, -⟩ | ⟨b, hb, rfl⟩ | ⟨bs, htyped⟩
    · rcases h with ⟨hin, -⟩ | ⟨hin, -⟩
      all_goals simp [hin] at hc
    · rcases h with ⟨hin, hprofile, hlen⟩ | ⟨hin, -⟩
      · obtain rfl : x = b := by simpa [hin] using hb
        obtain ⟨hqueue, htyped⟩ := receive_queue (k := s.keyboard) hx.1
        rw [data_eq hm]
        refine ⟨⟨hm.safe, hm.irq, hm.port1, hm.port2, hm.idle⟩, .inr ⟨rfl, hx.2 _ hprofile, ?_⟩⟩
        show (s.output.toList ++ (s.keyboard.receive x).queue).length + d =
          (s.keyboard.receive x).typed + 1
        rw [htyped, ← hlen, stream, hqueue, ← List.append_assoc, List.length_append,
          List.length_singleton]
        omega
      · simp [hin] at hb
    · refine ⟨htyped.masked, ?_⟩
      rw [htyped.input, htyped.profile, htyped.stream, htyped.typed, List.length_append]
      rcases h with ⟨hin, hprofile, hlen⟩ | ⟨hin, hprofile, hlen⟩
      · exact .inl ⟨hin, hprofile, by omega⟩
      · exact .inr ⟨hin, hprofile, by omega⟩
  safe s h := h.1.safe

/-- One more byte is read. -/
theorem owes_read (hx : Takes x B A) : device.Triple Safe (Owes x B A 0) readData
    fun _ => Owes x B A 1 := by
  refine readData_triple (stays_owes hx) (stays_full (stays_owes hx) fun s h => h.1) (fun s h => ?_)
    (fun _ => stays_owes hx) fun s b h hb => ?_
  · obtain ⟨u, hu, hin⟩ : ∃ u, device.Moves s u ∧ u.input = none := by
      rcases h.2 with ⟨hin, -⟩ | ⟨hin, -⟩
      · exact ⟨_, .own (.data hin), take_input s (false, x)⟩
      · exact ⟨s, .refl s, hin⟩
    obtain ⟨hm, ⟨hin', -⟩ | ⟨-, -, hlen⟩⟩ := (stays_owes hx).moves h hu
    · simp [hin] at hin'
    · obtain ⟨t, ht, -, -, hout⟩ := hm.fills (List.ne_nil_of_length_pos (by omega))
      exact ⟨t, hu.trans ht, hout⟩
  · obtain ⟨hm, h⟩ := h
    have hlen := congrArg List.length (stream_read hb)
    rw [List.length_cons] at hlen
    refine ⟨⟨hm.safe, hm.irq, hm.port1, hm.port2, hm.idle⟩, ?_⟩
    rcases h with ⟨hin, hprofile, hall⟩ | ⟨hin, hprofile, hall⟩
    · exact .inl ⟨hin, hprofile, by show _ = s.keyboard.typed; omega⟩
    · exact .inr ⟨hin, hprofile, by show _ = s.keyboard.typed + 1; omega⟩

/-- One more byte is sent. -/
theorem owes_write (hx : Takes x B A) (hy : Takes y A A') :
    device.Triple Safe (Owes x B A 1) (writeData y) fun _ => Owes y A A' 0 := by
  refine writeData_triple y (stays_owes hx) (fun s h => ?_) (stays_owes hy) fun s h hin => ?_
  · rcases h.2 with ⟨hin, -⟩ | ⟨hin, -⟩
    · exact ⟨_, .own (.data hin), take_input s (false, x)⟩
    · exact ⟨s, .refl s, hin⟩
  · obtain ⟨hm, ⟨hin', -⟩ | ⟨-, hprofile, hlen⟩⟩ := h
    · simp [hin] at hin'
    · refine ⟨⟨hm.safe, hm.irq, hm.port1, hm.port2, hm.idle⟩, .inl ⟨rfl, hprofile, ?_⟩⟩
      exact Nat.succ.inj hlen

/-- The first command after the self test. -/
theorem tested_write (hy : Takes y ⟨none, 2, 0x2b, true, T, sent ++ [kbReset]⟩ A) :
    device.Triple Safe (Tested sent T) (writeData y) fun _ =>
      Owes y ⟨none, 2, 0x2b, true, T, sent ++ [kbReset]⟩ A 0 := by
  refine writeData_triple y stays_tested (fun s h => ⟨s, .refl s, h.2.1⟩) (stays_owes hy)
    fun s h _ => ?_
  obtain ⟨hm, -, hprofile, hlen⟩ := h
  exact ⟨⟨hm.safe, hm.irq, hm.port1, hm.port2, hm.idle⟩, .inl ⟨rfl, hprofile, hlen⟩⟩

/-! ## The course of `kb_init` -/

section Takes

variable (r : List (BitVec 8)) (T : BitVec 8)

theorem takes_scan : Takes kbScan ⟨none, 2, 0x2b, true, T, r⟩
    ⟨some kbScan, 2, 0x2b, true, T, r ++ [kbScan]⟩ := by
  refine ⟨by decide, ?_⟩
  rintro ⟨_, _, _, _, _, _, _, _⟩ h
  cases h
  rfl

theorem takes_scanSet : Takes 2 ⟨some kbScan, 2, 0x2b, true, T, r⟩
    ⟨none, 2, 0x2b, true, T, r ++ [2]⟩ := by
  refine ⟨by decide, ?_⟩
  rintro ⟨_, _, _, _, _, _, _, _⟩ h
  cases h
  rfl

theorem takes_enable : Takes kbEnable ⟨none, 2, 0x2b, true, T, r⟩
    ⟨none, 2, 0x2b, true, T, r ++ [kbEnable]⟩ := by
  refine ⟨by decide, ?_⟩
  rintro ⟨_, _, _, _, _, _, _, _⟩ h
  cases h
  rfl

theorem takes_repeatRate : Takes kbRepeatRate ⟨none, 2, 0x2b, true, T, r⟩
    ⟨some kbRepeatRate, 2, 0x2b, true, T, r ++ [kbRepeatRate]⟩ := by
  refine ⟨by decide, ?_⟩
  rintro ⟨_, _, _, _, _, _, _, _⟩ h
  cases h
  rfl

theorem takes_rate : Takes 0x4a ⟨some kbRepeatRate, 2, 0x2b, true, T, r⟩
    ⟨none, 2, 0x4a, true, T, r ++ [0x4a]⟩ := by
  refine ⟨by decide, ?_⟩
  rintro ⟨_, _, _, _, _, _, _, _⟩ h
  cases h
  rfl

end Takes

/-- The bytes that `kb_init` sends before the last one. -/
def kbInitBytes : List (BitVec 8) :=
  [kbReset, kbScan, 2, kbEnable, kbRepeatRate]

/-- `kb_init` has started the keyboard : the last byte was sent and its reply read, or a byte
typed in place of it. -/
def Started (sent : List (BitVec 8)) (T : BitVec 8) : Ps2Controller → Prop :=
  Owes 0x4a ⟨some kbRepeatRate, 2, 0x2b, true, T, sent ++ kbInitBytes⟩
    ⟨none, 2, 0x4a, true, T, sent ++ kbInitBytes ++ [0x4a]⟩ 1

/-- `kb_init` may begin : `ps2_init` is over, and bytes of keys may be unread. -/
structure KbReady (s : Ps2Controller) : Prop extends Masked s where
  /-- The last command of `ps2_init` may not have been taken yet. -/
  input : s.input = none ∨ s.input = some (true, ps2EnablePort1)
  clear : Clear s.stream

/-- The call of `printk` for a self test that failed. -/
def failed (T : BitVec 8) : KbPrint :=
  ⟨chars "Keyboard self test failed with code 0x%x\n" ++ [0], [.word (T.setWidth 64)]⟩

/-- The state that `kb_init` begins in. -/
def Begins (sent : List (BitVec 8)) (T : BitVec 8) (s : Ps2Controller) : Prop :=
  s.KbReady ∧ s.keyboard.received = sent ∧ s.keyboard.selfTest = T

/-- The devices keep what is known at the start. -/
theorem stays_begins : device.Stays Safe (Begins sent T) where
  own s t := by
    rintro ⟨hready, hsent, htest⟩ hown
    rcases own_masked hready.toMasked hown with ⟨c, hc, rfl⟩ | ⟨b, hb, -⟩ | ⟨bs, htyped⟩
    · obtain rfl : ps2EnablePort1 = c := by
        rcases hready.input with hin | hin
        · simp [hin] at hc
        · simpa [hin] using hc
      refine ⟨⟨⟨hready.safe, hready.irq, ?_, ?_, rfl⟩, .inl rfl, hready.clear⟩, hsent, htest⟩
      · show (s.config &&& ~~~0x10).getLsbD 4 = false
        rw [BitVec.getLsbD_and, show (~~~0x10 : BitVec 8).getLsbD 4 = false from rfl,
          Bool.and_false]
      · show ¬(s.config &&& ~~~0x10).getLsbD 5 = false
        rw [BitVec.getLsbD_and, show (~~~0x10 : BitVec 8).getLsbD 5 = true from rfl, Bool.and_true]
        exact hready.port2
    · rcases hready.input with hin | hin
      all_goals simp [hin] at hb
    · refine ⟨⟨htyped.masked, by rw [htyped.input]; exact hready.input, ?_⟩,
        (congrArg Ps2Profile.received htyped.profile).trans hsent,
        (congrArg Ps2Profile.selfTest htyped.profile).trans htest⟩
      rw [htyped.stream]
      intro x hx
      rcases List.mem_append.1 hx with hx | hx
      · exact hready.clear x hx
      · exact htyped.codes x hx
  safe s h := h.1.safe

theorem begins_write : device.Triple Safe (Begins sent T) (writeData kbReset)
    fun _ => Resetting sent T 1 := by
  refine writeData_triple kbReset stays_begins (fun s h => ?_) (stays_resetting le_rfl)
    fun s h _ => ?_
  · rcases h.1.input with hin | hin
    · exact ⟨s, .refl s, hin⟩
    · exact ⟨_, .own (.command hin nofun), take_input s (true, ps2EnablePort1)⟩
  · obtain ⟨hready, hsent, htest⟩ := h
    exact ⟨⟨hready.safe, hready.irq, hready.port1, hready.port2, hready.idle⟩,
      .inl ⟨rfl, hsent, htest, hready.clear⟩⟩

/-- The commands after a self test that was passed. -/
theorem commands_triple : device.Triple Safe (Tested sent T)
    ((writeData kbScan).bind fun _ => readData.bind fun _ =>
      (writeData 2).bind fun _ => readData.bind fun _ =>
      (writeData kbEnable).bind fun _ => readData.bind fun _ =>
      (writeData kbRepeatRate).bind fun _ => readData.bind fun _ =>
      (writeData 0x4a).bind fun _ => readData.bind fun _ =>
      .ret ((0, []) : ℤ × List KbPrint)) fun r s => r = (0, []) ∧ Started sent T s := by
  have hscan := takes_scan (sent ++ [kbReset]) T
  have hset := takes_scanSet (sent ++ [kbReset] ++ [kbScan]) T
  have henable := takes_enable (sent ++ [kbReset] ++ [kbScan] ++ [2]) T
  have hrepeat := takes_repeatRate (sent ++ [kbReset] ++ [kbScan] ++ [2] ++ [kbEnable]) T
  have hrate := takes_rate (sent ++ [kbReset] ++ [kbScan] ++ [2] ++ [kbEnable] ++ [kbRepeatRate]) T
  refine Device.Triple.bind (tested_write hscan) fun _ =>
    Device.Triple.bind (owes_read hscan) fun _ => ?_
  refine Device.Triple.bind (owes_write hscan hset) fun _ =>
    Device.Triple.bind (owes_read hset) fun _ => ?_
  refine Device.Triple.bind (owes_write hset henable) fun _ =>
    Device.Triple.bind (owes_read henable) fun _ => ?_
  refine Device.Triple.bind (owes_write henable hrepeat) fun _ =>
    Device.Triple.bind (owes_read hrepeat) fun _ => ?_
  refine Device.Triple.bind (owes_write hrepeat hrate) fun _ =>
    Device.Triple.bind (owes_read hrate) fun _ => fun s h t ht => ?_
  have hend := (stays_owes hrate).moves h ht
  refine ⟨hend.1.safe, rfl, ?_⟩
  simpa [Started, kbInitBytes] using hend

/-- The course of `kb_init` with a keyboard whose self test gives `T`. -/
theorem kbInit_triple (hT : ¬NoTestCode T) : device.Triple Safe (Begins sent T) kbInit fun r s =>
    if T = kbTestPass then r = (0, []) ∧ Started sent T s
    else r = (-1, [failed T]) ∧ Tested sent T s := by
  refine Device.Triple.bind begins_write fun _ => Device.Triple.bind readData_first fun _ =>
    Device.Triple.bind (kbSelfTest_triple hT) fun response => ?_
  rintro s ⟨rfl, h⟩
  by_cases hpass : response = kbTestPass
  · rw [if_neg (not_not.2 hpass)]
    simp only [if_pos hpass]
    exact commands_triple s h
  · rw [if_pos hpass]
    simp only [if_neg hpass]
    exact fun t ht => ⟨(stays_tested.moves h ht).1.safe, rfl, stays_tested.moves h ht⟩

/-- `kb_init` writes no byte over another and can always come to its end, with any keys pressed
before and meanwhile. It returns `0` if the self test was passed, and then the keyboard scans with
scan code set 2 and the repeat rate `0x4A` once it has taken the last byte, and as many bytes are
unread as were typed since the reset. Otherwise it returns `-1`, says so with the code, and the
keyboard was sent nothing but the reset. -/
theorem kbInit_starts (s : Ps2Controller) (h : s.KbReady) (hT : ¬NoTestCode s.keyboard.selfTest) :
    (∀ p t, device.Reaches (kbInit, s) (p, t) →
      t.Safe ∧ ∃ r u, device.Reaches (p, t) (.ret r, u)) ∧
    ∀ r t, device.Reaches (kbInit, s) (.ret r, t) →
      if s.keyboard.selfTest = kbTestPass then
        r = (0, []) ∧
        t.keyboard.received ++ t.input.toList.map Prod.snd =
          s.keyboard.received ++ kbInitBytes ++ [0x4a] ∧
        t.keyboard.scanSet = 2 ∧ t.keyboard.scanning = true ∧
        (t.input = none → t.keyboard.repeatRate = 0x4a) ∧
        t.stream.length + t.input.toList.length = t.keyboard.typed
      else
        r = (-1, [failed s.keyboard.selfTest]) ∧
        t.keyboard.received = s.keyboard.received ++ [kbReset] ∧ t.input = none ∧
        t.stream.length = t.keyboard.typed := by
  have hholds := kbInit_triple hT s ⟨h, rfl, rfl⟩
  refine ⟨fun p t hr => ?_, fun r t hr => ?_⟩
  · obtain ⟨hsafe, -, r, u, hu⟩ := hholds.sound hr
    exact ⟨hsafe, r, u, hu⟩
  · have hend := (hholds.sound hr).2.1 r rfl
    split_ifs at hend ⊢
    · obtain ⟨hret, -, h⟩ := hend
      simp only at h
      rcases h with ⟨hin, hprofile, hlen⟩ | ⟨hin, hprofile, hlen⟩
      all_goals
        have hreceived := congrArg Ps2Profile.received hprofile
        have hset := congrArg Ps2Profile.scanSet hprofile
        have hscanning := congrArg Ps2Profile.scanning hprofile
        have hrate := congrArg Ps2Profile.repeatRate hprofile
        simp only [Ps2Keyboard.profile] at hreceived hset hscanning hrate
      · simp [hret, hin, hreceived, hset, hscanning, ← hlen]
      · simp [hret, hin, hreceived, hset, hscanning, hrate, Nat.succ.inj hlen]
    · obtain ⟨hret, -, hin, hprofile, hlen⟩ := hend
      exact ⟨hret, congrArg Ps2Profile.received hprofile, hin, hlen⟩

/-- A controller after `ps2_init`, with the line of the keyboard masked. -/
def readyController : Ps2Controller :=
  { bootController with config := 0x25, input := some (true, ps2EnablePort1), irq := false }

theorem ready_readyController : readyController.KbReady where
  safe := rfl
  irq := rfl
  port1 := rfl
  port2 := (by decide : ¬(0x25 : BitVec 8).getLsbD 5 = false)
  idle := rfl
  input := .inr rfl
  clear := by
    show ∀ b ∈ [kbKeyRelease, 0x5a], NoTestCode b
    rw [List.forall_mem_cons, List.forall_mem_singleton]
    decide

theorem kbInit_starts_readyController :
    ∃ t, device.Reaches (kbInit, readyController) (.ret (0, []), t) ∧
      t.keyboard.scanSet = 2 ∧ t.keyboard.scanning = true ∧
      t.stream.length + t.input.toList.length = t.keyboard.typed := by
  obtain ⟨hruns, hends⟩ := kbInit_starts readyController ready_readyController (by decide)
  obtain ⟨-, r, t, ht⟩ := hruns _ _ ReflTransGen.refl
  obtain ⟨rfl, -, hset, hscanning, -, htyped⟩ := hends r t ht
  exact ⟨t, ht, hset, hscanning, htyped⟩

end Ps2Controller

end KernelDev
