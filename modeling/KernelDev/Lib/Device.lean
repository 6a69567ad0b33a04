import Mathlib.Logic.Relation

/-!
# Programs on a device that moves by itself

A driver is a program that reads and writes the ports of a device, and loops until it has read what
it waits for (`PortProgram`). A `Device` says what reading and writing a port does to its state,
and which steps it may take by itself : bytes arrive, buffers drain, requests come and go. Before
each step of the program the device may take any number of them (`Device.Step`, `Device.Reaches`),
so what is proved about a program is true however fast the device is.

`Device.Holds` is the logic of such programs : whatever the device does, an assertion holds at
every moment, the program is never caught in a loop for good, and what it returns satisfies the
postcondition. It is defined by recursion over the program, with an invariant for each loop from
which the loop can be left, and `Holds.sound` says that it speaks of every run. That a run always
can come to its end is all that is asked for termination : a device that never gets ready keeps a
polling loop going, but there is no state from which it could not get ready.

The rules follow the constructors of the program. `Triple` is `Holds` from each state of a
precondition, with one rule for each constructor (`Triple.read`, `Triple.write`, `Triple.loop`,
`Triple.bind`), and `Triple.poll` for the loop that reads one port until a test succeeds. What the
device keeps by itself is `Stays`, and what a program keeps as well, as long as it uses certain
ports only, is `Keeps`. A program without loops is `Straight` if its ports are among those, and
then keeps the assertion whatever it reads (`Keeps.straight`).
-/

/-- A device with ports in `P` and values in `V` : what reading and writing a port does to its
state, and the steps it takes by itself. -/
structure Device (P V S : Type) where
  read : P → S → V × S
  write : P → V → S → S
  /-- A step of the device by itself. -/
  own : S → S → Prop

/-- A program with a result in the last argument. A loop repeats its body until that gives a
value. -/
inductive PortProgram (P V : Type) : Type → Type 1
  | ret {A : Type} (a : A) : PortProgram P V A
  | input {A : Type} (p : P) (k : V → PortProgram P V A) : PortProgram P V A
  | output {A : Type} (p : P) (v : V) (k : PortProgram P V A) : PortProgram P V A
  | loop {A B : Type} (body : PortProgram P V (Option B)) (k : B → PortProgram P V A) :
    PortProgram P V A

namespace PortProgram

variable {P V S A B : Type}

/-- A program, and what follows it. -/
def bind {A B : Type} : PortProgram P V A → (A → PortProgram P V B) → PortProgram P V B
  | ret a, f => f a
  | input p k, f => input p fun v => (k v).bind f
  | output p v k, f => output p v (k.bind f)
  | loop body k, f => loop body fun b => (k b).bind f

instance : Monad (PortProgram P V) where
  pure := ret
  bind := bind

/-- Read a port. -/
def read (p : P) : PortProgram P V V :=
  input p ret

/-- Write a port. -/
def write (p : P) (v : V) : PortProgram P V Unit :=
  output p v (ret ())

/-- Repeat a test until it succeeds. -/
def untilTrue (test : PortProgram P V Bool) : PortProgram P V Unit :=
  loop (test.bind fun b => ret (if b then some () else none)) ret

/-- The program uses ports in `ports` only. -/
def Uses (ports : P → Prop) : {A : Type} → PortProgram P V A → Prop
  | _, ret _ => True
  | _, input p k => ports p ∧ ∀ v, (k v).Uses ports
  | _, output p _ k => ports p ∧ k.Uses ports
  | _, loop body k => body.Uses ports ∧ ∀ b, (k b).Uses ports

/-- The program has no loops and uses ports in `ports` only, and its result is in `Q` if it reads
what the ports give. -/
def Straight (ports : P → Prop) (gives : P → V → Prop) (Q : A → Prop) : PortProgram P V A → Prop
  | ret a => Q a
  | input p k => ports p ∧ ∀ v, gives p v → (k v).Straight ports gives Q
  | output p _ k => ports p ∧ k.Straight ports gives Q
  | loop _ _ => False

/-- After a round of a loop : another one, or what follows. -/
def again (body : PortProgram P V (Option B)) (k : B → PortProgram P V A) :
    Option B → PortProgram P V A
  | none => loop body k
  | some b => k b

@[simp] theorem bind_eq (p : PortProgram P V A) (f : A → PortProgram P V B) : p >>= f = p.bind f :=
  rfl

@[simp] theorem pure_eq (a : A) : (pure a : PortProgram P V A) = ret a :=
  rfl

/-- Three programs in a row. -/
theorem bind_bind {C : Type} (p : PortProgram P V A) (f : A → PortProgram P V B)
    (g : B → PortProgram P V C) : (p.bind f).bind g = p.bind fun a => (f a).bind g := by
  induction p with
  | ret a => rfl
  | input p k ih => exact congrArg (input p) (funext fun v => ih v f)
  | output p v k ih => exact congrArg (output p v) (ih f)
  | loop body k _ ih => exact congrArg (loop body) (funext fun b => ih b f)

/-- A program and what follows it use the ports of both. -/
theorem Uses.bind {ports : P → Prop} {f : A → PortProgram P V B} {p : PortProgram P V A}
    (h : p.Uses ports) (hf : ∀ a, (f a).Uses ports) : (p.bind f).Uses ports := by
  induction p with
  | ret a => exact hf a
  | input p k ih => exact ⟨h.1, fun v => ih v (h.2 v) hf⟩
  | output p v k ih => exact ⟨h.1, ih h.2 hf⟩
  | loop body k _ ih => exact ⟨h.1, fun b => ih b (h.2 b) hf⟩

theorem Straight.bind {ports : P → Prop} {gives : P → V → Prop} {R : A → Prop} {Q : B → Prop}
    {f : A → PortProgram P V B} {p : PortProgram P V A} (h : p.Straight ports gives R)
    (hf : ∀ a, R a → (f a).Straight ports gives Q) : (p.bind f).Straight ports gives Q := by
  induction p with
  | ret a => exact hf a h
  | input p k ih => exact ⟨h.1, fun v hv => ih v (h.2 v hv) hf⟩
  | output p v k ih => exact ⟨h.1, ih h.2 hf⟩
  | loop body k => exact h.elim

end PortProgram

namespace Device

open PortProgram Relation

variable {P V S A B : Type} (D : Device P V S)

/-- The device moves by itself, for any number of steps. -/
def Moves : S → S → Prop :=
  ReflTransGen D.own

/-- A step of the device or of the program. -/
inductive Step : PortProgram P V A × S → PortProgram P V A × S → Prop
  | own {p : PortProgram P V A} {s t : S} : D.own s t → Step (p, s) (p, t)
  | input {p : P} {k : V → PortProgram P V A} {s : S} :
    Step (.input p k, s) (k (D.read p s).1, (D.read p s).2)
  | output {p : P} {v : V} {k : PortProgram P V A} {s : S} :
    Step (.output p v k, s) (k, D.write p v s)
  | loop {B : Type} {body : PortProgram P V (Option B)} {k : B → PortProgram P V A} {s : S} :
    Step (.loop body k, s) (body.bind (again body k), s)

/-- Some number of steps. -/
def Reaches : PortProgram P V A × S → PortProgram P V A × S → Prop :=
  ReflTransGen D.Step

/-- Along every run of the program the assertion `I` holds, the program can come to its end,
and there `Q` holds. A loop has an invariant from which it can be left. -/
def Holds (I : S → Prop) : {A : Type} → PortProgram P V A → (A → S → Prop) → S → Prop
  | _, .ret a, Q, s => ∀ t, D.Moves s t → I t ∧ Q a t
  | _, .input p k, Q, s => ∀ t, D.Moves s t → I t ∧ Holds I (k (D.read p t).1) Q (D.read p t).2
  | _, .output p v k, Q, s => ∀ t, D.Moves s t → I t ∧ Holds I k Q (D.write p v t)
  | _, .loop (B := B) body k, Q, s => ∃ Inv : S → Prop, (∀ t, D.Moves s t → Inv t) ∧
    (∀ t, Inv t → I t ∧
      Holds I body (fun r u => r.elim (Inv u) fun b => Holds I (k b) Q u) t) ∧
    ∀ t, Inv t → ∃ (b : B) (u : S), D.Reaches (.loop body .ret, t) (.ret b, u)

variable {D} {I : S → Prop} {s t : S}

/-! ## Runs -/

theorem Moves.refl (s : S) : D.Moves s s :=
  ReflTransGen.refl

theorem Moves.trans {u : S} (h : D.Moves s t) (h' : D.Moves t u) : D.Moves s u :=
  ReflTransGen.trans h h'

theorem Moves.own (h : D.own s t) : D.Moves s t :=
  ReflTransGen.single h

theorem Moves.reaches (h : D.Moves s t) (p : PortProgram P V A) : D.Reaches (p, s) (p, t) := by
  induction h with
  | refl => exact ReflTransGen.refl
  | tail _ hstep ih => exact ih.tail (.own hstep)

/-- The steps of a program are steps of what it is the beginning of. -/
theorem Step.bind {c c' : PortProgram P V A × S} (h : D.Step c c')
    (f : A → PortProgram P V B) : D.Step (c.1.bind f, c.2) (c'.1.bind f, c'.2) := by
  cases h with
  | own hown => exact .own hown
  | input => exact .input
  | output => exact .output
  | @loop B' body k s =>
    have hagain : again body (fun b => (k b).bind f) = fun r => (again body k r).bind f := by
      funext r
      cases r <;> rfl
    have hstep := @Step.loop P V S B D B' body (fun b => (k b).bind f) s
    rwa [hagain, ← bind_bind] at hstep

/-- A run of a program is a run of what it is the beginning of. -/
theorem Reaches.bind {c c' : PortProgram P V A × S} (h : D.Reaches c c')
    (f : A → PortProgram P V B) : D.Reaches (c.1.bind f, c.2) (c'.1.bind f, c'.2) := by
  induction h with
  | refl => exact ReflTransGen.refl
  | tail _ hstep ih => exact ih.tail (hstep.bind f)

/-- A program that comes to its end, and what follows it. -/
theorem Reaches.seq {p : PortProgram P V A} {a : A} {f : A → PortProgram P V B}
    {c : PortProgram P V B × S} (h : D.Reaches (p, s) (.ret a, t)) (h' : D.Reaches (f a, t) c) :
    D.Reaches (p.bind f, s) c :=
  (h.bind f).trans h'

/-- A step of the device before other steps. -/
theorem Reaches.own {p : PortProgram P V A} {c : PortProgram P V A × S} (h : D.own s t)
    (h' : D.Reaches (p, t) c) : D.Reaches (p, s) c :=
  ReflTransGen.head (.own h) h'

/-- A round of a loop that ends it. -/
theorem Reaches.loop_done {body : PortProgram P V (Option B)} {k : B → PortProgram P V A} {b : B}
    (h : D.Reaches (body, s) (.ret (some b), t)) : D.Reaches (.loop body k, s) (k b, t) :=
  ReflTransGen.head .loop (h.bind _)

/-- A round of a loop that does not end it. -/
theorem Reaches.loop_again {body : PortProgram P V (Option B)} {k : B → PortProgram P V A}
    (h : D.Reaches (body, s) (.ret none, t)) : D.Reaches (.loop body k, s) (.loop body k, t) :=
  ReflTransGen.head .loop (h.bind _)

theorem Reaches.untilTrue {test : PortProgram P V Bool}
    (h : D.Reaches (test, s) (.ret true, t)) : D.Reaches (.untilTrue test, s) (.ret (), t) :=
  Reaches.loop_done (h.bind _)

theorem Reaches.untilAgain {test : PortProgram P V Bool}
    (h : D.Reaches (test, s) (.ret false, t)) :
    D.Reaches (.untilTrue test, s) (.untilTrue test, t) :=
  Reaches.loop_again (h.bind _)

/-- A loop that reads one port until a test succeeds, when it does. -/
theorem poll_reaches {p : P} (test : V → Bool) (h : test (D.read p s).1 = true) :
    D.Reaches (.untilTrue ((PortProgram.read p).bind fun v => .ret (test v)), s)
      (.ret (), (D.read p s).2) := by
  have hread : D.Reaches ((PortProgram.read p).bind fun v => .ret (test v), s)
      (.ret (test (D.read p s).1), (D.read p s).2) := ReflTransGen.single .input
  rw [h] at hread
  exact hread.untilTrue

/-! ## The rules -/

/-- Steps of the device do not matter to what holds of a program. -/
theorem Holds.moves {p : PortProgram P V A} {Q : A → S → Prop} (h : D.Holds I p Q s)
    (hmoves : D.Moves s t) : D.Holds I p Q t := by
  cases p with
  | ret a => exact fun u hu => h u (hmoves.trans hu)
  | input p k => exact fun u hu => h u (hmoves.trans hu)
  | output p v k => exact fun u hu => h u (hmoves.trans hu)
  | loop body k =>
    obtain ⟨Inv, hinv, hbody, hexit⟩ := h
    exact ⟨Inv, fun u hu => hinv u (hmoves.trans hu), hbody, hexit⟩

/-- The assertion holds now. -/
theorem Holds.now {p : PortProgram P V A} {Q : A → S → Prop} (h : D.Holds I p Q s) : I s := by
  cases p with
  | ret a => exact (h s (.refl s)).1
  | input p k => exact (h s (.refl s)).1
  | output p v k => exact (h s (.refl s)).1
  | loop body k =>
    obtain ⟨Inv, hinv, hbody, -⟩ := h
    exact (hbody s (hinv s (.refl s))).1

/-- The rule of consequence. -/
theorem Holds.mono {p : PortProgram P V A} : ∀ {Q Q' : A → S → Prop} {s : S}, D.Holds I p Q s →
    (∀ a t, Q a t → Q' a t) → D.Holds I p Q' s := by
  induction p with
  | ret a => exact fun h hQ t ht => ⟨(h t ht).1, hQ a t (h t ht).2⟩
  | input p k ih => exact fun h hQ t ht => ⟨(h t ht).1, ih _ (h t ht).2 hQ⟩
  | output p v k ih => exact fun h hQ t ht => ⟨(h t ht).1, ih (h t ht).2 hQ⟩
  | loop body k ihb ih =>
    rintro Q Q' s ⟨Inv, hinv, hbody, hexit⟩ hQ
    refine ⟨Inv, hinv, fun t ht => ⟨(hbody t ht).1, ihb (hbody t ht).2 ?_⟩, hexit⟩
    rintro (- | b) u hu
    · exact hu
    · exact ih b hu hQ

/-- The rule of conjunction. -/
theorem Holds.and {J : S → Prop} {p : PortProgram P V A} : ∀ {Q Q' : A → S → Prop} {s : S},
    D.Holds I p Q s → D.Holds J p Q' s →
      D.Holds (fun t => I t ∧ J t) p (fun a t => Q a t ∧ Q' a t) s := by
  induction p with
  | ret a => exact fun h h' t ht => ⟨⟨(h t ht).1, (h' t ht).1⟩, (h t ht).2, (h' t ht).2⟩
  | input p k ih =>
    exact fun h h' t ht => ⟨⟨(h t ht).1, (h' t ht).1⟩, ih _ (h t ht).2 (h' t ht).2⟩
  | output p v k ih =>
    exact fun h h' t ht => ⟨⟨(h t ht).1, (h' t ht).1⟩, ih (h t ht).2 (h' t ht).2⟩
  | loop body k ihb ih =>
    rintro Q Q' s ⟨Inv, hinv, hbody, hexit⟩ ⟨Inv', hinv', hbody', -⟩
    refine ⟨fun t => Inv t ∧ Inv' t, fun t ht => ⟨hinv t ht, hinv' t ht⟩, fun t ht => ?_,
      fun t ht => hexit t ht.1⟩
    obtain ⟨hI, hb⟩ := hbody t ht.1
    obtain ⟨hJ, hb'⟩ := hbody' t ht.2
    refine ⟨⟨hI, hJ⟩, (ihb hb hb').mono ?_⟩
    rintro (- | b) u ⟨hu, hu'⟩
    · exact ⟨hu, hu'⟩
    · exact ih b hu hu'

/-- The rule of sequences. What is known between the two programs holds there whatever the
device does. -/
theorem Holds.bind {f : A → PortProgram P V B} {R : A → S → Prop} {Q : B → S → Prop}
    {p : PortProgram P V A} (h : D.Holds I p R s)
    (hf : ∀ a t, (∀ u, D.Moves t u → R a u) → D.Holds I (f a) Q t) :
    D.Holds I (p.bind f) Q s := by
  induction p generalizing s with
  | ret a => exact hf a s fun u hu => (h u hu).2
  | input p k ih => exact fun t ht => ⟨(h t ht).1, ih _ (h t ht).2 hf⟩
  | output p v k ih => exact fun t ht => ⟨(h t ht).1, ih (h t ht).2 hf⟩
  | loop body k _ ih =>
    obtain ⟨Inv, hinv, hbody, hexit⟩ := h
    refine ⟨Inv, hinv, fun t ht => ⟨(hbody t ht).1, (hbody t ht).2.mono ?_⟩, hexit⟩
    rintro (- | b) u hu
    · exact hu
    · exact ih b hu hf

/-! ## Soundness -/

/-- A step leads from a program to what is left of it, of which the same holds. -/
theorem Holds.step {c c' : PortProgram P V A × S} {Q : A → S → Prop} (h : D.Holds I c.1 Q c.2)
    (hstep : D.Step c c') : D.Holds I c'.1 Q c'.2 := by
  cases hstep with
  | own hown => exact h.moves (.own hown)
  | input => exact (h _ (.refl _)).2
  | output => exact (h _ (.refl _)).2
  | loop =>
    obtain ⟨Inv, hinv, hbody, hexit⟩ := h
    refine Holds.bind (hbody _ (hinv _ (.refl _))).2 ?_
    rintro (- | b) t ht
    · exact ⟨Inv, ht, hbody, hexit⟩
    · exact ht t (.refl t)

/-- What is left of a program after a run. -/
theorem Holds.reaches {c c' : PortProgram P V A × S} {Q : A → S → Prop}
    (h : D.Holds I c.1 Q c.2) (hr : D.Reaches c c') : D.Holds I c'.1 Q c'.2 := by
  induction hr with
  | refl => exact h
  | tail _ hstep ih => exact ih.step hstep

/-- A program of which anything holds can come to its end. -/
theorem Holds.finish {p : PortProgram P V A} {Q : A → S → Prop} (h : D.Holds I p Q s) :
    ∃ a t, D.Reaches (p, s) (.ret a, t) := by
  induction p generalizing s with
  | ret a => exact ⟨a, s, ReflTransGen.refl⟩
  | input p k ih =>
    obtain ⟨a, t, hr⟩ := ih _ (h s (.refl s)).2
    exact ⟨a, t, ReflTransGen.head .input hr⟩
  | output p v k ih =>
    obtain ⟨a, t, hr⟩ := ih (h s (.refl s)).2
    exact ⟨a, t, ReflTransGen.head .output hr⟩
  | loop body k _ ih =>
    have hall := h
    obtain ⟨Inv, hinv, -, hexit⟩ := h
    obtain ⟨b, t, hr⟩ := hexit s (hinv s (.refl s))
    have hk : D.Reaches (loop body k, s) (k b, t) := hr.bind k
    obtain ⟨a, u, hr'⟩ := ih b (Holds.reaches hall hk)
    exact ⟨a, u, hk.trans hr'⟩

/-- What the logic says of every run. -/
theorem Holds.sound {p : PortProgram P V A} {Q : A → S → Prop} (h : D.Holds I p Q s)
    {c : PortProgram P V A × S} (hr : D.Reaches (p, s) c) :
    I c.2 ∧ (∀ a, c.1 = .ret a → Q a c.2) ∧ ∃ a t, D.Reaches c (.ret a, t) := by
  have hc : D.Holds I c.1 Q c.2 := Holds.reaches (c := (p, s)) h hr
  refine ⟨hc.now, fun a ha => ?_, hc.finish⟩
  rw [ha] at hc
  exact (hc c.2 (.refl _)).2

/-! ## Triples -/

variable (D I) in
/-- The steps of the device keep the assertion, which implies `I`. -/
structure Stays (R : S → Prop) : Prop where
  own : ∀ s t, R s → D.own s t → R t
  safe : ∀ s, R s → I s

/-- The steps of the device keep the assertion. -/
theorem Stays.moves {R : S → Prop} (h : D.Stays I R) (hs : R s) (hmoves : D.Moves s t) : R t := by
  induction hmoves with
  | refl => exact hs
  | tail _ hstep ih => exact h.own _ _ ih hstep

variable (D I) in
/-- Neither the device nor a program that uses ports in `ports` only changes the assertion. -/
structure Keeps (ports : P → Prop) (R : S → Prop) : Prop extends D.Stays I R where
  read : ∀ p s, ports p → R s → R (D.read p s).2
  write : ∀ p v s, ports p → R s → R (D.write p v s)

theorem Keeps.mono {ports ports' : P → Prop} {R : S → Prop} (h : D.Keeps I ports R)
    (hports : ∀ p, ports' p → ports p) : D.Keeps I ports' R where
  toStays := h.toStays
  read p s hp := h.read p s (hports p hp)
  write p v s hp := h.write p v s (hports p hp)

/-- Two assertions at once. -/
theorem Keeps.and {J : S → Prop} {ports : P → Prop} {R R' : S → Prop} (h : D.Keeps I ports R)
    (h' : D.Keeps J ports R') :
    D.Keeps (fun s => I s ∧ J s) ports fun s => R s ∧ R' s where
  own s t hs hown := ⟨h.own s t hs.1 hown, h'.own s t hs.2 hown⟩
  safe s hs := ⟨h.safe s hs.1, h'.safe s hs.2⟩
  read p s hp hs := ⟨h.read p s hp hs.1, h'.read p s hp hs.2⟩
  write p v s hp hs := ⟨h.write p v s hp hs.1, h'.write p v s hp hs.2⟩

/-- A program without loops comes to its end with what it keeps. -/
theorem Keeps.straight {ports : P → Prop} {gives : P → V → Prop} {R : S → Prop} {Q : A → Prop}
    {p : PortProgram P V A} (h : D.Keeps I ports R) (hp : p.Straight ports gives Q)
    (hgives : ∀ p s, R s → gives p (D.read p s).1) (hs : R s) :
    D.Holds I p (fun a t => Q a ∧ R t) s := by
  induction p generalizing s with
  | ret a =>
    intro t ht
    have hR := h.moves hs ht
    exact ⟨h.safe t hR, hp, hR⟩
  | input p k ih =>
    intro t ht
    have hR := h.moves hs ht
    exact ⟨h.safe t hR, ih _ (hp.2 _ (hgives p t hR)) (h.read p t hp.1 hR)⟩
  | output p v k ih =>
    intro t ht
    have hR := h.moves hs ht
    exact ⟨h.safe t hR, ih hp.2 (h.write p v t hp.1 hR)⟩
  | loop body k => exact hp.elim

/-- A step of a program that uses ports in `ports` only. -/
theorem Keeps.step {ports : P → Prop} {R : S → Prop} {c c' : PortProgram P V A × S}
    (h : D.Keeps I ports R) (hp : c.1.Uses ports) (hs : R c.2) (hstep : D.Step c c') :
    c'.1.Uses ports ∧ R c'.2 := by
  cases hstep with
  | own hown => exact ⟨hp, h.own _ _ hs hown⟩
  | input => exact ⟨hp.2 _, h.read _ _ hp.1 hs⟩
  | output => exact ⟨hp.2, h.write _ _ _ hp.1 hs⟩
  | loop =>
    refine ⟨hp.1.bind fun r => ?_, hs⟩
    cases r with
    | none => exact hp
    | some b => exact hp.2 b

variable (D I) in
/-- What holds of the program from each state of the precondition. -/
def Triple (R : S → Prop) (p : PortProgram P V A) (Q : A → S → Prop) : Prop :=
  ∀ s, R s → D.Holds I p Q s

namespace Triple

variable {R R' : S → Prop}

theorem pre {p : PortProgram P V A} {Q : A → S → Prop} (h : D.Triple I R p Q)
    (hR : ∀ s, R' s → R s) : D.Triple I R' p Q :=
  fun s hs => h s (hR s hs)

theorem ret {Q : A → S → Prop} {a : A} (h : D.Stays I (Q a)) :
    D.Triple I (Q a) (.ret a) Q :=
  fun _ hs _ ht => ⟨h.safe _ (h.moves hs ht), h.moves hs ht⟩

theorem bind {p : PortProgram P V A} {f : A → PortProgram P V B} {M : A → S → Prop}
    {Q : B → S → Prop} (h : D.Triple I R p M) (hf : ∀ a, D.Triple I (M a) (f a) Q) :
    D.Triple I R (p.bind f) Q :=
  fun s hs => (h s hs).bind fun a t ha => hf a t (ha t (.refl t))

theorem read {Q : V → S → Prop} {p : P} (hR : D.Stays I R) (hQ : ∀ v, D.Stays I (Q v))
    (h : ∀ s, R s → Q (D.read p s).1 (D.read p s).2) : D.Triple I R (.read p) Q := by
  intro s hs t ht
  have hR' := hR.moves hs ht
  exact ⟨hR.safe t hR', Triple.ret (hQ _) _ (h t hR')⟩

theorem write {Q : Unit → S → Prop} {p : P} {v : V} (hR : D.Stays I R)
    (hQ : D.Stays I (Q ())) (h : ∀ s, R s → Q () (D.write p v s)) :
    D.Triple I R (.write p v) Q := by
  intro s hs t ht
  have hR' := hR.moves hs ht
  exact ⟨hR.safe t hR', Triple.ret hQ _ (h t hR')⟩

/-- The rule of loops. From each state of the invariant the loop can be left. -/
theorem loop {body : PortProgram P V (Option A)} {Q : A → S → Prop} (hR : D.Stays I R)
    (hQ : ∀ a, D.Stays I (Q a)) (h : D.Triple I R body fun r s => r.elim (R s) fun a => Q a s)
    (hexit : ∀ s, R s → ∃ a t, D.Reaches (.loop body .ret, s) (.ret a, t)) :
    D.Triple I R (.loop body .ret) Q := by
  intro s hs
  refine ⟨R, fun t ht => hR.moves hs ht, fun t ht => ⟨hR.safe t ht, (h t ht).mono ?_⟩, hexit⟩
  rintro (- | a) u hu
  · exact hu
  · exact Triple.ret (hQ a) u hu

theorem untilTrue {test : PortProgram P V Bool} {Q : Unit → S → Prop} (hR : D.Stays I R)
    (hQ : D.Stays I (Q ())) (h : D.Triple I R test fun b s => if b then Q () s else R s)
    (hexit : ∀ s, R s → ∃ t, D.Reaches (.untilTrue test, s) (.ret (), t)) :
    D.Triple I R (.untilTrue test) Q := by
  refine loop hR (fun _ => hQ) (bind h fun b => ?_) fun s hs => ⟨(), hexit s hs⟩
  cases b with
  | true => exact fun s hs t ht => ⟨hQ.safe t (hQ.moves hs ht), hQ.moves hs ht⟩
  | false => exact fun s hs t ht => ⟨hR.safe t (hR.moves hs ht), hR.moves hs ht⟩

/-- The rule of a loop that reads one port until a test on the value succeeds. -/
theorem poll {p : P} (test : V → Bool) {Q : Unit → S → Prop} (hR : D.Stays I R)
    (hQ : D.Stays I (Q ())) (hyes : ∀ s, R s → test (D.read p s).1 = true → Q () (D.read p s).2)
    (hno : ∀ s, R s → test (D.read p s).1 = false → R (D.read p s).2)
    (hexit : ∀ s, R s → ∃ t, D.Moves s t ∧ test (D.read p t).1 = true) :
    D.Triple I R (.untilTrue ((PortProgram.read p).bind fun v => .ret (test v))) Q := by
  have hstays : ∀ b : Bool, D.Stays I fun s => if b then Q () s else R s := by
    rintro (- | -)
    · exact hR
    · exact hQ
  refine untilTrue hR hQ (bind (read hR (fun v => hstays (test v)) fun s hs => ?_) fun v => ?_)
    fun s hs => ?_
  · cases h : test (D.read p s).1 with
    | true => exact hyes s hs h
    | false => exact hno s hs h
  · exact Triple.ret (Q := fun (b : Bool) s => if b then Q () s else R s) (hstays (test v))
  · obtain ⟨t, hmoves, ht⟩ := hexit s hs
    exact ⟨_, (hmoves.reaches _).trans (poll_reaches test ht)⟩

end Triple

end Device
